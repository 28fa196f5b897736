import Mathlib
import Moe.Ergo.Framer

namespace Moe

/-- The bytes of a variable-length quantity, and its value. -/
inductive Vlq : Bytes → Nat → Prop
  | last {b : UInt8} : b.toNat < 128 → Vlq [b] b.toNat
  | more {b : UInt8} {digits : Bytes} {value : Nat} : 128 ≤ b.toNat → Vlq digits value →
      Vlq (b :: digits) (b.toNat - 128 + 128 * value)

theorem Vlq.ne_nil {digits : Bytes} {value : Nat} (vlq : Vlq digits value) : digits ≠ [] := by
  cases vlq <;> exact List.cons_ne_nil _ _

/-- A quantity that does not end in zero is at least its highest place. -/
theorem Vlq.least {digits : Bytes} {value : Nat} (vlq : Vlq digits value) (minimal : digits.getLast? ≠ some 0) :
    128 ^ (digits.length - 1) ≤ value := by
  induction vlq with
  | @last b small =>
    simp only [List.length_singleton, Nat.sub_self, Nat.pow_zero]
    refine Nat.pos_of_ne_zero fun zero => minimal ?_
    rw [List.getLast?_singleton, UInt8.toNat_inj.mp (zero.trans (by decide : (0 : Nat) = (0 : UInt8).toNat))]
  | @more b digits value large rest ih =>
    obtain ⟨first, others, rfl⟩ := List.exists_cons_of_ne_nil rest.ne_nil
    have below := ih (by simpa using minimal)
    simp only [List.length_cons, Nat.add_sub_cancel] at below ⊢
    rw [Nat.pow_succ]
    omega

/-- A minimal quantity of nothing is one zero byte. -/
theorem Vlq.zero {digits : Bytes} (vlq : Vlq digits 0) (minimal : 1 < digits.length → digits.getLast? ≠ some 0) : digits = [0] := by
  generalize none_ : 0 = value at vlq
  have many : ¬1 < digits.length := by
    intro many
    have least := vlq.least (minimal many)
    have positive : 0 < 128 ^ (digits.length - 1) := Nat.pow_pos (by decide)
    omega
  cases vlq with
  | @last b small => rw [UInt8.toNat_inj.mp (none_.symm.trans (by decide : (0 : Nat) = (0 : UInt8).toNat))]
  | more large rest =>
    have positive := List.length_pos_of_ne_nil rest.ne_nil
    simp only [List.length_cons] at many
    omega

/-- A byte without its high bit, and its high bit. -/
theorem low_bits (b : UInt8) : b.toNat &&& 0x7f = b.toNat % 128 ∧ (b.toNat &&& 0x80 = 0 ↔ b.toNat < 128) := by
  have low : b.toNat &&& 0x7f = b.toNat % 128 := Nat.and_two_pow_sub_one_eq_mod _ 7
  refine ⟨low, ?_⟩
  have bound := b.toNat_lt
  have bit : b.toNat &&& 0x80 = (b.toNat.testBit 7).toNat * 2 ^ 7 := Nat.and_two_pow _ 7
  rw [bit, Nat.testBit_eq_decide_div_mod_eq]
  by_cases set : b.toNat / 2 ^ 7 % 2 = 1
  · simp only [set, decide_true, Bool.toNat_true]
    omega
  · simp only [set, decide_false, Bool.toNat_false]
    omega

namespace Framer

theorem byte_eq_some {bytes rest : Bytes} {b : UInt8} : byte bytes = some (b, rest) ↔ bytes = b :: rest := by
  cases bytes with
  | nil => simp [byte]
  | cons first others => simp [byte]

theorem bind_eq_some {α β : Type} {first : Framer α} {next : α → Framer β} {bytes rest : Bytes} {result : β} :
    (first >>= next) bytes = some (result, rest) ↔ ∃ value middle, first bytes = some (value, middle) ∧ next value middle = some (result, rest) := by
  simp only [bind, StateT.bind, Option.bind_eq_some_iff, Prod.exists]

theorem pure_eq_some {α : Type} {value result : α} {bytes rest : Bytes} :
    (pure value : Framer α) bytes = some (result, rest) ↔ value = result ∧ bytes = rest := by
  simp [pure, StateT.pure]

theorem guard_eq_some {condition : Prop} [Decidable condition] {bytes rest : Bytes} {done : Unit} :
    (guard condition : Framer Unit) bytes = some (done, rest) ↔ condition ∧ bytes = rest := by
  unfold guard
  split
  · rename_i holds
    simp [pure, StateT.pure, holds]
  · rename_i fails
    simp [failure, StateT.failure, fails]

theorem skip_eq_some {count : Nat} {bytes rest : Bytes} {done : Unit} :
    skip count bytes = some (done, rest) ↔ ∃ chunk, chunk.length = count ∧ bytes = chunk ++ rest := by
  unfold skip
  split
  · rename_i short
    simp only [reduceCtorEq, false_iff, not_exists, not_and]
    rintro chunk rfl rfl
    rw [List.length_append] at short
    omega
  · rename_i long
    simp only [Option.some.injEq, Prod.mk.injEq, true_and]
    constructor
    · rintro rfl
      exact ⟨bytes.take count, List.length_take_of_le (by omega), (List.take_append_drop count bytes).symm⟩
    · rintro ⟨chunk, rfl, rfl⟩
      exact List.drop_left

/-- The bytes an action reads, where it reads a first part of them. -/
theorem read_eq_some {action : Framer Unit} {bytes rest chunk : Bytes} (run : read action bytes = some (chunk, rest)) :
    action bytes = some ((), rest) ∧ (∀ first, bytes = first ++ rest → chunk = first) := by
  simp only [read, bind_eq_some] at run
  obtain ⟨start, middle, got, ⟨⟩, stop, ran, after, last, got', done⟩ := run
  obtain ⟨rfl, rfl⟩ : bytes = start ∧ bytes = middle := by simpa [get, getThe, MonadStateOf.get, StateT.get, pure] using got
  obtain ⟨rfl, rfl⟩ : stop = after ∧ stop = last := by simpa [get, getThe, MonadStateOf.get, StateT.get, pure] using got'
  obtain ⟨rfl, rfl⟩ := pure_eq_some.mp done
  refine ⟨ran, ?_⟩
  rintro first rfl
  simp

/-- A quantity's bytes from some place on. -/
theorem vlqFrom_eq_some {max left shift value total : Nat} {bytes rest : Bytes} (below : value < 2 ^ shift)
    (run : vlqFrom max left shift value bytes = some (total, rest)) :
    ∃ digits more, bytes = digits ++ rest ∧ Vlq digits more ∧ total = value + more * 2 ^ shift ∧ total ≤ max ∧
      (0 < shift ∨ 1 < digits.length → digits.getLast? ≠ some 0) := by
  induction left generalizing shift value bytes with
  | zero => cases run
  | succ left ih =>
    rw [vlqFrom, bind_eq_some] at run
    obtain ⟨b, middle, first, run⟩ := run
    obtain rfl := byte_eq_some.mp first
    obtain ⟨low, high⟩ := low_bits b
    have joined : value ||| ((b.toNat &&& 0x7f) <<< shift) = value + (b.toNat % 128) * 2 ^ shift := by
      rw [low, Nat.shiftLeft_eq, Nat.mul_comm, Nat.or_comm, ← Nat.two_pow_add_eq_or_of_lt below, Nat.add_comm]
    simp only [joined] at run
    split at run
    · rename_i final
      have small := high.mp final
      rw [bind_eq_some] at run
      obtain ⟨passed, after, checked, done⟩ := run
      obtain ⟨fine, rfl⟩ := guard_eq_some.mp checked
      obtain ⟨rfl, rfl⟩ := pure_eq_some.mp done
      rw [Nat.mod_eq_of_lt small] at fine ⊢
      refine ⟨[b], b.toNat, rfl, .last small, rfl, Nat.le_of_not_lt fun beyond => fine (.inr beyond), fun later zero => fine (.inl ?_)⟩
      refine ⟨by simpa using zero, ?_⟩
      rcases later with positive | many
      · exact positive
      · simp at many
    · rename_i more
      have large : 128 ≤ b.toNat := Nat.le_of_not_lt fun small => more (high.mpr small)
      have bound := b.toNat_lt
      have remainder : b.toNat % 128 = b.toNat - 128 := by omega
      rw [remainder] at run
      have next : value + (b.toNat - 128) * 2 ^ shift < 2 ^ (shift + 7) := by
        have scaled : (b.toNat - 128) * 2 ^ shift ≤ 127 * 2 ^ shift := Nat.mul_le_mul_right _ (by omega)
        rw [Nat.pow_add]
        omega
      obtain ⟨digits, rest_, rfl, vlq, rfl, limit, minimal⟩ := ih next run
      refine ⟨b :: digits, _, rfl, .more large vlq, ?_, limit, fun _ => ?_⟩
      · rw [Nat.pow_add]
        ring
      · obtain ⟨first, others, rfl⟩ := List.exists_cons_of_ne_nil vlq.ne_nil
        simpa using minimal (.inl (by omega))

theorem vlq_eq_some {max value : Nat} {bytes rest : Bytes} (run : vlq max bytes = some (value, rest)) :
    ∃ digits, bytes = digits ++ rest ∧ Vlq digits value ∧ value ≤ max ∧ (1 < digits.length → digits.getLast? ≠ some 0) := by
  obtain ⟨digits, more, same, read, rfl, limit, minimal⟩ := vlqFrom_eq_some Nat.one_pos run
  exact ⟨digits, same, by simpa using read, limit, fun many => minimal (.inr many)⟩

/-- What each of an action's rounds reads, `times` reads in order. -/
theorem times_eq_some {α : Type} {action : Framer α} {reads : Bytes → α → Prop}
    (each : ∀ bytes value rest, action bytes = some (value, rest) → ∃ chunk, bytes = chunk ++ rest ∧ reads chunk value) {count : Nat}
    {bytes rest : Bytes} {values : List α} (run : times action count bytes = some (values, rest)) :
    values.length = count ∧ ∃ chunks : List Bytes, bytes = chunks.flatten ++ rest ∧ List.Forall₂ reads chunks values := by
  induction count generalizing bytes values with
  | zero =>
    obtain ⟨rfl, rfl⟩ := pure_eq_some.mp run
    exact ⟨rfl, [], rfl, .nil⟩
  | succ count ih =>
    simp only [times, bind_eq_some] at run
    obtain ⟨value, middle, first, others, last, run, done⟩ := run
    obtain ⟨rfl, rfl⟩ := pure_eq_some.mp done
    obtain ⟨chunk, rfl, read⟩ := each _ _ _ first
    obtain ⟨length, chunks, rfl, reads_⟩ := ih run
    refine ⟨congrArg (· + 1) length, chunk :: chunks, ?_, .cons read reads_⟩
    rw [List.flatten_cons, List.append_assoc]

end Framer

/-- A `Coll[Byte]` constant, with the bytes it holds. -/
def IsColl (constant body : Bytes) : Prop :=
  ∃ digits, constant = collByteType :: (digits ++ body) ∧ Vlq digits body.length ∧ body.length ≤ maxU16 ∧
    (1 < digits.length → digits.getLast? ≠ some 0)

/-- A tree's bytes: sized, or of one of the two unsized lengths. -/
inductive IsTree : Bytes → Prop
  | sized {header : UInt8} {digits body : Bytes} : header.toNat &&& 0xe0 = 0 → header.toNat &&& 0x08 ≠ 0 → Vlq digits body.length →
      body.length ≤ maxU32 → IsTree (header :: (digits ++ body))
  | p2pk {point : Bytes} : point.length = 35 → IsTree (0x00 :: point)
  | fee {rest : Bytes} : rest.length = 104 → IsTree (0x10 :: rest)

def IsEntry (entry : Bytes) : Prop := ∃ key constant body, entry = key :: constant ∧ IsColl constant body

/-- An input's bytes: a box, an empty proof and an extension. -/
def IsInput (chunk : Bytes) : Prop :=
  ∃ (box : Bytes) (count : UInt8) (entries : List Bytes), chunk = box ++ 0 :: count :: entries.flatten ∧ box.length = 32 ∧
    count.toNat = entries.length ∧ count.toNat ≤ maxExtension ∧ ∀ entry ∈ entries, IsEntry entry

def IsToken (chunk : Bytes) : Prop := ∃ index amount i a, chunk = index ++ amount ∧ Vlq index i ∧ Vlq amount a

/-- An output's bytes, with its view. -/
def IsOutput (chunk : Bytes) (view : ErgoOutputView) : Prop :=
  ∃ (value tree height : Bytes) (v h : Nat) (tokenCount registerCount : UInt8) (tokens bodies : List Bytes),
    chunk = value ++ (tree ++ (height ++ tokenCount :: (tokens.flatten ++ registerCount :: view.registers.flatten))) ∧
    Vlq value v ∧ IsTree tree ∧ Vlq height h ∧ tokenCount.toNat = tokens.length ∧ (∀ token ∈ tokens, IsToken token) ∧
    registerCount.toNat = view.registers.length ∧ registerCount.toNat ≤ 6 ∧ List.Forall₂ IsColl view.registers bodies

/-- A transaction's unsigned bytes inside the grammar, with its outputs' views. -/
def IsTransaction (unsigned : Bytes) (views : List ErgoOutputView) : Prop :=
  ∃ (inputCount dataCount data tokenCount tokens outputCount : Bytes) (inputs outputs : List Bytes) (d t : Nat),
    unsigned = inputCount ++ (inputs.flatten ++ (dataCount ++ (data ++ (tokenCount ++ (tokens ++ (outputCount ++ outputs.flatten)))))) ∧
    Vlq inputCount inputs.length ∧ inputs.length ≤ maxU16 ∧ (∀ input ∈ inputs, IsInput input) ∧
    Vlq dataCount d ∧ data.length = 32 * d ∧ d ≤ maxU16 ∧ Vlq tokenCount t ∧ tokens.length = 32 * t ∧ t ≤ maxU32 ∧
    Vlq outputCount outputs.length ∧ outputs.length ≤ maxU16 ∧ List.Forall₂ IsOutput outputs views

theorem forall₂_const {α β : Type} {holds : α → Prop} {first : List α} {second : List β}
    (pairs : List.Forall₂ (fun a _ => holds a) first second) : ∀ a ∈ first, holds a := by
  induction pairs with
  | nil => exact fun a member => absurd member List.not_mem_nil
  | cons head _ ih => exact List.forall_mem_cons.mpr ⟨head, ih⟩

/-- A constant read with its own bytes. -/
theorem forall₂_reads {holds : Bytes → Bytes → Prop} {chunks values : List Bytes}
    (pairs : List.Forall₂ (fun chunk value => chunk = value ∧ ∃ body, holds value body) chunks values) :
    chunks = values ∧ ∃ bodies, List.Forall₂ holds values bodies := by
  induction pairs with
  | nil => exact ⟨rfl, [], .nil⟩
  | cons head _ ih =>
    obtain ⟨rfl, body, own⟩ := head
    obtain ⟨rfl, bodies, others⟩ := ih
    exact ⟨rfl, body :: bodies, .cons own others⟩

open Framer

theorem frameCollBytes_reads {bytes constant rest : Bytes} (run : frameCollBytes bytes = some (constant, rest)) :
    ∃ chunk, bytes = chunk ++ rest ∧ chunk = constant ∧ ∃ body, IsColl constant body := by
  obtain ⟨ran, whole⟩ := read_eq_some run
  simp only [bind_eq_some] at ran
  obtain ⟨type, middle, first, done, after, checked, length, last, counted, skipped⟩ := ran
  obtain rfl := byte_eq_some.mp first
  obtain ⟨rfl, rfl⟩ := guard_eq_some.mp checked
  obtain ⟨digits, rfl, vlq, limit, minimal⟩ := vlq_eq_some counted
  obtain ⟨body, rfl, rfl⟩ := skip_eq_some.mp skipped
  have same : collByteType :: (digits ++ (body ++ rest)) = collByteType :: (digits ++ body) ++ rest := by simp
  exact ⟨_, same, (whole _ same).symm, body, digits, whole _ same, vlq, limit, minimal⟩

theorem frameTree_reads {bytes tree rest : Bytes} (run : frameTree bytes = some (tree, rest)) : ∃ chunk, bytes = chunk ++ rest ∧ IsTree chunk := by
  obtain ⟨ran, -⟩ := read_eq_some run
  simp only [bind_eq_some] at ran
  obtain ⟨header, middle, first, done, after, checked, ran⟩ := ran
  obtain rfl := byte_eq_some.mp first
  obtain ⟨reserved, rfl⟩ := guard_eq_some.mp checked
  split at ran
  · rename_i sized
    simp only [bind_eq_some] at ran
    obtain ⟨size, last, counted, skipped⟩ := ran
    obtain ⟨digits, rfl, vlq, limit, -⟩ := vlq_eq_some counted
    obtain ⟨body, rfl, rfl⟩ := skip_eq_some.mp skipped
    exact ⟨header :: (digits ++ body), by simp, .sized reserved sized vlq limit⟩
  · simp only [bind_eq_some] at ran
    obtain ⟨_, start, reset, ran⟩ := ran
    obtain rfl : header :: middle = start := by simpa [set, StateT.set, pure] using reset
    split at ran
    · rename_i point
      obtain ⟨chunk, length, same⟩ := skip_eq_some.mp ran
      obtain ⟨start, prefixed⟩ := List.isPrefixOf_iff_prefix.mp point.1
      cases chunk with
      | nil => simp [p2pkBytes] at length
      | cons head body =>
        obtain ⟨rfl, rfl⟩ := List.cons.inj same
        obtain rfl : 0x00 = header := (List.cons.inj prefixed).1
        exact ⟨0x00 :: body, rfl, .p2pk (by simpa [p2pkBytes] using length)⟩
    · simp only [bind_eq_some] at ran
      obtain ⟨_, last, checked', skipped⟩ := ran
      obtain ⟨fee, rfl⟩ := guard_eq_some.mp checked'
      obtain ⟨chunk, length, same⟩ := skip_eq_some.mp skipped
      obtain ⟨start, prefixed⟩ := List.isPrefixOf_iff_prefix.mp fee
      have long : minerFeeTree.length = 105 := toBytes_length ..
      have head_ : minerFeeTree.head? = some 0x10 := by decide +kernel
      cases chunk with
      | nil => simp [long] at length
      | cons head body =>
        obtain ⟨rfl, rfl⟩ := List.cons.inj same
        have own : header = 0x10 := by
          have heads := congrArg List.head? prefixed
          rw [List.head?_append, head_] at heads
          simpa using heads.symm
        subst own
        exact ⟨0x10 :: body, rfl, .fee (by simpa [long] using length)⟩

theorem frameExtension_reads {bytes rest : Bytes} {done : Unit} (run : frameExtension bytes = some (done, rest)) :
    ∃ chunk, bytes = chunk ++ rest ∧ IsEntry chunk := by
  simp only [frameExtension, bind_eq_some] at run
  obtain ⟨key, middle, first, constant, last, read, done⟩ := run
  obtain rfl := byte_eq_some.mp first
  obtain ⟨-, rfl⟩ := pure_eq_some.mp done
  obtain ⟨chunk, rfl, rfl, body, coll⟩ := frameCollBytes_reads read
  exact ⟨key :: chunk, rfl, key, chunk, body, rfl, coll⟩

theorem frameInput_reads {bytes rest : Bytes} {done : Unit} (run : frameInput bytes = some (done, rest)) :
    ∃ chunk, bytes = chunk ++ rest ∧ IsInput chunk := by
  simp only [frameInput, bind_eq_some] at run
  obtain ⟨_, middle, skipped, length, after, counted, _, then_, empty, count, next, first, _, more, bounded, entries, last, read, done⟩ := run
  obtain ⟨box, size, rfl⟩ := skip_eq_some.mp skipped
  obtain ⟨rfl, rfl⟩ := guard_eq_some.mp empty
  obtain ⟨digits, rfl, vlq, -, minimal⟩ := vlq_eq_some counted
  obtain rfl := vlq.zero minimal
  obtain rfl := byte_eq_some.mp first
  obtain ⟨bound, rfl⟩ := guard_eq_some.mp bounded
  obtain ⟨-, rfl⟩ := pure_eq_some.mp done
  obtain ⟨many, chunks, rfl, reads⟩ :=
    @times_eq_some _ frameExtension (fun chunk _ => IsEntry chunk) (fun _ _ _ => frameExtension_reads) _ _ _ _ read
  exact ⟨box ++ 0 :: count :: chunks.flatten, by simp, box, count, chunks, rfl, size, many.symm.trans reads.length_eq.symm, bound,
    forall₂_const reads⟩

theorem frameToken_reads {bytes rest : Bytes} {done : Unit} (run : frameToken bytes = some (done, rest)) :
    ∃ chunk, bytes = chunk ++ rest ∧ IsToken chunk := by
  simp only [frameToken, bind_eq_some] at run
  obtain ⟨i, middle, first, a, last, second, done⟩ := run
  obtain ⟨index, rfl, vlq, -⟩ := vlq_eq_some first
  obtain ⟨amount, rfl, vlq', -⟩ := vlq_eq_some second
  obtain ⟨-, rfl⟩ := pure_eq_some.mp done
  exact ⟨index ++ amount, by simp, index, amount, i, a, rfl, vlq, vlq'⟩

theorem frameOutput_reads {bytes rest : Bytes} {view : ErgoOutputView} (run : frameOutput bytes = some (view, rest)) :
    ∃ chunk, bytes = chunk ++ rest ∧ IsOutput chunk view := by
  simp only [frameOutput, bind_eq_some] at run
  obtain ⟨v, afterValue, first, tree, afterTree, framed, h, afterHeight, second, tokenCount, afterCount, third, units, afterTokens, held,
    registerCount, next, fourth, _, more, bounded, registers, last, read, done⟩ := run
  obtain ⟨value, rfl, vlq, -⟩ := vlq_eq_some first
  obtain ⟨treeBytes, rfl, isTree⟩ := frameTree_reads framed
  obtain ⟨height, rfl, vlq', -⟩ := vlq_eq_some second
  obtain rfl := byte_eq_some.mp third
  obtain rfl := byte_eq_some.mp fourth
  obtain ⟨bound, rfl⟩ := guard_eq_some.mp bounded
  obtain ⟨rfl, rfl⟩ := pure_eq_some.mp done
  obtain ⟨many, tokens, rfl, areTokens⟩ :=
    @times_eq_some _ frameToken (fun chunk _ => IsToken chunk) (fun _ _ _ => frameToken_reads) _ _ _ _ held
  obtain ⟨many', chunks, rfl, reads⟩ := times_eq_some (fun _ _ _ => frameCollBytes_reads) read
  obtain ⟨rfl, bodies, colls⟩ := forall₂_reads reads
  refine ⟨value ++ (treeBytes ++ (height ++ tokenCount :: (tokens.flatten ++ registerCount :: chunks.flatten))), by simp, value, treeBytes,
    height, v, h, tokenCount, registerCount, tokens, bodies, rfl, vlq, isTree, vlq', many.symm.trans areTokens.length_eq.symm,
    forall₂_const areTokens, many'.symm, bound, colls⟩

/-- What the framer accepts is inside the grammar. -/
theorem frameTransaction_reads {unsigned : Bytes} {views : List ErgoOutputView} (run : frameTransaction unsigned = some views) :
    IsTransaction unsigned views := by
  have framed : frameOutputs unsigned = some (views, []) := by
    simp only [frameTransaction] at run
    split at run
    · rename_i outputs whole
      rw [whole, Option.some.inj run]
    · cases run
  simp only [frameOutputs, bind_eq_some] at framed
  obtain ⟨n, afterCount, first, units, afterInputs, ins, d, afterData, second, _, afterSkip, skipped, t, afterTokens, third, _, afterIds,
    skipped', m, next, fourth, outs⟩ := framed
  obtain ⟨inputCount, rfl, vlq, limit, -⟩ := vlq_eq_some first
  obtain ⟨many, inputs, rfl, areInputs⟩ :=
    @times_eq_some _ frameInput (fun chunk _ => IsInput chunk) (fun _ _ _ => frameInput_reads) _ _ _ _ ins
  obtain ⟨dataCount, rfl, vlq', limit', -⟩ := vlq_eq_some second
  obtain ⟨data, size, rfl⟩ := skip_eq_some.mp skipped
  obtain ⟨tokenCount, rfl, vlq'', limit'', -⟩ := vlq_eq_some third
  obtain ⟨tokens, size', rfl⟩ := skip_eq_some.mp skipped'
  obtain ⟨outputCount, rfl, vlq₃, limit₃, -⟩ := vlq_eq_some fourth
  obtain ⟨many', outputs, same, areOutputs⟩ := times_eq_some (fun _ _ _ => frameOutput_reads) outs
  obtain rfl : n = inputs.length := many.symm.trans areInputs.length_eq.symm
  obtain rfl : m = outputs.length := many'.symm.trans areOutputs.length_eq.symm
  rw [List.append_nil] at same
  subst same
  exact ⟨inputCount, dataCount, data, tokenCount, tokens, outputCount, inputs, outputs, d, t, rfl, vlq, limit, forall₂_const areInputs, vlq',
    size, limit', vlq'', size', limit'', vlq₃, limit₃, areOutputs⟩

/-- The length of a constant's quantity, read again. -/
theorem collLength_eq {digits body : Bytes} {value shift length : Nat} (vlq : Vlq digits value)
    (minimal : 0 < shift ∨ 1 < digits.length → digits.getLast? ≠ some 0) (short : shift + 7 * (digits.length - 1) ≤ 28) :
    collLength (digits ++ body) shift length = some (length + value * 2 ^ shift, body) := by
  induction vlq generalizing shift length with
  | @last b small =>
    have bound : ¬28 < shift := by omega
    have again : ¬(b = 0 ∧ 0 < shift) := fun both => minimal (.inl both.2) (by rw [both.1]; rfl)
    obtain ⟨low, high⟩ := low_bits b
    simp only [List.singleton_append, collLength, bound, if_false, low, high.mpr small, if_true, again, Nat.mod_eq_of_lt small]
  | @more b digits value large rest ih =>
    obtain ⟨first, others, rfl⟩ := List.exists_cons_of_ne_nil rest.ne_nil
    simp only [List.length_cons, Nat.add_sub_cancel] at short ih
    have bound : ¬28 < shift := by omega
    obtain ⟨low, high⟩ := low_bits b
    have more : ¬b.toNat &&& 0x80 = 0 := fun zero => absurd (high.mp zero) (by omega)
    have small := b.toNat_lt
    have remainder : b.toNat % 128 = b.toNat - 128 := by omega
    have next := @ih (shift + 7) (length + (b.toNat - 128) * 2 ^ shift) (fun _ => by simpa using minimal (.inr (by simp))) (by omega)
    rw [List.cons_append, collLength, if_neg bound]
    simp only [low, more, if_false, remainder, next, Option.some.injEq, Prod.mk.injEq, and_true]
    rw [Nat.pow_add]
    ring

/-- A constant the framer reads holds the bytes it is read to hold. -/
theorem IsColl.collBytes {constant body : Bytes} (coll : IsColl constant body) : collBytes constant = some body := by
  obtain ⟨digits, rfl, vlq, limit, minimal⟩ := coll
  have short : digits.length ≤ 3 := by
    rcases Nat.lt_or_ge 1 digits.length with many | one
    · have least := vlq.least (minimal many)
      by_contra long
      have more : 128 ^ 3 ≤ 128 ^ (digits.length - 1) := Nat.pow_le_pow_right (by decide) (by omega)
      have bound : body.length < 128 ^ 3 := Nat.lt_of_le_of_lt limit (by decide)
      omega
    · omega
  have length : ¬(collByteType :: (digits ++ body)).length < 2 := by
    have positive := List.length_pos_of_ne_nil vlq.ne_nil
    simp only [List.length_cons, List.length_append]
    omega
  have read := @collLength_eq digits body body.length 0 0 vlq
    (fun later => minimal (later.resolve_left (Nat.lt_irrefl 0))) (by omega)
  rw [Nat.zero_add, Nat.pow_zero, Nat.mul_one] at read
  simp only [Moe.collBytes, length, ne_eq, not_true_eq_false, or_self, if_false, read, if_true]

end Moe
