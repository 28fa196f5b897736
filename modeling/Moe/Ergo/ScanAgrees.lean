import Moe.Ergo.ScanPhases

namespace Moe

section Inputs

variable {s : ScanState} {o n k : Nat}

/-- An extension's entries are read to the input's end. -/
theorem scan_entries {entries : List Bytes} (each : ∀ entry ∈ entries, IsEntry entry) (bound : n + 1 < fieldModulus)
    (few : entries.length < fieldModulus) (held : AtEntries o n entries.length s) :
    ∃ t, scan.Reads s entries.flatten [] t ∧ AtInputs o n t := by
  induction entries generalizing s with
  | nil => exact ⟨s, .nil, held⟩
  | cons entry rest ih =>
    obtain ⟨rests, left, entries⟩ := held
    obtain ⟨key, constant, body, rfl, coll⟩ := each _ List.mem_cons_self
    have step := scan_plain rests (by decide) key
    have keyed : transition .eKey (byteClass (groupOf .eKey) key.toNat) (s.tests key.toNat) = .go .eCt := rfl
    rw [keyed, s.act_go] at step
    have rests' : ({ s with mode := .eCt, a := 0, p := 1 } : ScanState).Rests .eCt o := ⟨rfl, rfl, rfl, rests.outputs⟩
    obtain ⟨t, out, reads, own, rfl⟩ := @scan_constant { s with mode := .eCt, a := 0, p := 1 } o .eCt .eClen .eBody constant body
      ScanAction.extDone (fun t out => AtEntries o n rest.length t ∧ out = none) coll rests' rfl (fun e => rfl) rfl (fun e _ => rfl) rfl
      (fun e => rfl) (by
        intro t a value b agrees shape
        have plain : a.Plain := by
          rcases shape with rfl | rfl
          · exact (ScanAction.go_plain _).1
          · exact (ScanAction.go_plain _).2
        rw [t.act_silent (ScanAction.extDone_silent plain.oend _)]
        exact ⟨ScanState.after_extDone plain (agrees.outputs.trans rests.outputs) (agrees.c1.trans left) (agrees.c2.trans entries) bound few
          value b, rfl⟩)
    obtain ⟨last, others, done⟩ := ih (fun entry member => each entry (List.mem_cons_of_mem _ member))
      (Nat.lt_of_le_of_lt (Nat.le_succ _) few) own
    exact ⟨last, .cons step (reads.append others), done⟩

/-- An input is read to the next one, or the data inputs. -/
theorem scan_input {chunk : Bytes} (input : IsInput chunk) (bound : n + 1 < fieldModulus) (held : AtInputs o (n + 1) s) :
    ∃ t, scan.Reads s chunk [] t ∧ AtInputs o n t := by
  obtain ⟨rests, run, left⟩ := held
  obtain ⟨box, count, entries, rfl, size, many, most, each⟩ := input
  have boxes : ∀ e : ScanTests, transition .sBox 0 e = (ScanAction.go (if e.zR then .proof else .sBox)).decR := fun e => rfl
  have stay : ∀ e : ScanTests, e.zR = false → transition .sBox 0 e = (ScanAction.go .sBox).decR := by
    intro e more
    rw [boxes, more]
    rfl
  obtain ⟨b, boxed⟩ := scan_chunk rests rfl stay (run.trans (by rw [size])) (by rintro rfl; simp at size) (by rw [size]; decide)
  have finished : (({ s with r := 1 } : ScanState).tests (b : Scalar)).zR = true := decide_eq_true (rfl : (1 : Scalar) = 1)
  rw [boxes, finished, if_pos rfl, ScanState.act_silent _ rfl, ScanState.after_decR] at boxed
  generalize made : ({ s with mode := .proof, r := 1 + ((-1 : Int) : Scalar), a := 0, p := 1 } : ScanState) = proofs at boxed
  have rests₁ : proofs.Rests .proof o := made ▸ ⟨rfl, rfl, rfl, rests.outputs⟩
  have left₁ : proofs.c1 = (n + 1 : Nat) := made ▸ left
  have empty := scan_plain rests₁ (by decide) 0
  have taken : transition .proof (byteClass (groupOf .proof) (0 : UInt8).toNat) (proofs.tests (0 : UInt8).toNat) = .go .extCnt := rfl
  rw [taken, ScanState.act_go] at empty
  generalize made₁ : ({ proofs with mode := .extCnt, a := 0, p := 1 } : ScanState) = counts at empty
  have rests₂ : counts.Rests .extCnt o := made₁ ▸ ⟨rfl, rfl, rfl, rests₁.outputs⟩
  have left₂ : counts.c1 = (n + 1 : Nat) := made₁ ▸ left₁
  have counted := scan_plain rests₂ (by decide) count
  obtain ⟨t, step, entered⟩ : ∃ t, scan counts count = (t, none) ∧ AtEntries o n entries.length t := by
    by_cases none_ : count.toNat = 0
    · have class_ : byteClass (groupOf .extCnt) count.toNat = 0 := if_pos none_
      have ends : transition .extCnt 0 (counts.tests (count.toNat : Scalar)) =
          (ScanAction.go .extCnt).nextInput (counts.tests (count.toNat : Scalar)) := rfl
      rw [class_, ends, ScanState.act_silent] at counted
      · refine ⟨_, counted, ?_⟩
        rw [← many, none_]
        exact ScanState.after_nextInput rfl rfl rfl rests₂.outputs left₂ bound _ _
      · exact ScanAction.nextInput_silent rfl _
    · have class_ : byteClass (groupOf .extCnt) count.toNat = 1 := by
        have below : count.toNat < 128 := Nat.lt_succ_of_le most
        exact (if_neg none_).trans (if_pos below)
      have starts : transition .extCnt 1 (counts.tests (count.toNat : Scalar)) = { ScanAction.go .eKey with C2K := 0, C2B := 1 } := rfl
      rw [class_, starts, ScanState.act_silent _ rfl, ScanState.after_count] at counted
      refine ⟨_, counted, ?_⟩
      obtain ⟨k, more⟩ : ∃ k, entries.length = k + 1 := ⟨entries.length - 1, by omega⟩
      rw [more]
      exact ⟨⟨rfl, rfl, rfl, rests₂.outputs⟩, left₂, by rw [many, more]⟩
  have few : entries.length < fieldModulus := by
    rw [← many]
    exact Nat.lt_of_le_of_lt most (by decide)
  obtain ⟨last, others, done⟩ := scan_entries each bound few entered
  exact ⟨last, by simpa using boxed.append (.cons empty (.cons step others)), done⟩

/-- The inputs are read to the data inputs. -/
theorem scan_inputs {inputs : List Bytes} (each : ∀ input ∈ inputs, IsInput input) (bound : inputs.length < fieldModulus)
    (held : AtInputs o inputs.length s) : ∃ t, scan.Reads s inputs.flatten [] t ∧ t.Rests .vDi o := by
  induction inputs generalizing s with
  | nil => exact ⟨s, .nil, held⟩
  | cons input rest ih =>
    obtain ⟨t, reads, own⟩ := scan_input (each _ List.mem_cons_self) bound held
    obtain ⟨last, others, done⟩ := ih (fun other member => each other (List.mem_cons_of_mem _ member))
      (Nat.lt_of_le_of_lt (Nat.le_succ _) bound) own
    exact ⟨last, reads.append others, done⟩

end Inputs

section Outputs

variable {s : ScanState} {o n k : Nat}

/-- A quantity nothing is kept of. -/
theorem scan_quantity {mode next : ScanMode} {digits : Bytes} {value : Nat} (vlq : Vlq digits value) (rests : s.Rests mode o)
    (group : groupOf mode = .vlq) (goes : ∀ e, transition mode 0 e = .go next) :
    scan.Reads s digits [] { s with mode := next, a := 0, p := 1 } := by
  obtain ⟨b, reads⟩ := scan_vlq rests vlq group
  rw [goes, s.act_go] at reads
  exact reads

/-- A run its mode leaves for the next one. -/
theorem scan_out {run next : ScanMode} {chunk : Bytes} (rests : s.Rests run o) (any : groupOf run = .any)
    (runs : ∀ e : ScanTests, transition run 0 e = (ScanAction.go (if e.zR then next else run)).decR)
    (r : s.r = (chunk.length : Nat)) (some_ : chunk ≠ []) (bound : chunk.length < fieldModulus) :
    scan.Reads s chunk [] { s with mode := next, r := 1 + ((-1 : Int) : Scalar), a := 0, p := 1 } := by
  have stay : ∀ e : ScanTests, e.zR = false → transition run 0 e = (ScanAction.go run).decR := by
    intro e more
    rw [runs, more]
    rfl
  obtain ⟨b, reads⟩ := scan_chunk rests any stay r some_ bound
  have finished : (({ s with r := 1 } : ScanState).tests (b : Scalar)).zR = true := decide_eq_true (rfl : (1 : Scalar) = 1)
  rw [runs, finished, if_pos rfl, ScanState.act_silent _ rfl, ScanState.after_decR] at reads
  exact reads

/-- A list of fixed-size items is passed over. -/
theorem scan_items {count run next : ScanMode} {digits items : Bytes} {size : Nat} {each : Int} (vlq : Vlq digits size)
    (rests : s.Rests count o) (counts : groupOf count = .vlq)
    (counted : ∀ e : ScanTests, transition count 0 e = if e.zV then .go next else (ScanAction.go run).setR 0 each)
    (any : groupOf run = .any) (runs : ∀ e : ScanTests, transition run 0 e = (ScanAction.go (if e.zR then next else run)).decR)
    (length : (items.length : Int) = each * size) (positive : 0 < each) (small : size < fieldModulus)
    (bound : items.length < fieldModulus) : ∃ t, scan.Reads s (digits ++ items) [] t ∧ t.Rests next o ∧ t.c1 = s.c1 := by
  have ran : ∀ e : ScanTests, transition run 0 e = if e.zR then (ScanAction.go next).decR else (ScanAction.go run).decR := by
    intro e
    rw [runs]
    cases e.zR <;> rfl
  obtain ⟨t, out, reads, own, left, rfl⟩ := scan_measured (fun t out => t.Rests next o ∧ t.c1 = s.c1 ∧ out = none) (fun _ => .go next) each
    (fun _ => (ScanAction.go next).decR) vlq rests counts (counted _) any ran length positive small bound
    (fun b => by
      rw [s.act_go]
      exact ⟨⟨rfl, rfl, rfl, rests.outputs⟩, rfl, rfl⟩)
    (fun t b agrees => by
      rw [t.act_silent rfl, t.after_decR]
      exact ⟨⟨rfl, rfl, rfl, agrees.outputs.trans rests.outputs⟩, agrees.c1, rfl⟩)
  exact ⟨t, reads, own, left⟩

/-- A tree is passed over. -/
theorem scan_tree {tree : Bytes} (isTree : IsTree tree) (rests : s.Rests .tree o) :
    ∃ t, scan.Reads s tree [] t ∧ t.Rests .vHeight o ∧ t.c1 = s.c1 := by
  cases isTree with
  | @sized header digits body reserved sized vlq limit =>
    have class_ : byteClass (groupOf .tree) header.toNat = 0 := (if_neg (not_not.mpr reserved)).trans (if_pos sized)
    have step := scan_plain rests (by decide) header
    have goes : transition .tree 0 (s.tests (header.toNat : Scalar)) = .go .vTsize := rfl
    rw [class_, goes, s.act_go] at step
    have small : body.length < fieldModulus := Nat.lt_of_le_of_lt limit (by decide)
    obtain ⟨t, reads, own, left⟩ := @scan_items { s with mode := .vTsize, a := 0, p := 1 } o .vTsize .sTbody .vHeight digits body body.length 1
      vlq ⟨rfl, rfl, rfl, rests.outputs⟩ rfl (fun e => rfl) rfl (fun e => rfl) (one_mul _).symm one_pos small small
    exact ⟨t, .cons step reads, own, left⟩
  | @p2pk point length =>
    have step := scan_plain rests (by decide) 0x00
    have goes : transition .tree (byteClass (groupOf .tree) (0x00 : UInt8).toNat) (s.tests ((0x00 : UInt8).toNat : Scalar)) =
        (ScanAction.go .patP2pk).setR 35 0 := rfl
    rw [goes, s.act_silent rfl, s.after_setR] at step
    have run : ((35 : Int) : Scalar) + ((0 : Int) : Scalar) * (((0x00 : UInt8).toNat : Nat) : Scalar) = (point.length : Nat) := by
      rw [length, Int.cast_zero, zero_mul, add_zero]
      rfl
    rw [run] at step
    exact ⟨_, .cons step (scan_out ⟨rfl, rfl, rfl, rests.outputs⟩ rfl (fun e => rfl) rfl (by rintro rfl; simp at length)
      (by rw [length]; decide)), ⟨rfl, rfl, rfl, rests.outputs⟩, rfl⟩
  | @fee rest length =>
    have step := scan_plain rests (by decide) 0x10
    have goes : transition .tree (byteClass (groupOf .tree) (0x10 : UInt8).toNat) (s.tests ((0x10 : UInt8).toNat : Scalar)) =
        (ScanAction.go .patFee).setR 104 0 := rfl
    rw [goes, s.act_silent rfl, s.after_setR] at step
    have run : ((104 : Int) : Scalar) + ((0 : Int) : Scalar) * (((0x10 : UInt8).toNat : Nat) : Scalar) = (rest.length : Nat) := by
      rw [length, Int.cast_zero, zero_mul, add_zero]
      rfl
    rw [run] at step
    exact ⟨_, .cons step (scan_out ⟨rfl, rfl, rfl, rests.outputs⟩ rfl (fun e => rfl) rfl (by rintro rfl; simp at length)
      (by rw [length]; decide)), ⟨rfl, rfl, rfl, rests.outputs⟩, rfl⟩

/-- An output's tokens are passed over. -/
theorem scan_tokens {tokens : List Bytes} (each : ∀ token ∈ tokens, IsToken token) (few : tokens.length < fieldModulus)
    (held : AtTokens o n tokens.length s) : ∃ t, scan.Reads s tokens.flatten [] t ∧ AtTokens o n 0 t := by
  induction tokens generalizing s with
  | nil => exact ⟨s, .nil, held⟩
  | cons token rest ih =>
    obtain ⟨rests, left, tokens⟩ := held
    obtain ⟨index, amount, i, a, rfl, vlq, vlq'⟩ := each _ List.mem_cons_self
    have first := scan_quantity vlq rests rfl (fun e => rfl)
    obtain ⟨b, second⟩ := @scan_vlq { s with mode := .vTamt, a := 0, p := 1 } .vTamt o amount a ⟨rfl, rfl, rfl, rests.outputs⟩ vlq' rfl
    generalize made : ({ s with mode := .vTamt, a := 0, p := 1 } : ScanState) = amounts at first second
    have counter : amounts.c2 = (rest.length + 1 : Nat) := made ▸ tokens
    have left' : amounts.c1 = (n + 1 : Nat) := made ▸ left
    have outputs : amounts.outputs = o := made ▸ rests.outputs
    have one : (amounts.tests (a : Scalar)).zC2 = decide (rest.length = 0) := counts_one counter few
    have ends : transition .vTamt 0 (amounts.tests (a : Scalar)) =
        { ScanAction.go (if (amounts.tests (a : Scalar)).zC2 then .regCnt else .vTidx) with C2K := 1, C2C := -1 } := rfl
    rw [ends, one, amounts.act_silent rfl] at second
    obtain ⟨last, others, done⟩ := ih (fun other member => each other (List.mem_cons_of_mem _ member))
      (Nat.lt_of_le_of_lt (Nat.le_succ _) few) (s := amounts.after
        { ScanAction.go (if decide (rest.length = 0) = true then .regCnt else .vTidx) with C2K := 1, C2C := -1 } a b) (by
        rw [amounts.after_counted]
        cases more : rest.length with
        | zero => exact ⟨⟨rfl, rfl, rfl, outputs⟩, left'⟩
        | succ k =>
          rw [more] at counter
          exact ⟨⟨rfl, rfl, rfl, outputs⟩, left', counts_down counter⟩)
    refine ⟨last, ?_, done⟩
    rw [List.flatten_cons, List.append_assoc]
    exact first.append (second.append others)

/-- A limb's bytes are its own. -/
theorem limbBytes_limb {bytes : Bytes} (size : bytes.length = 16) : limbBytes (limb 0 bytes) = bytes := by
  have bound := ofBytes_lt bytes
  rw [size] at bound
  have value : (limb 0 bytes).val = ofBytes bytes := by
    rw [limb_ofBytes, ZMod.val_natCast, Nat.mod_eq_of_lt (Nat.lt_trans bound (by decide))]
  have own := toBytes_ofBytes bytes
  rw [size] at own
  rw [limbBytes, value, own]

theorem limb_concat (h : Scalar) (bytes : Bytes) (last : UInt8) : limb h (bytes ++ [last]) = 256 * limb h bytes + last.toNat := by
  rw [limb, List.foldl_append]
  rfl

/-- The high limb is read to the low one. -/
theorem scan_high {high : Bytes} (size : high.length = 16) (rests : s.Rests .r4Hi o) (r : s.r = (16 : Nat)) (zero : s.hi = 0) :
    scan.Reads s high [] { s with mode := .r4Lo, r := 16, hi := limb 0 high, lo := 0, a := 0, p := 1 } := by
  obtain ⟨first, last, rfl⟩ := List.eq_nil_or_concat high |>.resolve_left (by rintro rfl; simp at size)
  rw [List.concat_eq_append] at size ⊢
  have length : first.length = 15 := by simpa using size
  have step : ∀ (h r : Scalar) (byte : UInt8), r ≠ 1 →
      scan { s with r := r, hi := h } byte = ({ s with r := r + (-1 : Int), hi := 256 * h + byte.toNat }, none) := by
    intro h r byte more
    have more_ : (({ s with r := r, hi := h } : ScanState).tests byte.toNat).zR = false := decide_eq_false more
    have stays : transition .r4Hi 0 (({ s with r := r, hi := h } : ScanState).tests byte.toNat) =
        { ScanAction.go .r4Hi with HM := 256, HB := 1 }.decR := by
      simp only [transition, more_]
      rfl
    rw [scan_plain (s := { s with r := r, hi := h }) ⟨rests.mode, rests.a, rests.p, rests.outputs⟩ (by decide)]
    have class_ : byteClass (groupOf .r4Hi) byte.toNat = 0 := rfl
    rw [class_, stays, ScanState.act_silent _ rfl, ScanState.after_high]
    rw [← rests.mode, ← rests.a, ← rests.p]
  have down := scan_down (f := fun h r => { s with r := r, hi := h }) step (by rw [length]; decide) 0
  rw [length] at down
  have started : ({ s with r := ((15 + 1 : Nat) : Scalar), hi := 0 } : ScanState) = s := by
    rw [← r, ← zero]
  rw [started] at down
  refine down.append (@Transducer.Reads.one _ _ _ _ _ _ _ none ?_)
  have done : (({ s with r := 1, hi := limb 0 first } : ScanState).tests last.toNat).zR = true := decide_eq_true (rfl : (1 : Scalar) = 1)
  have ends : transition .r4Hi 0 (({ s with r := 1, hi := limb 0 first } : ScanState).tests last.toNat) =
      { ({ ScanAction.go .r4Hi with HM := 256, HB := 1 }.decR.next .r4Lo).setR 16 0 with LM := 0 } := by
    simp only [transition, done]
    rfl
  rw [scan_plain (s := { s with r := 1, hi := limb 0 first }) ⟨rests.mode, rests.a, rests.p, rests.outputs⟩ (by decide)]
  have class_ : byteClass (groupOf .r4Hi) last.toNat = 0 := rfl
  rw [class_, ends, ScanState.act_silent _ rfl, ScanState.after_highEnd, limb_concat]

/-- The low limb is read to the register's end, with the first half of the shape. -/
theorem scan_low {low : Bytes} (size : low.length = 16) (rests : s.Rests .r4Lo o) (r : s.r = (16 : Nat)) (zero : s.lo = 0)
    (left : s.c1 = (n + 1 : Nat)) (registers : s.c2 = (k + 1 : Nat)) (bound : n + 1 < fieldModulus) (few : k + 1 < fieldModulus) :
    ∃ t out, scan.Reads s low out.toList t ∧ AtRegisters .r5Ct o n 1 s.hi (limb 0 low) k t out := by
  obtain ⟨first, last, rfl⟩ := List.eq_nil_or_concat low |>.resolve_left (by rintro rfl; simp at size)
  rw [List.concat_eq_append] at size ⊢
  have length : first.length = 15 := by simpa using size
  have step : ∀ (h r : Scalar) (byte : UInt8), r ≠ 1 →
      scan { s with r := r, lo := h } byte = ({ s with r := r + (-1 : Int), lo := 256 * h + byte.toNat }, none) := by
    intro h r byte more
    have more_ : (({ s with r := r, lo := h } : ScanState).tests byte.toNat).zR = false := decide_eq_false more
    have stays : transition .r4Lo 0 (({ s with r := r, lo := h } : ScanState).tests byte.toNat) =
        { ScanAction.go .r4Lo with LM := 256, LB := 1 }.decR := by
      simp only [transition, more_]
      rfl
    rw [scan_plain (s := { s with r := r, lo := h }) ⟨rests.mode, rests.a, rests.p, rests.outputs⟩ (by decide)]
    have class_ : byteClass (groupOf .r4Lo) byte.toNat = 0 := rfl
    rw [class_, stays, ScanState.act_silent _ rfl, ScanState.after_low]
    rw [← rests.mode, ← rests.a, ← rests.p]
  have down := scan_down (f := fun h r => { s with r := r, lo := h }) step (by rw [length]; decide) 0
  rw [length] at down
  have started : ({ s with r := ((15 + 1 : Nat) : Scalar), lo := 0 } : ScanState) = s := by
    rw [← r, ← zero]
  rw [started] at down
  generalize made : ({ s with r := 1, lo := limb 0 first } : ScanState) = t at down
  have rests' : t.Rests .r4Lo o := made ▸ ⟨rests.mode, rests.a, rests.p, rests.outputs⟩
  have done : (t.tests (last.toNat : Scalar)).zR = true := by
    rw [← made]
    exact decide_eq_true (rfl : (1 : Scalar) = 1)
  have ends : transition .r4Lo 0 (t.tests (last.toNat : Scalar)) =
      { { ScanAction.go .r4Lo with LM := 256, LB := 1 }.decR with SHM := 0, SHC := 1 }.regDone (t.tests (last.toNat : Scalar)) .r5Ct := by
    simp only [transition, done]
    rfl
  have plain : ({ { ScanAction.go .r4Lo with LM := 256, LB := 1 }.decR with SHM := 0, SHC := 1 } : ScanAction).Plain :=
    ⟨⟨rfl, rfl, rfl⟩, ⟨rfl, rfl, rfl⟩, rfl, rfl⟩
  have own := @ScanState.act_regDone t o n k _ plain rests'.outputs (made ▸ left) (made ▸ registers) bound few last.toNat last.toNat .r5Ct
  have lastStep := scan_plain rests' (by decide) last
  have class_ : byteClass (groupOf .r4Lo) last.toNat = 0 := rfl
  rw [class_, ends] at lastStep
  rw [ScanState.after_lowEnd] at own
  refine ⟨_, _, down.append (.one (lastStep.trans Prod.mk.eta.symm)), ?_⟩
  rw [limb_concat]
  rw [← made] at own ⊢
  exact own

/-- The first register: a 32-byte constant is read into the limbs, any other passed over. -/
theorem scan_first {constant body : Bytes} (coll : IsColl constant body) (rests : s.Rests .r4Ct o) (left : s.c1 = (n + 1 : Nat))
    (registers : s.c2 = (k + 1 : Nat)) (none_ : s.sh = 0) (bound : n + 1 < fieldModulus) (few : k + 1 < fieldModulus) :
    ∃ t out hi lo, scan.Reads s constant out.toList t ∧
      AtRegisters .r5Ct o n (if body.length = 32 then 1 else 0) hi lo k t out ∧
      (body.length = 32 → limbBytes hi ++ limbBytes lo = body) := by
  by_cases shape : body.length = 32
  · obtain ⟨digits, rfl, vlq, -, -⟩ := coll
    have typed := scan_plain rests (by decide) collByteType
    have goes : transition .r4Ct (byteClass (groupOf .r4Ct) collByteType.toNat) (s.tests (collByteType.toNat : Scalar)) = .go .r4Clen := rfl
    rw [goes, s.act_go] at typed
    rw [shape] at vlq
    obtain ⟨b, counted⟩ := @scan_vlq { s with mode := .r4Clen, a := 0, p := 1 } .r4Clen o digits 32 ⟨rfl, rfl, rfl, rests.outputs⟩ vlq rfl
    have tests : transition .r4Clen 0 (({ s with mode := .r4Clen, a := 0, p := 1 } : ScanState).tests ((32 : Nat) : Scalar)) =
        { (ScanAction.go .r4Hi).setR 16 0 with HM := 0 } := by
      have zV : (({ s with mode := .r4Clen, a := 0, p := 1 } : ScanState).tests ((32 : Nat) : Scalar)).zV = false := by
        have cast := natCast_inj (by decide : 32 < fieldModulus) (by decide : 0 < fieldModulus)
        rw [Nat.cast_zero] at cast
        exact decide_eq_false fun zero => absurd (cast.mp zero) (by decide)
      have z32 : (({ s with mode := .r4Clen, a := 0, p := 1 } : ScanState).tests ((32 : Nat) : Scalar)).z32 = true :=
        decide_eq_true (rfl : ((32 : Nat) : Scalar) = 32)
      simp only [transition, zV, z32]
      rfl
    rw [tests, ScanState.act_silent _ rfl, ScanState.after_limbs] at counted
    obtain ⟨high, low, rfl, size, size'⟩ : ∃ high low : Bytes, body = high ++ low ∧ high.length = 16 ∧ low.length = 16 :=
      ⟨body.take 16, body.drop 16, (List.take_append_drop 16 body).symm, by simp [shape], by simp [shape]⟩
    have highs := @scan_high { s with mode := .r4Hi, r := 16, hi := 0, a := 0, p := 1 } o high size ⟨rfl, rfl, rfl, rests.outputs⟩ rfl rfl
    obtain ⟨t, out, lows, own⟩ := @scan_low { s with mode := .r4Lo, r := 16, hi := limb 0 high, lo := 0, a := 0, p := 1 } o n k low size'
      ⟨rfl, rfl, rfl, rests.outputs⟩ rfl rfl left registers bound few
    refine ⟨t, out, limb 0 high, limb 0 low, ?_, by rw [if_pos shape]; exact own, fun _ => ?_⟩
    · exact .cons typed (counted.append (highs.append lows))
    · rw [limbBytes_limb size, limbBytes_limb size']
  · obtain ⟨t, out, reads, own⟩ := @scan_constant s o .r4Ct .r4Clen .r4Body constant body (fun a e => a.regDone e .r5Ct)
      (fun t out => AtRegisters .r5Ct o n 0 s.hi s.lo k t out) coll rests rfl (fun e => rfl) rfl
      (fun e z32 => by
        have other : e.z32 = false := z32.trans (decide_eq_false shape)
        cases zV : e.zV <;> simp [transition, groupOf, vlqModes, zV, other])
      rfl (fun e => rfl) (by
        intro t a value b agrees shape
        have plain : a.Plain := by
          rcases shape with rfl | rfl
          · exact (ScanAction.go_plain _).1
          · exact (ScanAction.go_plain _).2
        have done := @ScanState.act_regDone t o n k a plain (agrees.outputs.trans rests.outputs) (agrees.c1.trans left)
          (agrees.c2.trans registers) bound few value b .r5Ct
        have kept : (t.after a value b).sh = 0 ∧ (t.after a value b).hi = s.hi ∧ (t.after a value b).lo = s.lo := by
          rcases shape with rfl | rfl
          · rw [t.after_go]
            exact ⟨agrees.sh.trans none_, agrees.hi, agrees.lo⟩
          · rw [t.after_decR]
            exact ⟨agrees.sh.trans none_, agrees.hi, agrees.lo⟩
        rw [kept.1, kept.2.1, kept.2.2] at done
        exact done)
    exact ⟨t, out, s.hi, s.lo, reads, by rw [if_neg shape]; exact own, fun same => absurd same shape⟩

/-- The second register: any constant gives the shape its second half. -/
theorem scan_second {sh hi lo : Scalar} {constant body : Bytes} (coll : IsColl constant body) (rests : s.Rests .r5Ct o)
    (left : s.c1 = (n + 1 : Nat)) (registers : s.c2 = (k + 1 : Nat)) (held : s.sh = sh ∧ s.hi = hi ∧ s.lo = lo)
    (bound : n + 1 < fieldModulus) (few : k + 1 < fieldModulus) :
    ∃ t out, scan.Reads s constant out.toList t ∧ AtRegisters .rxCt o n (2 * sh) hi lo k t out := by
  refine scan_constant (fun a e => { a with SHM := 2 }.regDone e .rxCt) (AtRegisters .rxCt o n (2 * sh) hi lo k) coll rests rfl
    (fun e => rfl) rfl (fun e _ => rfl) rfl (fun e => rfl) fun t a value b agrees shape => ?_
  have plain : ({ a with SHM := 2 } : ScanAction).Plain := by
    rcases shape with rfl | rfl
    · exact ⟨⟨rfl, rfl, rfl⟩, ⟨rfl, rfl, rfl⟩, rfl, rfl⟩
    · exact ⟨⟨rfl, rfl, rfl⟩, ⟨rfl, rfl, rfl⟩, rfl, rfl⟩
  have done := ScanState.act_regDone plain (agrees.outputs.trans rests.outputs) (agrees.c1.trans left) (agrees.c2.trans registers) bound few
    value b .rxCt
  have kept : (t.after { a with SHM := 2 } value b).sh = 2 * sh ∧ (t.after { a with SHM := 2 } value b).hi = hi ∧
      (t.after { a with SHM := 2 } value b).lo = lo := by
    obtain ⟨shape', high, low⟩ := held
    rw [← shape', ← high, ← low, ← agrees.sh, ← agrees.hi, ← agrees.lo]
    rcases shape with rfl | rfl
    · rw [ScanState.after_double]
      exact ⟨rfl, rfl, rfl⟩
    · rw [ScanState.after_doubleR]
      exact ⟨rfl, rfl, rfl⟩
  rw [kept.1, kept.2.1, kept.2.2] at done
  exact done

/-- Registers past the second are passed over. -/
theorem scan_others {sh hi lo : Scalar} {constants bodies : List Bytes} (colls : List.Forall₂ IsColl constants bodies)
    (bound : n + 1 < fieldModulus) (few : constants.length < fieldModulus) {out : Option ScannedOutput}
    (held : AtRegisters .rxCt o n sh hi lo constants.length s out) :
    ∃ t, scan.Reads s constants.flatten (if constants = [] then none else
      if sh = 2 then some (⟨o, limbBytes hi ++ limbBytes lo⟩ : ScannedOutput) else none).toList t ∧ AtOutputs (o + 1) n t := by
  induction colls generalizing s out with
  | nil => exact ⟨s, .nil, held.1⟩
  | @cons constant body rest others coll colls ih =>
    obtain ⟨⟨rests, left, registers, shape, high, low⟩, -⟩ := held
    obtain ⟨t, out, reads, own⟩ := scan_constant (fun a e => a.regDone e .rxCt) (AtRegisters .rxCt o n sh hi lo rest.length) coll rests rfl
      (fun e => rfl) rfl (fun e _ => rfl) rfl (fun e => rfl) (fun t a value b agrees shape' => by
        have plain : a.Plain := by
          rcases shape' with rfl | rfl
          · exact (ScanAction.go_plain _).1
          · exact (ScanAction.go_plain _).2
        have done := ScanState.act_regDone plain (agrees.outputs.trans rests.outputs) (agrees.c1.trans left) (agrees.c2.trans registers)
          bound few value b .rxCt
        have kept : (t.after a value b).sh = sh ∧ (t.after a value b).hi = hi ∧ (t.after a value b).lo = lo := by
          rw [← shape, ← high, ← low, ← agrees.sh, ← agrees.hi, ← agrees.lo]
          rcases shape' with rfl | rfl
          · rw [t.after_go]
            exact ⟨rfl, rfl, rfl⟩
          · rw [t.after_decR]
            exact ⟨rfl, rfl, rfl⟩
        rw [kept.1, kept.2.1, kept.2.2] at done
        exact done)
    obtain ⟨last, more, done⟩ := ih (Nat.lt_of_le_of_lt (Nat.le_succ _) few) own
    refine ⟨last, ?_, done⟩
    have all := reads.append more
    rw [List.flatten_cons, if_neg (List.cons_ne_nil _ _)]
    cases rest with
    | nil =>
      obtain ⟨-, rfl⟩ := own
      simpa using all
    | cons next rest =>
      obtain ⟨-, rfl⟩ := own
      simpa using all

/-- Neither no shape nor its first half is the shape. -/
theorem unshaped : (0 : Scalar) ≠ (2 : Nat) ∧ (1 : Scalar) ≠ (2 : Nat) := by
  constructor
  · have cast := natCast_inj (by decide : 0 < fieldModulus) (by decide : 2 < fieldModulus)
    rw [Nat.cast_zero] at cast
    exact fun same => absurd (cast.mp same) (by decide)
  · have cast := natCast_inj (by decide : 1 < fieldModulus) (by decide : 2 < fieldModulus)
    rw [Nat.cast_one] at cast
    exact fun same => absurd (cast.mp same) (by decide)

/-- The registers are read to the output's end, which emits it where it has the shape. -/
theorem scan_registers {view : ErgoOutputView} {bodies : List Bytes} (colls : List.Forall₂ IsColl view.registers bodies)
    (bound : n + 1 < fieldModulus) (some_ : view.registers ≠ []) (few : view.registers.length < fieldModulus) (rests : s.Rests .r4Ct o)
    (left : s.c1 = (n + 1 : Nat)) (registers : s.c2 = (view.registers.length : Nat)) (none_ : s.sh = 0) :
    ∃ t, scan.Reads s view.registers.flatten ((shapeOf view).map (ScannedOutput.mk o)).toList t ∧ AtOutputs (o + 1) n t := by
  obtain ⟨tree, constants⟩ := view
  simp only at colls some_ few registers ⊢
  cases colls with
  | nil => exact absurd rfl some_
  | @cons first body rest others coll colls =>
    obtain ⟨t, out, hi, lo, reads, own, limbs⟩ := scan_first coll rests left registers none_ bound few
    cases colls with
    | nil =>
      obtain ⟨own, rfl⟩ := own
      have silent : ¬((if body.length = 32 then (1 : Scalar) else 0) = (2 : Nat)) := by
        split
        · exact unshaped.2
        · exact unshaped.1
      have lone : shapeOf ⟨tree, [first]⟩ = none := by simp [shapeOf]
      rw [if_neg silent] at reads
      refine ⟨t, ?_, own⟩
      rw [lone]
      simpa using reads
    | @cons second body' rest others coll' colls =>
      obtain ⟨⟨rests', left', registers', held⟩, rfl⟩ := own
      have few' : rest.length + 1 < fieldModulus := Nat.lt_of_le_of_lt (Nat.le_succ _) few
      obtain ⟨u, out, reads', own⟩ := scan_second coll' rests' left' registers' held bound few'
      have shape : shapeOf ⟨tree, first :: second :: rest⟩ = if body.length = 32 then some body else none := by
        simp only [shapeOf, List.getElem?_cons_zero, List.getElem?_cons_succ, coll.collBytes, coll'.collBytes, Option.bind_eq_bind,
          Option.bind_some]
        by_cases long : body.length = 32
        · simp [long, guard]
        · simp [long, guard]
      have emits : (if 2 * (if body.length = 32 then (1 : Scalar) else 0) = (2 : Nat) then
          some (⟨o, limbBytes hi ++ limbBytes lo⟩ : ScannedOutput) else none) =
          (shapeOf ⟨tree, first :: second :: rest⟩).map (ScannedOutput.mk o) := by
        rw [shape]
        by_cases long : body.length = 32
        · rw [if_pos long, if_pos long, mul_one, Nat.cast_ofNat, if_pos rfl, limbs long]
          rfl
        · rw [if_neg long, if_neg long, mul_zero, if_neg unshaped.1]
          rfl
      obtain ⟨last, more, done⟩ := scan_others colls bound (Nat.lt_of_le_of_lt (Nat.le_succ _) few') own
      refine ⟨last, ?_, done⟩
      have all := reads.append (reads'.append more)
      rw [List.flatten_cons, List.flatten_cons, ← emits]
      cases rest with
      | nil =>
        obtain ⟨-, rfl⟩ := own
        simpa using all
      | cons next rest =>
        obtain ⟨-, rfl⟩ := own
        simpa using all

/-- An output is read to the next one, emitted where it has the shape. -/
theorem scan_output {chunk : Bytes} {view : ErgoOutputView} (output : IsOutput chunk view) (bound : n + 1 < fieldModulus)
    (held : AtOutputs o (n + 1) s) :
    ∃ t, scan.Reads s chunk ((shapeOf view).map (ScannedOutput.mk o)).toList t ∧ AtOutputs (o + 1) n t := by
  obtain ⟨rests, left⟩ := held
  obtain ⟨value, tree, height, v, h, tokenCount, registerCount, tokens, bodies, rfl, vlq, isTree, vlq', many, areTokens, many', most, colls⟩ :=
    output
  have valued := scan_quantity vlq rests rfl (fun e => rfl)
  obtain ⟨t₁, treed, rests₁, left₁⟩ := @scan_tree { s with mode := .tree, a := 0, p := 1 } o tree isTree ⟨rfl, rfl, rfl, rests.outputs⟩
  have heighted := scan_quantity vlq' rests₁ rfl (fun e => rfl)
  generalize made : ({ t₁ with mode := .tokCnt, a := 0, p := 1 } : ScanState) = counts at heighted
  have rests₂ : counts.Rests .tokCnt o := made ▸ ⟨rfl, rfl, rfl, rests₁.outputs⟩
  have left₂ : counts.c1 = (n + 1 : Nat) := made ▸ left₁.trans left
  have counted := scan_plain rests₂ (by decide) tokenCount
  obtain ⟨t₂, step, entered⟩ : ∃ t, scan counts tokenCount = (t, none) ∧ AtTokens o n tokens.length t := by
    by_cases none_ : tokenCount.toNat = 0
    · have class_ : byteClass (groupOf .tokCnt) tokenCount.toNat = 0 := if_pos none_
      have ends : transition .tokCnt 0 (counts.tests (tokenCount.toNat : Scalar)) = .go .regCnt := rfl
      rw [class_, ends, ScanState.act_go] at counted
      refine ⟨_, counted, ?_⟩
      rw [← many, none_]
      exact ⟨⟨rfl, rfl, rfl, rests₂.outputs⟩, left₂⟩
    · have class_ : byteClass (groupOf .tokCnt) tokenCount.toNat = 1 := if_neg none_
      have starts : transition .tokCnt 1 (counts.tests (tokenCount.toNat : Scalar)) = { ScanAction.go .vTidx with C2K := 0, C2B := 1 } := rfl
      rw [class_, starts, ScanState.act_silent _ rfl, ScanState.after_count] at counted
      refine ⟨_, counted, ?_⟩
      obtain ⟨k, more⟩ : ∃ k, tokens.length = k + 1 := ⟨tokens.length - 1, by omega⟩
      rw [more]
      exact ⟨⟨rfl, rfl, rfl, rests₂.outputs⟩, left₂, by rw [many, more]⟩
  have few : tokens.length < fieldModulus := by
    rw [← many]
    exact Nat.lt_trans tokenCount.toNat_lt (by decide)
  obtain ⟨t₃, tokened, rests₃, left₃⟩ := scan_tokens areTokens few entered
  have registered := scan_plain rests₃ (by decide) registerCount
  have front : ∀ {out : List ScannedOutput} {t : ScanState}, scan.Reads t₃ (registerCount :: view.registers.flatten) out t →
      scan.Reads s (value ++ (tree ++ (height ++ tokenCount :: (tokens.flatten ++ registerCount :: view.registers.flatten)))) out t :=
    fun reads => valued.append (treed.append (heighted.append (.cons step (tokened.append reads))))
  by_cases none_ : registerCount.toNat = 0
  · have class_ : byteClass (groupOf .regCnt) registerCount.toNat = 0 := if_pos none_
    have ends : transition .regCnt 0 (t₃.tests (registerCount.toNat : Scalar)) =
        { ScanAction.go .regCnt with SHM := 0 }.outDone (t₃.tests (registerCount.toNat : Scalar)) := rfl
    have empty : view.registers = [] := List.eq_nil_of_length_eq_zero (many'.symm.trans none_)
    have silent := t₃.act_outDone { ScanAction.go .regCnt with SHM := 0 } (t₃.tests (registerCount.toNat : Scalar)) registerCount.toNat
      registerCount.toNat
    rw [ScanState.after_unshaped, if_neg unshaped.1] at silent
    rw [class_, ends] at registered
    have shape : shapeOf view = none := by simp [shapeOf, empty]
    have done := ScanState.after_outDone (a := { ScanAction.go .regCnt with SHM := 0 }) rfl rfl rests₃.outputs left₃ bound
      registerCount.toNat registerCount.toNat
    refine ⟨_, front ?_, done⟩
    rw [empty, shape]
    exact .one (registered.trans (Prod.ext rfl silent))
  · have class_ : byteClass (groupOf .regCnt) registerCount.toNat = 1 := (if_neg none_).trans (if_pos most)
    have starts : transition .regCnt 1 (t₃.tests (registerCount.toNat : Scalar)) =
        { { ScanAction.go .regCnt with SHM := 0 } with C2K := 0, C2B := 1, NEXT := .r4Ct } := rfl
    rw [class_, starts, ScanState.act_silent _ rfl, ScanState.after_registers] at registered
    have some_ : view.registers ≠ [] := by
      intro empty
      rw [empty] at many'
      exact none_ many'
    obtain ⟨last, reads, done⟩ := @scan_registers { t₃ with mode := .r4Ct, c2 := registerCount.toNat, sh := 0, a := 0, p := 1 } o n view bodies
      colls bound some_ (by rw [← many']; exact Nat.lt_of_le_of_lt most (by decide)) ⟨rfl, rfl, rfl, rests₃.outputs⟩ left₃
      (by rw [many']) rfl
    exact ⟨last, front (.cons registered reads), done⟩

/-- The outputs are read in order, each emitted where it has the shape. -/
theorem scan_outputs {chunks : List Bytes} {views : List ErgoOutputView} (outputs : List.Forall₂ IsOutput chunks views)
    (bound : chunks.length < fieldModulus) (held : AtOutputs o chunks.length s) :
    ∃ t, scan.Reads s chunks.flatten ((views.zipIdx o).filterMap fun view => (shapeOf view.1).map (ScannedOutput.mk view.2)) t := by
  induction outputs generalizing s o with
  | nil => exact ⟨s, .nil⟩
  | @cons chunk view chunks views output outputs ih =>
    obtain ⟨t, reads, own⟩ := scan_output output bound held
    obtain ⟨last, others⟩ := ih (Nat.lt_of_le_of_lt (Nat.le_succ _) bound) own
    refine ⟨last, ?_⟩
    have all := reads.append others
    rw [List.zipIdx_cons, List.filterMap_cons]
    cases shape : (shapeOf view).map (ScannedOutput.mk o) with
    | none =>
      rw [shape] at all
      exact all
    | some found =>
      rw [shape] at all
      exact all

end Outputs

/-- A transaction inside the grammar is read to its outputs with the shape. -/
theorem scan_reads {unsigned : Bytes} {views : List ErgoOutputView} (inside : IsTransaction unsigned views) :
    scan.emitted scanStart unsigned = views.zipIdx.filterMap fun view => (shapeOf view.1).map (ScannedOutput.mk view.2) := by
  obtain ⟨inputCount, dataCount, data, tokenCount, tokens, outputCount, inputs, outputs, d, t, rfl, vlq, limit, areInputs, vlq', size, limit',
    vlq'', size', limit'', vlq₃, limit₃, areOutputs⟩ := inside
  have start : scanStart.Rests .vIn 0 := ⟨rfl, rfl, rfl, rfl⟩
  have small : inputs.length < fieldModulus := Nat.lt_of_le_of_lt limit (by decide)
  obtain ⟨b, counted⟩ := scan_vlq start vlq rfl
  obtain ⟨s₁, counts, entered⟩ : ∃ s, scan.Reads scanStart inputCount [] s ∧ AtInputs 0 inputs.length s := by
    have zV := natCast_inj small (Nat.lt_of_le_of_lt (Nat.zero_le _) small)
    rw [Nat.cast_zero] at zV
    cases many : inputs.length with
    | zero =>
      have ends : transition .vIn 0 (scanStart.tests ((inputs.length : Nat) : Scalar)) = { ScanAction.go .vDi with C1K := 0, C1V := 1 } := by
        have zero : (scanStart.tests ((inputs.length : Nat) : Scalar)).zV = true := decide_eq_true (zV.mpr many)
        simp only [transition, zero]
        rfl
      rw [ends, ScanState.act_silent _ rfl, ScanState.after_total] at counted
      exact ⟨_, counted, rfl, rfl, rfl, rfl⟩
    | succ k =>
      have starts : transition .vIn 0 (scanStart.tests ((inputs.length : Nat) : Scalar)) =
          ({ ScanAction.go .vDi with C1K := 0, C1V := 1 }.next .sBox).setR 32 0 := by
        have zero : (scanStart.tests ((inputs.length : Nat) : Scalar)).zV = false :=
          decide_eq_false fun same => absurd ((zV.mp same).symm.trans many) (Nat.succ_ne_zero k).symm
        simp only [transition, zero]
        rfl
      rw [starts, ScanState.act_silent _ rfl, ScanState.after_inputs, many] at counted
      exact ⟨_, counted, ⟨rfl, rfl, rfl, rfl⟩, rfl, rfl⟩
  obtain ⟨s₂, ins, rests₂⟩ := scan_inputs areInputs small entered
  obtain ⟨s₃, datas, rests₃, -⟩ := scan_items vlq' rests₂ rfl (fun e => rfl) rfl (fun e => rfl) (by rw [size]; push_cast; rfl) (by decide : (0 : Int) < 32)
    (Nat.lt_of_le_of_lt limit' (by decide)) (by rw [size]; exact Nat.lt_of_le_of_lt (Nat.mul_le_mul_left 32 limit') (by decide))
  obtain ⟨s₄, ids, rests₄, -⟩ := scan_items vlq'' rests₃ rfl (fun e => rfl) rfl (fun e => rfl) (by rw [size']; push_cast; rfl)
    (by decide : (0 : Int) < 32) (Nat.lt_of_le_of_lt limit'' (by decide))
    (by rw [size']; exact Nat.lt_of_le_of_lt (Nat.mul_le_mul_left 32 limit'') (by decide))
  have small' : outputs.length < fieldModulus := Nat.lt_of_le_of_lt limit₃ (by decide)
  obtain ⟨b', counted'⟩ := scan_vlq rests₄ vlq₃ rfl
  obtain ⟨s₅, counts', entered'⟩ : ∃ s, scan.Reads s₄ outputCount [] s ∧ AtOutputs 0 outputs.length s := by
    have goes : transition .vOut 0 (s₄.tests ((outputs.length : Nat) : Scalar)) =
        { ScanAction.go (if (s₄.tests ((outputs.length : Nat) : Scalar)).zV then .end_ else .vValue) with C1K := 0, C1V := 1 } := rfl
    have zV := natCast_inj small' (Nat.lt_of_le_of_lt (Nat.zero_le _) small')
    rw [Nat.cast_zero] at zV
    rw [goes, ScanState.act_silent _ rfl, ScanState.after_total] at counted'
    refine ⟨_, counted', ?_⟩
    cases many : outputs.length with
    | zero =>
      have zero : (s₄.tests ((0 : Nat) : Scalar)).zV = true := decide_eq_true (Nat.cast_zero : ((0 : Nat) : Scalar) = 0)
      rw [zero]
      exact ⟨rfl, rfl, rfl, rests₄.outputs⟩
    | succ k =>
      have zero : (s₄.tests ((k + 1 : Nat) : Scalar)).zV = false :=
        decide_eq_false fun same => absurd ((many ▸ zV).mp same) (Nat.succ_ne_zero k)
      rw [zero]
      exact ⟨⟨rfl, rfl, rfl, rests₄.outputs⟩, rfl⟩
  obtain ⟨last, outs⟩ := scan_outputs areOutputs small' entered'
  have all := counts.append (ins.append (datas.append (ids.append (counts'.append outs))))
  simpa only [List.append_assoc, List.nil_append] using all.emitted

end Moe
