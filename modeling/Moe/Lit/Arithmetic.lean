import Moe.Lib.OrderedMap
import Moe.Lit.RecordCodec

namespace Moe

namespace Lit

/-- What a settlement reads of its demand: the demand's backing, quantity and nullifiers in its input order. -/
structure SettledClaim where
  backing : Bytes
  quantity : Nat
  nullifiers : List Bytes

section Outputs

variable [Crypto] [PublicKeys]

/-- Each input's nullifier, in input order, of a spend, burn or demand. -/
def inputNullifiers (s : Statement) : Except Failure (List Bytes) := do
  let own ← ownStatement s
  match own.body with
  | .spend _ ins _ | .burn _ _ ins _ | .demand _ ins _ _ _ => return ins.map fun input => noteNullifier (noteCommitment own.domain input)
  | _ => .error (.encoding "not a spend, burn or demand")

/-- Output `j` of a statement that consumes `nullifiers`. -/
def spentOutput (nullifiers : List Bytes) (entry : Output × Nat) : Opening := { entry.1 with rho := spendRho nullifiers entry.2 }

/-- The outputs a statement creates, each with its rho, a settlement's from its demand's claim. -/
def createdOutputs (statement : Statement) (claim : Option SettledClaim) : Except Failure (List Opening) := do
  let s ← ownStatement statement
  match s.body with
  | .issue _ backing quantity owner nonce =>
    let output : Output := ⟨backing, quantity, owner⟩
    return [{ output with rho := issueRho output nonce }]
  | .spend _ _ outputs | .burn _ _ _ outputs => do
    let nullifiers ← inputNullifiers s
    return outputs.zipIdx.map (spentOutput nullifiers)
  | .settle _ _ owner =>
    match claim with
    | none => .error (.encoding "a settlement's output needs its demand")
    | some claim => return [{ backing := claim.backing, value := claim.quantity, owner, rho := spendRho claim.nullifiers 0 }]
  | _ => return []

/-- A settlement's outputs need its demand, whose identity must be the one the settlement names. -/
def derivedOutputs (statement : Statement) (demand : Option Statement) : Except Failure (List Opening) := do
  let s ← ownStatement statement
  match s.body with
  | .settle _ named _ =>
    match demand with
    | none => .error (.encoding "a settlement's output needs its demand")
    | some demand => do
      let d ← ownStatement demand
      let identity ← statementHash d
      require (d.body.kind = 4 && d.domain = s.domain && identity = named) (.encoding "not the settlement's demand")
      let claim ← demandClaim d
      createdOutputs s (some ⟨claim.1, claim.2, ← inputNullifiers d⟩)
  | _ => createdOutputs s none

end Outputs

/-- Two inputs naming one note: equal openings are the one way to equal nullifiers. -/
def repeatsInput : List Opening → Bool
  | [a, b] => writeOpening a = writeOpening b
  | _ => false

def addInput (sums : OrderedMap Bytes Int) (input : Opening) : OrderedMap Bytes Int :=
  OrderedMap.set sums input.backing ((OrderedMap.get? sums input.backing).getD 0 + (input.value : Int))

/-- Each input backing's sum, in first-named order. -/
def inputSums (ins : List Opening) : OrderedMap Bytes Int := ins.foldl addInput []

/-- What is left of the sums after each output; none where an output names no input's backing. -/
def takeOutputs : OrderedMap Bytes Int → List Output → Option (OrderedMap Bytes Int)
  | sums, [] => some sums
  | sums, output :: outs =>
    match OrderedMap.get? sums output.backing with
    | none => none
    | some left => takeOutputs (OrderedMap.set sums output.backing (left - output.value)) outs

/-- A burn's inputs are one backing's, any change's too, and their sum its quantity and the change. -/
def burnHolds (sums : OrderedMap Bytes Int) (quantity : Nat) (outs : List Output) : Bool :=
  match sums, outs with
  | [(_, total)], [] => total = quantity
  | [(backing, total)], change :: _ => change.backing = backing && total = quantity + change.value
  | _, _ => false

/-- A demand's inputs are one backing's, and their sum a u64. -/
def demandHolds (sums : OrderedMap Bytes Int) : Bool :=
  match sums with
  | [(_, total)] => total < valueBound
  | _ => false

/-- The statement's own arithmetic: distinct inputs, a spend balancing per backing, a burn's inputs one backing's and worth its
quantity and change, a demand's one backing's and worth a u64. Sums never wrap. -/
def arithmeticHolds [PublicKeys] (statement : Statement) : Bool :=
  match ownStatement statement with
  | .error _ => false
  | .ok s =>
    match s.body with
    | .spend _ ins outs => !repeatsInput ins && (takeOutputs (inputSums ins) outs).any fun sums => sums.all (·.2 = 0)
    | .burn _ quantity ins outs => !repeatsInput ins && burnHolds (inputSums ins) quantity outs
    | .demand _ ins _ _ _ => !repeatsInput ins && demandHolds (inputSums ins)
    | _ => true

/-- What some notes of a backing are worth, as an unbounded integer. -/
def worthIn (backing : Bytes) (notes : List Output) : Nat := ((notes.filter (·.backing = backing)).map (·.value)).sum

/-- A statement whose notes balance: its inputs are distinct, and for each backing worth what its outputs are and what it burns;
a burn's and a demand's are of one backing, a demand's worth a u64. -/
def Body.Balanced : Body → Prop
  | .spend _ ins outs => ins.Nodup ∧ ∀ backing, worthIn backing (ins.map (·.toOutput)) = worthIn backing outs
  | .burn _ quantity ins outs => ins.Nodup ∧ ∃ burned, (∀ note ∈ ins.map (·.toOutput) ++ outs, note.backing = burned) ∧
      worthIn burned (ins.map (·.toOutput)) = quantity + worthIn burned outs
  | .demand _ ins _ _ _ => ins.Nodup ∧ ∃ demanded, (∀ note ∈ ins, note.backing = demanded) ∧ worthIn demanded (ins.map (·.toOutput)) < valueBound
  | _ => True

theorem worthIn_cons (backing : Bytes) (note : Output) (notes : List Output) :
    worthIn backing (note :: notes) = (if note.backing = backing then note.value else 0) + worthIn backing notes := by
  rw [worthIn, List.filter_cons]
  by_cases own : note.backing = backing
  · simp [own, worthIn]
  · simp [own, worthIn]

@[simp] theorem worthIn_nil (backing : Bytes) : worthIn backing [] = 0 := rfl

theorem worthIn_single (backing : Bytes) (note : Output) : worthIn backing [note] = if note.backing = backing then note.value else 0 := by
  rw [worthIn_cons, worthIn_nil, Nat.add_zero]

/-- Notes of one backing are worth it alone. -/
theorem worthIn_other {backing own : Bytes} {notes : List Output} (all : ∀ note ∈ notes, note.backing = own) (other : own ≠ backing) :
    worthIn backing notes = 0 := by
  induction notes with
  | nil => rfl
  | cons note rest ih =>
    obtain ⟨first, others⟩ := List.forall_mem_cons.mp all
    rw [worthIn_cons, if_neg (first ▸ other), ih others]

/-- Notes of one backing are worth their sum. -/
theorem worthIn_all {own : Bytes} {notes : List Output} (all : ∀ note ∈ notes, note.backing = own) :
    worthIn own notes = (notes.map (·.value)).sum := by
  induction notes with
  | nil => rfl
  | cons note rest ih =>
    obtain ⟨first, others⟩ := List.forall_mem_cons.mp all
    rw [worthIn_cons, if_pos first, ih others, List.map_cons, List.sum_cons]

theorem worthIn_none {backing : Bytes} {notes : List Output} (absent : backing ∉ notes.map (·.backing)) : worthIn backing notes = 0 := by
  rw [worthIn, List.filter_eq_nil_iff.mpr]
  · rfl
  · intro note member own
    exact absent (List.mem_map.mpr ⟨note, member, of_decide_eq_true own⟩)

theorem worthIn_pos {note : Output} {notes : List Output} (member : note ∈ notes) (positive : 0 < note.value) : 0 < worthIn note.backing notes := by
  induction notes with
  | nil => cases member
  | cons first rest ih =>
    rw [worthIn_cons]
    rcases List.mem_cons.mp member with rfl | later
    · rw [if_pos rfl]
      omega
    · have more := ih later
      omega

theorem mem_of_worthIn {backing : Bytes} {notes : List Output} (positive : 0 < worthIn backing notes) : backing ∈ notes.map (·.backing) := by
  by_contra absent
  have none_ := worthIn_none absent
  omega

section Sums

/-- The sums after some more inputs. -/
theorem foldl_addInput {ins : List Opening} {sums : OrderedMap Bytes Int} (keys : (sums.map (·.1)).Nodup) :
    ((ins.foldl addInput sums).map (·.1)).Nodup ∧ ∀ backing, OrderedMap.get? (ins.foldl addInput sums) backing =
      if backing ∈ ins.map (·.backing) then some ((OrderedMap.get? sums backing).getD 0 + (worthIn backing (ins.map (·.toOutput)) : Int))
      else OrderedMap.get? sums backing := by
  induction ins generalizing sums with
  | nil => exact ⟨keys, fun backing => by simp⟩
  | cons input rest ih =>
    have keys' : ((addInput sums input).map (·.1)).Nodup := OrderedMap.set_keys_nodup keys _ _
    obtain ⟨once, reads⟩ := ih keys'
    refine ⟨once, fun backing => ?_⟩
    rw [List.foldl_cons, reads, addInput, OrderedMap.get?_set, List.map_cons, List.map_cons, worthIn_cons]
    by_cases own : input.backing = backing
    · subst own
      simp only [List.mem_cons, true_or, if_true]
      by_cases later : input.backing ∈ rest.map (·.backing)
      · rw [if_pos later, Option.getD_some]
        push_cast
        rw [Int.add_assoc]
      · have nothing : input.backing ∉ (rest.map (·.toOutput)).map (·.backing) := by
          rw [List.map_map]
          exact later
        rw [if_neg later, worthIn_none nothing, Nat.add_zero]
    · have other : backing ≠ input.backing := fun same => own same.symm
      simp only [List.mem_cons, other, false_or, own, if_false, Nat.zero_add]

theorem inputSums_keys (ins : List Opening) : ((inputSums ins).map (·.1)).Nodup := (@foldl_addInput ins [] List.nodup_nil).1

theorem inputSums_get (ins : List Opening) (backing : Bytes) : OrderedMap.get? (inputSums ins) backing =
    if backing ∈ ins.map (·.backing) then some (worthIn backing (ins.map (·.toOutput)) : Int) else none := by
  have reads := (@foldl_addInput ins [] List.nodup_nil).2 backing
  simp only [OrderedMap.get?_nil, Option.getD_none, Int.zero_add] at reads
  exact reads

/-- The outputs take exactly what the sums are, and name no other backing. -/
theorem takeOutputs_zero {outs : List Output} {sums : OrderedMap Bytes Int} (keys : (sums.map (·.1)).Nodup) :
    ((takeOutputs sums outs).any fun sums => sums.all (·.2 = 0)) = true ↔
      (∀ output ∈ outs, (OrderedMap.get? sums output.backing).isSome = true) ∧
        ∀ backing left, OrderedMap.get? sums backing = some left → left = worthIn backing outs := by
  induction outs generalizing sums with
  | nil =>
    simp only [takeOutputs, Option.any_some, List.all_eq_true, decide_eq_true_eq, List.not_mem_nil, false_implies, implies_true, true_and]
    constructor
    · intro zero backing left read
      exact zero _ (OrderedMap.mem_of_get? read)
    · rintro zero ⟨backing, left⟩ member
      exact zero backing left (OrderedMap.get?_of_mem keys member)
  | cons output outs ih =>
    rw [takeOutputs, List.forall_mem_cons]
    cases read : OrderedMap.get? sums output.backing with
    | none => simp
    | some left =>
      rw [ih (OrderedMap.set_keys_nodup keys output.backing (left - output.value))]
      simp only [OrderedMap.get?_set, Option.isSome_some, true_and, worthIn_cons]
      constructor
      · rintro ⟨named, rest⟩
        refine ⟨fun other member => ?_, fun backing other found => ?_⟩
        · have here := named other member
          split at here
          · rename_i same
            rw [← same, read]
            rfl
          · exact here
        · by_cases own : output.backing = backing
          · subst own
            have last := rest output.backing (left - output.value) (if_pos rfl)
            obtain rfl : left = other := Option.some.inj (read.symm.trans found)
            rw [if_pos rfl]
            push_cast
            omega
          · have last := rest backing other ((if_neg own).trans found)
            rw [if_neg own, Nat.zero_add]
            exact last
      · rintro ⟨named, rest⟩
        refine ⟨fun other member => ?_, fun backing other found => ?_⟩
        · split
          · rfl
          · exact named other member
        · by_cases own : output.backing = backing
          · subst own
            rw [if_pos rfl] at found
            have last := rest output.backing left read
            rw [if_pos rfl] at last
            have here := Option.some.inj found
            push_cast at last
            omega
          · rw [if_neg own] at found
            have last := rest backing other found
            rw [if_neg own, Nat.zero_add] at last
            exact last

theorem foldl_addInput_single {ins : List Opening} {backing : Bytes} (all : ∀ input ∈ ins, input.backing = backing) (start : Int) :
    ins.foldl addInput [(backing, start)] = [(backing, start + (worthIn backing (ins.map (·.toOutput)) : Int))] := by
  induction ins generalizing start with
  | nil =>
    rw [List.foldl_nil, List.map_nil, worthIn_nil, Int.natCast_zero, Int.add_zero]
  | cons input rest ih =>
    obtain ⟨own, others⟩ := List.forall_mem_cons.mp all
    have added : addInput [(backing, start)] input = [(backing, start + (input.value : Int))] := by
      rw [addInput, own]
      simp [OrderedMap.set, OrderedMap.get?_cons]
    rw [List.foldl_cons, added, ih others, List.map_cons, worthIn_cons, if_pos own, Int.natCast_add, Int.add_assoc]

/-- One sum is of inputs of one backing. -/
theorem inputSums_single {ins : List Opening} (some_ : ins ≠ []) {backing : Bytes} {total : Int} :
    inputSums ins = [(backing, total)] ↔ (∀ input ∈ ins, input.backing = backing) ∧ total = worthIn backing (ins.map (·.toOutput)) := by
  constructor
  · intro single
    have reads := inputSums_get ins
    rw [single] at reads
    have all : ∀ input ∈ ins, input.backing = backing := by
      intro input member
      have read := reads input.backing
      rw [if_pos (List.mem_map_of_mem member), OrderedMap.get?_cons] at read
      split at read
      · rename_i same
        exact same.symm
      · cases read
    refine ⟨all, ?_⟩
    obtain ⟨first, rest, rfl⟩ := List.exists_cons_of_ne_nil some_
    have read := reads backing
    rw [OrderedMap.get?_cons, if_pos rfl, if_pos (by rw [← all first List.mem_cons_self]; exact List.mem_map_of_mem List.mem_cons_self)] at read
    exact Option.some.inj read
  · rintro ⟨all, rfl⟩
    obtain ⟨first, rest, rfl⟩ := List.exists_cons_of_ne_nil some_
    obtain ⟨own, others⟩ := List.forall_mem_cons.mp all
    have added : addInput [] first = [(backing, (first.value : Int))] := by
      rw [addInput, own]
      simp [OrderedMap.set]
    rw [inputSums, List.foldl_cons, added, foldl_addInput_single others, List.map_cons, worthIn_cons, if_pos own, Int.natCast_add]

end Sums

section Balance

variable [PublicKeys]

omit [PublicKeys] in
/-- Two inputs are one note where their bytes are equal. -/
theorem repeatsInput_eq_false {ins : List Opening} (few : ins.length ≤ maxInputs) (framed : ∀ i ∈ ins, i.Framed) :
    repeatsInput ins = false ↔ ins.Nodup := by
  rcases ins with _ | ⟨a, _ | ⟨b, _ | ⟨c, rest⟩⟩⟩
  · simp [repeatsInput]
  · simp [repeatsInput]
  · have first := framed a List.mem_cons_self
    have second := framed b (List.mem_cons_of_mem _ List.mem_cons_self)
    have same : writeOpening a = writeOpening b ↔ a = b :=
      ⟨fun equal => readOpening_inverts.inj first second equal, fun equal => congrArg writeOpening equal⟩
    simp [repeatsInput, same]
  · simp only [List.length_cons, maxInputs] at few
    omega

omit [PublicKeys] in
/-- A spend's sums are its inputs' and none is left of them. -/
theorem spendBalances {ins : List Opening} {outs : List Output} (positive : ∀ o ∈ outs, 0 < o.value) :
    ((takeOutputs (inputSums ins) outs).any fun sums => sums.all (·.2 = 0)) = true ↔
      ∀ backing, worthIn backing (ins.map (·.toOutput)) = worthIn backing outs := by
  have named : ∀ backing, (OrderedMap.get? (inputSums ins) backing).isSome = true ↔ backing ∈ ins.map (·.backing) := by
    intro backing
    rw [inputSums_get]
    split <;> simp_all
  have absent : ∀ backing, backing ∉ ins.map (·.backing) → worthIn backing (ins.map (·.toOutput)) = 0 := by
    intro backing none_
    refine worthIn_none ?_
    rw [List.map_map]
    exact none_
  rw [takeOutputs_zero (inputSums_keys ins)]
  constructor
  · rintro ⟨outputs, zero⟩ backing
    by_cases own : backing ∈ ins.map (·.backing)
    · have read := inputSums_get ins backing
      rw [if_pos own] at read
      exact Int.ofNat.inj (zero backing _ read)
    · rw [absent backing own]
      by_contra some_
      obtain ⟨output, member, rfl⟩ := List.mem_map.mp (mem_of_worthIn (Nat.pos_of_ne_zero fun same => some_ same.symm))
      exact own ((named _).mp (outputs output member))
  · intro balanced
    refine ⟨fun output member => (named _).mpr ?_, fun backing left read => ?_⟩
    · have worth := worthIn_pos member (positive output member)
      by_contra own
      rw [← balanced, absent _ own] at worth
      omega
    · rw [inputSums_get] at read
      split at read
      · rw [← balanced]
        exact (Option.some.inj read).symm
      · cases read

omit [PublicKeys] in
/-- A burn's inputs and its change are one backing's, and worth what it burns and its change. -/
theorem burnHolds_iff {quantity : Nat} {ins : List Opening} {outs : List Output} (some_ : ins ≠ []) (few : outs.length ≤ 1) :
    burnHolds (inputSums ins) quantity outs = true ↔ ∃ burned, (∀ note ∈ ins.map (·.toOutput) ++ outs, note.backing = burned) ∧
      worthIn burned (ins.map (·.toOutput)) = quantity + worthIn burned outs := by
  have single : ∀ burned total, inputSums ins = [(burned, total)] ↔
      (∀ note ∈ ins.map (·.toOutput), note.backing = burned) ∧ total = worthIn burned (ins.map (·.toOutput)) := by
    intro burned total
    rw [inputSums_single some_, List.forall_mem_map]
  constructor
  · intro holds
    unfold burnHolds at holds
    split at holds
    · rename_i burned total sums
      obtain ⟨all, rfl⟩ := (single burned total).mp sums
      refine ⟨burned, by simpa using all, ?_⟩
      rw [worthIn_nil]
      exact Int.ofNat.inj (of_decide_eq_true holds)
    · rename_i burned total change rest sums
      obtain ⟨all, rfl⟩ := (single burned total).mp sums
      obtain rfl : rest = [] := List.length_eq_zero_iff.mp (by simpa using few)
      obtain ⟨own, same⟩ := Bool.and_eq_true_iff.mp holds
      have own := of_decide_eq_true own
      have same := of_decide_eq_true same
      refine ⟨burned, fun note member => ?_, ?_⟩
      · rcases List.mem_append.mp member with input | output
        · exact all note input
        · rw [List.mem_singleton.mp output]
          exact own
      · rw [worthIn_cons, if_pos own, worthIn_nil]
        omega
    · cases holds
  · rintro ⟨burned, all, balanced⟩
    obtain ⟨ins_, outs_⟩ := List.forall_mem_append.mp all
    rw [(single burned _).mpr ⟨ins_, rfl⟩]
    rcases outs with _ | ⟨change, _ | ⟨other, rest⟩⟩
    · rw [worthIn_nil] at balanced
      exact decide_eq_true (congrArg Int.ofNat balanced)
    · have own := outs_ change List.mem_cons_self
      rw [worthIn_cons, if_pos own, worthIn_nil] at balanced
      refine Bool.and_eq_true_iff.mpr ⟨decide_eq_true own, decide_eq_true ?_⟩
      omega
    · simp only [List.length_cons] at few
      omega

omit [PublicKeys] in
/-- A demand's inputs are one backing's, and worth a u64. -/
theorem demandHolds_iff {ins : List Opening} (some_ : ins ≠ []) : demandHolds (inputSums ins) = true ↔
    ∃ demanded, (∀ note ∈ ins, note.backing = demanded) ∧ worthIn demanded (ins.map (·.toOutput)) < valueBound := by
  constructor
  · intro holds
    unfold demandHolds at holds
    split at holds
    · rename_i demanded total sums
      obtain ⟨all, rfl⟩ := (inputSums_single some_).mp sums
      have below := of_decide_eq_true holds
      exact ⟨demanded, all, by omega⟩
    · cases holds
  · rintro ⟨demanded, all, within⟩
    rw [(inputSums_single some_).mpr ⟨all, rfl⟩]
    simp only [demandHolds, decide_eq_true_eq]
    omega

/-- A statement a reader takes holds its arithmetic exactly where its notes balance. -/
theorem arithmeticHolds_iff {s : Statement} (sound : s.Sound) : arithmeticHolds s = true ↔ s.body.Balanced := by
  have own : ownStatement s = .ok s := ownStatement_eq_ok.mpr ⟨sound, rfl⟩
  obtain ⟨domain, body⟩ := s
  obtain ⟨-, sound⟩ := sound
  simp only [arithmeticHolds, own]
  cases body with
  | spend segment ins outs =>
    obtain ⟨-, ⟨⟨-, few⟩, openings⟩, -, outputs⟩ := sound
    have distinct := repeatsInput_eq_false few fun i member => (openings i member).framed
    simp only [Bool.and_eq_true, Bool.not_eq_true', distinct, spendBalances fun o member => (outputs o member).2.1.1, Body.Balanced]
  | burn segment quantity ins outs =>
    obtain ⟨-, -, ⟨⟨nonempty, few⟩, openings⟩, ⟨-, change⟩, -⟩ := sound
    have distinct := repeatsInput_eq_false few fun i member => (openings i member).framed
    have some_ : ins ≠ [] := List.ne_nil_of_length_pos nonempty
    simp only [Bool.and_eq_true, Bool.not_eq_true', distinct, burnHolds_iff some_ change, Body.Balanced]
  | demand segment ins presenter instant deadline =>
    obtain ⟨-, ⟨⟨nonempty, few⟩, openings⟩, -⟩ := sound
    have distinct := repeatsInput_eq_false few fun i member => (openings i member).framed
    have some_ : ins ≠ [] := List.ne_nil_of_length_pos nonempty
    simp only [Bool.and_eq_true, Bool.not_eq_true', distinct, demandHolds_iff some_, Body.Balanced]
  | _ => simp only [Body.Balanced]

end Balance

end Lit

end Moe
