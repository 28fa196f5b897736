import Mathlib.Data.Finset.Basic
import Mathlib.Data.String.Basic
import Moe.Lib.LeastPair
import Moe.Pool.Field

namespace Moe

/-- A note's value and its commitment. -/
class Valued (N : Type) where
  value : N → Nat
  cm : N → Nat

/-- A valued note with its nullifier. -/
class Spendable (N : Type) extends Valued N where
  nf : N → Nat

open Valued Spendable

/-- Why a selection was refused, with its reason. -/
inductive WalletRefusal
  | funds (reason : String)
  | conflict (reason : String)
  deriving DecidableEq, Repr

section Model

variable {N : Type} [DecidableEq N]

section

variable [Valued N]

/-- Notes by value, then by commitment. -/
def valueLe (a b : N) : Bool := value a < value b ∨ value a = value b ∧ cm a ≤ cm b

def byValue (notes : List N) : List N := notes.mergeSort valueLe

/-- The spendable single note or least-total pair covering `total`; ties by commitment. -/
def select (notes : List N) (total : Nat) (reason : String) : Except WalletRefusal (List N) :=
  match (byValue notes).find? fun n => total ≤ value n with
  | some single => .ok [single]
  | none =>
    match pairWalk value total (fun pair => isValue (pair - total)) (byValue notes) 0 ((byValue notes).length - 1) none with
    | some (a, b) => .ok [a, b]
    | none => .error (.funds reason)

/-- One note of exactly `total`, or a pair summing to it; ties by commitment. -/
def exactPair (total : Nat) : List N → Option (N × N)
  | [] => none
  | a :: rest =>
    match rest.find? fun n => value a + value n = total with
    | some b => some (a, b)
    | none => exactPair total rest

def byCommitment (notes : List N) : List N := notes.mergeSort fun a b => cm a ≤ cm b

def exactly (notes : List N) (total : Nat) : Option (List N) :=
  match (byCommitment notes).find? fun n => value n = total with
  | some single => some [single]
  | none => (exactPair total (byCommitment notes)).map fun (a, b) => [a, b]

/-- A demand's whole notes, unpresented ones first; failing those, the notes of one earlier demand, tried in identity order. Each note
comes with the demands presenting it. -/
def demandSelection (held : List (N × List String)) (total : Nat) : Except WalletRefusal (List N × List String) :=
  match exactly ((held.filter fun note => note.2 = []).map (·.1)) total with
  | some fresh => .ok (fresh, [])
  | none =>
    match ((held.flatMap (·.2)).dedup.mergeSort (· ≤ ·)).findSome? fun earlier =>
        exactly ((held.filter fun note => note.2.contains earlier).map (·.1)) total with
    | some selected =>
      .ok (selected, (selected.flatMap fun note => ((held.find? fun row => row.1 = note).map (·.2)).getD []).dedup.mergeSort (· ≤ ·))
    | none => .error (.funds ("no unpresented note or pair, nor one earlier demand's notes, is exactly the quantity; " ++
        "pay yourself that amount first, or freshen an earlier demand's notes, where admission is open"))

end

variable [Spendable N]

def meeting (meets : List (Finset Nat)) (picked : List N) : Bool := meets.all fun set => picked.any fun note => nf note ∈ set

/-- A pair of a met note and another, kept where it covers the total, meets every set and is the least so far. -/
def considerPair (meets : List (Finset Nat)) (total : Nat) (a : N) (best : Option (N × N)) (other : Option N) : Option (N × N) :=
  match other with
  | none => best
  | some b =>
    if a = b then best
    else if total ≤ value a + value b && isValue (value a + value b - total) && meeting meets [a, b] &&
        betters (pairWeight value) best (a, b) then some (a, b)
    else best

/-- Every pair a met note is considered in: beside each met note and, where it meets every set alone, beside the least note covering the
rest. -/
def considerMet (meets : List (Finset Nat)) (total : Nat) (sorted met : List N) (best : Option (N × N)) (a : N) : Option (N × N) :=
  let beside := met.foldl (fun best b => considerPair meets total a best (some b)) best
  if meeting meets [a] then considerPair meets total a beside (sorted.find? fun n => n ≠ a && total ≤ value a + value n) else beside

/-- `select` where the selection must spend a note of each set in `meets`. -/
def selectMeeting (notes : List N) (total : Nat) (meets : List (Finset Nat)) (reason : String) : Except WalletRefusal (List N) :=
  if meets = [] then select notes total reason
  else match (byValue notes).find? fun n => total ≤ value n && meeting meets [n] with
  | some single => .ok [single]
  | none =>
    let met := (byValue notes).filter fun n => meets.any fun set => nf n ∈ set
    match met.foldl (considerMet meets total (byValue notes) met) none with
    | some (a, b) => .ok (byValue [a, b])
    | none =>
      match select notes total reason with
      | .ok _ => .error (.conflict ("no one- or two-note selection covers it while spending a note of each failed payment " ++
          "to its requests: sync until they are decided"))
      | .error _ => .error (.funds reason)

end Model

end Moe

namespace Moe

open Valued Spendable

/-- Two notes of a list that cover a total together, with a change a value may be. -/
structure Covers {N : Type} [Valued N] (notes : List N) (total : Nat) (admits : List N → Prop) (a b : N) : Prop where
  first : a ∈ notes
  second : b ∈ notes
  apart : a ≠ b
  covers : total ≤ value a + value b
  change : isValue (value a + value b - total) = true
  admitted : admits [a, b]

/-- A note of a list that covers a total alone. -/
structure CoversAlone {N : Type} [Valued N] (notes : List N) (total : Nat) (admits : List N → Prop) (n : N) : Prop where
  listed : n ∈ notes
  covers : total ≤ value n
  admitted : admits [n]

/-- What a selection is among those admitted: the least note that covers the total or, where none does, a pair of least sum. -/
inductive Selects {N : Type} [Valued N] (notes : List N) (total : Nat) (admits : List N → Prop) : List N → Prop
  | single {n : N} : CoversAlone notes total admits n → (∀ m, CoversAlone notes total admits m → valueLe n m = true) →
      Selects notes total admits [n]
  | pair {a b : N} : (∀ m, ¬CoversAlone notes total admits m) → Covers notes total admits a b →
      (∀ c d, Covers notes total admits c d → value a + value b ≤ value c + value d) → Selects notes total admits [a, b]

/-- A selection exists: a note that covers the total alone, or a pair. -/
def Selectable {N : Type} [Valued N] (notes : List N) (total : Nat) (admits : List N → Prop) : Prop :=
  (∃ n, CoversAlone notes total admits n) ∨ ∃ a b, Covers notes total admits a b

section

variable {N : Type} [Valued N]

theorem valueLe_total (a b : N) : (valueLe a b || valueLe b a) = true := by
  simp only [valueLe, Bool.or_eq_true, decide_eq_true_eq]
  omega

theorem valueLe_trans {a b c : N} (first : valueLe a b = true) (second : valueLe b c = true) : valueLe a c = true := by
  simp only [valueLe, decide_eq_true_eq] at first second ⊢
  omega

theorem mem_byValue {notes : List N} {n : N} : n ∈ byValue notes ↔ n ∈ notes := List.mem_mergeSort

theorem byValue_sorted (notes : List N) : (byValue notes).Pairwise fun a b => valueLe a b = true :=
  @List.pairwise_mergeSort N valueLe (fun _ _ _ => valueLe_trans) valueLe_total notes

theorem byValue_values (notes : List N) : (byValue notes).Pairwise fun a b => value a ≤ value b := by
  refine (byValue_sorted notes).imp fun {a b} le => ?_
  simp only [valueLe, decide_eq_true_eq] at le
  omega

/-- Notes of distinct commitments are sorted one way. -/
theorem byValue_perm {notes others : List N} (distinct : (notes.map cm).Nodup) (perm : notes.Perm others) : byValue notes = byValue others := by
  refine List.Perm.eq_of_pairwise (fun a b first second le ge => ?_) (byValue_sorted notes) (byValue_sorted others)
    ((List.mergeSort_perm ..).trans (perm.trans (List.mergeSort_perm ..).symm))
  have same : cm a = cm b := by
    simp only [valueLe, decide_eq_true_eq] at le ge
    omega
  exact List.inj_on_of_nodup_map distinct (mem_byValue.mp first) (perm.mem_iff.mpr (mem_byValue.mp second)) same

theorem byCommitment_perm {notes others : List N} (distinct : (notes.map cm).Nodup) (perm : notes.Perm others) :
    byCommitment notes = byCommitment others := by
  have sorted : ∀ notes : List N, (byCommitment notes).Pairwise fun a b => cm a ≤ cm b := by
    intro notes
    have pairs := @List.pairwise_mergeSort N (fun a b => decide (cm a ≤ cm b)) (fun a b c first second => by
      simp only [decide_eq_true_eq] at first second ⊢
      omega) (fun a b => by
      simp only [Bool.or_eq_true, decide_eq_true_eq]
      omega) notes
    exact pairs.imp fun le => of_decide_eq_true le
  refine List.Perm.eq_of_pairwise (fun a b first second le ge => ?_) (sorted notes) (sorted others)
    ((List.mergeSort_perm ..).trans (perm.trans (List.mergeSort_perm ..).symm))
  exact List.inj_on_of_nodup_map distinct (List.mem_mergeSort.mp first) (perm.mem_iff.mpr (List.mem_mergeSort.mp second))
    (Nat.le_antisymm le ge)

/-- The first of the sorted notes that answers is the least that does. -/
theorem find?_byValue {notes : List N} {matched : N → Bool} {n : N} (found : (byValue notes).find? matched = some n) :
    n ∈ notes ∧ matched n = true ∧ ∀ m ∈ notes, matched m = true → valueLe n m = true := by
  refine ⟨mem_byValue.mp (List.mem_of_find?_eq_some found), List.find?_some found, fun m member answers => ?_⟩
  obtain ⟨-, before, after, same, none_⟩ := List.find?_eq_some_iff_append.mp found
  have listed : m ∈ before ++ n :: after := same ▸ mem_byValue.mpr member
  rcases List.mem_append.mp listed with early | late
  · have answers' := none_ m early
    simp [answers] at answers'
  · rcases List.mem_cons.mp late with rfl | later
    · have self := valueLe_total m m
      rwa [Bool.or_self] at self
    · have sorted := byValue_sorted notes
      rw [same] at sorted
      exact (List.pairwise_cons.mp (List.pairwise_append.mp sorted).2.1).1 m later

theorem isValue_downward {total s s' : Nat} (_ : total ≤ s) (le : s ≤ s') (change : isValue (s' - total) = true) :
    isValue (s - total) = true := by
  simp only [isValue, decide_eq_true_eq] at change ⊢
  omega

theorem Covers.swap {notes : List N} {total : Nat} {admits : List N → Prop} {a b : N} (covers : Covers notes total admits a b)
    (same : admits [b, a]) : Covers notes total admits b a where
  first := covers.second
  second := covers.first
  apart := covers.apart.symm
  covers := Nat.add_comm _ _ ▸ covers.covers
  change := Nat.add_comm _ _ ▸ covers.change
  admitted := same

/-- The pairs the walk looks through are those that cover the total, either way round. -/
theorem pairBetween_covers {notes : List N} (distinct : (notes.map cm).Nodup) {total : Nat} {pair : N × N}
    (between : PairBetween value total (fun sum => isValue (sum - total)) (byValue notes) 0 (0 + ((byValue notes).length - 1)) pair) :
    Covers notes total (fun _ => True) pair.1 pair.2 := by
  obtain ⟨x, y, -, less, -, atX, atY⟩ := between.places
  obtain ⟨boundX, first⟩ := List.getElem?_eq_some_iff.mp atX
  obtain ⟨boundY, second⟩ := List.getElem?_eq_some_iff.mp atY
  refine ⟨mem_byValue.mp (first ▸ List.getElem_mem boundX), mem_byValue.mp (second ▸ List.getElem_mem boundY), fun same => ?_, between.covers,
    between.admitted, trivial⟩
  have once : (byValue notes).Nodup := (List.mergeSort_perm ..).nodup_iff.mpr (List.Nodup.of_map _ distinct)
  have equal : (byValue notes)[x] = (byValue notes)[y] := first.trans (same.trans second.symm)
  exact less.ne ((List.Nodup.getElem_inj_iff once).mp equal)

theorem covers_pairBetween {notes : List N} {total : Nat} {a b : N} (covers : Covers notes total (fun _ => True) a b) :
    ∃ pair, PairBetween value total (fun sum => isValue (sum - total)) (byValue notes) 0 (0 + ((byValue notes).length - 1)) pair ∧
      pairWeight value pair = value a + value b := by
  obtain ⟨x, boundX, atX⟩ := List.getElem_of_mem (mem_byValue.mpr covers.first)
  obtain ⟨y, boundY, atY⟩ := List.getElem_of_mem (mem_byValue.mpr covers.second)
  have seenX : (byValue notes)[x]? = some a := List.getElem?_eq_some_iff.mpr ⟨boundX, atX⟩
  have seenY : (byValue notes)[y]? = some b := List.getElem?_eq_some_iff.mpr ⟨boundY, atY⟩
  rcases Nat.lt_trichotomy x y with less | same | more
  · exact ⟨(a, b), ⟨⟨x, y, Nat.zero_le _, less, by omega, seenX, seenY⟩, covers.covers, covers.change⟩, rfl⟩
  · subst same
    exact absurd (Option.some.inj (seenX.symm.trans seenY)) covers.apart
  · have sum : value b + value a = value a + value b := Nat.add_comm _ _
    refine ⟨(b, a), ⟨⟨y, x, Nat.zero_le _, more, by omega, seenY, seenX⟩, ?_, ?_⟩, sum⟩
    · simp only [pairWeight, sum]
      exact covers.covers
    · simp only [pairWeight, sum]
      exact covers.change

/-- The walk over the sorted notes keeps a least pair that covers the total, where one does. -/
theorem walk_least {notes : List N} (distinct : (notes.map cm).Nodup) (total : Nat) :
    Least (pairWeight value) (fun pair => Covers notes total (fun _ => True) pair.1 pair.2)
      (pairWalk value total (fun pair => isValue (pair - total)) (byValue notes) 0 ((byValue notes).length - 1) none) := by
  have walked := pairWalk_least (byValue_values notes) (fun s s' => @isValue_downward total s s') ((byValue notes).length - 1) 0
    (fun _ => False) none (by omega) (Least.none fun _ absent => absent)
  refine walked.widen (fun pair member => ?_) fun pair covers => ?_
  · rcases member with none_ | between
    · exact none_.elim
    · exact pairBetween_covers distinct between
  · obtain ⟨other, between, same⟩ := covers_pairBetween covers
    exact ⟨other, .inr between, same.le⟩

/-- `select` returns the least note that covers the total, else a least pair, and refuses where there is neither. -/
theorem select_spec [DecidableEq N] {notes : List N} (distinct : (notes.map cm).Nodup) (total : Nat) (reason : String) :
    (∀ picked, select notes total reason = .ok picked → Selects notes total (fun _ => True) picked) ∧
      (∀ refusal, select notes total reason = .error refusal → refusal = .funds reason ∧ ¬Selectable notes total fun _ => True) := by
  have least := walk_least distinct total
  cases alone : (byValue notes).find? fun n => total ≤ value n with
  | some n =>
    obtain ⟨listed, covers, below⟩ := find?_byValue alone
    refine ⟨fun picked run => ?_, fun refusal run => ?_⟩
    · simp only [select, alone, Except.ok.injEq] at run
      subst run
      exact .single ⟨listed, of_decide_eq_true covers, trivial⟩ fun m other => below m other.listed (decide_eq_true other.covers)
    · simp only [select, alone, reduceCtorEq] at run
  | none =>
    have none_ : ∀ m, ¬CoversAlone notes total (fun _ => True) m := fun m covers =>
      List.find?_eq_none.mp alone m (mem_byValue.mpr covers.listed) (decide_eq_true covers.covers)
    simp only [select, alone]
    generalize pairWalk value total (fun pair => isValue (pair - total)) (byValue notes) 0 ((byValue notes).length - 1) none = best at least
    cases best with
    | some pair =>
      obtain ⟨a, b⟩ := pair
      refine ⟨fun picked run => ?_, fun refusal run => (by cases run)⟩
      obtain rfl := Except.ok.inj run
      refine .pair none_ (least.own _ rfl) fun c d covers => ?_
      obtain ⟨other, found, le⟩ := least.below (c, d) covers
      obtain rfl := Option.some.inj found
      exact le
    | none =>
      refine ⟨fun picked run => (by cases run), fun refusal run => ⟨(Except.error.inj run).symm, ?_⟩⟩
      rintro (⟨n, covers⟩ | ⟨a, b, covers⟩)
      · exact none_ n covers
      · obtain ⟨other, found, -⟩ := least.below (a, b) covers
        cases found

end

section

variable {N : Type} [Spendable N]

theorem meeting_eq {meets : List (Finset Nat)} {picked : List N} :
    meeting meets picked = true ↔ ∀ set ∈ meets, ∃ note ∈ picked, nf note ∈ set := by
  simp only [meeting, List.all_eq_true, List.any_eq_true, decide_eq_true_eq]

theorem meeting_pair {meets : List (Finset Nat)} {a b : N} :
    meeting meets [a, b] = true ↔ ∀ set ∈ meets, nf a ∈ set ∨ nf b ∈ set := by
  simp [meeting_eq]

theorem meeting_swap {meets : List (Finset Nat)} {a b : N} (meets_ : meeting meets [a, b] = true) : meeting meets [b, a] = true :=
  meeting_pair.mpr fun set member => (meeting_pair.mp meets_ set member).symm

/-- A pair that a met note is considered in. -/
structure PairMeets (meets : List (Finset Nat)) (total : Nat) (a b : N) : Prop where
  apart : a ≠ b
  covers : total ≤ value a + value b
  change : isValue (value a + value b - total) = true
  meets : meeting meets [a, b] = true

variable [DecidableEq N] {meets : List (Finset Nat)} {total : Nat}

theorem considerPair_least {among : N × N → Prop} {best : Option (N × N)} (least : Least (pairWeight value) among best) (a : N)
    (other : Option N) : Least (pairWeight value) (fun c => among c ∨ ∃ b, other = some b ∧ PairMeets meets total a b ∧ c = (a, b))
      (considerPair meets total a best other) := by
  cases other with
  | none => exact least.congr fun c => by simp
  | some b =>
    by_cases same : a = b
    · simp only [considerPair, if_pos same]
      refine least.congr fun c => ⟨.inl, fun member => ?_⟩
      rcases member with old | ⟨b', found, pair, -⟩
      · exact old
      · obtain rfl := Option.some.inj found
        exact absurd same pair.apart
    · by_cases pair : PairMeets meets total a b
      · have considered := least.consider (a, b)
        simp only [considerPair, if_neg same, pair.covers, pair.change, pair.meets, decide_true, Bool.true_and]
        refine considered.congr fun c => or_congr_right ⟨fun equal => ⟨b, rfl, pair, equal⟩, ?_⟩
        rintro ⟨b', found, -, equal⟩
        obtain rfl := Option.some.inj found
        exact equal
      · have refused : (total ≤ value a + value b && isValue (value a + value b - total) && meeting meets [a, b] &&
            betters (pairWeight value) best (a, b)) = false := by
          by_contra some_
          simp only [Bool.not_eq_false, Bool.and_eq_true, decide_eq_true_eq] at some_
          exact pair ⟨same, some_.1.1.1, some_.1.1.2, some_.1.2⟩
        simp only [considerPair, if_neg same, refused, Bool.false_eq_true, if_false]
        refine least.congr fun c => ⟨.inl, fun member => ?_⟩
        rcases member with old | ⟨b', found, own, -⟩
        · exact old
        · obtain rfl := Option.some.inj found
          exact absurd own pair

/-- The pairs a met note is considered in: beside each met note, or the least note covering the rest. -/
def Considered (meets : List (Finset Nat)) (total : Nat) (sorted met : List N) (a : N) (c : N × N) : Prop :=
  (∃ b ∈ met, PairMeets meets total a b ∧ c = (a, b)) ∨ meeting meets [a] = true ∧
    ∃ b, (sorted.find? fun n => n ≠ a && total ≤ value a + value n) = some b ∧ PairMeets meets total a b ∧ c = (a, b)

theorem considerMet_least {among : N × N → Prop} {best : Option (N × N)} (least : Least (pairWeight value) among best) (sorted met : List N)
    (a : N) : Least (pairWeight value) (fun c => among c ∨ Considered meets total sorted met a c)
      (considerMet meets total sorted met best a) := by
  have beside : Least (pairWeight value) (fun c => among c ∨ ∃ b ∈ met, PairMeets meets total a b ∧ c = (a, b))
      (met.foldl (fun best b => considerPair meets total a best (some b)) best) := by
    refine Least.foldl (fun b c => PairMeets meets total a b ∧ c = (a, b)) (fun among best b least => ?_) met least
    refine (considerPair_least least a (some b)).congr fun c => or_congr_right ⟨?_, fun own => ⟨b, rfl, own⟩⟩
    rintro ⟨b', found, own⟩
    obtain rfl := Option.some.inj found
    exact own
  unfold considerMet
  by_cases alone : meeting meets [a] = true
  · rw [if_pos alone]
    refine (considerPair_least beside a _).congr fun c => ?_
    simp only [Considered, alone, true_and, or_assoc]
  · rw [if_neg alone]
    refine beside.congr fun c => ?_
    simp only [Considered, alone, Bool.false_eq_true, false_and, or_false]

/-- The pairs considered hold a least pair that covers the total and meets every set. -/
theorem considered_least (notes : List N) (total : Nat) (given : meets ≠ []) :
    Least (pairWeight value) (fun pair => Covers notes total (fun picked => meeting meets picked = true) pair.1 pair.2)
      (((byValue notes).filter fun n => meets.any fun set => nf n ∈ set).foldl
        (considerMet meets total (byValue notes) ((byValue notes).filter fun n => meets.any fun set => nf n ∈ set)) none) := by
  have mem_met : ∀ n, n ∈ ((byValue notes).filter fun n => meets.any fun set => nf n ∈ set) ↔ n ∈ notes ∧ ∃ set ∈ meets, nf n ∈ set := by
    intro n
    simp only [List.mem_filter, mem_byValue, List.any_eq_true, decide_eq_true_eq]
  generalize ((byValue notes).filter fun n => meets.any fun set => nf n ∈ set) = met at mem_met
  have start : Least (pairWeight value) (fun _ : N × N => False) none := Least.none fun _ absent => absent
  have folded := Least.foldl (Considered meets total (byValue notes) met)
    (fun among best a least => considerMet_least least (byValue notes) met a) met start
  refine folded.widen (fun pair member => ?_) fun pair covers => ?_
  · rcases member with none_ | ⟨a, listed, ⟨b, listed', own, rfl⟩ | ⟨-, b, found, own, rfl⟩⟩
    · exact none_.elim
    · exact ⟨((mem_met a).mp listed).1, ((mem_met b).mp listed').1, own.apart, own.covers, own.change, own.meets⟩
    · exact ⟨((mem_met a).mp listed).1, (find?_byValue found).1, own.apart, own.covers, own.change, own.meets⟩
  · obtain ⟨a, b⟩ := pair
    have pair_ : PairMeets meets total a b := ⟨covers.apart, covers.covers, covers.change, covers.admitted⟩
    -- Where a pair's other note meets no set, the first meets them all alone, and the least note covering the rest does as well.
    have alone : ∀ c d : N, Covers notes total (fun picked => meeting meets picked = true) c d → d ∉ met →
        ∃ e, Considered meets total (byValue notes) met c e ∧ c ∈ met ∧ pairWeight value e ≤ value c + value d := by
      intro c d covers unmet
      have every : ∀ set ∈ meets, nf c ∈ set := fun set member =>
        (meeting_pair.mp covers.admitted set member).resolve_right fun other => unmet ((mem_met d).mpr ⟨covers.second, set, member, other⟩)
      have single : meeting meets [c] = true := meeting_eq.mpr fun set member => ⟨c, List.mem_singleton_self c, every set member⟩
      obtain ⟨set, member⟩ := List.exists_mem_of_ne_nil meets given
      have answers : (d ≠ c && total ≤ value c + value d) = true := by
        simp [covers.apart.symm, covers.covers]
      obtain ⟨n, found⟩ := Option.isSome_iff_exists.mp
        (@List.find?_isSome _ (byValue notes) (fun n => n ≠ c && total ≤ value c + value n) |>.mpr ⟨d, mem_byValue.mpr covers.second, answers⟩)
      obtain ⟨listed, answers', below⟩ := find?_byValue found
      have le : value n ≤ value d := by
        have below := below d covers.second answers
        simp only [valueLe, decide_eq_true_eq] at below
        omega
      simp only [ne_eq, Bool.and_eq_true, decide_not, Bool.not_eq_true', decide_eq_false_iff_not, decide_eq_true_eq] at answers'
      refine ⟨(c, n), .inr ⟨single, n, found, ⟨Ne.symm answers'.1, answers'.2, ?_, ?_⟩, rfl⟩,
        (mem_met c).mpr ⟨covers.first, set, member, every set member⟩, Nat.add_le_add_left le _⟩
      · exact isValue_downward answers'.2 (Nat.add_le_add_left le _) covers.change
      · exact meeting_pair.mpr fun set member => .inl (every set member)
    by_cases first : a ∈ met
    · by_cases second : b ∈ met
      · exact ⟨(a, b), .inr ⟨a, first, .inl ⟨b, second, pair_, rfl⟩⟩, Nat.le_refl _⟩
      · obtain ⟨e, considered, -, le⟩ := alone a b covers second
        exact ⟨e, .inr ⟨a, first, considered⟩, le⟩
    · obtain ⟨e, considered, listed, le⟩ := alone b a (covers.swap (meeting_swap covers.admitted)) first
      exact ⟨e, .inr ⟨b, listed, considered⟩, le.trans (Nat.add_comm _ _).le⟩

omit [DecidableEq N] in
/-- A picked pair is given in order. -/
theorem byValue_pair (a b : N) : byValue [a, b] = if valueLe a b then [a, b] else [b, a] := by
  unfold byValue
  rw [List.mergeSort]
  simp [List.MergeSort.Internal.splitInTwo, List.merge]

omit [DecidableEq N] in
/-- A least pair may be given either way round. -/
theorem Selects.ordered {notes : List N} {a b : N} (none_ : ∀ m, ¬CoversAlone notes total (fun picked => meeting meets picked = true) m)
    (covers : Covers notes total (fun picked => meeting meets picked = true) a b)
    (least : ∀ c d, Covers notes total (fun picked => meeting meets picked = true) c d → value a + value b ≤ value c + value d) :
    Selects notes total (fun picked => meeting meets picked = true) (byValue [a, b]) := by
  rw [byValue_pair]
  split
  · exact .pair none_ covers least
  · refine .pair none_ (covers.swap (meeting_swap covers.admitted)) fun c d other => ?_
    have le := least c d other
    omega

/-- `selectMeeting` selects as `select` does among the selections that spend a note of each set. It refuses for funds where `select`
refuses, and for the sets where only they refuse. -/
theorem selectMeeting_spec {notes : List N} (distinct : (notes.map cm).Nodup) (meets : List (Finset Nat)) (total : Nat) (reason : String) :
    (∀ picked, selectMeeting notes total meets reason = .ok picked →
      Selects notes total (fun picked => meeting meets picked = true) picked) ∧
    (∀ refusal, selectMeeting notes total meets reason = .error refusal →
      ¬Selectable notes total (fun picked => meeting meets picked = true) ∧
        ((refusal = .funds reason ∧ select notes total reason = .error (.funds reason)) ∨
          (∃ why, refusal = .conflict why) ∧ ∃ picked, select notes total reason = .ok picked)) := by
  have plain := select_spec distinct total reason
  by_cases empty : meets = []
  · subst empty
    have every : (fun picked : List N => meeting [] picked = true) = fun _ => True := by
      funext picked
      simp [meeting]
    rw [every]
    simp only [selectMeeting, if_true]
    refine ⟨plain.1, fun refusal run => ?_⟩
    obtain ⟨rfl, refused⟩ := plain.2 refusal run
    exact ⟨refused, .inl ⟨rfl, run⟩⟩
  · have least := considered_least notes total empty
    simp only [selectMeeting, if_neg empty]
    cases alone : (byValue notes).find? fun n => total ≤ value n && meeting meets [n] with
    | some n =>
      obtain ⟨listed, answers, below⟩ := find?_byValue alone
      simp only [Bool.and_eq_true, decide_eq_true_eq] at answers
      refine ⟨fun picked run => ?_, fun refusal run => (by cases run)⟩
      obtain rfl := Except.ok.inj run
      refine .single ⟨listed, answers.1, answers.2⟩ fun m other => below m other.listed ?_
      simp only [other.covers, other.admitted, decide_true, Bool.and_self]
    | none =>
      have none_ : ∀ m, ¬CoversAlone notes total (fun picked => meeting meets picked = true) m := by
        intro m covers
        refine List.find?_eq_none.mp alone m (mem_byValue.mpr covers.listed) ?_
        simp only [covers.covers, covers.admitted, decide_true, Bool.and_self]
      simp only
      generalize ((byValue notes).filter fun n => meets.any fun set => nf n ∈ set).foldl
        (considerMet meets total (byValue notes) ((byValue notes).filter fun n => meets.any fun set => nf n ∈ set)) none = best at least
      cases best with
      | some pair =>
        obtain ⟨a, b⟩ := pair
        refine ⟨fun picked run => ?_, fun refusal run => (by cases run)⟩
        obtain rfl := Except.ok.inj run
        refine .ordered none_ (least.own _ rfl) fun c d covers => ?_
        obtain ⟨other, found, le⟩ := least.below (c, d) covers
        obtain rfl := Option.some.inj found
        exact le
      | none =>
        have refused : ¬Selectable notes total (fun picked => meeting meets picked = true) := by
          rintro (⟨n, covers⟩ | ⟨a, b, covers⟩)
          · exact none_ n covers
          · obtain ⟨other, found, -⟩ := least.below (a, b) covers
            cases found
        cases run : select notes total reason with
        | ok picked => exact ⟨fun picked run => (by cases run), fun refusal run => ⟨refused, .inr ⟨⟨_, (Except.error.inj run).symm⟩, picked, rfl⟩⟩⟩
        | error refusal =>
          obtain ⟨rfl, -⟩ := plain.2 refusal run
          exact ⟨fun picked run => (by cases run), fun refusal run => ⟨refused, .inl ⟨(Except.error.inj run).symm, rfl⟩⟩⟩

end

end Moe

namespace Moe

open Valued Spendable

/-- A note of exactly the total, or a pair summing to it. -/
inductive Exact {N : Type} [Valued N] (notes : List N) (total : Nat) : List N → Prop
  | single {n : N} : n ∈ notes → value n = total → Exact notes total [n]
  | pair {a b : N} : a ∈ notes → b ∈ notes → a ≠ b → value a + value b = total → Exact notes total [a, b]

theorem found_decides {α : Type} {P : α → Prop} [DecidablePred P] {xs : List α} {a : α}
    (found : xs.find? (fun x => decide (P x)) = some a) : a ∈ xs ∧ P a :=
  ⟨List.mem_of_find?_eq_some found, by simpa using List.find?_some found⟩

section

variable {N : Type} [Valued N] {total : Nat}

theorem Exact.subset {notes : List N} {picked : List N} (exact_ : Exact notes total picked) : ∀ n ∈ picked, n ∈ notes := by
  cases exact_ with
  | single listed _ => simpa using listed
  | pair first second _ _ => simp [first, second]

theorem exactPair_spec {notes : List N} (once : notes.Nodup) :
    (∀ a b, exactPair total notes = some (a, b) → a ∈ notes ∧ b ∈ notes ∧ a ≠ b ∧ value a + value b = total) ∧
      (exactPair total notes = none → ∀ a ∈ notes, ∀ b ∈ notes, a ≠ b → value a + value b ≠ total) := by
  induction notes with
  | nil => exact ⟨fun a b run => (by cases run), fun _ a member => absurd member List.not_mem_nil⟩
  | cons head rest ih =>
    obtain ⟨absent, once⟩ := List.nodup_cons.mp once
    obtain ⟨some_, none_⟩ := ih once
    simp only [exactPair]
    cases beside : rest.find? fun n => value head + value n = total with
    | some other =>
      refine ⟨fun a b run => ?_, fun run => (by cases run)⟩
      obtain ⟨rfl, rfl⟩ := Prod.mk.inj (Option.some.inj run)
      obtain ⟨listed, sum⟩ := found_decides beside
      exact ⟨List.mem_cons_self, List.mem_cons_of_mem _ listed, fun same => absent (same ▸ listed), sum⟩
    | none =>
      have alone : ∀ b ∈ rest, value head + value b ≠ total := fun b member sum =>
        List.find?_eq_none.mp beside b member (decide_eq_true sum)
      refine ⟨fun a b run => ?_, fun run a first b second apart => ?_⟩
      · obtain ⟨first, second, rest_⟩ := some_ a b run
        exact ⟨List.mem_cons_of_mem _ first, List.mem_cons_of_mem _ second, rest_⟩
      · rcases List.mem_cons.mp first with rfl | inside <;> rcases List.mem_cons.mp second with same | inside'
        · exact absurd same.symm apart
        · exact alone b inside'
        · rw [Nat.add_comm, same]
          exact alone a inside
        · exact none_ run a inside b inside' apart

/-- `exact` picks a note or a pair of exactly the total wherever there is one. -/
theorem exactly_spec {notes : List N} (distinct : (notes.map cm).Nodup) (total : Nat) :
    (∀ picked, exactly notes total = some picked → Exact notes total picked) ∧
      (exactly notes total = none → ∀ picked, ¬Exact notes total picked) := by
  have mem : ∀ n, n ∈ byCommitment notes ↔ n ∈ notes := fun n => List.mem_mergeSort
  have once : (byCommitment notes).Nodup := (List.mergeSort_perm ..).nodup_iff.mpr (List.Nodup.of_map _ distinct)
  obtain ⟨some_, none_⟩ := @exactPair_spec N _ total _ once
  unfold exactly
  cases alone : (byCommitment notes).find? fun n => value n = total with
  | some n =>
    refine ⟨fun picked run => ?_, fun run => (by cases run)⟩
    obtain rfl := Option.some.inj run
    obtain ⟨listed, sum⟩ := found_decides alone
    exact .single ((mem n).mp listed) sum
  | none =>
    refine ⟨fun picked run => ?_, fun run picked found => ?_⟩
    · obtain ⟨⟨a, b⟩, pair, rfl⟩ := Option.map_eq_some_iff.mp run
      obtain ⟨first, second, apart, sum⟩ := some_ a b pair
      exact .pair ((mem a).mp first) ((mem b).mp second) apart sum
    · cases found with
      | single listed sum => exact List.find?_eq_none.mp alone _ ((mem _).mpr listed) (decide_eq_true sum)
      | pair first second apart sum =>
        exact none_ (Option.map_eq_none_iff.mp run) _ ((mem _).mpr first) _ ((mem _).mpr second) apart sum

theorem select_perm [DecidableEq N] {notes others : List N} (distinct : (notes.map cm).Nodup) (perm : notes.Perm others) (total : Nat)
    (reason : String) : select notes total reason = select others total reason := by
  simp only [select, byValue_perm distinct perm]

theorem exactly_perm {notes others : List N} (distinct : (notes.map cm).Nodup) (perm : notes.Perm others) :
    exactly notes total = exactly others total := by
  simp only [exactly, byCommitment_perm distinct perm]

theorem selectMeeting_perm {N : Type} [Spendable N] [DecidableEq N] {notes others : List N} (distinct : (notes.map cm).Nodup)
    (perm : notes.Perm others) (total : Nat) (meets : List (Finset Nat)) (reason : String) :
    selectMeeting notes total meets reason = selectMeeting others total meets reason := by
  simp only [selectMeeting, byValue_perm distinct perm, select_perm distinct perm]

end

section

variable {N : Type} [Valued N] [DecidableEq N] {total : Nat} {held others : List (N × List String)}

/-- The notes of some rows that answer. -/
def notesWhere (held : List (N × List String)) (matched : List String → Bool) : List N := (held.filter fun note => matched note.2).map (·.1)

omit [Valued N] [DecidableEq N] in
theorem mem_notesWhere {matched : List String → Bool} {n : N} : n ∈ notesWhere held matched ↔ ∃ names, (n, names) ∈ held ∧ matched names = true := by
  simp only [notesWhere, List.mem_map, List.mem_filter, Prod.exists, exists_and_right, exists_eq_right]

omit [DecidableEq N] in
theorem notesWhere_distinct (distinct : (held.map fun note => cm note.1).Nodup) (matched : List String → Bool) :
    ((notesWhere held matched).map cm).Nodup := by
  rw [notesWhere, List.map_map]
  exact distinct.sublist (List.filter_sublist.map _)

/-- The demands presenting a note, as the rows give them. -/
def presenting (held : List (N × List String)) (note : N) : List String := ((held.find? fun row => row.1 = note).map (·.2)).getD []

theorem presenting_eq (distinct : (held.map fun note => cm note.1).Nodup) {n : N} {names : List String} (member : (n, names) ∈ held) :
    presenting held n = names := by
  obtain ⟨row, found⟩ := Option.isSome_iff_exists.mp
    (@List.find?_isSome _ held (fun row => row.1 = n) |>.mpr ⟨(n, names), member, decide_eq_true rfl⟩)
  obtain ⟨listed, same⟩ := found_decides found
  have equal : row = (n, names) := List.inj_on_of_nodup_map distinct listed member (congrArg cm same)
  rw [presenting, found, equal]
  rfl

/-- Names in order, each once: the same whatever order they come in. -/
theorem sorted_eq {a b : List String} (same : ∀ name, name ∈ a ↔ name ∈ b) : a.dedup.mergeSort (· ≤ ·) = b.dedup.mergeSort (· ≤ ·) := by
  have sorted : ∀ names : List String, (names.dedup.mergeSort (· ≤ ·)).Pairwise (· ≤ ·) := by
    intro names
    have pairs := @List.pairwise_mergeSort String (fun a b => decide (a ≤ b)) (fun a b c first second =>
      decide_eq_true (le_trans (of_decide_eq_true first) (of_decide_eq_true second))) (fun a b => by
        simp only [Bool.or_eq_true, decide_eq_true_eq]
        exact le_total a b) names.dedup
    exact pairs.imp fun le => of_decide_eq_true le
  refine List.Perm.eq_of_pairwise (fun x y _ _ le ge => le_antisymm le ge) (sorted a) (sorted b)
    ((List.mergeSort_perm ..).trans (List.Perm.trans ?_ (List.mergeSort_perm ..).symm))
  exact (List.perm_ext_iff_of_nodup (List.nodup_dedup a) (List.nodup_dedup b)).mpr fun name => by
    simp only [List.mem_dedup, same]

/-- A note that some demand presents, as the rows give it. -/
def PresentedBy (held : List (N × List String)) (n : N) (demand : String) : Prop := ∃ names, (n, names) ∈ held ∧ demand ∈ names

/-- What a demand's selection is: notes of exactly the total, unpresented wherever such notes suffice and otherwise all presented by one
demand, and every demand that presents one of them. -/
structure DemandSelected (held : List (N × List String)) (total : Nat) (selected : List N) (repeats : List String) : Prop where
  exact_ : Exact (held.map (·.1)) total selected
  common : (∀ n ∈ selected, ∀ demand, ¬PresentedBy held n demand) ∨ ∃ demand, ∀ n ∈ selected, PresentedBy held n demand
  fresh : (∃ picked, Exact (notesWhere held fun names => names = []) total picked) → ∀ n ∈ selected, ∀ demand, ¬PresentedBy held n demand
  repeats : ∀ demand, demand ∈ repeats ↔ ∃ n ∈ selected, PresentedBy held n demand

omit [Valued N] [DecidableEq N] in
theorem notesWhere_subset {matched : List String → Bool} {n : N} (member : n ∈ notesWhere held matched) : n ∈ held.map (·.1) := by
  obtain ⟨names, listed, -⟩ := mem_notesWhere.mp member
  exact List.mem_map_of_mem listed

omit [DecidableEq N] in
theorem Exact.mono {notes more : List N} {picked : List N} (exact_ : Exact notes total picked) (subset : ∀ n ∈ notes, n ∈ more) :
    Exact more total picked := by
  cases exact_ with
  | single listed sum => exact .single (subset _ listed) sum
  | pair first second apart sum => exact .pair (subset _ first) (subset _ second) apart sum

theorem mem_presenting (distinct : (held.map fun note => cm note.1).Nodup) {n : N} {demand : String} :
    demand ∈ presenting held n ↔ PresentedBy held n demand := by
  constructor
  · intro member
    cases found : held.find? fun row => row.1 = n with
    | none =>
      rw [presenting, found] at member
      exact absurd member List.not_mem_nil
    | some row =>
      obtain ⟨listed, rfl⟩ := found_decides found
      rw [presenting, found] at member
      exact ⟨row.2, listed, member⟩
  · rintro ⟨names, listed, member⟩
    rwa [presenting_eq distinct listed]

omit [DecidableEq N] in
theorem notesWhere_unpresented (distinct : (held.map fun note => cm note.1).Nodup) {n : N}
    (member : n ∈ notesWhere held fun names => names = []) (demand : String) : ¬PresentedBy held n demand := by
  obtain ⟨names, listed, empty⟩ := mem_notesWhere.mp member
  rintro ⟨names', listed', inside⟩
  have same : (n, names) = (n, names') := List.inj_on_of_nodup_map distinct listed listed' rfl
  obtain rfl : names = names' := congrArg Prod.snd same
  rw [of_decide_eq_true empty] at inside
  exact absurd inside List.not_mem_nil

/-- A demand's selection is as described, and is refused only where no unpresented notes and no one demand's notes are exactly the total. -/
theorem demandSelection_spec (distinct : (held.map fun note => cm note.1).Nodup) (total : Nat) :
    (∀ selected repeats, demandSelection held total = .ok (selected, repeats) → DemandSelected held total selected repeats) ∧
      (∀ refusal, demandSelection held total = .error refusal → (∃ reason, refusal = .funds reason) ∧
        (∀ picked, ¬Exact (notesWhere held fun names => names = []) total picked) ∧
        ∀ demand picked, ¬Exact (notesWhere held fun names => names.contains demand) total picked) := by
  have plain := exactly_spec (notesWhere_distinct distinct fun names => names = []) total
  have earlier := fun demand : String => exactly_spec (notesWhere_distinct distinct fun names => names.contains demand) total
  unfold demandSelection
  cases fresh : exactly (notesWhere held fun names => names = []) total with
  | some picked =>
    have exact_ := plain.1 picked fresh
    have unpresented : ∀ n ∈ picked, ∀ demand, ¬PresentedBy held n demand :=
      fun n member => notesWhere_unpresented distinct (exact_.subset n member)
    unfold notesWhere at fresh
    simp only [fresh]
    refine ⟨fun selected repeats run => ?_, fun refusal run => (by cases run)⟩
    obtain ⟨rfl, rfl⟩ := Prod.mk.inj (Except.ok.inj run)
    refine ⟨exact_.mono fun n => notesWhere_subset, .inl unpresented, fun _ => unpresented, fun demand => ?_⟩
    refine ⟨fun member => absurd member List.not_mem_nil, ?_⟩
    rintro ⟨n, member, presented⟩
    exact absurd presented (unpresented n member demand)
  | none =>
    have none_ := plain.2 fresh
    unfold notesWhere at fresh
    simp only [fresh]
    cases search : ((held.flatMap (·.2)).dedup.mergeSort (· ≤ ·)).findSome? fun earlier =>
        exactly ((held.filter fun note => note.2.contains earlier).map (·.1)) total with
    | some picked =>
      obtain ⟨demand, -, run⟩ := List.exists_of_findSome?_eq_some search
      have exact_ := (earlier demand).1 picked run
      have presented : ∀ n ∈ picked, PresentedBy held n demand := by
        intro n member
        obtain ⟨names, listed, inside⟩ := mem_notesWhere.mp (exact_.subset n member)
        exact ⟨names, listed, List.contains_iff_mem.mp inside⟩
      refine ⟨fun selected repeats run => ?_, fun refusal run => (by cases run)⟩
      obtain ⟨rfl, rfl⟩ := Prod.mk.inj (Except.ok.inj run)
      refine ⟨exact_.mono fun n => notesWhere_subset, .inr ⟨demand, presented⟩, fun some_ => absurd some_.choose_spec (none_ _), fun name => ?_⟩
      rw [List.mem_mergeSort, List.mem_dedup, List.mem_flatMap]
      exact exists_congr fun n => and_congr_right fun _ => mem_presenting distinct
    | none =>
      refine ⟨fun selected repeats run => (by cases run), fun refusal run => ⟨⟨_, (Except.error.inj run).symm⟩, none_, ?_⟩⟩
      intro demand
      by_cases listed : demand ∈ held.flatMap (·.2)
      · exact (earlier demand).2 (List.findSome?_eq_none_iff.mp search demand
          (List.mem_mergeSort.mpr (List.mem_dedup.mpr listed)))
      · intro picked exact_
        have absent : ∀ n, n ∉ notesWhere held fun names => names.contains demand := by
          intro n member
          obtain ⟨names, row, inside⟩ := mem_notesWhere.mp member
          exact listed (List.mem_flatMap.mpr ⟨_, row, List.contains_iff_mem.mp inside⟩)
        cases exact_ with
        | single listed _ => exact absent _ listed
        | pair first _ _ _ => exact absent _ first

theorem demandSelection_perm (distinct : (held.map fun note => cm note.1).Nodup) (perm : held.Perm others) (total : Nat) :
    demandSelection held total = demandSelection others total := by
  have picked : ∀ matched : List String → Bool, exactly ((held.filter fun note => matched note.2).map (·.1)) total =
      exactly ((others.filter fun note => matched note.2).map (·.1)) total :=
    fun matched => exactly_perm (notesWhere_distinct distinct matched) ((perm.filter _).map _)
  have distinct' : (others.map fun note => cm note.1).Nodup := (perm.map _).nodup_iff.mp distinct
  have presented : ∀ n, presenting held n = presenting others n := by
    intro n
    by_cases listed : ∃ names, (n, names) ∈ held
    · obtain ⟨names, row⟩ := listed
      rw [presenting_eq distinct row, presenting_eq distinct' (perm.mem_iff.mp row)]
    · have none_ : ∀ rows : List (N × List String), (¬∃ names, (n, names) ∈ rows) → presenting rows n = [] := by
        intro rows absent
        have unseen : rows.find? (fun row => row.1 = n) = none :=
          List.find?_eq_none.mpr fun row member same => absent ⟨row.2, of_decide_eq_true same ▸ member⟩
        rw [presenting, unseen]
        rfl
      rw [none_ held listed, none_ others fun ⟨names, row⟩ => listed ⟨names, perm.mem_iff.mpr row⟩]
  have names : (held.flatMap (·.2)).dedup.mergeSort (· ≤ ·) = (others.flatMap (·.2)).dedup.mergeSort (· ≤ ·) :=
    sorted_eq fun name => (perm.flatMap_right _).mem_iff
  have repeats : ∀ n, ((held.find? fun row => row.1 = n).map (·.2)).getD [] = ((others.find? fun row => row.1 = n).map (·.2)).getD [] :=
    presented
  have fresh := picked fun names => names = []
  have search : ((held.flatMap (·.2)).dedup.mergeSort (· ≤ ·)).findSome? (fun earlier =>
      exactly ((held.filter fun note => note.2.contains earlier).map (·.1)) total) =
      ((others.flatMap (·.2)).dedup.mergeSort (· ≤ ·)).findSome? fun earlier =>
        exactly ((others.filter fun note => note.2.contains earlier).map (·.1)) total := by
    rw [names]
    exact congrArg (List.findSome? · _) (funext fun demand => picked fun names => names.contains demand)
  simp only [demandSelection, fresh, search, repeats]

end

section

variable {N : Type} [Spendable N] [DecidableEq N]

omit [DecidableEq N] in
theorem Selects.selectable {notes : List N} {total : Nat} {admits : List N → Prop} {picked : List N}
    (selects : Selects notes total admits picked) : Selectable notes total admits := by
  cases selects with
  | single covers _ => exact .inl ⟨_, covers⟩
  | pair _ covers _ => exact .inr ⟨_, _, covers⟩

/-- What the selections of notes are. -/
structure NotesSelected (notes : List N) (total : Nat) (reason : String) : Prop where
  selected : ∀ picked, select notes total reason = .ok picked → Selects notes total (fun _ => True) picked
  refused : ∀ refusal, select notes total reason = .error refusal ↔ refusal = .funds reason ∧ ¬Selectable notes total fun _ => True
  met : ∀ meets picked, selectMeeting notes total meets reason = .ok picked →
    Selects notes total (fun picked => meeting meets picked = true) picked
  metFunds : ∀ meets, selectMeeting notes total meets reason = .error (.funds reason) ↔ ¬Selectable notes total fun _ => True
  metConflict : ∀ meets, (∃ why, selectMeeting notes total meets reason = .error (.conflict why)) ↔
    Selectable notes total (fun _ => True) ∧ ¬Selectable notes total fun picked => meeting meets picked = true
  whole : ∀ picked, exactly notes total = some picked → Exact notes total picked
  none_ : exactly notes total = none ↔ ∀ picked, ¬Exact notes total picked
  order : ∀ others, notes.Perm others → select notes total reason = select others total reason ∧
    (∀ meets, selectMeeting notes total meets reason = selectMeeting others total meets reason) ∧ exactly notes total = exactly others total

/-- What a demand's selection of notes is, each note given with the demands presenting it. -/
structure DemandsSelected (held : List (N × List String)) (total : Nat) : Prop where
  selected : ∀ selected repeats, demandSelection held total = .ok (selected, repeats) → DemandSelected held total selected repeats
  refused : ∀ refusal, demandSelection held total = .error refusal → (∃ reason, refusal = .funds reason) ∧
    (∀ picked, ¬Exact (notesWhere held fun names => names = []) total picked) ∧
    ∀ demand picked, ¬Exact (notesWhere held fun names => names.contains demand) total picked
  order : ∀ others, held.Perm others → demandSelection held total = demandSelection others total

theorem select_refused {notes : List N} (distinct : (notes.map cm).Nodup) (total : Nat) (reason : String) (refusal : WalletRefusal) :
    select notes total reason = .error refusal ↔ refusal = .funds reason ∧ ¬Selectable notes total fun _ => True := by
  obtain ⟨selected, refused⟩ := select_spec distinct total reason
  refine ⟨refused refusal, ?_⟩
  rintro ⟨rfl, none_⟩
  cases run : select notes total reason with
  | ok picked => exact absurd (selected picked run).selectable none_
  | error other => rw [(refused other run).1]

/-- The note selections find what there is, of the least sum, whatever order the notes come in. -/
theorem notes_selected {notes : List N} (distinct : (notes.map cm).Nodup) (total : Nat) (reason : String) :
    NotesSelected notes total reason ∧ ∀ held : List (N × List String), held.map (·.1) = notes → DemandsSelected held total := by
  obtain ⟨selected, -⟩ := select_spec distinct total reason
  have met := fun meets => selectMeeting_spec distinct meets total reason
  obtain ⟨whole, none_⟩ := exactly_spec distinct total
  have refused := select_refused distinct total reason
  refine ⟨⟨selected, refused, fun meets => (met meets).1, fun meets => ⟨fun run => ?_, fun none_ => ?_⟩,
    fun meets => ⟨?_, ?_⟩, whole, ⟨none_, fun absent => ?_⟩, fun others perm => ⟨select_perm distinct perm total reason,
      fun meets => selectMeeting_perm distinct perm total meets reason, exactly_perm distinct perm⟩⟩, ?_⟩
  · rcases ((met meets).2 _ run).2 with ⟨-, run⟩ | ⟨⟨why, other⟩, -⟩
    · exact ((refused _).mp run).2
    · cases other
  · cases run : selectMeeting notes total meets reason with
    | ok picked =>
      refine absurd ?_ none_
      rcases ((met meets).1 picked run).selectable with ⟨n, covers⟩ | ⟨a, b, covers⟩
      · exact .inl ⟨n, covers.listed, covers.covers, trivial⟩
      · exact .inr ⟨a, b, covers.first, covers.second, covers.apart, covers.covers, covers.change, trivial⟩
    | error refusal =>
      rcases ((met meets).2 refusal run).2 with ⟨rfl, -⟩ | ⟨-, picked, run⟩
      · rfl
      · exact absurd (selected picked run).selectable none_
  · rintro ⟨why, run⟩
    obtain ⟨unmet, ⟨other, -⟩ | ⟨-, picked, run⟩⟩ := (met meets).2 _ run
    · cases other
    · exact ⟨(selected picked run).selectable, unmet⟩
  · rintro ⟨selectable, unmet⟩
    cases run : selectMeeting notes total meets reason with
    | ok picked => exact absurd ((met meets).1 picked run).selectable unmet
    | error refusal =>
      rcases ((met meets).2 refusal run).2 with ⟨-, run⟩ | ⟨⟨why, rfl⟩, -⟩
      · exact absurd selectable ((refused _).mp run).2
      · exact ⟨why, rfl⟩
  · cases run : exactly notes total with
    | none => rfl
    | some picked => exact absurd (whole picked run) (absent picked)
  · rintro held rfl
    have distinct' : (held.map fun note => cm note.1).Nodup := by rwa [List.map_map] at distinct
    obtain ⟨selected, refused⟩ := demandSelection_spec distinct' total
    exact ⟨selected, refused, fun others perm => demandSelection_perm distinct' perm total⟩

end

/-- A note by its value, commitment and nullifier. -/
structure SampleNote where
  value : Nat
  cm : Nat
  nf : Nat
  deriving DecidableEq

instance sampleSpendable : Spendable SampleNote where
  value := SampleNote.value
  cm := SampleNote.cm
  nf := SampleNote.nf

def sampleHand : List SampleNote := [⟨3, 9, 1⟩, ⟨6, 8, 2⟩, ⟨5, 7, 3⟩, ⟨1, 6, 4⟩]

def samplePresented : List (SampleNote × List String) := [(⟨3, 9, 1⟩, ["a"]), (⟨6, 8, 2⟩, []), (⟨5, 7, 3⟩, ["b", "a"]), (⟨1, 6, 4⟩, ["c"])]

/-- Eight is covered by the 3 and the 5. -/
theorem sampleNotes_selected : NotesSelected sampleHand 8 "none" ∧ DemandsSelected samplePresented 8 ∧
    select sampleHand 8 "none" = .ok [⟨3, 9, 1⟩, ⟨5, 7, 3⟩] := by
  obtain ⟨selected, held⟩ := @notes_selected SampleNote _ _ sampleHand (by decide) 8 "none"
  refine ⟨selected, held _ rfl, ?_⟩
  have sorted : byValue sampleHand = [⟨1, 6, 4⟩, ⟨3, 9, 1⟩, ⟨5, 7, 3⟩, ⟨6, 8, 2⟩] := by
    simp [byValue, sampleHand, List.mergeSort, List.MergeSort.Internal.splitInTwo, valueLe, value, cm]
  rw [select, sorted]
  decide

end Moe
