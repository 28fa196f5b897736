import Mathlib.Data.List.Find
import Moe.Scope.Record

namespace Moe

/-- What a read of checkpoints stops before: nothing, an index, or a checkpoint in rank order. -/
inductive Bound
  | all
  | strict (index : Nat)
  | checkpoint (index : Nat) (operator : Bytes) (sequence : Nat)
  deriving DecidableEq

/-- Before a bound in rank order: at a checkpoint's own index, its operator's lower sequences only. -/
def Bound.admits (bound : Bound) (index sequence : Nat) (operator : Bytes) : Bool :=
  match bound with
  | all => true
  | strict at_ => index < at_
  | checkpoint at_ own below => index < at_ || (index = at_ && operator = own && sequence < below)

/-- A valid carrying candidate of a backing within its term. -/
structure ValidRow where
  index : Nat
  sequence : Nat
  operator : Bytes
  deriving DecidableEq

/-- One row for each index and sequence. -/
def putValid (rows : List ValidRow) (row : ValidRow) : List ValidRow :=
  row :: rows.filter fun other => ¬(other.index = row.index ∧ other.sequence = row.sequence)

/-- The later of two rows, by index and then by sequence. -/
def laterRow (best : Option ValidRow) (row : ValidRow) : Option ValidRow :=
  match best with
  | none => some row
  | some held => if held.index < row.index ∨ held.index = row.index ∧ held.sequence < row.sequence then some row else some held

/-- The latest valid candidate before a bound. -/
def latestValid (rows : List ValidRow) (bound : Bound) : Option ValidRow :=
  (rows.filter fun row => bound.admits row.index row.sequence row.operator).foldl laterRow none

/-- The index of the latest valid candidate strictly before an index, 0 where none is. -/
def latestIndexIn (rows : List ValidRow) (i : Nat) : Nat := ((latestValid rows (.strict i)).map (·.index)).getD 0

/-- How far a walk has classified a backing's checkpoints: its term, and the last sequence there. -/
structure Cursor where
  term : Nat
  after : Option Nat
  busy : Bool
  deriving DecidableEq

def Cursor.start : Cursor := ⟨0, none, false⟩

/-- The next checkpoint of the cursor's term. -/
def Cursor.next (view : RecordView) (cursor : Cursor) : Option HeldCommitment :=
  (view.chain[cursor.term]?).bind fun term =>
    (view.nextHeld term.operator term.start cursor.after).filter fun h => h.index ≤ view.termEnd cursor.term

/-- What one turn of an advance does: it is done, moves to the next term, classifies a checkpoint, or finds one being classified. -/
inductive Turn
  | done
  | moved (cursor : Cursor)
  | judge (h : HeldCommitment)
  | conflict
  deriving DecidableEq

def Cursor.turn (view : RecordView) (bound : Bound) (cursor : Cursor) : Turn :=
  if view.chain.length ≤ cursor.term then .done
  else
    match cursor.next view with
    | none => if cursor.term + 1 = view.chain.length then .done else .moved ⟨cursor.term + 1, none, cursor.busy⟩
    | some h => if bound.admits h.index h.sequence h.operator then if cursor.busy then .conflict else .judge h else .done

/-- The cursor past a classified checkpoint. -/
def Cursor.past (cursor : Cursor) (h : HeldCommitment) : Cursor := ⟨cursor.term, some h.sequence, false⟩

/-- The index of a backing's latest valid checkpoint strictly before an index, 0 where none is. -/
def RecordView.latestIndex (view : RecordView) (valid : HeldCommitment → Bool) (i : Nat) : Nat :=
  (((view.points.filter valid).map (·.index)).filter (· < i)).foldr max 0

/-- The latest of some rows is one of them, or none is there. -/
theorem foldl_laterRow {rows : List ValidRow} {best : Option ValidRow} :
    (rows.foldl laterRow best = best ∨ ∃ row ∈ rows, rows.foldl laterRow best = some row) ∧
      ∀ row, row ∈ rows ∨ best = some row → ∃ last, rows.foldl laterRow best = some last ∧ row.index ≤ last.index := by
  induction rows generalizing best with
  | nil =>
    refine ⟨.inl rfl, fun row held => ?_⟩
    rcases held with member | same
    · cases member
    · exact ⟨row, same, le_rfl⟩
  | cons row rest ih =>
    obtain ⟨chosen, above⟩ := @ih (laterRow best row)
    have step : laterRow best row = some row ∨ ∃ held, best = some held ∧ laterRow best row = some held ∧ row.index ≤ held.index := by
      cases best with
      | none => exact .inl rfl
      | some held =>
        by_cases later : held.index < row.index ∨ held.index = row.index ∧ held.sequence < row.sequence
        · exact .inl (if_pos later)
        · exact .inr ⟨held, rfl, if_neg later, by omega⟩
    constructor
    · rcases chosen with same | ⟨other, member, same⟩
      · rcases step with new | ⟨held, rfl, old, -⟩
        · exact .inr ⟨row, List.mem_cons_self, same.trans new⟩
        · exact .inl (same.trans old)
      · exact .inr ⟨other, List.mem_cons_of_mem _ member, same⟩
    · rintro other (member | rfl)
      · rcases List.mem_cons.mp member with rfl | later
        · rcases step with new | ⟨held, -, old, le⟩
          · exact above other (.inr new)
          · obtain ⟨last, same, bound⟩ := above held (.inr old)
            exact ⟨last, same, le.trans bound⟩
        · exact above other (.inl later)
      · rcases step with new | ⟨held, same, old, -⟩
        · obtain ⟨last, same, bound⟩ := above row (.inr new)
          refine ⟨last, same, le_trans ?_ bound⟩
          simp only [laterRow] at new
          split at new
          · omega
          · exact (congrArg ValidRow.index (Option.some.inj new)).le
        · obtain rfl := Option.some.inj same
          exact above other (.inr old)

/-- An index no row before `i` is past, and 0 or one of theirs. -/
theorem latestIndexIn_spec (rows : List ValidRow) (i : Nat) :
    (∀ row ∈ rows, row.index < i → row.index ≤ latestIndexIn rows i) ∧
      (latestIndexIn rows i = 0 ∨ ∃ row ∈ rows, row.index = latestIndexIn rows i ∧ row.index < i) := by
  obtain ⟨chosen, above⟩ := @foldl_laterRow (rows.filter fun row => (Bound.strict i).admits row.index row.sequence row.operator) none
  constructor
  · intro row member less
    obtain ⟨last, same, bound⟩ := above row (.inl (List.mem_filter.mpr ⟨member, by simpa [Bound.admits] using less⟩))
    rw [latestIndexIn, latestValid, same]
    exact bound
  · rcases chosen with none_ | ⟨row, member, same⟩
    · rw [latestIndexIn, latestValid, none_]
      exact .inl rfl
    · obtain ⟨inside, less⟩ := List.mem_filter.mp member
      rw [latestIndexIn, latestValid, same]
      exact .inr ⟨row, inside, rfl, by simpa [Bound.admits] using less⟩

theorem foldr_max_spec (indices : List Nat) :
    (∀ j ∈ indices, j ≤ indices.foldr max 0) ∧ (indices.foldr max 0 = 0 ∨ indices.foldr max 0 ∈ indices) := by
  induction indices with
  | nil => simp
  | cons first rest ih =>
    obtain ⟨above, chosen⟩ := ih
    rw [List.foldr_cons]
    constructor
    · intro j member
      rcases List.mem_cons.mp member with rfl | later
      · exact le_max_left _ _
      · exact (above j later).trans (le_max_right _ _)
    · rcases Nat.le_total first (rest.foldr max 0) with le | le
      · rw [max_eq_right le]
        rcases chosen with zero | member
        · exact .inl zero
        · exact .inr (List.mem_cons_of_mem _ member)
      · rw [max_eq_left le]
        exact .inr List.mem_cons_self

theorem RecordView.latestIndex_spec (view : RecordView) (valid : HeldCommitment → Bool) (i : Nat) :
    (∀ h ∈ view.points, valid h = true → h.index < i → h.index ≤ view.latestIndex valid i) ∧
      (view.latestIndex valid i = 0 ∨ ∃ h ∈ view.points, valid h = true ∧ h.index = view.latestIndex valid i ∧ h.index < i) := by
  obtain ⟨above, chosen⟩ := foldr_max_spec (((view.points.filter valid).map (·.index)).filter (· < i))
  constructor
  · intro h member judged less
    refine above _ (List.mem_filter.mpr ⟨List.mem_map_of_mem (List.mem_filter.mpr ⟨member, judged⟩), by simpa using less⟩)
  · rcases chosen with zero | member
    · exact .inl zero
    · obtain ⟨mapped, less⟩ := List.mem_filter.mp member
      obtain ⟨h, inside, same⟩ := List.mem_map.mp mapped
      obtain ⟨point, judged⟩ := List.mem_filter.mp inside
      have less : view.latestIndex valid i < i := of_decide_eq_true less
      exact .inr ⟨h, point, judged, same, by rw [same]; exact less⟩

namespace Cursor

variable {view : RecordView} {cursor : Cursor}

/-- The last sequence of a cursor is a checkpoint's of its term. -/
def Well (view : RecordView) (cursor : Cursor) : Prop :=
  ∀ a, cursor.after = some a → ∃ h ∈ view.candidates cursor.term, h.sequence = a

/-- A checkpoint the cursor has passed. -/
def Passed (view : RecordView) (cursor : Cursor) (h : HeldCommitment) : Prop :=
  ∃ i, h ∈ view.candidates i ∧ (i < cursor.term ∨ i = cursor.term ∧ ∃ a, cursor.after = some a ∧ h.sequence ≤ a)

theorem start_well : Well view start := fun _ none_ => absurd none_.symm (Option.some_ne_none _)

theorem start_passed (h : HeldCommitment) : ¬Passed view start h := by
  rintro ⟨i, -, less | ⟨-, a, none_, -⟩⟩
  · exact Nat.not_lt_zero i less
  · exact Option.some_ne_none a none_.symm

/-- Past a sequence of its term, an operator's next commitment is the first of a later sequence. -/
theorem nextHeld_after {term : ChainLink} (found : view.chain[cursor.term]? = some term) (well : Well view cursor) :
    view.nextHeld term.operator term.start cursor.after =
      (view.held term.operator).find? fun h => (term.start ≤ h.index ∧ ∀ a, cursor.after = some a → a < h.sequence) ∧ h.index ≤ view.t := by
  cases after : cursor.after with
  | none => simp [RecordView.nextHeld]
  | some a =>
    obtain ⟨g, member, rfl⟩ := well a after
    obtain ⟨term', found', held, starts, -⟩ := RecordView.mem_candidates.mp member
    obtain rfl := Option.some.inj (found.symm.trans found')
    have later : ∀ h ∈ view.held term.operator, g.sequence < h.sequence → term.start ≤ h.index := by
      intro h inside more
      obtain ⟨m, insideG, rfl⟩ := List.getElem_of_mem held
      obtain ⟨n, insideH, rfl⟩ := List.getElem_of_mem inside
      have ordered := List.pairwise_iff_getElem.mp (view.ordered term.operator)
      rcases Nat.lt_trichotomy m n with less | rfl | above
      · exact starts.trans (ordered m n insideG insideH less).1
      · omega
      · have := (ordered n m insideH insideG above).2
        omega
    have same : (view.held term.operator).find? (fun h => g.sequence < h.sequence ∧ h.index ≤ view.t) =
        (view.held term.operator).find? fun h =>
          (term.start ≤ h.index ∧ ∀ a, some g.sequence = some a → a < h.sequence) ∧ h.index ≤ view.t := by
      refine List.find?_congr fun h inside => ?_
      simp only [Option.some.injEq, forall_eq', decide_eq_decide]
      constructor
      · exact fun both => ⟨⟨later h inside both.1, both.1⟩, both.2⟩
      · exact fun all => ⟨all.1.2, all.2⟩
    simp only [RecordView.nextHeld]
    rw [← same]
    cases seen : (view.held term.operator).find? (fun h => g.sequence < h.sequence ∧ h.index ≤ view.t) with
    | none => rfl
    | some h =>
      have fits := List.find?_some seen
      simp only [decide_eq_true_eq] at fits
      simp only [if_pos (later h (List.mem_of_find?_eq_some seen) fits.1)]

theorem next_eq_some (well : Well view cursor) {h : HeldCommitment} (next : cursor.next view = some h) :
    h ∈ view.candidates cursor.term ∧ (∀ a, cursor.after = some a → a < h.sequence) ∧
      ∀ g ∈ view.candidates cursor.term, (∀ a, cursor.after = some a → a < g.sequence) → g = h ∨ h.sequence < g.sequence := by
  obtain ⟨term, found, next⟩ := Option.bind_eq_some_iff.mp next
  rw [nextHeld_after found well] at next
  obtain ⟨seen, ends⟩ := Option.filter_eq_some_iff.mp next
  have fits := List.find?_some seen
  simp only [decide_eq_true_eq] at fits ends
  refine ⟨RecordView.mem_candidates.mpr ⟨term, found, List.mem_of_find?_eq_some seen, fits.1.1, ends⟩, fits.1.2, fun g member later => ?_⟩
  obtain ⟨term', found', held, starts, within⟩ := RecordView.mem_candidates.mp member
  obtain rfl := Option.some.inj (found.symm.trans found')
  obtain ⟨_, before, after, whole, earlier⟩ := List.find?_eq_some_iff_append.mp seen
  rw [whole] at held
  rcases List.mem_append.mp held with inside | inside
  · have misses := earlier g inside
    simp only [Bool.not_eq_true', decide_eq_false_iff_not, not_and] at misses
    exact absurd (within.trans (RecordView.termEnd_le _)) (misses ⟨starts, later⟩)
  · rcases List.mem_cons.mp inside with same | beyond
    · exact .inl same
    · have ordered := view.ordered term.operator
      rw [whole, List.pairwise_append] at ordered
      exact .inr ((List.pairwise_cons.mp ordered.2.1).1 g beyond).2

theorem next_eq_none (well : Well view cursor) (none_ : cursor.next view = none) :
    ∀ g ∈ view.candidates cursor.term, ∃ a, cursor.after = some a ∧ g.sequence ≤ a := by
  intro g member
  by_contra fresh
  have later : ∀ a, cursor.after = some a → a < g.sequence := by
    intro a after
    by_contra le
    exact fresh ⟨a, after, Nat.le_of_not_lt le⟩
  obtain ⟨term, found, held, starts, within⟩ := RecordView.mem_candidates.mp member
  have bound := @RecordView.termEnd_le view cursor.term
  rw [next, found, Option.bind_some, nextHeld_after found well] at none_
  cases seen : (view.held term.operator).find? fun h =>
      (term.start ≤ h.index ∧ ∀ a, cursor.after = some a → a < h.sequence) ∧ h.index ≤ view.t with
  | none =>
    have misses := List.find?_eq_none.mp seen g held
    simp only [decide_eq_true_eq] at misses
    exact misses ⟨⟨starts, later⟩, within.trans bound⟩
  | some h =>
    rw [seen] at none_
    have ends : ¬h.index ≤ view.termEnd cursor.term := by simpa using none_
    obtain ⟨fitsH, before, after, whole, earlier⟩ := List.find?_eq_some_iff_append.mp seen
    rw [whole] at held
    rcases List.mem_append.mp held with inside | inside
    · have misses := earlier g inside
      simp only [Bool.not_eq_true', decide_eq_false_iff_not, not_and] at misses
      exact misses ⟨starts, later⟩ (within.trans bound)
    · rcases List.mem_cons.mp inside with rfl | beyond
      · exact ends within
      · have ordered := view.ordered term.operator
        rw [whole, List.pairwise_append] at ordered
        have := ((List.pairwise_cons.mp ordered.2.1).1 g beyond).1
        omega

/-- Where an advance up to an index is done, every checkpoint before the index is passed. -/
theorem turn_done (well : Well view cursor) {i : Nat} (done : cursor.turn view (.strict i) = .done) :
    ∀ p ∈ view.points, p.index < i → Passed view cursor p := by
  intro p member less
  obtain ⟨j, candidate⟩ := RecordView.mem_points.mp member
  obtain ⟨term, found, -⟩ := RecordView.mem_candidates.mp candidate
  have inside := (List.getElem?_eq_some_iff.mp found).1
  refine ⟨j, candidate, ?_⟩
  rw [turn] at done
  split at done
  · exact .inl (by omega)
  · split at done
    · rename_i none_
      split at done
      · rcases Nat.lt_or_ge j cursor.term with earlier | later
        · exact .inl earlier
        · obtain rfl : j = cursor.term := by omega
          exact .inr ⟨rfl, next_eq_none well none_ p candidate⟩
      · cases done
    · rename_i h next
      split at done
      · split at done <;> cases done
      · rename_i beyond
        have beyond : i ≤ h.index := by simpa [Bound.admits] using beyond
        obtain ⟨inTerm, -, least⟩ := next_eq_some well next
        rcases Nat.lt_trichotomy j cursor.term with earlier | rfl | later
        · exact .inl earlier
        · refine .inr ⟨rfl, ?_⟩
          by_contra fresh
          have past : ∀ a, cursor.after = some a → a < p.sequence := by
            intro a after
            by_contra le
            exact fresh ⟨a, after, Nat.le_of_not_lt le⟩
          rcases least p candidate past with rfl | more
          · omega
          · have := RecordView.candidates_le inTerm candidate more
            omega
        · have := RecordView.candidates_lt later inTerm candidate
          omega

theorem turn_moved {bound : Bound} {moved : Cursor} (turn : cursor.turn view bound = .moved moved) :
    cursor.next view = none ∧ cursor.term + 1 < view.chain.length ∧ moved = ⟨cursor.term + 1, none, cursor.busy⟩ := by
  rw [Cursor.turn] at turn
  split at turn
  · cases turn
  · rename_i inside
    split at turn
    · rename_i none_
      split at turn
      · cases turn
      · exact ⟨none_, by omega, (Turn.moved.inj turn).symm⟩
    · split at turn
      · split at turn <;> cases turn
      · cases turn

theorem turn_judge {bound : Bound} {h : HeldCommitment} (turn : cursor.turn view bound = .judge h) :
    cursor.next view = some h ∧ cursor.busy = false := by
  rw [Cursor.turn] at turn
  split at turn
  · cases turn
  · split at turn
    · split at turn <;> cases turn
    · rename_i found next
      split at turn
      · split at turn
        · cases turn
        · rename_i idle
          exact ⟨(Turn.judge.inj turn) ▸ next, by simpa using idle⟩
      · cases turn

theorem turn_conflict {bound : Bound} (turn : cursor.turn view bound = .conflict) : cursor.busy = true := by
  rw [Cursor.turn] at turn
  split at turn
  · cases turn
  · split at turn
    · split at turn <;> cases turn
    · split at turn
      · split at turn
        · assumption
        · cases turn
      · cases turn

theorem next_fresh (well : Well view cursor) {h : HeldCommitment} (next : cursor.next view = some h) : ¬Passed view cursor h := by
  obtain ⟨inTerm, later, -⟩ := next_eq_some well next
  rintro ⟨i, candidate, less | ⟨rfl, a, after, le⟩⟩
  · exact absurd (RecordView.candidates_lt less candidate inTerm) (lt_irrefl _)
  · have := later a after
    omega

/-- A cursor moves on only past its whole term. -/
theorem passed_moved (well : Well view cursor) (none_ : cursor.next view = none) (h : HeldCommitment) {busy : Bool} :
    Passed view ⟨cursor.term + 1, none, busy⟩ h ↔ Passed view cursor h := by
  constructor
  · rintro ⟨i, candidate, less | ⟨-, a, absent, -⟩⟩
    · have less : i < cursor.term + 1 := less
      refine ⟨i, candidate, ?_⟩
      rcases Nat.lt_or_ge i cursor.term with earlier | later
      · exact .inl earlier
      · obtain rfl : i = cursor.term := by omega
        exact .inr ⟨rfl, next_eq_none well none_ h candidate⟩
    · exact absurd absent.symm (Option.some_ne_none _)
  · rintro ⟨i, candidate, less | ⟨rfl, -⟩⟩
    · exact ⟨i, candidate, .inl (Nat.lt_succ_of_lt less)⟩
    · exact ⟨_, candidate, .inl (Nat.lt_succ_self _)⟩

/-- Classifying the next checkpoint passes it alone. -/
theorem passed_past (well : Well view cursor) {h : HeldCommitment} (next : cursor.next view = some h) (g : HeldCommitment) :
    Passed view (cursor.past h) g ↔ Passed view cursor g ∨ g = h := by
  obtain ⟨inTerm, later, least⟩ := next_eq_some well next
  constructor
  · rintro ⟨i, candidate, less | ⟨rfl, a, same, le⟩⟩
    · exact .inl ⟨i, candidate, .inl less⟩
    · obtain rfl := Option.some.inj same
      by_cases passed : ∃ a, cursor.after = some a ∧ g.sequence ≤ a
      · exact .inl ⟨_, candidate, .inr ⟨rfl, passed⟩⟩
      · have past : ∀ a, cursor.after = some a → a < g.sequence := by
          intro a after
          by_contra le
          exact passed ⟨a, after, Nat.le_of_not_lt le⟩
        rcases least g candidate past with rfl | more
        · exact .inr rfl
        · have le : g.sequence ≤ h.sequence := le
          omega
  · rintro (⟨i, candidate, less | ⟨rfl, a, after, le⟩⟩ | rfl)
    · exact ⟨i, candidate, .inl less⟩
    · exact ⟨_, candidate, .inr ⟨rfl, h.sequence, rfl, le.trans (later a after).le⟩⟩
    · exact ⟨_, inTerm, .inr ⟨rfl, g.sequence, rfl, le_rfl⟩⟩

theorem past_well {h : HeldCommitment} (well : Well view cursor) (next : cursor.next view = some h) : Well view (cursor.past h) := by
  intro a same
  obtain rfl := Option.some.inj same
  exact ⟨h, (next_eq_some well next).1, rfl⟩

/-- The valid rows of a cursor: those of the valid checkpoints it has passed, by index. -/
def Rows (view : RecordView) (valid : HeldCommitment → Bool) (cursor : Cursor) (rows : List ValidRow) : Prop :=
  ∀ i, (∃ row ∈ rows, row.index = i) ↔ ∃ h, Passed view cursor h ∧ valid h = true ∧ h.index = i

/-- Once every checkpoint before an index is passed, the latest valid row before it is the record's. -/
theorem Rows.latestIndex {valid : HeldCommitment → Bool} {rows : List ValidRow} (held : Rows view valid cursor rows) {i : Nat}
    (passed : ∀ p ∈ view.points, p.index < i → Passed view cursor p) : latestIndexIn rows i = view.latestIndex valid i := by
  obtain ⟨rowsAbove, rowChosen⟩ := latestIndexIn_spec rows i
  obtain ⟨above, chosen⟩ := view.latestIndex_spec valid i
  refine le_antisymm ?_ ?_
  · rcases rowChosen with zero | ⟨row, member, same, less⟩
    · omega
    · obtain ⟨h, ⟨j, candidate, -⟩, judged, at_⟩ := (held row.index).mp ⟨row, member, rfl⟩
      rw [← same, ← at_]
      exact above h (RecordView.mem_points.mpr ⟨j, candidate⟩) judged (by omega)
  · rcases chosen with zero | ⟨h, point, judged, same, less⟩
    · omega
    · obtain ⟨row, member, at_⟩ := (held h.index).mpr ⟨h, passed h point less, judged, rfl⟩
      rw [← same, ← at_]
      exact rowsAbove row member (by omega)

theorem rows_start (view : RecordView) (valid : HeldCommitment → Bool) : Rows view valid start [] := by
  intro i
  constructor
  · rintro ⟨row, member, -⟩
    cases member
  · rintro ⟨h, passed, -⟩
    exact absurd passed (start_passed h)

/-- Classifying a checkpoint adds its row where it is valid. -/
theorem Rows.past {valid : HeldCommitment → Bool} {rows : List ValidRow} (held : Rows view valid cursor rows) (well : Well view cursor)
    {h : HeldCommitment} (next : cursor.next view = some h) :
    Rows view valid (cursor.past h) (if valid h = true then putValid rows ⟨h.index, h.sequence, h.operator⟩ else rows) := by
  intro i
  have passed := passed_past well next
  constructor
  · rintro ⟨row, member, rfl⟩
    split at member
    · rename_i judged
      rcases List.mem_cons.mp member with rfl | old
      · exact ⟨h, (passed h).mpr (.inr rfl), judged, rfl⟩
      · obtain ⟨g, before, fine, same⟩ := (held row.index).mp ⟨row, List.mem_of_mem_filter old, rfl⟩
        exact ⟨g, (passed g).mpr (.inl before), fine, same⟩
    · obtain ⟨g, before, fine, same⟩ := (held row.index).mp ⟨row, member, rfl⟩
      exact ⟨g, (passed g).mpr (.inl before), fine, same⟩
  · rintro ⟨g, before, fine, rfl⟩
    rcases (passed g).mp before with old | rfl
    · obtain ⟨row, member, same⟩ := (held g.index).mpr ⟨g, old, fine, rfl⟩
      split
      · by_cases replaced : row.index = h.index ∧ row.sequence = h.sequence
        · exact ⟨_, List.mem_cons_self, replaced.1.symm.trans same⟩
        · exact ⟨row, List.mem_cons_of_mem _ (List.mem_filter.mpr ⟨member, decide_eq_true replaced⟩), same⟩
      · exact ⟨row, member, same⟩
    · rw [if_pos fine]
      exact ⟨_, List.mem_cons_self, rfl⟩

end Cursor

end Moe
