import Mathlib.Data.List.MinMax
import Moe.Bytes

namespace Moe

/-- A commitment a venue holds, with the index it is held at. -/
structure HeldCommitment where
  operator : Bytes
  sequence : Nat
  root : Bytes
  index : Nat
  deriving DecidableEq

/-- One term of a backing's chain: its operator in force from an index on. -/
structure ChainLink where
  operator : Bytes
  start : Nat
  link : Bytes
  deriving DecidableEq

/-- A backing's record over `[0, t]`: its terms, and the commitments kept of each operator, whose indices and sequences rise
together. -/
structure RecordView where
  t : Nat
  chain : List ChainLink
  held : Bytes → List HeldCommitment
  rising : chain.Pairwise (·.start < ·.start)
  inForce : ∀ link ∈ chain, link.start ≤ t
  ordered : ∀ operator, (held operator).Pairwise fun a b => a.index ≤ b.index ∧ a.sequence < b.sequence

namespace RecordView

variable (view : RecordView)

/-- The last index of a term. -/
def termEnd (i : Nat) : Nat :=
  match view.chain[i + 1]? with
  | some next => next.start - 1
  | none => view.t

/-- The first held commitment at or after an index, or past a sequence. -/
def nextHeld (operator : Bytes) (fromIndex : Nat) (after : Option Nat) : Option HeldCommitment :=
  let first := (view.held operator).find? fun h => fromIndex ≤ h.index ∧ h.index ≤ view.t
  match after with
  | none => first
  | some a =>
    match (view.held operator).find? fun h => a < h.sequence ∧ h.index ≤ view.t with
    | none => none
    | some h => if fromIndex ≤ h.index then some h else first

/-- The least index in `[low, high]` at which an operator holds a commitment. -/
def firstHeldIndex (operator : Bytes) (low high : Nat) : Option Nat :=
  if min high view.t < low then none else ((view.held operator).find? fun h => low ≤ h.index ∧ h.index ≤ min high view.t).map (·.index)

/-- The least held index of any of the terms' operators within its own term in `[low, high]`. -/
def firstPoint (low high : Nat) : Option Nat :=
  (List.range view.chain.length).findSome? fun i =>
    (view.chain[i]?).bind fun term =>
      view.firstHeldIndex term.operator (max term.start low) (min (view.termEnd i) high)

/-- A term's checkpoints: what its operator holds within it. -/
def candidates (i : Nat) : List HeldCommitment :=
  ((view.chain[i]?).map fun term => (view.held term.operator).filter fun h => term.start ≤ h.index ∧ h.index ≤ view.termEnd i).getD []

/-- Every term's checkpoints, in order. -/
def points : List HeldCommitment := (List.range view.chain.length).flatMap view.candidates

variable {view}

theorem termEnd_le (i : Nat) : view.termEnd i ≤ view.t := by
  rw [termEnd]
  cases next : view.chain[i + 1]? with
  | none => exact le_rfl
  | some link => exact (Nat.sub_le _ _).trans (view.inForce link (List.mem_of_getElem? next))

/-- A term starts after every earlier one ends. -/
theorem termEnd_lt {i j : Nat} {term : ChainLink} (earlier : i < j) (found : view.chain[j]? = some term) : view.termEnd i < term.start := by
  have inside := (List.getElem?_eq_some_iff.mp found).1
  obtain ⟨next, at_⟩ : ∃ next, view.chain[i + 1]? = some next := ⟨_, List.getElem?_eq_getElem (by omega)⟩
  obtain ⟨first, before⟩ : ∃ first, view.chain[i]? = some first := ⟨_, List.getElem?_eq_getElem (by omega)⟩
  have rising := List.pairwise_iff_getElem.mp view.rising
  have starts : ∀ {a b : Nat} {x y : ChainLink}, view.chain[a]? = some x → view.chain[b]? = some y → a < b → x.start < y.start := by
    intro a b x y atA atB less
    obtain ⟨insideA, rfl⟩ := List.getElem?_eq_some_iff.mp atA
    obtain ⟨insideB, rfl⟩ := List.getElem?_eq_some_iff.mp atB
    exact rising a b insideA insideB less
  have positive := starts before at_ (Nat.lt_succ_self i)
  have within : next.start ≤ term.start := by
    rcases Nat.lt_or_ge (i + 1) j with less | same
    · exact (starts at_ found less).le
    · obtain rfl : i + 1 = j := by omega
      exact (congrArg ChainLink.start (Option.some.inj (at_.symm.trans found))).le
  rw [termEnd, at_]
  simp only
  omega

theorem mem_candidates {i : Nat} {h : HeldCommitment} :
    h ∈ view.candidates i ↔ ∃ term, view.chain[i]? = some term ∧ h ∈ view.held term.operator ∧ term.start ≤ h.index ∧ h.index ≤ view.termEnd i := by
  rw [candidates]
  cases view.chain[i]? with
  | none =>
    constructor
    · intro member
      cases member
    · rintro ⟨_, none_, -⟩
      cases none_
  | some term =>
    simp only [Option.map_some, Option.getD_some, List.mem_filter, decide_eq_true_eq, Option.some.injEq, exists_eq_left']

theorem mem_points {h : HeldCommitment} : h ∈ view.points ↔ ∃ i, h ∈ view.candidates i := by
  rw [points, List.mem_flatMap]
  constructor
  · rintro ⟨i, -, member⟩
    exact ⟨i, member⟩
  · rintro ⟨i, member⟩
    obtain ⟨term, found, -⟩ := mem_candidates.mp member
    exact ⟨i, List.mem_range.mpr (List.getElem?_eq_some_iff.mp found).1, member⟩

/-- Checkpoints of a later term are held later. -/
theorem candidates_lt {i j : Nat} (earlier : i < j) {a b : HeldCommitment} (first : a ∈ view.candidates i) (second : b ∈ view.candidates j) :
    a.index < b.index := by
  obtain ⟨_, -, -, -, ends⟩ := mem_candidates.mp first
  obtain ⟨term, found, -, starts, -⟩ := mem_candidates.mp second
  have apart := termEnd_lt earlier found
  omega

/-- Within a term, a checkpoint of a later sequence is held no earlier. -/
theorem candidates_le {i : Nat} {a b : HeldCommitment} (first : a ∈ view.candidates i) (second : b ∈ view.candidates i)
    (later : a.sequence < b.sequence) : a.index ≤ b.index := by
  obtain ⟨term, found, heldA, -⟩ := mem_candidates.mp first
  obtain ⟨term', found', heldB, -⟩ := mem_candidates.mp second
  obtain rfl := Option.some.inj (found.symm.trans found')
  obtain ⟨m, insideA, rfl⟩ := List.getElem_of_mem heldA
  obtain ⟨n, insideB, rfl⟩ := List.getElem_of_mem heldB
  have ordered := List.pairwise_iff_getElem.mp (view.ordered term.operator)
  rcases Nat.lt_trichotomy m n with less | rfl | more
  · exact (ordered m n insideA insideB less).1
  · exact le_rfl
  · have := (ordered n m insideB insideA more).2
    omega

theorem candidates_inj {i : Nat} {a b : HeldCommitment} (first : a ∈ view.candidates i) (second : b ∈ view.candidates i)
    (same : a.sequence = b.sequence) : a = b := by
  obtain ⟨term, found, heldA, -⟩ := mem_candidates.mp first
  obtain ⟨term', found', heldB, -⟩ := mem_candidates.mp second
  obtain rfl := Option.some.inj (found.symm.trans found')
  obtain ⟨m, insideA, rfl⟩ := List.getElem_of_mem heldA
  obtain ⟨n, insideB, rfl⟩ := List.getElem_of_mem heldB
  have ordered := List.pairwise_iff_getElem.mp (view.ordered term.operator)
  rcases Nat.lt_trichotomy m n with less | rfl | more
  · have := (ordered m n insideA insideB less).2
    omega
  · rfl
  · have := (ordered n m insideB insideA more).2
    omega

/-- In an operator's rows the first index in a range is the least. -/
theorem firstHeldIndex_eq_some {operator : Bytes} {low high at_ : Nat} (found : view.firstHeldIndex operator low high = some at_) :
    (∃ h ∈ view.held operator, h.index = at_) ∧ low ≤ at_ ∧ at_ ≤ high ∧
      ∀ h ∈ view.held operator, low ≤ h.index → h.index ≤ high → at_ ≤ h.index := by
  rw [firstHeldIndex] at found
  split at found
  · cases found
  · obtain ⟨h, seen, rfl⟩ := Option.map_eq_some_iff.mp found
    have fits := List.find?_some seen
    simp only [decide_eq_true_eq] at fits
    refine ⟨⟨h, List.mem_of_find?_eq_some seen, rfl⟩, fits.1, by omega, fun other member lower upper => ?_⟩
    obtain ⟨_, before, after, whole, earlier⟩ := List.find?_eq_some_iff_append.mp seen
    rw [whole] at member
    rcases List.mem_append.mp member with inside | inside
    · have misses := earlier other inside
      simp only [Bool.not_eq_true', decide_eq_false_iff_not, not_and] at misses
      have past := misses lower
      omega
    · rcases List.mem_cons.mp inside with rfl | later
      · exact le_rfl
      · have ordered := view.ordered operator
        rw [whole, List.pairwise_append] at ordered
        exact ((List.pairwise_cons.mp ordered.2.1).1 other later).1

theorem firstHeldIndex_eq_none {operator : Bytes} {low high : Nat} (none_ : view.firstHeldIndex operator low high = none) :
    ∀ h ∈ view.held operator, low ≤ h.index → h.index ≤ view.t → high < h.index := by
  intro h member lower within
  rw [firstHeldIndex] at none_
  split at none_
  · omega
  · have misses := List.find?_eq_none.mp (Option.map_eq_none_iff.mp none_) h member
    simp only [decide_eq_true_eq, not_and] at misses
    have past := misses lower
    omega

/-- One term's least point in a range. -/
theorem termPoint_eq_some {i low high at_ : Nat} {term : ChainLink} (link : view.chain[i]? = some term)
    (found : view.firstHeldIndex term.operator (max term.start low) (min (view.termEnd i) high) = some at_) :
    (∃ h ∈ view.candidates i, h.index = at_) ∧ low ≤ at_ ∧ at_ ≤ high ∧
      ∀ h ∈ view.candidates i, low ≤ h.index → at_ ≤ h.index := by
  obtain ⟨⟨h, held, rfl⟩, lower, upper, least⟩ := firstHeldIndex_eq_some found
  refine ⟨⟨h, mem_candidates.mpr ⟨term, link, held, by omega, by omega⟩, rfl⟩, by omega, by omega, fun other member past => ?_⟩
  obtain ⟨term', link', held', starts, ends⟩ := mem_candidates.mp member
  obtain rfl := Option.some.inj (link.symm.trans link')
  rcases Nat.lt_or_ge high other.index with beyond | within
  · omega
  · exact least other held' (by omega) (by omega)

theorem termPoint_eq_none {i low high : Nat} {term : ChainLink} (link : view.chain[i]? = some term)
    (none_ : view.firstHeldIndex term.operator (max term.start low) (min (view.termEnd i) high) = none) :
    ∀ h ∈ view.candidates i, low ≤ h.index → high < h.index := by
  intro h member lower
  obtain ⟨term', link', held, starts, ends⟩ := mem_candidates.mp member
  obtain rfl := Option.some.inj (link.symm.trans link')
  have bound := @termEnd_le view i
  have past := firstHeldIndex_eq_none none_ h held (by omega) (by omega)
  omega

/-- The first point of a range is a checkpoint's index, and the least one in the range. -/
theorem firstPoint_eq_some {low high at_ : Nat} (found : view.firstPoint low high = some at_) :
    (∃ h ∈ view.points, h.index = at_) ∧ low ≤ at_ ∧ at_ ≤ high ∧ ∀ h ∈ view.points, low ≤ h.index → at_ ≤ h.index := by
  obtain ⟨before, i, after, range, here, earlier⟩ := List.findSome?_eq_some_iff.mp found
  have place : i = before.length := by
    have at_ := congrArg (·[before.length]?) range
    simp only [List.getElem?_append_right le_rfl, Nat.sub_self, List.getElem?_cons_zero] at at_
    obtain ⟨inside, value⟩ := List.getElem?_eq_some_iff.mp at_
    rw [List.getElem_range] at value
    exact value.symm
  obtain ⟨term, link, here⟩ := Option.bind_eq_some_iff.mp here
  obtain ⟨⟨h, member, rfl⟩, lower, upper, least⟩ := termPoint_eq_some link here
  refine ⟨⟨h, mem_points.mpr ⟨i, member⟩, rfl⟩, lower, upper, fun other inside past => ?_⟩
  obtain ⟨j, candidate⟩ := mem_points.mp inside
  obtain ⟨term', link', -⟩ := mem_candidates.mp candidate
  rcases Nat.lt_trichotomy j i with less | rfl | more
  · have listed : j ∈ before := by
      have bound : j < before.length := by omega
      have at_ := congrArg (·[j]?) range
      simp only [List.getElem?_append_left bound] at at_
      have total := (List.getElem?_eq_some_iff.mp link').1
      rw [List.getElem?_range total] at at_
      exact List.mem_of_getElem? at_.symm
    have none_ := earlier j listed
    rw [link'] at none_
    have beyond := termPoint_eq_none link' none_ other candidate past
    omega
  · exact least other candidate past
  · exact (candidates_lt more member candidate).le

theorem firstPoint_eq_none {low high : Nat} (none_ : view.firstPoint low high = none) :
    ∀ h ∈ view.points, low ≤ h.index → high < h.index := by
  intro h member lower
  obtain ⟨i, candidate⟩ := mem_points.mp member
  obtain ⟨term, link, -⟩ := mem_candidates.mp candidate
  have missed := List.findSome?_eq_none_iff.mp none_ i (List.mem_range.mpr (List.getElem?_eq_some_iff.mp link).1)
  rw [link] at missed
  exact termPoint_eq_none link missed h candidate lower

end RecordView

end Moe
