import Moe.Lib.HashTree

namespace Moe

namespace HashTree

variable {α : Type*} (node : Nat → α → α → α) (zero : α)

/-- The children of the node a waiting block and what lies to its right come to; none where neither is there. -/
def children (h : Nat) (waiting below : Option α) : Option (α × α) :=
  match waiting, below with
  | some left, below => some (left, below.getD (emptyBlock node zero h))
  | none, some held => some (held, emptyBlock node zero h)
  | none, none => none

/-- What the waiting blocks below a height come to, each folded with what lies to its right. -/
def gather (slot : Nat → Option α) : Nat → Option α
  | 0 => none
  | h + 1 => (children node zero h (slot h) (gather slot h)).map fun pair => node h pair.1 pair.2

/-- The pairs hashed on the way, each with its height. -/
def gatherPairs (slot : Nat → Option α) : Nat → List (Nat × α × α)
  | 0 => []
  | h + 1 => (children node zero h (slot h) (gather node zero slot h)).toList.map (h, ·) ++ gatherPairs slot h

variable {node zero}

theorem children_isSome {h : Nat} {waiting below : Option α} :
    (children node zero h waiting below).isSome = (waiting.isSome || below.isSome) := by
  cases waiting <;> cases below <;> rfl

/-- The children tell the block waiting and what lies to its right. -/
theorem children_inj {h : Nat} {waiting waiting' below below' : Option α} (waits : waiting.isSome = waiting'.isSome)
    (held : below.isSome = below'.isSome) (same : children node zero h waiting below = children node zero h waiting' below') :
    waiting = waiting' ∧ below = below' := by
  cases waiting with
  | none =>
    obtain rfl : waiting' = none := Option.isNone_iff_eq_none.mp (Option.isSome_eq_false_iff.mp waits.symm)
    cases below with
    | none => exact ⟨rfl, (Option.isNone_iff_eq_none.mp (Option.isSome_eq_false_iff.mp held.symm)).symm⟩
    | some node =>
      obtain ⟨node', rfl⟩ := Option.isSome_iff_exists.mp held.symm
      rw [children, children, Option.some.injEq, Prod.mk.injEq] at same
      exact ⟨rfl, congrArg some same.1⟩
  | some left =>
    obtain ⟨left', rfl⟩ := Option.isSome_iff_exists.mp waits.symm
    rw [children, children, Option.some.injEq, Prod.mk.injEq] at same
    refine ⟨congrArg some same.1, ?_⟩
    cases below with
    | none => exact (Option.isNone_iff_eq_none.mp (Option.isSome_eq_false_iff.mp held.symm)).symm
    | some node =>
      obtain ⟨node', rfl⟩ := Option.isSome_iff_exists.mp held.symm
      exact congrArg some same.2

/-- Whether anything waits below a height depends on which slots hold a block only. -/
theorem gather_isSome {slot slot' : Nat → Option α} {height : Nat} (same : ∀ h < height, (slot h).isSome = (slot' h).isSome) :
    (gather node zero slot height).isSome = (gather node zero slot' height).isSome := by
  induction height with
  | zero => rfl
  | succ h ih =>
    simp only [gather, Option.isSome_map, children_isSome, same h (Nat.lt_succ_self h),
      ih fun k below => same k (below.trans (Nat.lt_succ_self h))]

/-- The waiting blocks come to the block the next free leaf lies in, or to nothing where that block holds no leaf. -/
theorem gather_eq {leaves : List α} {slot : Nat → Option α} {height : Nat}
    (waits : ∀ h < height, (slot h).isSome = leaves.length.testBit h)
    (holds : ∀ h value, slot h = some value → value = block node zero leaves h (leaves.length / 2 ^ h - 1)) :
    gather node zero slot height =
      if leaves.length % 2 ^ height = 0 then none else some (block node zero leaves height (leaves.length / 2 ^ height)) := by
  induction height with
  | zero => rw [gather, Nat.pow_zero, Nat.mod_one, if_pos rfl]
  | succ h ih =>
    have below := ih fun k inside => waits k (inside.trans (Nat.lt_succ_self h))
    have bit := waits h (Nat.lt_succ_self h)
    have split := Nat.mod_mul (x := leaves.length) (a := 2 ^ h) (b := 2)
    have half : leaves.length / 2 ^ h / 2 = leaves.length / 2 ^ (h + 1) := (div_pow_succ _ _).symm
    -- to the right of the waiting block lies the next free leaf's, empty where its count is zero
    have right : (gather node zero slot h).getD (emptyBlock node zero h) = block node zero leaves h (leaves.length / 2 ^ h) := by
      rw [below]
      split
      · rename_i none_
        refine (block_empty ?_).symm
        have whole := Nat.div_add_mod leaves.length (2 ^ h)
        rw [none_, Nat.mul_comm] at whole
        omega
      · rfl
    rw [← Nat.pow_succ] at split
    cases set : leaves.length.testBit h
    · rw [set, Option.isSome_eq_false_iff, Option.isNone_iff_eq_none] at bit
      have even : leaves.length / 2 ^ h % 2 = 0 := by
        have clear := (testBit_iff leaves.length h).not.mp (by simp [set])
        omega
      rw [even, Nat.mul_zero, Nat.add_zero] at split
      rw [gather, bit, below, split]
      split
      · rfl
      · have last : block node zero leaves h (leaves.length / 2 ^ h + 1) = emptyBlock node zero h :=
          block_empty (lt_succ_div_mul _ _).le
        have twice : 2 * (leaves.length / 2 ^ (h + 1)) = leaves.length / 2 ^ h := by omega
        rw [children, Option.map_some, block, twice, last]
    · rw [set] at bit
      obtain ⟨left, waiting⟩ := Option.isSome_iff_exists.mp bit
      have odd := (testBit_iff leaves.length h).mp set
      have positive := Nat.two_pow_pos h
      rw [odd, Nat.mul_one] at split
      have twice : 2 * (leaves.length / 2 ^ (h + 1)) = leaves.length / 2 ^ h - 1 := by omega
      have next : leaves.length / 2 ^ h - 1 + 1 = leaves.length / 2 ^ h := by omega
      have some_ : leaves.length % 2 ^ (h + 1) ≠ 0 := by
        rw [split]
        exact (Nat.add_pos_right _ positive).ne'
      rw [gather, waiting, if_neg some_, children, Option.map_some, right, holds h left waiting, block, twice, next]

/-- Frontiers with the same slots in use that come to one node hold the same blocks, where no two pairs hashed are confused. -/
theorem gather_inj {slot slot' : Nat → Option α} {height : Nat} (waits : ∀ h < height, (slot h).isSome = (slot' h).isSome)
    (apart : ∀ h a b c d, (h, a, b) ∈ gatherPairs node zero slot height → (h, c, d) ∈ gatherPairs node zero slot' height →
      node h a b = node h c d → a = c ∧ b = d)
    (same : gather node zero slot height = gather node zero slot' height) : ∀ h < height, slot h = slot' h := by
  induction height with
  | zero => exact fun h below => absurd below (Nat.not_lt_zero h)
  | succ height ih =>
    have lower : ∀ h < height, (slot h).isSome = (slot' h).isSome := fun h below => waits h (below.trans (Nat.lt_succ_self height))
    have held := @gather_isSome _ node zero _ _ _ lower
    have top := waits height (Nat.lt_succ_self height)
    -- one pair hashed at the top on either side, or none on both
    have pairs : children node zero height (slot height) (gather node zero slot height) =
        children node zero height (slot' height) (gather node zero slot' height) := by
      have both : (children node zero height (slot height) (gather node zero slot height)).isSome =
          (children node zero height (slot' height) (gather node zero slot' height)).isSome := by
        rw [children_isSome, children_isSome, top, held]
      rw [gather, gather] at same
      cases first : children node zero height (slot height) (gather node zero slot height) with
      | none =>
        rw [first] at both
        exact (Option.isNone_iff_eq_none.mp (Option.isSome_eq_false_iff.mp both.symm)).symm
      | some pair =>
        rw [first] at both
        obtain ⟨other, second⟩ := Option.isSome_iff_exists.mp both.symm
        rw [first, second, Option.map_some, Option.map_some, Option.some.injEq] at same
        obtain ⟨left, right⟩ := apart height pair.1 pair.2 other.1 other.2 (by simp [gatherPairs, first]) (by simp [gatherPairs, second]) same
        rw [second, Prod.ext left right]
    have parts := children_inj top held pairs
    intro h below
    rcases Nat.lt_succ_iff_lt_or_eq.mp below with under | rfl
    · refine ih lower (fun k a b c d first second => apart k a b c d ?_ ?_) parts.2 h under
      · exact List.mem_append_right _ first
      · exact List.mem_append_right _ second
    · exact parts.1

end HashTree

end Moe
