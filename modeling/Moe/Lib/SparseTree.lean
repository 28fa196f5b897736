import Mathlib.Logic.Function.Basic
import Moe.Lib.HashTree

namespace Moe.HashTree

variable {α : Type*} {node : Nat → α → α → α} {zero : α} {leaf leaf' : Nat → α} {h i k : Nat}

/-- A subtree is of its own leaves. -/
theorem subtree_congr (same : ∀ j, j / 2 ^ h = i → leaf j = leaf' j) : subtree node leaf h i = subtree node leaf' h i := by
  induction h generalizing i with
  | zero => exact same i (by simp)
  | succ h ih =>
    rw [subtree, subtree, ih, ih]
    · intro j inside
      refine same j ?_
      rw [div_pow_succ]
      omega
    · intro j inside
      refine same j ?_
      rw [div_pow_succ]
      omega

/-- A subtree of empty leaves is the empty one of its height. -/
theorem subtree_empty (none_ : ∀ j, j / 2 ^ h = i → leaf j = zero) : subtree node leaf h i = emptyBlock node zero h := by
  have blank : ∀ h i, subtree node (fun _ => zero) h i = emptyBlock node zero h := by
    intro h
    induction h with
    | zero => exact fun _ => rfl
    | succ h ih =>
      intro i
      rw [subtree, emptyBlock, ih, ih]
  rw [subtree_congr none_, blank]

theorem subtree_update_of_ne (value : α) (off : k / 2 ^ h ≠ i) : subtree node (Function.update leaf k value) h i = subtree node leaf h i :=
  subtree_congr fun j inside => Function.update_of_ne (fun same : j = k => off (by rw [← same]; exact inside)) _ _

/-- The block beside a leaf's does not hold it. -/
theorem div_ne_beside (k h : Nat) : k / 2 ^ h ≠ beside k h := by
  rw [beside]
  split
  · rename_i right
    have odd := (testBit_iff k h).mp right
    omega
  · omega

theorem beside_eq_xor (k h : Nat) : beside k h = (k >>> h) ^^^ 1 := by
  have odd := testBit_iff k h
  rw [beside, Nat.shiftRight_eq_div_pow]
  generalize k / 2 ^ h = x at odd
  have flip : x ^^^ 1 = if x % 2 = 1 then x - 1 else x + 1 := by
    rw [← Nat.div_add_mod (x ^^^ 1) 2, Nat.xor_div_two, Nat.xor_mod_two_eq]
    split
    · rename_i one
      have : (x + 1) % 2 = 0 := by omega
      simp
      omega
    · rename_i zero
      have : (x + 1) % 2 = 1 := by omega
      simp
      omega
  rw [flip]
  by_cases right : k.testBit h = true
  · rw [if_pos right, if_pos (odd.mp right)]
  · rw [if_neg right, if_neg fun one => right (odd.mpr one)]

/-- A leaf replaced and its branch climbed again among the subtrees beside it is the tree of the leaf replaced. -/
theorem subtree_branch {nodeAt : Nat → Nat → α} {depth : Nat} (whole : ∀ h ≤ depth, ∀ i, nodeAt h i = subtree node leaf h i) (value : α)
    (within : h ≤ depth) :
    (if i = k / 2 ^ h then climb node k.testBit (fun h => nodeAt h (beside k h)) h value else nodeAt h i) =
      subtree node (Function.update leaf k value) h i := by
  split
  · rename_i on
    subst on
    have climbed := @climb_subtree _ node (Function.update leaf k value) k h
      (fun h => nodeAt h (beside k h)) fun level below => by
        rw [whole level (by omega), subtree_update_of_ne value (div_ne_beside k level)]
    rwa [Function.update_self] at climbed
  · rename_i off
    rw [whole h within, subtree_update_of_ne value fun same => off same.symm]

variable (node) in
/-- The two nodes hashed at a level of a climb. -/
def pairAt (right : Nat → Bool) (siblings : Nat → α) (value : α) (h : Nat) : α × α :=
  if right h then (siblings h, climb node right siblings h value) else (climb node right siblings h value, siblings h)

theorem climb_succ (right : Nat → Bool) (siblings : Nat → α) (value : α) (h : Nat) :
    climb node right siblings (h + 1) value = node h (pairAt node right siblings value h).1 (pairAt node right siblings value h).2 := by
  rw [climb, pairAt]
  split <;> rfl

/-- Two climbs that come to one node, no level's hashes of theirs the same of different pairs, are of one leaf. -/
theorem climb_inj {right : Nat → Bool} {siblings siblings' : Nat → α} {value value' : α} {height : Nat}
    (apart : ∀ h < height, node h (pairAt node right siblings value h).1 (pairAt node right siblings value h).2 =
      node h (pairAt node right siblings' value' h).1 (pairAt node right siblings' value' h).2 →
      pairAt node right siblings value h = pairAt node right siblings' value' h)
    (same : climb node right siblings height value = climb node right siblings' height value') : value = value' := by
  induction height with
  | zero => exact same
  | succ height ih =>
    rw [climb_succ, climb_succ] at same
    have pairs := apart height (Nat.lt_succ_self _) same
    refine ih (fun h below => apart h (below.trans (Nat.lt_succ_self _))) ?_
    rw [pairAt, pairAt] at pairs
    split at pairs
    · exact (Prod.mk.inj pairs).2
    · exact (Prod.mk.inj pairs).1

end Moe.HashTree
