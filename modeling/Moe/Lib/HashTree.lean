import Mathlib.Algebra.Group.Nat.Defs
import Mathlib.Data.List.GetD
import Mathlib.Data.Nat.Bitwise
import Mathlib.Tactic.Linarith
import Mathlib.Tactic.Ring

namespace Moe

variable {α : Type*}

namespace HashTree

theorem testBit_iff (n h : Nat) : n.testBit h = true ↔ n / 2 ^ h % 2 = 1 := by
  simp [Nat.testBit_eq_decide_div_mod_eq]

theorem div_pow_succ (n h : Nat) : n / 2 ^ (h + 1) = n / 2 ^ h / 2 := by
  rw [Nat.pow_succ, Nat.div_div_eq_div_mul]

section

variable (node : Nat → α → α → α) (zero : α)

/-- The block of a height with no leaf in use. -/
def emptyBlock : Nat → α
  | 0 => zero
  | h + 1 => node h (emptyBlock h) (emptyBlock h)

/-- The node over the `i`-th block of `2 ^ h` leaves; a leaf not in use is `zero`. -/
def block (leaves : List α) : Nat → Nat → α
  | 0, i => leaves.getD i zero
  | h + 1, i => node h (block leaves h (2 * i)) (block leaves h (2 * i + 1))

/-- The node a value comes to under its siblings, `right` where it is a right child. -/
def climb (right : Nat → Bool) (siblings : Nat → α) : Nat → α → α
  | 0, value => value
  | h + 1, value =>
    if right h then node h (siblings h) (climb right siblings h value)
    else node h (climb right siblings h value) (siblings h)

variable {node zero}

/-- A block past the leaves in use is empty. -/
theorem block_empty {leaves : List α} {h i : Nat} (past : leaves.length ≤ i * 2 ^ h) :
    block node zero leaves h i = emptyBlock node zero h := by
  induction h generalizing i with
  | zero => exact List.getD_eq_default _ _ (by simpa using past)
  | succ h ih =>
    rw [Nat.pow_succ] at past
    rw [block, emptyBlock, ih (past.trans_eq (by ring)), ih (past.trans (by nlinarith [Nat.two_pow_pos h]))]

/-- A full block is what it was before more leaves. -/
theorem block_append {leaves : List α} {h i : Nat} (full : (i + 1) * 2 ^ h ≤ leaves.length) (more : List α) :
    block node zero (leaves ++ more) h i = block node zero leaves h i := by
  induction h generalizing i with
  | zero => exact List.getD_append _ _ _ _ (by omega)
  | succ h ih =>
    rw [Nat.pow_succ] at full
    have positive := Nat.two_pow_pos h
    rw [block, block, ih (by nlinarith), ih (by nlinarith)]

theorem climb_congr {right right' : Nat → Bool} {siblings siblings' : Nat → α} {height : Nat} {value : α}
    (sides : ∀ h < height, right h = right' h) (same : ∀ h < height, siblings h = siblings' h) :
    climb node right siblings height value = climb node right' siblings' height value := by
  induction height with
  | zero => rfl
  | succ height ih =>
    have below := ih (fun h inside => sides h (inside.trans (Nat.lt_succ_self _)))
      (fun h inside => same h (inside.trans (Nat.lt_succ_self _)))
    rw [climb, climb, below, sides height (Nat.lt_succ_self _), same height (Nat.lt_succ_self _)]

/-- The block beside a leaf's at a height. -/
def beside (i h : Nat) : Nat := if i.testBit h then i / 2 ^ h - 1 else i / 2 ^ h + 1

variable (node) in
/-- The node over the `i`-th block of `2 ^ h` leaves of a tree with a leaf at every index. -/
def subtree (leaf : Nat → α) : Nat → Nat → α
  | 0, i => leaf i
  | h + 1, i => node h (subtree leaf h (2 * i)) (subtree leaf h (2 * i + 1))

/-- A leaf under the subtrees beside it comes to the subtrees it is in. -/
theorem climb_subtree {leaf : Nat → α} {i height : Nat} {siblings : Nat → α}
    (besides : ∀ h < height, siblings h = subtree node leaf h (beside i h)) :
    climb node i.testBit siblings height (leaf i) = subtree node leaf height (i / 2 ^ height) := by
  induction height with
  | zero => simp [climb, subtree]
  | succ height ih =>
    have below := ih fun h inside => besides h (inside.trans (Nat.lt_succ_self _))
    rw [climb, below, besides height (Nat.lt_succ_self _), subtree, div_pow_succ, beside]
    have odd := testBit_iff i height
    generalize i / 2 ^ height = x at odd ⊢
    by_cases right : i.testBit height = true
    · have one := odd.mp right
      rw [if_pos right, if_pos right, show 2 * (x / 2) = x - 1 by omega, show x - 1 + 1 = x by omega]
    · have even : x % 2 = 0 := by
        have notOne : ¬x % 2 = 1 := fun one => right (odd.mpr one)
        omega
      rw [if_neg right, if_neg right, show 2 * (x / 2) = x by omega]

theorem block_eq_subtree (leaves : List α) (h i : Nat) : block node zero leaves h i = subtree node (leaves.getD · zero) h i := by
  induction h generalizing i with
  | zero => rfl
  | succ h ih => rw [block, subtree, ih, ih]

/-- A leaf under the blocks beside it comes to the blocks it is in. -/
theorem climb_block {leaves : List α} {i height : Nat} {siblings : Nat → α}
    (besides : ∀ h < height, siblings h = block node zero leaves h (beside i h)) :
    climb node i.testBit siblings height (leaves.getD i zero) = block node zero leaves height (i / 2 ^ height) := by
  rw [block_eq_subtree]
  exact climb_subtree fun h inside => (besides h inside).trans (block_eq_subtree leaves h _)

/-- A fold up the levels is a climb. -/
theorem foldl_climb (right : Nat → Bool) (siblings : Nat → α) (value : α) (height : Nat) :
    (List.range height).foldl (fun below h => if right h then node h (siblings h) below else node h below (siblings h)) value =
      climb node right siblings height value := by
  induction height with
  | zero => rfl
  | succ height ih => rw [List.range_succ, List.foldl_append, ih]; rfl

/-- A frontier keeps, at each bit of the leaf count, the full block on the left of the next free leaf's. -/
def Frontier (node : Nat → α → α → α) (zero : α) (leaves : List α) (ommers : Nat → α) : Prop :=
  ∀ h, leaves.length.testBit h → ommers h = block node zero leaves h (leaves.length / 2 ^ h - 1)

theorem pow_mul_le_div {n h k : Nat} (below : k ≤ n / 2 ^ h) : k * 2 ^ h ≤ n :=
  (Nat.le_div_iff_mul_le (Nat.two_pow_pos h)).mp below

theorem lt_succ_div_mul (n h : Nat) : n < (n / 2 ^ h + 1) * 2 ^ h := by
  rw [Nat.add_mul, Nat.one_mul]
  exact Nat.lt_div_mul_add (Nat.two_pow_pos h)

/-- The block beside the next free leaf's is the frontier's, or empty. -/
theorem Frontier.beside {leaves : List α} {ommers : Nat → α} (frontier : Frontier node zero leaves ommers) (leaf : α) (h : Nat) :
    (if leaves.length.testBit h then ommers h else emptyBlock node zero h) =
      block node zero (leaves ++ [leaf]) h (beside leaves.length h) := by
  unfold HashTree.beside
  by_cases right : leaves.length.testBit h = true
  · have odd := (testBit_iff _ h).mp right
    rw [if_pos right, if_pos right, frontier h right]
    have positive : 0 < leaves.length / 2 ^ h := Nat.pos_of_ne_zero fun none => by simp [none] at odd
    refine (block_append (pow_mul_le_div ?_) [leaf]).symm
    exact (Nat.sub_add_cancel positive).le
  · rw [if_neg right, if_neg right]
    refine (block_empty ?_).symm
    rw [List.length_append, List.length_singleton]
    exact lt_succ_div_mul _ _

/-- The root folded from a new last leaf, the frontier on its left and nothing on its right. -/
theorem Frontier.root {leaves : List α} {ommers : Nat → α} (frontier : Frontier node zero leaves ommers) (leaf : α) {height : Nat}
    (room : leaves.length < 2 ^ height) :
    climb node leaves.length.testBit (fun h => if leaves.length.testBit h then ommers h else emptyBlock node zero h) height leaf =
      block node zero (leaves ++ [leaf]) height 0 := by
  have last : (leaves ++ [leaf]).getD leaves.length zero = leaf := by simp
  have climbed := @climb_block _ node zero _ leaves.length height _
    fun h _ => frontier.beside leaf h
  rwa [last, Nat.div_eq_of_lt room] at climbed

/-- The node of the block holding the next free leaf, at each height. -/
theorem Frontier.filling {leaves : List α} {ommers : Nat → α} (frontier : Frontier node zero leaves ommers) (h : Nat) :
    climb node leaves.length.testBit (fun h => if leaves.length.testBit h then ommers h else emptyBlock node zero h) h zero =
      block node zero leaves h (leaves.length / 2 ^ h) := by
  have last : leaves.getD leaves.length zero = zero := List.getD_eq_default _ _ le_rfl
  have climbed := @climb_block _ node zero leaves leaves.length h
    (fun h => if leaves.length.testBit h then ommers h else emptyBlock node zero h) fun h _ => ?_
  · rwa [last] at climbed
  · unfold HashTree.beside
    by_cases right : leaves.length.testBit h = true
    · rw [if_pos right, if_pos right, frontier h right]
    · rw [if_neg right, if_neg right]
      exact (block_empty (lt_succ_div_mul _ _).le).symm

/-- A new leaf completes, at each height its block is a right one, the block above. -/
theorem Frontier.carry {leaves : List α} {ommers : Nat → α} (frontier : Frontier node zero leaves ommers) (leaf : α) {h : Nat}
    (right : leaves.length.testBit h) :
    node h (ommers h) (block node zero (leaves ++ [leaf]) h (leaves.length / 2 ^ h)) =
      block node zero (leaves ++ [leaf]) (h + 1) (leaves.length / 2 ^ (h + 1)) := by
  have odd := (testBit_iff _ h).mp right
  have left := frontier.beside leaf h
  rw [if_pos right, HashTree.beside, if_pos right] at left
  rw [block, div_pow_succ, left]
  generalize leaves.length / 2 ^ h = x at odd
  rw [show 2 * (x / 2) = x - 1 by omega, show x - 1 + 1 = x by omega]

/-- A carry stops at the lowest clear bit of a count: one more is the count above that bit, one higher. -/
theorem succ_of_carry {n t : Nat} (ones : ∀ k < t, n.testBit k) : n + 1 = 2 ^ t * (n / 2 ^ t + 1) := by
  have low : n % 2 ^ t = 2 ^ t - 1 := by
    refine Nat.eq_of_testBit_eq fun k => ?_
    rw [Nat.testBit_mod_two_pow, Nat.testBit_two_pow_sub_one]
    by_cases inside : k < t
    · simp [inside, ones k inside]
    · simp [inside]
  have whole := Nat.div_add_mod n (2 ^ t)
  have positive := Nat.two_pow_pos t
  rw [Nat.mul_add, Nat.mul_one]
  omega

theorem succ_div_of_carry {n t h : Nat} (ones : ∀ k < t, n.testBit k) (clear : n.testBit t = false) (above : t < h) :
    (n + 1) / 2 ^ h = n / 2 ^ h := by
  obtain ⟨k, rfl⟩ : ∃ k, h = t + (k + 1) := ⟨h - t - 1, by omega⟩
  have even : ¬n / 2 ^ t % 2 = 1 := fun one => by simp [(testBit_iff n t).mpr one] at clear
  rw [succ_of_carry ones, Nat.pow_add, ← Nat.div_div_eq_div_mul, ← Nat.div_div_eq_div_mul,
    Nat.mul_div_cancel_left _ (Nat.two_pow_pos t), Nat.pow_succ', ← Nat.div_div_eq_div_mul, ← Nat.div_div_eq_div_mul]
  generalize n / 2 ^ t = q at even
  rw [show (q + 1) / 2 = q / 2 by omega]

theorem succ_testBit_below {n t h : Nat} (ones : ∀ k < t, n.testBit k) (below : h < t) : (n + 1).testBit h = false := by
  rw [succ_of_carry ones, Nat.testBit_two_pow_mul]
  simp [Nat.not_le.mpr below]

theorem succ_testBit_above {n t h : Nat} (ones : ∀ k < t, n.testBit k) (clear : n.testBit t = false) (above : t < h) :
    (n + 1).testBit h = n.testBit h := by
  rw [Bool.eq_iff_iff, testBit_iff, testBit_iff, succ_div_of_carry ones clear above]

/-- A leaf carried up to the lowest clear bit of the count leaves the frontier of one more. -/
theorem Frontier.push {leaves : List α} {ommers ommers' : Nat → α} (frontier : Frontier node zero leaves ommers) (leaf : α)
    {t : Nat} (ones : ∀ k < t, leaves.length.testBit k) (clear : leaves.length.testBit t = false)
    (carried : ommers' t = block node zero (leaves ++ [leaf]) t (leaves.length / 2 ^ t))
    (others : ∀ h, t < h → ommers' h = ommers h) : Frontier node zero (leaves ++ [leaf]) ommers' := by
  intro h set
  rw [List.length_append, List.length_singleton] at set ⊢
  rcases Nat.lt_trichotomy h t with below | rfl | above
  · rw [succ_testBit_below ones below] at set
    cases set
  · rw [carried, succ_of_carry ones, Nat.mul_div_cancel_left _ (Nat.two_pow_pos h), Nat.add_sub_cancel]
  · rw [succ_testBit_above ones clear above] at set
    have beside := frontier.beside leaf h
    rw [if_pos set, HashTree.beside, if_pos set] at beside
    rw [others h above, succ_div_of_carry ones clear above, beside]

end

end HashTree

end Moe
