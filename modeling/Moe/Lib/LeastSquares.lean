import Mathlib.Algebra.Order.BigOperators.Group.List
import Mathlib.Algebra.Order.Ring.Abs
import Mathlib.Tactic.GCongr
import Mathlib.Tactic.Ring
import Mathlib.Tactic.Linarith

namespace Moe.LeastSquares

section

variable {R : Type*} [CommRing R]

/-- The denominator of a least-squares slope over its points' first coordinates. -/
def spread (xs : List R) : R := (xs.map fun x => x * x).sum * xs.length - xs.sum * xs.sum

/-- The squares of the points' distances from one of them. -/
def deviations (a : R) (xs : List R) : R := (xs.map fun x => (x - a) * (x - a)).sum

theorem deviations_eq (a : R) (xs : List R) :
    deviations a xs = (xs.map fun x => x * x).sum - 2 * a * xs.sum + xs.length * (a * a) := by
  induction xs with
  | nil => simp [deviations]
  | cons x rest ih =>
    have head : deviations a (x :: rest) = (x - a) * (x - a) + deviations a rest := by simp [deviations]
    rw [head, ih]
    simp only [List.map_cons, List.sum_cons, List.length_cons, Nat.cast_add, Nat.cast_one]
    ring

/-- A further point adds its distances from the others. -/
theorem spread_cons (a : R) (xs : List R) : spread (a :: xs) = spread xs + deviations a xs := by
  rw [deviations_eq]
  simp only [spread, List.map_cons, List.sum_cons, List.length_cons, Nat.cast_add, Nat.cast_one]
  ring

end

variable {R : Type*} [CommRing R] [LinearOrder R] [IsStrictOrderedRing R]

theorem deviations_nonneg (a : R) (xs : List R) : 0 ≤ deviations a xs := by
  refine List.sum_nonneg fun d member => ?_
  obtain ⟨x, _, rfl⟩ := List.mem_map.mp member
  exact mul_self_nonneg _

theorem spread_nonneg (xs : List R) : 0 ≤ spread xs := by
  induction xs with
  | nil => simp [spread]
  | cons a rest ih =>
    rw [spread_cons]
    exact add_nonneg ih (deviations_nonneg a rest)

/-- Over two points apart the slope is defined. -/
theorem spread_pos {a b : R} (rest : List R) (apart : a ≠ b) : 0 < spread (a :: b :: rest) := by
  have first : deviations a (b :: rest) = (b - a) * (b - a) + deviations a rest := by simp [deviations]
  rw [spread_cons, first]
  have positive : 0 < (b - a) * (b - a) := mul_self_pos.mpr (sub_ne_zero.mpr apart.symm)
  have := spread_nonneg (b :: rest)
  have := deviations_nonneg a rest
  linarith

theorem abs_sum_le {xs : List R} {bound : R} (each : ∀ x ∈ xs, |x| ≤ bound) : |xs.sum| ≤ xs.length * bound := by
  induction xs with
  | nil => simp
  | cons x rest ih =>
    obtain ⟨head, tail⟩ := List.forall_mem_cons.mp each
    calc |(x :: rest).sum| ≤ |x| + |rest.sum| := by rw [List.sum_cons]; exact abs_add_le _ _
      _ ≤ bound + rest.length * bound := add_le_add head (ih tail)
      _ = _ := by rw [List.length_cons, Nat.cast_add, Nat.cast_one]; ring

theorem abs_mul_le {a b A B : R} (first : |a| ≤ A) (second : |b| ≤ B) : |a * b| ≤ A * B := by
  rw [abs_mul]
  exact mul_le_mul first second (abs_nonneg b) ((abs_nonneg a).trans first)

theorem abs_sub_le_add {a b A B : R} (first : |a| ≤ A) (second : |b| ≤ B) : |a - b| ≤ A + B :=
  (abs_sub a b).trans (add_le_add first second)

end Moe.LeastSquares
