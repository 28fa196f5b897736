import Moe.Ergo.Difficulty
import Moe.Lib.LeastSquares

namespace Moe

open Difficulty LeastSquares

namespace Difficulty

theorem divide_eq_ok {a b : Int} (nonzero : b ≠ 0) : divide a b = .ok (a.tdiv b) := by
  rw [divide, if_neg nonzero]

theorem sumsOf_eq (data : List (Int × Int)) :
    sumsOf data = ⟨(data.map fun p => p.1 * p.2).sum, (data.map (·.1)).sum, ((data.map (·.1)).map fun x => x * x).sum,
      (data.map (·.2)).sum⟩ := by
  have fold : ∀ sums : Sums, data.foldl Sums.add sums = ⟨sums.xy + (data.map fun p => p.1 * p.2).sum, sums.x + (data.map (·.1)).sum,
      sums.x2 + ((data.map (·.1)).map fun x => x * x).sum, sums.y + (data.map (·.2)).sum⟩ := by
    induction data with
    | nil => simp
    | cons point rest ih =>
      intro sums
      rw [List.foldl_cons, ih]
      simp only [Sums.add, List.map_cons, List.sum_cons, add_assoc]
  rw [sumsOf, fold]
  simp

/-- The slope's denominator over increasing heights is positive. -/
theorem denominator_pos {data : List (Int × Int)} (increasing : (data.map (·.1)).Pairwise (· < ·)) (two : 2 ≤ data.length) :
    0 < (sumsOf data).x2 * data.length - (sumsOf data).x * (sumsOf data).x := by
  rw [sumsOf_eq]
  match data with
  | [] => simp at two
  | [_] => simp at two
  | first :: second :: rest =>
    have apart : first.1 ≠ second.1 := (List.rel_of_pairwise_cons increasing List.mem_cons_self).ne
    have positive := spread_pos (rest.map (·.1)) apart
    simpa [spread] using positive

/-- A truncated quotient is no further from zero. -/
theorem abs_tdiv_le {a b A : Int} (bound : |a| ≤ A) : |a.tdiv b| ≤ A := by
  have := Int.natAbs_tdiv_le_natAbs a b
  rw [Int.abs_eq_natAbs] at bound ⊢
  omega

/-- Increasing numbers of an interval are no more than it holds. -/
theorem length_le_of_increasing {xs : List Int} {low high : Int} (increasing : xs.Pairwise (· < ·))
    (within : ∀ x ∈ xs, low ≤ x ∧ x ≤ high) (some_ : low ≤ high + 1) : (xs.length : Int) ≤ high - low + 1 := by
  induction xs generalizing low with
  | nil =>
    simp only [List.length_nil]
    omega
  | cons x rest ih =>
    obtain ⟨above, increasing⟩ := List.pairwise_cons.mp increasing
    obtain ⟨⟨lowest, highest⟩, others⟩ := List.forall_mem_cons.mp within
    have tail := @ih (low + 1) increasing (fun y member => ⟨by have := above y member; omega, (others y member).2⟩) (by omega)
    simp only [List.length_cons]
    omega

end Difficulty

/-- Ancestors a difficulty is calculated from: at least two, of increasing heights and timestamps and positive difficulties. -/
structure EpochAncestors (previous : List ErgoHeader) : Prop where
  two : 2 ≤ previous.length
  heights : previous.Pairwise (·.height < ·.height)
  timestamps : previous.Pairwise (·.timestamp < ·.timestamp)
  positive : ∀ header ∈ previous, 0 < decodeCompactBits header.nBits

/-- Headers as a store accepts them: heights the parser reads, and no difficulty above the group's order. -/
structure AcceptedDifficulties (previous : List ErgoHeader) : Prop where
  heights : ∀ header ∈ previous, 0 ≤ header.height ∧ header.height ≤ HeaderStore.maxHeight
  difficulties : ∀ header ∈ previous, decodeCompactBits header.nBits ≤ q

namespace Difficulty

/-- Each epoch's estimate is defined, at its last header's height, and no more than its difficulty over the shortest epoch. -/
theorem estimates_eq {interval : Int} (steps : 0 < interval) {previous : List ErgoHeader}
    (timestamps : previous.Pairwise (·.timestamp < ·.timestamp)) (positive : ∀ header ∈ previous, 0 < decodeCompactBits header.nBits) :
    ∃ data, estimates interval previous = .ok data ∧ data.map (·.1) = previous.tail.map (·.height) ∧
      ∀ point ∈ data, ∃ header ∈ previous, 0 ≤ point.2 ∧ point.2 ≤ decodeCompactBits header.nBits * interval * epoch := by
  induction previous with
  | nil => exact ⟨[], rfl, rfl, by simp⟩
  | cons first rest ih =>
    cases rest with
    | nil => exact ⟨[], rfl, rfl, by simp⟩
    | cons last rest =>
      obtain ⟨later, timestamps'⟩ := List.pairwise_cons.mp timestamps
      obtain ⟨data, run, heights, bounded⟩ := ih timestamps' fun header member => positive header (List.mem_cons_of_mem _ member)
      have apart : 0 < last.timestamp - first.timestamp := by
        have := later last List.mem_cons_self
        omega
      have work : 0 ≤ decodeCompactBits last.nBits * interval * epoch := by
        have := positive last (List.mem_cons_of_mem _ List.mem_cons_self)
        exact Int.mul_nonneg (Int.mul_nonneg this.le steps.le) (by decide)
      refine ⟨_, by rw [estimates, perEpoch, divide_eq_ok apart.ne', run]; rfl, by simp [heights], ?_⟩
      rintro point (_ | ⟨_, member⟩)
      · refine ⟨last, List.mem_cons_of_mem _ List.mem_cons_self, Int.tdiv_nonneg work apart.le, ?_⟩
        exact (le_abs_self _).trans (abs_tdiv_le (abs_of_nonneg work).le)
      · obtain ⟨header, within, bounds⟩ := bounded point member
        exact ⟨header, List.mem_cons_of_mem _ within, bounds⟩

/-- What an interpolation is within, over so many heights and estimates within a bound. -/
def fitBound (N D : Int) : Int :=
  N * D * precision + (N * (N * D) * N + N * N * (N * D)) * precision * (N * N) + (N * (N * D) * N + N * N * (N * D)) * precision * 2 ^ 31

/-- Over at least two increasing heights the interpolation is defined, and within what its data is within. -/
theorem interpolate_eq {data : List (Int × Int)} (increasing : (data.map (·.1)).Pairwise (· < ·)) (two : 2 ≤ data.length) (last : Int) :
    ∃ value, interpolate data last = .ok value ∧ ∀ N D : Int, (data.length : Int) ≤ N → (∀ point ∈ data, |point.1| ≤ N ∧ |point.2| ≤ D) →
      value ≤ fitBound N D := by
  have spread := denominator_pos increasing two
  have size : (data.length : Int) ≠ 0 := by omega
  refine ⟨_, by
    rw [interpolate, divide_eq_ok spread.ne']
    simp only [bind, Except.bind, divide_eq_ok size, divide_eq_ok (b := precision) (by decide)]
    rfl, fun N D short each => ?_⟩
  have length : |(data.length : Int)| ≤ N := by
    rw [abs_of_nonneg (by omega)]
    exact short
  have many : ∀ {xs : List Int} {bound : Int}, xs.length = data.length → (∀ x ∈ xs, |x| ≤ bound) → |xs.sum| ≤ N * bound := by
    intro xs bound same each
    cases xs with
    | nil =>
      simp only [List.length_nil] at same
      omega
    | cons x rest =>
      have nonneg : 0 ≤ bound := (abs_nonneg x).trans (each x List.mem_cons_self)
      refine (abs_sum_le each).trans (mul_le_mul_of_nonneg_right ?_ nonneg)
      rw [same]
      exact short
  have x : |(sumsOf data).x| ≤ N * N := by
    rw [sumsOf_eq]
    exact many (by simp) (by simpa using fun a b member => (each (a, b) member).1)
  have y : |(sumsOf data).y| ≤ N * D := by
    rw [sumsOf_eq]
    exact many (by simp) (by simpa using fun b a member => (each (a, b) member).2)
  have xy : |(sumsOf data).xy| ≤ N * (N * D) := by
    rw [sumsOf_eq]
    refine many (by simp) fun value member => ?_
    obtain ⟨point, within, rfl⟩ := List.mem_map.mp member
    exact abs_mul_le (each point within).1 (each point within).2
  have scale : |precision| ≤ precision := by decide
  have slope := abs_tdiv_le (b := (sumsOf data).x2 * data.length - (sumsOf data).x * (sumsOf data).x)
    (abs_mul_le (abs_sub_le_add (abs_mul_le xy length) (abs_mul_le x y)) scale)
  have offset := abs_tdiv_le (b := precision) (abs_tdiv_le (b := data.length) (abs_sub_le_add (abs_mul_le y scale) (abs_mul_le slope x)))
  have point : |(last + epoch).bmod (2 ^ 32)| ≤ 2 ^ 31 := by
    rw [abs_le]
    have low := Int.le_bmod (x := last + epoch) (m := 2 ^ 32) (by decide)
    have high := Int.bmod_lt (x := last + epoch) (m := 2 ^ 32) (by decide)
    omega
  have risen := abs_tdiv_le (b := precision) (abs_mul_le slope point)
  rw [fitBound]
  exact add_le_add ((le_abs_self _).trans offset) ((le_abs_self _).trans risen)

/-- A list of at least one estimate, at increasing heights, has a value an epoch on. -/
theorem interpolated_eq {data : List (Int × Int)} (increasing : (data.map (·.1)).Pairwise (· < ·)) (some_ : 0 < data.length) :
    ∃ value, interpolated data = .ok value ∧ ∀ N D : Int, (data.length : Int) ≤ N → (∀ point ∈ data, |point.1| ≤ N ∧ |point.2| ≤ D) →
      value ≤ fitBound N D := by
  match data with
  | [] => simp at some_
  | [point] =>
    refine ⟨point.2, rfl, fun N D short each => ?_⟩
    obtain ⟨_, within⟩ := each point List.mem_cons_self
    have estimate := (le_abs_self _).trans within
    have zero : 0 ≤ D := (abs_nonneg _).trans within
    have one : (1 : Int) ≤ N := short
    have least : D ≤ N * D * precision := by
      have wide := mul_le_mul_of_nonneg_right one zero
      have scaled := mul_le_mul_of_nonneg_left (by decide : (1 : Int) ≤ precision) ((zero.trans_eq (one_mul D).symm).trans wide)
      rw [one_mul] at wide
      rw [mul_one] at scaled
      exact wide.trans scaled
    have rest : 0 ≤ (N * (N * D) * N + N * N * (N * D)) * precision * (N * N) + (N * (N * D) * N + N * N * (N * D)) * precision * 2 ^ 31 := by
      have : 0 ≤ N := by omega
      have : (0 : Int) ≤ precision := by decide
      positivity
    rw [fitBound, add_assoc]
    exact (estimate.trans least).trans (le_add_of_nonneg_right rest)
  | first :: second :: rest => exact interpolate_eq increasing (by simp) _

theorem normalizeDifficulty_eq {value : Int} (nonneg : 0 ≤ value) : normalizeDifficulty value = .ok (keepTopBytes value.toNat : Int) := by
  rw [normalizeDifficulty, decide_eq_true nonneg]
  rfl

/-- The difficulties of accepted headers over an epoch's shortest time. -/
def greatestEstimate : Int := q * blockIntervalMs * epoch

/-- The prediction over linked ancestors is defined and positive, and bounded over accepted ones. -/
theorem predictiveDifficulty_eq {previous : List ErgoHeader} (linked : EpochAncestors previous) {interval initial : Int}
    (steps : 0 < interval) (positive : 0 < initial) :
    ∃ value, 0 < value ∧ predictiveDifficulty previous interval initial = .ok (keepTopBytes value.toNat : Int) ∧
      (AcceptedDifficulties previous → interval ≤ blockIntervalMs → value ≤ max initial (fitBound (2 ^ 31) greatestEstimate)) := by
  obtain ⟨two, increasing, timestamps, difficulties⟩ := linked
  obtain ⟨data, run, heights, bounds⟩ := estimates_eq steps timestamps difficulties
  have count : data.length = previous.length - 1 := by
    have := congrArg List.length heights
    simpa using this
  have points : (data.map (·.1)).Pairwise (· < ·) := by
    rw [heights, List.pairwise_map]
    exact increasing.sublist (List.tail_sublist previous)
  obtain ⟨value, fitted, within⟩ := interpolated_eq points (by omega)
  refine ⟨if 1 ≤ value then value else initial, ?_, ?_, fun accepted short => ?_⟩
  · split <;> omega
  · match previous with
    | [] => simp at two
    | [_] => simp at two
    | first :: second :: rest =>
      have later : ¬(second :: rest = [] ∨ ((second :: rest).getLastD first).timestamp ≤ first.timestamp) := by
        rintro (empty | back)
        · cases empty
        · rw [List.getLastD_cons] at back
          have := (List.pairwise_cons.mp timestamps).1 _ List.getLastD_mem_cons
          omega
      rw [predictiveDifficulty, if_neg later, run]
      simp only [bind, Except.bind, fitted]
      exact normalizeDifficulty_eq (by split <;> omega)
  · have short_data : (data.length : Int) ≤ 2 ^ 31 := by
      have := @length_le_of_increasing _ 0 HeaderStore.maxHeight points (fun x member => by
        rw [heights] at member
        obtain ⟨header, listed, rfl⟩ := List.mem_map.mp member
        exact accepted.heights header (List.mem_of_mem_tail listed)) (by decide)
      simpa [HeaderStore.maxHeight] using this
    have each : ∀ point ∈ data, |point.1| ≤ 2 ^ 31 ∧ |point.2| ≤ greatestEstimate := by
      intro point member
      constructor
      · have listed : point.1 ∈ previous.tail.map (·.height) := heights ▸ List.mem_map_of_mem member
        obtain ⟨header, within, same⟩ := List.mem_map.mp listed
        obtain ⟨low, high⟩ := accepted.heights header (List.mem_of_mem_tail within)
        rw [← same, abs_of_nonneg low]
        exact high.trans (by decide)
      · obtain ⟨header, within, zero, most⟩ := bounds point member
        have own := difficulties header within
        rw [abs_of_nonneg zero, greatestEstimate]
        refine most.trans (mul_le_mul_of_nonneg_right ?_ (by decide))
        exact mul_le_mul (accepted.difficulties header within) short steps.le (own.le.trans (accepted.difficulties header within))
    have bound := within (2 ^ 31) greatestEstimate short_data each
    split
    · exact bound.trans (le_max_right _ _)
    · exact le_max_left _ _

end Difficulty

end Moe
