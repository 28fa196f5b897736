import Moe.Ergo.DifficultyBounds

namespace Moe

open Difficulty

theorem compactSize_le_of_lt {value width : Nat} (below : value < 256 ^ width) : compactSize value ≤ width + 1 := by
  have bits : value < 2 ^ (8 * width) := by rwa [Nat.pow_mul]
  have tops : value.log2 + 1 ≤ 8 * width + 1 := by
    by_cases zero : value = 0
    · subst zero
      simp
    · have := (Nat.log2_lt zero).mpr bits
      omega
  rw [compactSize, Nat.shiftRight_eq_div_pow]
  omega

/-- A normalized value of a bounded size is some compact form's. -/
theorem keepTopBytes_attained {value : Nat} (short : value < 256 ^ 254) : ∃ nBits < 2 ^ 32, decodeCompactBits nBits = keepTopBytes value :=
  have size := compactSize_le_of_lt short
  ⟨_, compactForm_lt size, decode_compactForm size⟩

theorem normalizeDifficulty_idem {value normal : Int} (run : normalizeDifficulty value = .ok normal) :
    normalizeDifficulty normal = .ok normal := by
  by_cases nonneg : 0 ≤ value
  · rw [normalizeDifficulty_eq nonneg] at run
    cases run
    rw [normalizeDifficulty_eq (Int.natCast_nonneg _), Int.toNat_natCast, keepTopBytes_idem]
  · rw [normalizeDifficulty, decide_eq_false nonneg] at run
    cases run

theorem normalizeDifficulty_mono {value other normal normal' : Int} (le : value ≤ other)
    (run : normalizeDifficulty value = .ok normal) (run' : normalizeDifficulty other = .ok normal') : normal ≤ normal' := by
  by_cases nonneg : 0 ≤ value
  · rw [normalizeDifficulty_eq nonneg] at run
    rw [normalizeDifficulty_eq (by omega)] at run'
    cases run
    cases run'
    exact Int.ofNat_le.mpr (keepTopBytes_mono (Int.toNat_le_toNat le))
  · rw [normalizeDifficulty, decide_eq_false nonneg] at run
    cases run

namespace Difficulty

theorem clamp_bounds {last value : Int} (positive : 0 < last) :
    last / 2 ≤ clamp last value ∧ 2 * clamp last value ≤ 3 * last ∧ (0 < value → 0 < clamp last value) := by
  have half : last.tdiv 2 = last / 2 := Int.tdiv_eq_ediv_of_nonneg positive.le
  have more : (last * 3).tdiv 2 = last * 3 / 2 := Int.tdiv_eq_ediv_of_nonneg (by omega)
  rw [clamp, half, more]
  split
  · split <;> omega
  · split <;> omega

/-- Mainnet's rule over linked ancestors: a clamped value, normalized. -/
theorem eip37Difficulty_eq {previous : List ErgoHeader} (linked : EpochAncestors previous) :
    ∃ last value, previous.getLast? = some last ∧ 0 < decodeCompactBits last.nBits ∧
      eip37Difficulty previous = .ok (keepTopBytes value.toNat : Int) ∧ decodeCompactBits last.nBits / 2 ≤ value ∧
      2 * value ≤ 3 * decodeCompactBits last.nBits := by
  obtain ⟨predicted, positive, run, _⟩ := @predictiveDifficulty_eq _ linked blockIntervalMs initialDifficulty
    (by decide) (by decide)
  obtain ⟨two, _, timestamps, difficulties⟩ := linked
  have back := List.pairwise_reverse.mpr timestamps
  cases order : previous.reverse with
  | nil =>
    have := congrArg List.length order
    simp only [List.length_reverse, List.length_nil] at this
    omega
  | cons last earlier =>
    cases earlier with
    | nil =>
      have := congrArg List.length order
      simp only [List.length_reverse, List.length_cons, List.length_nil] at this
      omega
    | cons before rest =>
      have ends : previous.getLast? = some last := by
        rw [← List.head?_reverse, order]
        rfl
      have own := difficulties last (List.mem_of_getLast? ends)
      have apart : 0 < last.timestamp - before.timestamp := by
        rw [order] at back
        have := List.rel_of_pairwise_cons back List.mem_cons_self
        omega
      have work : 0 ≤ decodeCompactBits last.nBits * blockIntervalMs * epoch :=
        Int.mul_nonneg (Int.mul_nonneg own.le (by decide)) (by decide)
      obtain ⟨low, high, _⟩ := @clamp_bounds _ (((decodeCompactBits last.nBits * blockIntervalMs * epoch).tdiv
        (last.timestamp - before.timestamp) + clamp (decodeCompactBits last.nBits) (keepTopBytes predicted.toNat : Int)).tdiv 2) own
      refine ⟨last, _, ends, own, ?_, low, high⟩
      rw [eip37Difficulty, order]
      simp only [run, bind, Except.bind, classicEstimate, perEpoch, divide_eq_ok apart.ne']
      exact normalizeDifficulty_eq (by omega)

end Difficulty

/-- A required difficulty: normal, some compact form's value over accepted headers, and what a header is refused for that does not state it,
where it is neither zero nor above the group's order. -/
structure Required (previous : List ErgoHeader) (difficulty : Int) : Prop where
  nonneg : 0 ≤ difficulty
  normal : normalizeDifficulty difficulty = .ok difficulty
  attained : AcceptedDifficulties previous → ∃ nBits < 2 ^ 32, decodeCompactBits nBits = difficulty
  refused : ∀ nBits, refusedForDifficulty difficulty nBits = true ↔ decodeCompactBits nBits ≠ difficulty ∨ difficulty = 0 ∨ q < difficulty

theorem Required.of_kept {previous : List ErgoHeader} {value : Nat} (short : AcceptedDifficulties previous → value < 256 ^ 254) :
    Required previous (keepTopBytes value : Int) where
  nonneg := Int.natCast_nonneg _
  normal := by rw [normalizeDifficulty_eq (Int.natCast_nonneg _), Int.toNat_natCast, keepTopBytes_idem]
  attained accepted := keepTopBytes_attained (short accepted)
  refused nBits := by
    have nonneg := Int.natCast_nonneg (keepTopBytes value)
    simp only [refusedForDifficulty, Bool.or_eq_true, decide_eq_true_eq]
    constructor
    · rintro ((zero | high) | differs)
      · exact .inr (.inl (by omega))
      · exact .inr (.inr high)
      · exact .inl differs
    · rintro (differs | zero | high)
      · exact .inr differs
      · exact .inl (.inl (by omega))
      · exact .inl (.inr high)

/-- Over at least two linked ancestors of increasing heights and timestamps and positive difficulties both rules divide by no zero and
normalize nothing negative. What they require is normal, and over accepted headers some compact form's value, so a header states it; it is
refused for difficulty exactly where its own differs, or where what is required is zero, which mainnet's rule requires only after a
difficulty of one, or above the group's order. Mainnet's is from the normalized half of the last difficulty to three halves of it. -/
theorem required_difficulty {previous : List ErgoHeader} (linked : EpochAncestors previous) :
    ∃ testnet mainnet last half, testnetDifficulty previous = .ok testnet ∧ eip37Difficulty previous = .ok mainnet ∧
      previous.getLast? = some last ∧ Required previous testnet ∧ Required previous mainnet ∧ 0 < testnet ∧
      (mainnet = 0 → decodeCompactBits last.nBits = 1) ∧ 2 * mainnet ≤ 3 * decodeCompactBits last.nBits ∧
      normalizeDifficulty ((decodeCompactBits last.nBits).tdiv 2) = .ok half ∧ half ≤ mainnet ∧
      (∀ value normal, normalizeDifficulty value = .ok normal → normalizeDifficulty normal = .ok normal) ∧
      ∀ value other normal normal', value ≤ other → normalizeDifficulty value = .ok normal → normalizeDifficulty other = .ok normal' →
        normal ≤ normal' := by
  obtain ⟨predicted, positive, testnet, bounded⟩ := @predictiveDifficulty_eq _ linked testnetIntervalMs
    testnetInitialDifficulty (by decide) (by decide)
  obtain ⟨last, value, ends, own, mainnet, low, high⟩ := eip37Difficulty_eq linked
  have half : (decodeCompactBits last.nBits).tdiv 2 = decodeCompactBits last.nBits / 2 := Int.tdiv_eq_ediv_of_nonneg own.le
  have kept := keepTopBytes_le value.toNat
  refine ⟨_, _, last, _, testnet, mainnet, ends, .of_kept fun accepted => ?_, .of_kept fun accepted => ?_, ?_, fun zero => ?_, ?_,
    normalizeDifficulty_eq (by omega), ?_, fun _ _ => normalizeDifficulty_idem, fun _ _ _ _ => normalizeDifficulty_mono⟩
  · have := bounded accepted (by decide)
    have top : max testnetInitialDifficulty (fitBound (2 ^ 31) greatestEstimate) < 256 ^ 254 := by decide +kernel
    exact (Int.toNat_lt positive.le).mpr (by exact_mod_cast this.trans_lt top)
  · have most := accepted.difficulties last (List.mem_of_getLast? ends)
    have top : 2 * q < 256 ^ 254 := by decide +kernel
    have nonneg : 0 ≤ value := by omega
    exact (Int.toNat_lt nonneg).mpr (by omega)
  · exact Int.ofNat_lt.mpr (keepTopBytes_pos (by omega))
  · by_contra other
    have : 0 < keepTopBytes value.toNat := keepTopBytes_pos (by omega)
    omega
  · omega
  · exact Int.ofNat_le.mpr (keepTopBytes_mono (Int.toNat_le_toNat (by omega)))

namespace Difficulty

def sampleAncestors : List ErgoHeader :=
  [⟨1872384, 1770000000000, 117590805⟩, ⟨1872512, 1770015000000, 117590805⟩, ⟨1872640, 1770031000000, 117590805⟩]

/-- An epoch of a thousand seconds a block at difficulty one. -/
def slowEpoch : List ErgoHeader := [⟨128, 0, 0x01010000⟩, ⟨256, 128000000, 0x01010000⟩]

/-- An epoch of a millisecond near the group's order. -/
def orderEpoch : List ErgoHeader := [⟨128, 0, 0x2100ffff⟩, ⟨256, 1, 0x2100ffff⟩]

/-- An epoch of a millisecond at the greatest difficulty a compact form states. -/
def greatestEpoch : List ErgoHeader := [⟨128, 0, 0xff7fffff⟩, ⟨256, 1, 0xff7fffff⟩]

theorem sampleAncestors_linked : EpochAncestors sampleAncestors := ⟨by decide, by decide, by decide, by decide +kernel⟩

end Difficulty

theorem required_difficulty_sample :
    ∃ testnet mainnet last half, testnetDifficulty sampleAncestors = .ok testnet ∧ eip37Difficulty sampleAncestors = .ok mainnet ∧
      sampleAncestors.getLast? = some last ∧ Required sampleAncestors testnet ∧ Required sampleAncestors mainnet ∧ 0 < testnet ∧
      (mainnet = 0 → decodeCompactBits last.nBits = 1) ∧ 2 * mainnet ≤ 3 * decodeCompactBits last.nBits ∧
      normalizeDifficulty ((decodeCompactBits last.nBits).tdiv 2) = .ok half ∧ half ≤ mainnet ∧
      (∀ value normal, normalizeDifficulty value = .ok normal → normalizeDifficulty normal = .ok normal) ∧
      ∀ value other normal normal', value ≤ other → normalizeDifficulty value = .ok normal → normalizeDifficulty other = .ok normal' →
        normal ≤ normal' :=
  required_difficulty sampleAncestors_linked

/-- After a slow epoch at difficulty one mainnet's rule requires zero, which every header is refused for, the one that states it too; after
a fast one near the group's order it requires more than the order, which the header that states it is refused for; and after a fast one at
the greatest difficulty no compact form states what testnet's requires. -/
theorem required_difficulty_refused :
    (EpochAncestors slowEpoch ∧ eip37Difficulty slowEpoch = .ok 0 ∧ decodeCompactBits 0 = 0 ∧ ∀ nBits, refusedForDifficulty 0 nBits = true) ∧
      (EpochAncestors orderEpoch ∧ eip37Difficulty orderEpoch = .ok (decodeCompactBits 0x21017ffe) ∧
        refusedForDifficulty (decodeCompactBits 0x21017ffe) 0x21017ffe = true) ∧
      EpochAncestors greatestEpoch ∧ ∃ required, testnetDifficulty greatestEpoch = .ok required ∧ ∀ nBits, decodeCompactBits nBits ≠ required := by
  refine ⟨⟨⟨by decide, by decide, by decide, by decide +kernel⟩, by decide +kernel, by decide, fun nBits => by simp [refusedForDifficulty]⟩,
    ⟨⟨by decide, by decide, by decide, by decide +kernel⟩, by decide +kernel, by decide +kernel⟩,
    ⟨by decide, by decide, by decide, by decide +kernel⟩, ?_⟩
  have huge : (testnetDifficulty greatestEpoch).toOption.any (256 ^ 255 ≤ ·) = true := by decide +kernel
  cases run : testnetDifficulty greatestEpoch with
  | error failure =>
    rw [run] at huge
    cases huge
  | ok required =>
    rw [run] at huge
    refine ⟨required, rfl, fun nBits same => ?_⟩
    have := decodeCompactBits_lt nBits
    have top : (256 : Int) ^ 255 ≤ required := of_decide_eq_true huge
    exact absurd (same ▸ this) top.not_gt

end Moe
