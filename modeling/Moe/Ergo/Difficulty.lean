import Mathlib.Data.Nat.Log
import Moe.Bytes
import Moe.Ergo.HeaderRows

namespace Moe

/-- A header's fields that a difficulty is calculated from. -/
structure ErgoHeader where
  height : Int
  timestamp : Int
  nBits : Nat
  deriving DecidableEq, Repr

namespace Difficulty

def epoch : Int := 128
def blockIntervalMs : Int := 120000
def precision : Int := 1000000000
def initialDifficulty : Int := 0x011765000000
def testnetIntervalMs : Int := 45000
def testnetInitialDifficulty : Int := 1

/-- The order of the curve's group: a difficulty above it admits no hit. -/
def q : Int := 0xfffffffffffffffffffffffffffffffebaaedce6af48a03bbfd25e8cd0364141

/-- A division of the code's integers: towards zero, and by zero it throws. -/
def divide (a b : Int) : Except Failure Int :=
  if b = 0 then .error (.rangeError "Division by zero") else .ok (a.tdiv b)

end Difficulty

open Difficulty

/-- The mantissa's bytes: the three low bytes of the compact form, cut or continued with zeros to its size. -/
def compactMantissa (nBits : Nat) : Bytes :=
  (toBytes 3 nBits).take (min (nBits >>> 24 % 256) 3) ++ List.replicate (nBits >>> 24 % 256 - 3) 0

/-- Bitcoin's compact encoding as the node decodes it. -/
def decodeCompactBits (nBits : Nat) : Int :=
  match compactMantissa nBits with
  | [] => 0
  | first :: rest => if 128 ≤ first then -(ofBytes ((first - 128) :: rest) : Int) else (ofBytes (first :: rest) : Int)

/-- The length in bytes of a number's two's-complement encoding, with its sign. -/
def compactSize (value : Nat) : Nat := (value.log2 + 1) >>> 3 + 1

/-- The number with its top three bytes alone. -/
def keepTopBytes (value : Nat) : Nat :=
  if compactSize value ≤ 3 then value
  else (value >>> (8 * (compactSize value - 3))) <<< (8 * (compactSize value - 3))

/-- `decode(encode(value))` for a non-negative value, the node's normalization. -/
def normalizeDifficulty (value : Int) : Except Failure Int := do
  require (0 ≤ value) (.rangeError "difficulty is non-negative")
  return (keepTopBytes value.toNat : Int)

namespace Difficulty

def perEpoch (interval : Int) (first last : ErgoHeader) : Except Failure Int :=
  divide (decodeCompactBits last.nBits * interval * epoch) (last.timestamp - first.timestamp)

/-- The sums of a least-squares fit over heights and difficulties. -/
structure Sums where
  xy : Int
  x : Int
  x2 : Int
  y : Int
  deriving DecidableEq, Repr

def Sums.add (sums : Sums) (point : Int × Int) : Sums :=
  ⟨sums.xy + point.1 * point.2, sums.x + point.1, sums.x2 + point.1 * point.1, sums.y + point.2⟩

def sumsOf (data : List (Int × Int)) : Sums := data.foldl Sums.add ⟨0, 0, 0, 0⟩

/-- The fit's value an epoch past the last height, whose addition wraps at 32 bits. -/
def interpolate (data : List (Int × Int)) (last : Int) : Except Failure Int := do
  let size : Int := data.length
  let sums := sumsOf data
  let b ← divide ((sums.xy * size - sums.x * sums.y) * precision) (sums.x2 * size - sums.x * sums.x)
  let scaled ← divide (sums.y * precision - b * sums.x) size
  let a ← divide scaled precision
  let risen ← divide (b * (last + epoch).bmod (2 ^ 32)) precision
  return a + risen

/-- The successive epochs' estimates, each at its last header's height. -/
def estimates (interval : Int) : List ErgoHeader → Except Failure (List (Int × Int))
  | first :: last :: rest => do
    let difficulty ← perEpoch interval first last
    let later ← estimates interval (last :: rest)
    return (last.height, difficulty) :: later
  | _ => .ok []

def interpolated (data : List (Int × Int)) : Except Failure Int :=
  match data with
  | [(_, difficulty)] => .ok difficulty
  | _ => interpolate data (data.getLastD (0, 0)).1

end Difficulty

/-- The node's least-squares prediction over successive epoch estimates, compact-normalized. -/
def predictiveDifficulty (previous : List ErgoHeader) (interval initial : Int) : Except Failure Int :=
  match previous with
  | [] => .error (.typeError "undefined is not an object")
  | first :: rest =>
    if rest = [] ∨ (rest.getLastD first).timestamp ≤ first.timestamp then normalizeDifficulty (decodeCompactBits first.nBits)
    else do
      let data ← estimates interval (first :: rest)
      let value ← interpolated data
      normalizeDifficulty (if 1 ≤ value then value else initial)

/-- Testnet's predictor: no average or clamps. -/
def testnetDifficulty (previous : List ErgoHeader) : Except Failure Int :=
  predictiveDifficulty previous testnetIntervalMs testnetInitialDifficulty

namespace Difficulty

def clamp (last value : Int) : Int :=
  if last < value then (if value < (last * 3).tdiv 2 then value else (last * 3).tdiv 2)
  else if last.tdiv 2 < value then value else last.tdiv 2

/-- The last epoch's own estimate, from the header before the last. -/
def classicEstimate (earlier : List ErgoHeader) (last : ErgoHeader) : Except Failure Int :=
  match earlier with
  | [] => .error (.typeError "undefined is not an object")
  | before :: _ => perEpoch blockIntervalMs before last

end Difficulty

/-- Mainnet's rule: average the classic estimate and the clamped prediction, then clamp and normalize. -/
def eip37Difficulty (previous : List ErgoHeader) : Except Failure Int :=
  match previous.reverse with
  | [] => .error (.typeError "undefined is not an object")
  | last :: earlier => do
    let lastDifficulty := decodeCompactBits last.nBits
    let predictive ← predictiveDifficulty previous blockIntervalMs initialDifficulty
    let classic ← classicEstimate earlier last
    normalizeDifficulty (clamp lastDifficulty ((classic + clamp lastDifficulty predictive).tdiv 2))

/-- Whether a header of this compact form is refused for difficulty where this much is required. -/
def refusedForDifficulty (difficulty : Int) (nBits : Nat) : Bool :=
  difficulty ≤ 0 || q < difficulty || decodeCompactBits nBits ≠ difficulty

end Moe

namespace Moe

theorem ofBytes_append_zeros (bytes : Bytes) (count : Nat) :
    ofBytes (bytes ++ List.replicate count 0) = ofBytes bytes * 256 ^ count := by
  induction count with
  | zero => simp
  | succ count ih =>
    rw [List.replicate_succ', ← List.append_assoc, ofBytes_concat, ih, Nat.pow_succ, Nat.mul_assoc]
    rfl

/-- The leading bytes of a number are those of its quotient. -/
theorem toBytes_take (width kept n : Nat) (within : kept ≤ width) :
    (toBytes width n).take kept = toBytes kept (n / 256 ^ (width - kept)) := by
  induction width generalizing n with
  | zero =>
    obtain rfl : kept = 0 := by omega
    rfl
  | succ width ih =>
    by_cases all : kept = width + 1
    · subst all
      simp [List.take_of_length_le]
    · rw [toBytes, List.take_append_of_le_length (by simp; omega), ih (n / 256) (by omega), Nat.div_div_eq_div_mul,
        show width + 1 - kept = width - kept + 1 by omega, Nat.pow_succ, Nat.mul_comm 256]

/-- A number's bytes name it up to its width. -/
theorem ofBytes_toBytes_mod (width n : Nat) : ofBytes (toBytes width n) = n % 256 ^ width := by
  induction width generalizing n with
  | zero => simp [toBytes, Nat.mod_one]
  | succ width ih =>
    have byte : n % 256 < 256 := Nat.mod_lt n (by decide)
    rw [toBytes, ofBytes_concat, ih, UInt8.toNat_ofNat_of_lt' byte, Nat.pow_succ, Nat.mul_comm (256 ^ width), Nat.mod_mul]
    omega

theorem ofBytes_cons (byte : UInt8) (bytes : Bytes) : ofBytes (byte :: bytes) = byte.toNat * 256 ^ bytes.length + ofBytes bytes := by
  induction bytes using List.reverseRecOn with
  | nil => simp [ofBytes]
  | append_singleton bytes last ih =>
    rw [← List.cons_append, ofBytes_concat, ih, ofBytes_concat, List.length_append, List.length_singleton, Nat.pow_succ, Nat.add_mul,
      Nat.mul_assoc, Nat.add_assoc]

section Sizes

variable {value other : Nat}

theorem lt_compactSize (value : Nat) : value < 2 ^ (8 * compactSize value - 1) := by
  refine Nat.lt_of_lt_of_le Nat.lt_log2_self (Nat.pow_le_pow_right (by decide) ?_)
  rw [compactSize, Nat.shiftRight_eq_div_pow]
  omega

theorem compactSize_le_log2 (value : Nat) : 8 * (compactSize value - 1) ≤ value.log2 + 1 := by
  rw [compactSize, Nat.shiftRight_eq_div_pow]
  omega

theorem keepTopBytes_eq (value : Nat) :
    keepTopBytes value = value / 2 ^ (8 * (compactSize value - 3)) * 2 ^ (8 * (compactSize value - 3)) := by
  rw [keepTopBytes]
  split
  · rename_i short
    rw [Nat.sub_eq_zero_of_le short]
    simp
  · rw [Nat.shiftLeft_eq, Nat.shiftRight_eq_div_pow]

theorem keepTopBytes_le (value : Nat) : keepTopBytes value ≤ value := by
  rw [keepTopBytes_eq]
  exact Nat.div_mul_le_self _ _

/-- The top bit is among the bytes kept. -/
theorem pow_log2_le_keepTopBytes (nonzero : value ≠ 0) : 2 ^ value.log2 ≤ keepTopBytes value := by
  have size := compactSize_le_log2 value
  have lies : 8 * (compactSize value - 3) ≤ value.log2 := by omega
  have top := Nat.log2_self_le nonzero
  obtain ⟨rest, exponent⟩ := Nat.exists_eq_add_of_le lies
  rw [keepTopBytes_eq]
  calc 2 ^ value.log2 = 2 ^ rest * 2 ^ (8 * (compactSize value - 3)) := by rw [← Nat.pow_add, Nat.add_comm, ← exponent]
    _ ≤ _ := by
      refine Nat.mul_le_mul_right _ ((Nat.le_div_iff_mul_le (Nat.two_pow_pos _)).mpr ?_)
      rw [← Nat.pow_add, Nat.add_comm, ← exponent]
      exact top

theorem log2_keepTopBytes (value : Nat) : (keepTopBytes value).log2 = value.log2 := by
  by_cases zero : value = 0
  · subst zero
    rfl
  · have low := pow_log2_le_keepTopBytes zero
    have positive : keepTopBytes value ≠ 0 := by
      have := Nat.two_pow_pos value.log2
      omega
    rw [Nat.log2_eq_iff positive]
    exact ⟨low, Nat.lt_of_le_of_lt (keepTopBytes_le value) Nat.lt_log2_self⟩

theorem compactSize_keepTopBytes (value : Nat) : compactSize (keepTopBytes value) = compactSize value := by
  rw [compactSize, compactSize, log2_keepTopBytes]

theorem keepTopBytes_idem (value : Nat) : keepTopBytes (keepTopBytes value) = keepTopBytes value := by
  rw [keepTopBytes_eq (keepTopBytes value), compactSize_keepTopBytes, keepTopBytes_eq, Nat.mul_div_cancel _ (Nat.two_pow_pos _)]

theorem keepTopBytes_mono (le : value ≤ other) : keepTopBytes value ≤ keepTopBytes other := by
  by_cases zero : value = 0
  · subst zero
    exact Nat.zero_le _
  · have nonzero : other ≠ 0 := by omega
    have tops : value.log2 ≤ other.log2 := (Nat.le_log2 nonzero).mpr ((Nat.log2_self_le zero).trans le)
    rcases Nat.eq_or_lt_of_le tops with same | below
    · rw [keepTopBytes_eq, keepTopBytes_eq, compactSize, compactSize, same]
      exact Nat.mul_le_mul_right _ (Nat.div_le_div_right le)
    · calc keepTopBytes value ≤ value := keepTopBytes_le value
        _ ≤ 2 ^ (value.log2 + 1) := Nat.lt_log2_self.le
        _ ≤ 2 ^ other.log2 := Nat.pow_le_pow_right (by decide) below
        _ ≤ keepTopBytes other := pow_log2_le_keepTopBytes nonzero

theorem keepTopBytes_pos (positive : 0 < value) : 0 < keepTopBytes value :=
  Nat.lt_of_lt_of_le (Nat.two_pow_pos _) (pow_log2_le_keepTopBytes (by omega))

end Sizes

/-- The compact form of a number of at most 255 bytes: its size and its top three bytes. -/
def compactForm (value : Nat) : Nat :=
  compactSize value * 2 ^ 24 +
    if compactSize value ≤ 3 then value * 256 ^ (3 - compactSize value) else value / 256 ^ (compactSize value - 3)

theorem compactForm_mantissa_lt (value : Nat) :
    (if compactSize value ≤ 3 then value * 256 ^ (3 - compactSize value) else value / 256 ^ (compactSize value - 3)) < 2 ^ 23 := by
  have bound := lt_compactSize value
  have one : 1 ≤ compactSize value := Nat.le_add_left 1 _
  have bytes : ∀ width, 256 ^ width = 2 ^ (8 * width) := fun width => by rw [Nat.pow_mul]
  split
  · rename_i short
    calc value * 256 ^ (3 - compactSize value) < 2 ^ (8 * compactSize value - 1) * 256 ^ (3 - compactSize value) :=
          Nat.mul_lt_mul_of_pos_right bound (Nat.pow_pos (by decide))
      _ = 2 ^ 23 := by rw [bytes, ← Nat.pow_add, show 8 * compactSize value - 1 + 8 * (3 - compactSize value) = 23 by omega]
  · rename_i long
    refine Nat.div_lt_of_lt_mul ?_
    rwa [bytes, ← Nat.pow_add, show 8 * (compactSize value - 3) + 23 = 8 * compactSize value - 1 by omega]

theorem compactForm_lt {value : Nat} (short : compactSize value ≤ 255) : compactForm value < 2 ^ 32 := by
  have := compactForm_mantissa_lt value
  rw [compactForm]
  omega

theorem compactForm_size {value : Nat} (short : compactSize value ≤ 255) : compactForm value >>> 24 % 256 = compactSize value := by
  have := compactForm_mantissa_lt value
  rw [compactForm, Nat.shiftRight_eq_div_pow]
  omega

theorem compactMantissa_length {nBits : Nat} : (compactMantissa nBits).length = nBits >>> 24 % 256 := by
  rw [compactMantissa, List.length_append, List.length_take, toBytes_length, List.length_replicate]
  omega

theorem ofBytes_compactMantissa (nBits : Nat) :
    ofBytes (compactMantissa nBits) = nBits / 256 ^ (3 - min (nBits >>> 24 % 256) 3) % 256 ^ min (nBits >>> 24 % 256) 3 *
      256 ^ (nBits >>> 24 % 256 - 3) := by
  rw [compactMantissa, ofBytes_append_zeros, toBytes_take _ _ _ (by omega), ofBytes_toBytes_mod]

/-- A mantissa whose sign bit is not set is its number. -/
theorem decodeCompactBits_of_lt {nBits : Nat} (positive : ofBytes (compactMantissa nBits) < 2 ^ (8 * (nBits >>> 24 % 256) - 1)) :
    decodeCompactBits nBits = ofBytes (compactMantissa nBits) := by
  rw [← compactMantissa_length] at positive
  rw [decodeCompactBits]
  cases bytes : compactMantissa nBits with
  | nil => rfl
  | cons first rest =>
    have low : ¬128 ≤ first := by
      intro signed
      have high : 128 ≤ first.toNat := signed
      rw [bytes, ofBytes_cons, List.length_cons] at positive
      have top : 2 ^ (8 * (rest.length + 1) - 1) = 128 * 256 ^ rest.length := by
        rw [show 8 * (rest.length + 1) - 1 = 7 + 8 * rest.length by omega, Nat.pow_add, Nat.pow_mul]
      have := Nat.mul_le_mul_right (256 ^ rest.length) high
      omega
    simp only [low, if_false]

/-- A number's compact form decodes to the number with its top three bytes alone. -/
theorem decode_compactForm {value : Nat} (short : compactSize value ≤ 255) :
    decodeCompactBits (compactForm value) = keepTopBytes value := by
  have one : 1 ≤ compactSize value := Nat.le_add_left 1 _
  have bytes : ∀ width, 256 ^ width = 2 ^ (8 * width) := fun width => by rw [Nat.pow_mul]
  have number : ofBytes (compactMantissa (compactForm value)) = keepTopBytes value := by
    rw [ofBytes_compactMantissa, compactForm_size short, keepTopBytes_eq]
    have mantissa := compactForm_mantissa_lt value
    by_cases small : compactSize value ≤ 3
    · have within : value < 256 ^ compactSize value := by
        rw [bytes]
        exact (lt_compactSize value).trans_le (Nat.pow_le_pow_right (by decide) (by omega))
      have form : compactForm value = (compactSize value * 256 ^ compactSize value + value) * 256 ^ (3 - compactSize value) := by
        rw [compactForm, if_pos small, Nat.add_mul, Nat.mul_assoc, ← Nat.pow_add, show compactSize value + (3 - compactSize value) = 3 by omega,
          show (256 : Nat) ^ 3 = 2 ^ 24 by decide]
      rw [Nat.min_eq_left small, form, Nat.mul_div_cancel _ (Nat.pow_pos (by decide)), Nat.add_comm, Nat.add_mul_mod_self_right,
        Nat.mod_eq_of_lt within, Nat.sub_eq_zero_of_le small]
      simp
    · have form : compactForm value = value / 256 ^ (compactSize value - 3) + compactSize value * 256 ^ 3 := by
        rw [compactForm, if_neg small, Nat.add_comm, show (256 : Nat) ^ 3 = 2 ^ 24 by decide]
      rw [if_neg small] at mantissa
      rw [Nat.min_eq_right (by omega), form, Nat.sub_self, Nat.pow_zero, Nat.div_one, Nat.add_mul_mod_self_right, Nat.mod_eq_of_lt (by omega),
        bytes]
  rw [decodeCompactBits_of_lt, number]
  rw [number, compactForm_size short]
  exact Nat.lt_of_le_of_lt (keepTopBytes_le value) (lt_compactSize value)

theorem cast_lt_pow {number base exponent : Nat} (below : number < base ^ exponent) : (number : Int) < (base : Int) ^ exponent := by
  exact_mod_cast below

/-- No compact form decodes past 255 bytes. -/
theorem decodeCompactBits_lt (nBits : Nat) : decodeCompactBits nBits < 256 ^ 255 := by
  have number := ofBytes_lt (compactMantissa nBits)
  rw [compactMantissa_length] at number
  have top := number.trans_le (Nat.pow_le_pow_right (by decide) (by omega : nBits >>> 24 % 256 ≤ 255))
  rw [decodeCompactBits]
  split
  · decide
  · rename_i first rest bytes
    rw [bytes] at top
    split
    · have := (ofBytes ((first - 128) :: rest)).zero_le
      omega
    · exact cast_lt_pow top

end Moe
