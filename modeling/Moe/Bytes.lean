import Mathlib.Algebra.Group.Nat.Defs
import Mathlib.Data.List.Induction
import Moe.Refusals

namespace Moe

abbrev Bytes := List UInt8

/-- A domain-separation tag's bytes. -/
def tag (text : String) : Bytes := text.toList.map fun c => UInt8.ofNat c.toNat

/-- The low `width` bytes of `n`, big-endian. -/
def toBytes : Nat → Nat → Bytes
  | 0, _ => []
  | width + 1, n => toBytes width (n / 256) ++ [UInt8.ofNat (n % 256)]

/-- The big-endian integer of `bytes`. -/
def ofBytes (bytes : Bytes) : Nat := bytes.foldl (fun n byte => n * 256 + byte.toNat) 0

@[simp] theorem toBytes_length (width n : Nat) : (toBytes width n).length = width := by
  induction width generalizing n with
  | zero => rfl
  | succ width ih => simp [toBytes, ih]

@[simp] theorem ofBytes_nil : ofBytes [] = 0 := rfl

theorem ofBytes_concat (bytes : Bytes) (byte : UInt8) : ofBytes (bytes ++ [byte]) = ofBytes bytes * 256 + byte.toNat := by
  simp [ofBytes]

theorem ofBytes_toBytes {width n : Nat} (bound : n < 256 ^ width) : ofBytes (toBytes width n) = n := by
  induction width generalizing n with
  | zero => simp [toBytes]; omega
  | succ width ih =>
    have high : n / 256 < 256 ^ width := by
      rw [Nat.pow_succ] at bound
      omega
    rw [toBytes, ofBytes_concat, ih high, UInt8.toNat_ofNat_of_lt' (by have := Nat.mod_lt n (by decide : 0 < 256); exact this)]
    omega

theorem toBytes_inj {width a b : Nat} (boundA : a < 256 ^ width) (boundB : b < 256 ^ width)
    (same : toBytes width a = toBytes width b) : a = b := by
  rw [← ofBytes_toBytes boundA, ← ofBytes_toBytes boundB, same]

theorem ofBytes_lt (bytes : Bytes) : ofBytes bytes < 256 ^ bytes.length := by
  induction bytes using List.reverseRecOn with
  | nil => simp
  | append_singleton bytes byte ih =>
    have last := byte.toNat_lt
    rw [ofBytes_concat, List.length_append, List.length_singleton, Nat.pow_succ]
    omega

theorem toBytes_ofBytes (bytes : Bytes) : toBytes bytes.length (ofBytes bytes) = bytes := by
  induction bytes using List.reverseRecOn with
  | nil => rfl
  | append_singleton bytes byte ih =>
    have last := byte.toNat_lt
    rw [List.length_append, List.length_singleton, toBytes, ofBytes_concat]
    have quotient : (ofBytes bytes * 256 + byte.toNat) / 256 = ofBytes bytes := by omega
    have remainder : (ofBytes bytes * 256 + byte.toNat) % 256 = byte.toNat := by omega
    rw [quotient, remainder, ih, UInt8.ofNat_toNat]

/-- A strict reader: what it read, and the bytes after it. -/
abbrev Reader := StateT Bytes (Except Failure)

namespace Reader

def raw (length : Nat) : Reader Bytes := fun bytes =>
  if length ≤ bytes.length then .ok (bytes.take length, bytes.drop length) else .error (.encoding "truncated")

def u8 : Reader Nat := do return ofBytes (← raw 1)
def u32 : Reader Nat := do return ofBytes (← raw 4)
def u64 : Reader Nat := do return ofBytes (← raw 8)

def lengthPrefixed (maxLength : Nat) : Reader Bytes := do
  let length ← u32
  require (length ≤ maxLength) (.encoding "field too long")
  raw length

/-- Every decode ends here: trailing bytes are not canonical. -/
def expectEnd : Reader Unit := fun bytes =>
  if bytes = [] then .ok ((), []) else .error (.encoding "trailing bytes")

/-- Exactly `count` items, in order. -/
def times {α : Type} (item : Reader α) : Nat → Reader (List α)
  | 0 => pure []
  | count + 1 => do return (← item) :: (← times item count)

/-- What a reader that must use every byte reads of `bytes`. -/
def run {α : Type} (reader : Reader α) (bytes : Bytes) : Except Failure α :=
  match StateT.run reader bytes with
  | .ok (value, _) => .ok value
  | .error failure => .error failure

end Reader

/-- `u32` length followed by the bytes. -/
def lengthPrefixed (bytes : Bytes) : Bytes := toBytes 4 bytes.length ++ bytes

end Moe
