import Moe.Pool.RecordCodec

namespace Moe

/-- Entries each of which is written are written one after another. -/
theorem mapM_written {α β : Type} {run : α → Except Failure β} {form : α → β} {entries : List α}
    (each : ∀ entry ∈ entries, run entry = .ok (form entry)) : entries.mapM run = .ok (entries.map form) := by
  rw [mapM_eq_ok]
  induction entries with
  | nil => exact .nil
  | cons entry rest ih =>
    obtain ⟨first, others⟩ := List.forall_mem_cons.mp each
    exact .cons first (ih others)

/-- A typed array's `set`: bytes written over others at an offset. -/
def setAt (out bytes : Bytes) (at_ : Nat) : Except Failure Bytes := do
  require (at_ + bytes.length ≤ out.length) (.rangeError "offset is out of bounds")
  return out.take at_ ++ bytes ++ out.drop (at_ + bytes.length)

/-- Bytes set over as many others take their place. -/
theorem setAt_over {front old back bytes : Bytes} {at_ : Nat} (offset : front.length = at_) (width : old.length = bytes.length) :
    setAt (front ++ (old ++ back)) bytes at_ = .ok (front ++ (bytes ++ back)) := by
  have inside : at_ + bytes.length ≤ (front ++ (old ++ back)).length := by
    simp only [List.length_append]
    omega
  have rest : (front ++ (old ++ back)).drop (at_ + bytes.length) = back := by
    rw [← offset, ← width, ← List.drop_drop, List.drop_left, List.drop_left]
  rw [setAt, require, if_pos (decide_eq_true inside), rest, ← offset, List.take_left, List.append_assoc]
  rfl

namespace ByteWriter

def u8 (n : Nat) : Except Failure Bytes := do
  require (n < 2 ^ 8) (.encoding "u8 out of range")
  return toBytes 1 n

def u32 (n : Nat) : Except Failure Bytes := do
  require (n < 2 ^ 32) (.encoding "u32 out of range")
  return toBytes 4 n

def u64 (n : Nat) : Except Failure Bytes := do
  require (n < 2 ^ 64) (.encoding "u64 out of range")
  return toBytes 8 n

/-- A field of fixed width, asserted. -/
def fixed (bytes : Bytes) (length : Nat) (what : String) : Except Failure Bytes := do
  require (bytes.length = length) (.encoding s!"{what} must be {length} bytes")
  return bytes

def key32 (bytes : Bytes) (what : String) : Except Failure Bytes := fixed bytes 32 what

/-- A canonical field element as a 32-byte field. -/
def field32 (value : Nat) (what : String) : Except Failure Bytes := do
  let own ← requireField value "field element"
  key32 (fieldToBytes own) what

def lengthPrefixed (bytes : Bytes) : Except Failure Bytes := do
  let length ← u32 bytes.length
  return length ++ bytes

variable {n : Nat} {bytes : Bytes} {what : String}

theorem u8_of (bound : n < 2 ^ 8) : u8 n = .ok (toBytes 1 n) := by
  rw [u8, require, if_pos (decide_eq_true bound)]
  rfl

theorem u32_of (bound : n < 2 ^ 32) : u32 n = .ok (toBytes 4 n) := by
  rw [u32, require, if_pos (decide_eq_true bound)]
  rfl

theorem u64_of (bound : n < 2 ^ 64) : u64 n = .ok (toBytes 8 n) := by
  rw [u64, require, if_pos (decide_eq_true bound)]
  rfl

theorem key32_of (wide : bytes.length = 32) : key32 bytes what = .ok bytes := by
  rw [key32, fixed, require, if_pos (decide_eq_true wide)]
  rfl

theorem field32_of (canonical : isField n = true) : field32 n what = .ok (fieldToBytes n) := by
  have own : requireField n "field element" = .ok n := by
    rw [requireField]
    exact bind_eq_ok.mpr ⟨(), require_eq_ok.mpr canonical, rfl⟩
  have wide : (fieldToBytes n).length = 32 := by
    unfold fieldToBytes
    exact toBytes_length 32 n
  rw [field32]
  exact bind_eq_ok.mpr ⟨n, own, key32_of wide⟩

theorem lengthPrefixed_of (bound : bytes.length < 2 ^ 32) : lengthPrefixed bytes = .ok (Moe.lengthPrefixed bytes) := by
  rw [lengthPrefixed, u32_of bound]
  rfl

end ByteWriter

end Moe
