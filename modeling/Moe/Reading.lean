import Moe.Bytes
import Moe.Lib.Codec

namespace Moe

/-- Items of one width, written one after another. -/
theorem flatMap_length {α : Type} {write : α → Bytes} {width : Nat} {items : List α} (each : ∀ a ∈ items, (write a).length = width) :
    (items.flatMap write).length = width * items.length := by
  induction items with
  | nil => rfl
  | cons a rest ih =>
    obtain ⟨first, rest⟩ := List.forall_mem_cons.mp each
    rw [List.flatMap_cons, List.length_append, first, ih rest, List.length_cons, Nat.mul_succ, Nat.add_comm]

theorem flatten_length {items : List Bytes} {width : Nat} (each : ∀ item ∈ items, item.length = width) :
    items.flatten.length = width * items.length := by
  rw [← List.flatMap_id]
  exact flatMap_length each

/-- Items of one width are told apart one after another. -/
theorem flatten_inj {items other : List Bytes} {width : Nat} (positive : 0 < width) (each : ∀ item ∈ items, item.length = width)
    (each' : ∀ item ∈ other, item.length = width) (same : items.flatten = other.flatten) : items = other := by
  have counts : width * items.length = width * other.length := by rw [← flatten_length each, ← flatten_length each', same]
  have count := Nat.eq_of_mul_eq_mul_left positive counts
  clear counts
  induction items generalizing other with
  | nil => exact (List.length_eq_zero_iff.mp count.symm).symm
  | cons item items ih =>
    obtain ⟨item', other, rfl⟩ := List.exists_cons_of_length_eq_add_one count.symm
    obtain ⟨first, others⟩ := List.forall_mem_cons.mp each
    obtain ⟨first', others'⟩ := List.forall_mem_cons.mp each'
    rw [List.flatten_cons, List.flatten_cons] at same
    obtain ⟨rfl, rest⟩ := List.append_inj same (first.trans first'.symm)
    rw [ih others others' rest (by simpa using count)]

namespace Reader

variable {s t : Bytes}

theorem raw_inverts (length : Nat) : Inverts (raw length) id fun bytes => bytes.length = length :=
  fun s bytes t => takeOr_inverts (Failure.encoding "truncated") length s bytes t

/-- A big-endian integer of so many bytes. -/
theorem uintOr_inverts (failure : Failure) (width : Nat) :
    Inverts (do return ofBytes (← takeOr failure width) : Reader Nat) (toBytes width) (· < 256 ^ width) := by
  intro s n t
  simp only [read_bind_eq_ok, read_pure_eq_ok, takeOr_inverts failure width _ _ _]
  constructor
  · rintro ⟨bytes, m, ⟨rfl, rfl⟩, rfl, rfl⟩
    exact ⟨ofBytes_lt bytes, by rw [toBytes_ofBytes]; rfl⟩
  · rintro ⟨bound, rfl⟩
    exact ⟨toBytes width n, t, ⟨toBytes_length _ _, rfl⟩, (ofBytes_toBytes bound).symm, rfl⟩

theorem uint_inverts (width : Nat) : Inverts (do return ofBytes (← raw width)) (toBytes width) (· < 256 ^ width) :=
  uintOr_inverts (.encoding "truncated") width

/-- Bytes after their 32-bit length. -/
theorem sizedOr_inverts (failure : Failure) :
    Inverts (do takeOr failure (← (do return ofBytes (← takeOr failure 4) : Reader Nat)) : Reader Bytes) Moe.lengthPrefixed
      fun bytes => bytes.length < 2 ^ 32 := by
  intro s bytes t
  rw [read_bind_eq_ok]
  simp only [uintOr_inverts failure 4 _ _ _, takeOr_inverts failure _ _ _ _]
  constructor
  · rintro ⟨n, m, ⟨bound, rfl⟩, rfl, rfl⟩
    exact ⟨bound, by rw [Moe.lengthPrefixed, List.append_assoc]; rfl⟩
  · rintro ⟨bound, rfl⟩
    exact ⟨bytes.length, bytes ++ t, ⟨bound, by rw [Moe.lengthPrefixed, List.append_assoc]⟩, rfl, rfl⟩

theorem u8_inverts : Inverts u8 (toBytes 1) (· < 2 ^ 8) := uint_inverts 1

theorem u32_inverts : Inverts u32 (toBytes 4) (· < 2 ^ 32) := uint_inverts 4

theorem u64_inverts : Inverts u64 (toBytes 8) (· < 2 ^ 64) := uint_inverts 8

theorem lengthPrefixed_inverts (maxLength : Nat) :
    Inverts (lengthPrefixed maxLength) Moe.lengthPrefixed fun bytes => bytes.length ≤ maxLength ∧ bytes.length < 2 ^ 32 := by
  intro s bytes t
  simp only [lengthPrefixed, read_bind_eq_ok, read_lift_eq_ok, u32_inverts _ _ _, raw_inverts _ _ _ _, require_eq_ok, decide_eq_true_eq]
  constructor
  · rintro ⟨n, m, ⟨bound, rfl⟩, -, m', ⟨fits, rfl⟩, length, rfl⟩
    rw [← length] at bound fits
    exact ⟨⟨fits, bound⟩, by rw [Moe.lengthPrefixed, length, List.append_assoc]; rfl⟩
  · rintro ⟨⟨fits, bound⟩, rfl⟩
    exact ⟨bytes.length, bytes ++ t, ⟨bound, by rw [Moe.lengthPrefixed, List.append_assoc]⟩, (), _, ⟨fits, rfl⟩, rfl, rfl⟩

theorem expectEnd_eq_ok {done : Unit} : expectEnd s = .ok (done, t) ↔ s = [] ∧ t = [] := by
  unfold expectEnd
  split
  · rename_i ended
    simp [ended, eq_comm]
  · rename_i left
    simp [left]

theorem times_inverts {α : Type} {item : Reader α} {write : α → Bytes} {valid : α → Prop} (each : Inverts item write valid) (count : Nat) :
    Inverts (times item count) (List.flatMap write) fun items => items.length = count ∧ ∀ a ∈ items, valid a := by
  induction count with
  | zero =>
    intro s items t
    rw [times, read_pure_eq_ok]
    constructor
    · rintro ⟨rfl, rfl⟩
      simp
    · rintro ⟨⟨none_, -⟩, rfl⟩
      obtain rfl := List.length_eq_zero_iff.mp none_
      exact ⟨rfl, rfl⟩
  | succ count ih =>
    intro s items t
    simp only [times, read_bind_eq_ok, read_pure_eq_ok, each _ _ _, ih _ _ _]
    constructor
    · rintro ⟨a, m, ⟨well, rfl⟩, rest, m', ⟨⟨rfl, wells⟩, rfl⟩, rfl, rfl⟩
      exact ⟨⟨rfl, List.forall_mem_cons.mpr ⟨well, wells⟩⟩, by rw [List.flatMap_cons, List.append_assoc]⟩
    · rintro ⟨⟨many, wells⟩, rfl⟩
      cases items with
      | nil => cases many
      | cons a rest =>
        obtain ⟨well, wells⟩ := List.forall_mem_cons.mp wells
        refine ⟨a, rest.flatMap write ++ t, ⟨well, by rw [List.flatMap_cons, List.append_assoc]⟩, rest, t, ⟨⟨?_, wells⟩, rfl⟩, rfl, rfl⟩
        simpa using many

theorem run_eq_ok {α : Type} {reader : Reader α} {a : α} : reader.run s = .ok a ↔ ∃ t, reader s = .ok (a, t) := by
  rcases read : reader s with failure | ⟨value, t⟩
  · have run_ : StateT.run reader s = .error failure := read
    simp [run, run_]
  · have run_ : StateT.run reader s = .ok (value, t) := read
    simp [run, run_]

end Reader

end Moe
