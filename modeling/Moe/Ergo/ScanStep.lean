import Moe.Ergo.Scan

namespace Moe

theorem scanModes_number (mode : ScanMode) : mode.number < 37 ∧ scanModes.getD mode.number .err = mode := by
  cases mode <;> decide

theorem byteGroups_number (group : ByteGroup) : group.number < 9 ∧ byteGroups.getD group.number .any = group := by
  cases group <;> decide

/-- A byte's entry in the table is its continuation and its class. -/
theorem scanByte_eq (group : ByteGroup) {b : Nat} (bound : b < 256) :
    scanByte.getD (group.number * 256 + b) 0 = byteCont group b + 2 * byteClass group b := by
  obtain ⟨small, same⟩ := byteGroups_number group
  have index : group.number * 256 + b < 9 * 256 := by omega
  have quotient : (group.number * 256 + b) / 256 = group.number := by omega
  have remainder : (group.number * 256 + b) % 256 = b := by omega
  rw [scanByte, List.getD_eq_getElem?_getD, List.getElem?_map, List.getElem?_range index]
  simp only [Option.map_some, Option.getD_some, quotient, remainder, same]

theorem byteClass_lt (group : ByteGroup) (b : Nat) : byteClass group b < 4 := by
  cases group <;> simp only [byteClass] <;> (repeat' split) <;> decide

theorem byteCont_lt (group : ByteGroup) (b : Nat) : byteCont group b < 2 := by
  unfold byteCont
  split <;> decide

theorem ScanTests.key_lt (e : ScanTests) : e.key < 32 := by
  obtain ⟨zR, zV, z32, zC1, zC2⟩ := e
  cases zR <;> cases zV <;> cases z32 <;> cases zC1 <;> cases zC2 <;> decide

/-- A key's bits are its tests. -/
theorem ScanTests.ofKey (e : ScanTests) {cls : Nat} : (cls * 32 + e.key) / 32 = cls ∧
    (⟨(cls * 32 + e.key) / 16 % 2 = 1, (cls * 32 + e.key) / 8 % 2 = 1, (cls * 32 + e.key) / 4 % 2 = 1, (cls * 32 + e.key) / 2 % 2 = 1,
      (cls * 32 + e.key) % 2 = 1⟩ : ScanTests) = e := by
  have bound := e.key_lt
  refine ⟨by omega, ?_⟩
  have bits : (cls * 32 + e.key) / 16 % 2 = e.key / 16 % 2 ∧ (cls * 32 + e.key) / 8 % 2 = e.key / 8 % 2 ∧
      (cls * 32 + e.key) / 4 % 2 = e.key / 4 % 2 ∧ (cls * 32 + e.key) / 2 % 2 = e.key / 2 % 2 ∧ (cls * 32 + e.key) % 2 = e.key % 2 := by
    omega
  obtain ⟨b16, b8, b4, b2, b1⟩ := bits
  rw [b16, b8, b4, b2, b1]
  obtain ⟨zR, zV, z32, zC1, zC2⟩ := e
  cases zR <;> cases zV <;> cases z32 <;> cases zC1 <;> cases zC2 <;> decide

/-- The tables hold each key's transition. -/
theorem scanActions_eq (mode : ScanMode) {cls : Nat} (bound : cls < 4) (e : ScanTests) (other : ScanAction) :
    scanActions.getD (scanKey.getD (mode.number * 128 + cls * 32 + e.key) 0) other = transition mode cls e := by
  obtain ⟨small, same⟩ := scanModes_number mode
  have key := e.key_lt
  have index : mode.number * 128 + cls * 32 + e.key < 37 * 128 := by omega
  have quotient : (mode.number * 128 + cls * 32 + e.key) / 128 = mode.number := by omega
  have remainder : (mode.number * 128 + cls * 32 + e.key) % 128 = cls * 32 + e.key := by omega
  obtain ⟨class_, bits⟩ := @ScanTests.ofKey e cls
  have keyed : keyedActions[mode.number * 128 + cls * 32 + e.key]? = some (transition mode cls e) := by
    rw [keyedActions, List.getElem?_map, List.getElem?_range index]
    simp only [Option.map_some, quotient, remainder, same, class_, bits]
  have listed : transition mode cls e ∈ scanActions := List.mem_eraseDups.mpr (List.mem_of_getElem? keyed)
  have entry : scanKey.getD (mode.number * 128 + cls * 32 + e.key) 0 = scanActions.idxOf (transition mode cls e) := by
    rw [scanKey, List.getD_eq_getElem?_getD, List.getElem?_map, keyed, Option.map_some, Option.getD_some]
  rw [entry, List.getD_eq_getElem?_getD, List.getElem?_eq_getElem (List.idxOf_lt_length_of_mem listed), Option.getD_some,
    List.getElem_idxOf]

/-- A step reads its mode's transition. -/
theorem scanStep_eq (state : ScanState) (byte : UInt8) :
    scanStep state byte =
      let group := groupOf state.mode
      let value := state.a + (((byte.toNat : Int) - 128 * byteCont group byte.toNat : Int) : Scalar) * state.p
      let x := transition state.mode (byteClass group byte.toNat) (state.tests value)
      (state.after x value byte.toNat, x.OEND && (state.after x value byte.toNat).sh = 2) := by
  have class_ := byteClass_lt (groupOf state.mode) byte.toNat
  have cont := byteCont_lt (groupOf state.mode) byte.toNat
  have low : (byteCont (groupOf state.mode) byte.toNat + 2 * byteClass (groupOf state.mode) byte.toNat) % 2 =
      byteCont (groupOf state.mode) byte.toNat := by omega
  have high : (byteCont (groupOf state.mode) byte.toNat + 2 * byteClass (groupOf state.mode) byte.toNat) / 2 =
      byteClass (groupOf state.mode) byte.toNat := by omega
  simp only [scanStep, scanByte_eq _ byte.toNat_lt, low, high, scanActions_eq _ class_]

theorem transition_vlq (mode : ScanMode) (group : groupOf mode = .vlq) (e : ScanTests) :
    transition mode 1 e = { ScanAction.go mode with VK := true } := by
  unfold transition
  rw [if_pos ⟨group, rfl⟩]

/-- No action keeps a quantity past its last byte. -/
theorem transition_ends (mode : ScanMode) {cls : Nat} (last : ¬(groupOf mode = .vlq ∧ cls = 1)) (e : ScanTests) :
    (transition mode cls e).VK = false := by
  unfold transition
  rw [if_neg last]
  split
  · rfl
  · cases mode <;> simp only [ScanAction.next, ScanAction.setR, ScanAction.decR, ScanAction.nextInput, ScanAction.extDone,
      ScanAction.outDone, ScanAction.regDone, ScanAction.go] <;> (repeat' split) <;> rfl

/-- A byte no mode can take ends the scan. -/
theorem transition_untaken (mode : ScanMode) (e : ScanTests) : transition mode 3 e = ScanAction.go .err := by
  unfold transition
  rw [if_neg fun both => absurd both.2 (by decide), if_pos rfl]

namespace ScanState

variable (s : ScanState) (m : ScanMode) (value : Scalar) (b : Nat)

theorem after_go : s.after (.go m) value b = { s with mode := m, a := 0, p := 1 } := by
  simp only [after, ScanAction.go, Int.cast_one, Int.cast_zero, one_mul, zero_mul, add_zero, Bool.toNat_false, Bool.false_eq_true,
    if_false]

theorem after_more : s.after { ScanAction.go m with VK := true } value b = { s with mode := m, a := value, p := s.p * 128 } := by
  simp only [after, ScanAction.go, Int.cast_one, Int.cast_zero, one_mul, zero_mul, add_zero, Bool.toNat_false, if_true]

theorem after_decR : s.after (ScanAction.go m).decR value b = { s with mode := m, r := s.r + (-1 : Int), a := 0, p := 1 } := by
  simp only [after, ScanAction.go, ScanAction.decR, Int.cast_one, Int.cast_zero, one_mul, zero_mul, add_zero, Bool.toNat_false,
    Bool.false_eq_true, if_false]

theorem after_setR (c v : Int) :
    s.after ((ScanAction.go m).setR c v) value b = { s with mode := m, r := c + v * value, a := 0, p := 1 } := by
  simp only [after, ScanAction.go, ScanAction.setR, Int.cast_one, Int.cast_zero, one_mul, zero_mul, zero_add, add_zero,
    Bool.toNat_false, Bool.false_eq_true, if_false]

theorem after_count : s.after { ScanAction.go m with C2K := 0, C2B := 1 } value b = { s with mode := m, c2 := b, a := 0, p := 1 } := by
  simp only [after, ScanAction.go, Int.cast_one, Int.cast_zero, one_mul, zero_mul, zero_add, add_zero, Bool.toNat_false,
    Bool.false_eq_true, if_false]

theorem after_total : s.after { ScanAction.go m with C1K := 0, C1V := 1 } value b = { s with mode := m, c1 := value, a := 0, p := 1 } := by
  simp only [after, ScanAction.go, Int.cast_one, Int.cast_zero, one_mul, zero_mul, zero_add, add_zero, Bool.toNat_false,
    Bool.false_eq_true, if_false]

theorem after_counted :
    s.after { ScanAction.go m with C2K := 1, C2C := -1 } value b = { s with mode := m, c2 := s.c2 + (-1 : Int), a := 0, p := 1 } := by
  simp only [after, ScanAction.go, Int.cast_one, Int.cast_zero, one_mul, zero_mul, add_zero, Bool.toNat_false, Bool.false_eq_true,
    if_false]

theorem after_high : s.after { ScanAction.go m with HM := 256, HB := 1 }.decR value b =
    { s with mode := m, r := s.r + (-1 : Int), hi := 256 * s.hi + b, a := 0, p := 1 } := by
  simp only [after, ScanAction.go, ScanAction.decR, Int.cast_one, Int.cast_zero, Int.cast_ofNat, one_mul, zero_mul, add_zero,
    Bool.toNat_false, Bool.false_eq_true, if_false]

theorem after_highEnd (next : ScanMode) :
    s.after { ({ ScanAction.go m with HM := 256, HB := 1 }.decR.next next).setR 16 0 with LM := 0 } value b =
      { s with mode := next, r := 16, hi := 256 * s.hi + b, lo := 0, a := 0, p := 1 } := by
  simp only [after, ScanAction.go, ScanAction.decR, ScanAction.next, ScanAction.setR, Int.cast_one, Int.cast_zero, Int.cast_ofNat, one_mul,
    zero_mul, add_zero, zero_add, Bool.toNat_false, Bool.false_eq_true, if_false]

theorem after_low : s.after { ScanAction.go m with LM := 256, LB := 1 }.decR value b =
    { s with mode := m, r := s.r + (-1 : Int), lo := 256 * s.lo + b, a := 0, p := 1 } := by
  simp only [after, ScanAction.go, ScanAction.decR, Int.cast_one, Int.cast_zero, Int.cast_ofNat, one_mul, zero_mul, add_zero,
    Bool.toNat_false, Bool.false_eq_true, if_false]

theorem after_lowEnd : s.after { { ScanAction.go m with LM := 256, LB := 1 }.decR with SHM := 0, SHC := 1 } value b =
    { s with mode := m, r := s.r + (-1 : Int), lo := 256 * s.lo + b, sh := 1, a := 0, p := 1 } := by
  simp only [after, ScanAction.go, ScanAction.decR, Int.cast_one, Int.cast_zero, Int.cast_ofNat, one_mul, zero_mul, add_zero, zero_add,
    Bool.toNat_false, Bool.false_eq_true, if_false]

theorem after_limbs : s.after { (ScanAction.go m).setR 16 0 with HM := 0 } value b =
    { s with mode := m, r := 16, hi := 0, a := 0, p := 1 } := by
  simp only [after, ScanAction.go, ScanAction.setR, Int.cast_one, Int.cast_zero, Int.cast_ofNat, one_mul, zero_mul, add_zero, zero_add,
    Bool.toNat_false, Bool.false_eq_true, if_false]

theorem after_double : s.after { ScanAction.go m with SHM := 2 } value b = { s with mode := m, sh := 2 * s.sh, a := 0, p := 1 } := by
  simp only [after, ScanAction.go, Int.cast_one, Int.cast_zero, Int.cast_ofNat, one_mul, zero_mul, add_zero, Bool.toNat_false,
    Bool.false_eq_true, if_false]

theorem after_doubleR : s.after { (ScanAction.go m).decR with SHM := 2 } value b =
    { s with mode := m, r := s.r + (-1 : Int), sh := 2 * s.sh, a := 0, p := 1 } := by
  simp only [after, ScanAction.go, ScanAction.decR, Int.cast_one, Int.cast_zero, Int.cast_ofNat, one_mul, zero_mul, add_zero,
    Bool.toNat_false, Bool.false_eq_true, if_false]

theorem after_unshaped : s.after { ScanAction.go m with SHM := 0 } value b = { s with mode := m, sh := 0, a := 0, p := 1 } := by
  simp only [after, ScanAction.go, Int.cast_one, Int.cast_zero, one_mul, zero_mul, add_zero, Bool.toNat_false, Bool.false_eq_true, if_false]

theorem after_registers (next : ScanMode) :
    s.after { { ScanAction.go m with SHM := 0 } with C2K := 0, C2B := 1, NEXT := next } value b =
      { s with mode := next, c2 := b, sh := 0, a := 0, p := 1 } := by
  simp only [after, ScanAction.go, Int.cast_one, Int.cast_zero, one_mul, zero_mul, zero_add, add_zero, Bool.toNat_false,
    Bool.false_eq_true, if_false]

theorem after_inputs (next : ScanMode) :
    s.after (({ ScanAction.go m with C1K := 0, C1V := 1 }.next next).setR 32 0) value b =
      { s with mode := next, r := 32, c1 := value, a := 0, p := 1 } := by
  simp only [after, ScanAction.go, ScanAction.next, ScanAction.setR, Int.cast_one, Int.cast_zero, Int.cast_ofNat, one_mul, zero_mul, zero_add,
    add_zero, Bool.toNat_false, Bool.false_eq_true, if_false]

end ScanState

end Moe
