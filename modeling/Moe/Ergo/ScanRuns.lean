import Moe.Ergo.Grammar
import Moe.Ergo.ScanStep

namespace Moe

theorem natCast_inj {n m : Nat} (first : n < fieldModulus) (second : m < fieldModulus) : (n : Scalar) = m ↔ n = m := by
  rw [ZMod.natCast_eq_natCast_iff', Nat.mod_eq_of_lt first, Nat.mod_eq_of_lt second]

/-- The state an action leaves, and the output that ends there with the shape. -/
def ScanState.act (s : ScanState) (x : ScanAction) (value : Scalar) (b : Nat) : ScanState × Option ScannedOutput :=
  (s.after x value b, if x.OEND && (s.after x value b).sh = (2 : Nat) then
    some ⟨s.outputs, limbBytes (s.after x value b).hi ++ limbBytes (s.after x value b).lo⟩ else none)

/-- The scan, a byte a step. -/
def scan : Transducer ScanState UInt8 ScannedOutput := fun state byte =>
  ((scanStep state byte).1, if (scanStep state byte).2 then
    some ⟨state.outputs, limbBytes (scanStep state byte).1.hi ++ limbBytes (scanStep state byte).1.lo⟩ else none)

theorem scan_eq (s : ScanState) (byte : UInt8) :
    scan s byte =
      let value := s.a + (((byte.toNat : Int) - 128 * byteCont (groupOf s.mode) byte.toNat : Int) : Scalar) * s.p
      s.act (transition s.mode (byteClass (groupOf s.mode) byte.toNat) (s.tests value)) value byte.toNat := by
  simp only [scan, scanStep_eq, ScanState.act, Nat.cast_ofNat]

/-- A state between values, in a mode, after so many outputs. -/
structure ScanState.Rests (s : ScanState) (mode : ScanMode) (outputs : Nat) : Prop where
  mode : s.mode = mode
  a : s.a = 0
  p : s.p = 1
  outputs : s.outputs = outputs

section Steps

variable {s : ScanState} {mode : ScanMode} {o : Nat}

/-- A byte of a mode that reads no quantity. -/
theorem scan_plain (rests : s.Rests mode o) (plain : groupOf mode ≠ .vlq) (byte : UInt8) :
    scan s byte = s.act (transition mode (byteClass (groupOf mode) byte.toNat) (s.tests byte.toNat)) byte.toNat byte.toNat := by
  have cont : byteCont (groupOf mode) byte.toNat = 0 := if_neg fun both => plain both.1
  rw [scan_eq]
  simp only [rests.mode, rests.a, rests.p, cont, Nat.cast_zero, mul_zero, sub_zero, Int.cast_natCast, mul_one, zero_add]

/-- An action that keeps no quantity does not read the one begun. -/
theorem ScanState.act_settled (s : ScanState) {x : ScanAction} (keeps : x.VK = false) (a p value : Scalar) (b : Nat) :
    ({ s with a := a, p := p }).act x value b = s.act x value b := by
  simp [ScanState.act, ScanState.after, keeps]

/-- A quantity is read to its value, at its last byte. -/
theorem scan_vlq_from {digits : Bytes} {value : Nat} (vlq : Vlq digits value) (group : groupOf mode = .vlq) (own : s.mode = mode) :
    ∃ b, scan.Reads s digits (s.act (transition mode 0 (s.tests (s.a + value * s.p))) (s.a + value * s.p) b).2.toList
      (s.act (transition mode 0 (s.tests (s.a + value * s.p))) (s.a + value * s.p) b).1 := by
  induction vlq generalizing s with
  | @last b small =>
    have class_ : byteClass .vlq b.toNat = 0 := if_neg (by omega)
    have cont : byteCont .vlq b.toNat = 0 := if_neg (by omega)
    refine ⟨b.toNat, .one ?_⟩
    rw [scan_eq]
    simp only [own, group, class_, cont, Nat.cast_zero, mul_zero, sub_zero, Int.cast_natCast, Prod.mk.eta]
  | @more b digits value large rest ih =>
    have class_ : byteClass .vlq b.toNat = 1 := if_pos large
    have cont : byteCont .vlq b.toNat = 1 := if_pos ⟨rfl, large⟩
    have low : (((b.toNat : Int) - 128 * (1 : Nat) : Int) : Scalar) = ((b.toNat - 128 : Nat) : Scalar) := by
      rw [Nat.cast_sub large]
      push_cast
      ring
    have step : scan s b = ({ s with a := s.a + (b.toNat - 128 : Nat) * s.p, p := s.p * 128 }, none) := by
      rw [scan_eq]
      simp only [own, group, class_, cont, low, transition_vlq mode group, ScanState.act, s.after_more]
      rw [← own]
      rfl
    have total : s.a + (b.toNat - 128 : Nat) * s.p + value * (s.p * 128) = s.a + ((b.toNat - 128 + 128 * value : Nat) : Scalar) * s.p := by
      push_cast
      ring
    obtain ⟨last, reads⟩ := @ih { s with a := s.a + (b.toNat - 128 : Nat) * s.p, p := s.p * 128 } own
    simp only [total] at reads
    have settled := s.act_settled (transition_ends mode (fun both => absurd both.2 Nat.zero_ne_one)
      (s.tests (s.a + ((b.toNat - 128 + 128 * value : Nat) : Scalar) * s.p))) (s.a + (b.toNat - 128 : Nat) * s.p) (s.p * 128)
    refine ⟨last, .cons step ?_⟩
    rw [← settled]
    exact reads

theorem scan_vlq {digits : Bytes} {value : Nat} (rests : s.Rests mode o) (vlq : Vlq digits value) (group : groupOf mode = .vlq) :
    ∃ b, scan.Reads s digits (s.act (transition mode 0 (s.tests value)) value b).2.toList
      (s.act (transition mode 0 (s.tests value)) value b).1 := by
  have own := scan_vlq_from vlq group rests.mode
  rw [rests.a, rests.p] at own
  simpa only [mul_one, zero_add] using own

/-- The value a limb's bytes leave, big-endian. -/
def limb (h : Scalar) (bytes : Bytes) : Scalar := bytes.foldl (fun h byte => 256 * h + byte.toNat) h

theorem limb_ofBytes (bytes : Bytes) : limb 0 bytes = (ofBytes bytes : Nat) := by
  induction bytes using List.reverseRecOn with
  | nil => simp [limb]
  | append_singleton bytes byte ih =>
    rw [ofBytes_concat, limb, List.foldl_append, List.foldl_cons, List.foldl_nil]
    rw [limb] at ih
    rw [ih]
    push_cast
    ring

/-- All of a run but its last byte is counted down, and taken into a limb where its mode reads one. -/
theorem scan_down {f : Scalar → Scalar → ScanState}
    (step : ∀ h r (byte : UInt8), r ≠ 1 → scan (f h r) byte = (f (256 * h + byte.toNat) (r + (-1 : Int)), none)) {chunk : Bytes}
    (bound : chunk.length + 1 < fieldModulus) (h : Scalar) :
    scan.Reads (f h (chunk.length + 1 : Nat)) chunk [] (f (limb h chunk) 1) := by
  induction chunk generalizing h with
  | nil =>
    rw [List.length_nil, Nat.zero_add, Nat.cast_one]
    exact .nil
  | cons byte rest ih =>
    rw [List.length_cons] at bound ⊢
    have more : ((rest.length + 1 + 1 : Nat) : Scalar) ≠ 1 := by
      have other := natCast_inj bound (Nat.lt_of_le_of_lt (Nat.le_add_left 1 _) bound)
      rw [Nat.cast_one] at other
      rw [Ne, other]
      omega
    have less : ((rest.length + 1 + 1 : Nat) : Scalar) + ((-1 : Int) : Scalar) = ((rest.length + 1 : Nat) : Scalar) := by
      push_cast
      ring
    have first := step h _ byte more
    rw [less] at first
    exact .cons first (ih (by omega) _)

/-- All of a run but its last byte is counted down. -/
theorem scan_run {chunk : Bytes} (rests : s.Rests mode o) (any : groupOf mode = .any)
    (stay : ∀ e : ScanTests, e.zR = false → transition mode 0 e = (ScanAction.go mode).decR) (r : s.r = (chunk.length + 1 : Nat))
    (bound : chunk.length + 1 < fieldModulus) : scan.Reads s chunk [] { s with r := 1 } := by
  have step : ∀ (h r : Scalar) (byte : UInt8), r ≠ 1 → scan { s with r := r } byte = ({ s with r := r + (-1 : Int) }, none) := by
    intro h r byte more
    have more_ : (({ s with r := r } : ScanState).tests byte.toNat).zR = false := decide_eq_false more
    rw [scan_plain (s := { s with r := r }) ⟨rests.mode, rests.a, rests.p, rests.outputs⟩ (by rw [any]; decide)]
    simp only [any, byteClass, stay _ more_, ScanState.act, ScanState.after_decR]
    rw [← rests.mode, ← rests.a, ← rests.p]
    rfl
  have down := scan_down (f := fun _ r => { s with r := r }) step bound 0
  rw [← r] at down
  exact down

/-- A run is read to its last byte. -/
theorem scan_chunk {chunk : Bytes} (rests : s.Rests mode o) (any : groupOf mode = .any)
    (stay : ∀ e : ScanTests, e.zR = false → transition mode 0 e = (ScanAction.go mode).decR) (r : s.r = (chunk.length : Nat))
    (some_ : chunk ≠ []) (bound : chunk.length < fieldModulus) :
    ∃ b : Nat, scan.Reads s chunk (({ s with r := 1 }).act (transition mode 0 (({ s with r := 1 }).tests b)) b b).2.toList
      (({ s with r := 1 }).act (transition mode 0 (({ s with r := 1 }).tests b)) b b).1 := by
  obtain ⟨first, last, rfl⟩ := List.eq_nil_or_concat chunk |>.resolve_left some_
  rw [List.length_concat] at r bound
  have reads := scan_run rests any stay r bound
  have rests' : ({ s with r := 1 } : ScanState).Rests mode o := ⟨rests.mode, rests.a, rests.p, rests.outputs⟩
  have step := scan_plain rests' (by rw [any]; decide) last
  simp only [any, byteClass] at step
  refine ⟨last.toNat, ?_⟩
  rw [List.concat_eq_append]
  simpa only [List.nil_append] using reads.append (.one (step.trans (Prod.mk.eta).symm))

end Steps

end Moe
