import Moe.Ergo.ScanRuns

namespace Moe

/-- States that differ in their mode and their run only. -/
structure ScanState.Agrees (s t : ScanState) : Prop where
  c1 : t.c1 = s.c1
  c2 : t.c2 = s.c2
  hi : t.hi = s.hi
  lo : t.lo = s.lo
  sh : t.sh = s.sh
  outputs : t.outputs = s.outputs

/-- An action that counts nothing down and ends no output. -/
structure ScanAction.Plain (a : ScanAction) : Prop where
  c1 : a.C1K = 1 ∧ a.C1C = 0 ∧ a.C1V = 0
  c2 : a.C2K = 1 ∧ a.C2C = 0 ∧ a.C2B = 0
  vk : a.VK = false
  oend : a.OEND = false

theorem ScanAction.go_plain (m : ScanMode) : (ScanAction.go m).Plain ∧ (ScanAction.go m).decR.Plain :=
  ⟨⟨⟨rfl, rfl, rfl⟩, ⟨rfl, rfl, rfl⟩, rfl, rfl⟩, ⟨⟨rfl, rfl, rfl⟩, ⟨rfl, rfl, rfl⟩, rfl, rfl⟩⟩

section Constants

variable {s : ScanState} {o : Nat}

theorem ScanState.act_silent (s : ScanState) {x : ScanAction} (silent : x.OEND = false) (value : Scalar) (b : Nat) :
    s.act x value b = (s.after x value b, none) := by
  simp only [ScanState.act, silent, Bool.false_and, Bool.false_eq_true, if_false]

theorem ScanState.act_go (s : ScanState) (m : ScanMode) (value : Scalar) (b : Nat) :
    s.act (.go m) value b = ({ s with mode := m, a := 0, p := 1 }, none) := by
  rw [s.act_silent rfl, s.after_go]

/-- A quantity that starts a run, or is nothing, and the run it starts. -/
theorem scan_measured {count run : ScanMode} {digits body : Bytes} {size : Nat} (good : ScanState → Option ScannedOutput → Prop)
    (none_ : ScanTests → ScanAction) (each : Int) (ends : ScanTests → ScanAction) (vlq : Vlq digits size) (rests : s.Rests count o)
    (counts : groupOf count = .vlq) (counted : transition count 0 (s.tests size) = if (s.tests size).zV then none_ (s.tests size)
      else (ScanAction.go run).setR 0 each) (runs : groupOf run = .any)
    (ran : ∀ e, transition run 0 e = if e.zR then ends e else (ScanAction.go run).decR) (length : (body.length : Int) = each * size)
    (positive : 0 < each) (small : size < fieldModulus) (bound : body.length < fieldModulus)
    (empty : ∀ b, good (s.act (none_ (s.tests size)) size b).1 (s.act (none_ (s.tests size)) size b).2)
    (full : ∀ t (b : Nat), s.Agrees t → good (t.act (ends (t.tests b)) b b).1 (t.act (ends (t.tests b)) b b).2) :
    ∃ t out, scan.Reads s (digits ++ body) out.toList t ∧ good t out := by
  obtain ⟨last, reads⟩ := scan_vlq rests vlq counts
  have zero : (s.tests size).zV = decide (size = 0) := by
    have cast := natCast_inj small (Nat.lt_of_le_of_lt (Nat.zero_le size) small)
    rw [Nat.cast_zero] at cast
    simp only [ScanState.tests, cast]
  rw [counted, zero] at reads
  by_cases nothing : size = 0
  · obtain rfl : body = [] := by
      refine List.eq_nil_of_length_eq_zero ?_
      rw [nothing] at length
      simpa using length
    simp only [nothing, decide_true, if_true] at reads empty
    exact ⟨_, _, by simpa using reads, empty last⟩
  · simp only [nothing, decide_false, Bool.false_eq_true, if_false] at reads
    rw [s.act_silent rfl, s.after_setR] at reads
    have some_ : body ≠ [] := by
      rintro rfl
      have filled := Int.mul_pos positive (by omega : (0 : Int) < size)
      rw [← length] at filled
      simp at filled
    have r : ((0 : Int) : Scalar) + (each : Scalar) * (size : Scalar) = (body.length : Nat) := by
      have cast := congrArg (fun value : Int => (value : Scalar)) length
      simp only [Int.cast_natCast, Int.cast_mul] at cast
      rw [cast, Int.cast_zero, zero_add]
    rw [r] at reads
    have stay : ∀ e : ScanTests, e.zR = false → transition run 0 e = (ScanAction.go run).decR := by
      intro e more
      rw [ran, more]
      rfl
    obtain ⟨b, chunk⟩ := @scan_chunk { s with mode := run, r := (body.length : Nat), a := 0, p := 1 } run o body ⟨rfl, rfl, rfl, rests.outputs⟩
      runs stay rfl some_ bound
    have one : ∀ t : ScanState, t.r = 1 → transition run 0 (t.tests b) = ends (t.tests b) := by
      intro t own
      have done : (t.tests b).zR = true := by simp only [ScanState.tests, own, decide_true]
      rw [ran, done]
      rfl
    rw [one _ rfl] at chunk
    have own := full { s with mode := run, r := 1, a := 0, p := 1 } b ⟨rfl, rfl, rfl, rfl, rfl, rfl⟩
    exact ⟨_, _, by simpa using reads.append chunk, own⟩

/-- A constant is read to what its mode does where it ends. -/
theorem scan_constant {type count run : ScanMode} {constant body : Bytes} (finish : ScanAction → ScanTests → ScanAction)
    (good : ScanState → Option ScannedOutput → Prop) (coll : IsColl constant body) (rests : s.Rests type o)
    (types : groupOf type = .ct) (typed : ∀ e, transition type 0 e = .go count) (counts : groupOf count = .vlq)
    (counted : ∀ e : ScanTests, e.z32 = decide (body.length = 32) →
      transition count 0 e = if e.zV then finish (.go count) e else (ScanAction.go run).setR 0 1)
    (runs : groupOf run = .any)
    (ran : ∀ e, transition run 0 e = if e.zR then finish (ScanAction.go run).decR e else (ScanAction.go run).decR)
    (ends : ∀ t a value (b : Nat), s.Agrees t → a = .go count ∨ a = (ScanAction.go run).decR →
      good (t.act (finish a (t.tests value)) value b).1 (t.act (finish a (t.tests value)) value b).2) :
    ∃ t out, scan.Reads s constant out.toList t ∧ good t out := by
  obtain ⟨digits, rfl, vlq, limit, -⟩ := coll
  have small : body.length < fieldModulus := Nat.lt_of_le_of_lt limit (by decide)
  have class_ : byteClass .ct collByteType.toNat = 0 := by decide
  have step := scan_plain rests (by rw [types]; decide) collByteType
  rw [types, class_, typed, s.act_go] at step
  have rests' : ({ s with mode := count, a := 0, p := 1 } : ScanState).Rests count o := ⟨rfl, rfl, rfl, rests.outputs⟩
  have z32 : (({ s with mode := count, a := 0, p := 1 } : ScanState).tests (body.length : Nat)).z32 = decide (body.length = 32) := by
    have cast := natCast_inj small (by decide : 32 < fieldModulus)
    simp only [ScanState.tests, ← cast]
    rfl
  obtain ⟨t, out, reads, own⟩ := scan_measured good (finish (.go count)) 1 (finish (ScanAction.go run).decR)
    vlq rests' counts (counted _ z32) runs ran (one_mul _).symm one_pos small small
    (fun b => ends _ _ _ b ⟨rfl, rfl, rfl, rfl, rfl, rfl⟩ (.inl rfl))
    (fun t b agrees => ends t _ _ b ⟨agrees.c1, agrees.c2, agrees.hi, agrees.lo, agrees.sh, agrees.outputs⟩ (.inr rfl))
  exact ⟨t, out, .cons step reads, own⟩

end Constants

/-- So many inputs are left to read. -/
def AtInputs (o : Nat) : Nat → ScanState → Prop
  | 0, s => s.Rests .vDi o
  | n + 1, s => s.Rests .sBox o ∧ s.r = (32 : Nat) ∧ s.c1 = (n + 1 : Nat)

/-- So many entries of an extension are left, and then inputs. -/
def AtEntries (o n : Nat) : Nat → ScanState → Prop
  | 0, s => AtInputs o n s
  | k + 1, s => s.Rests .eKey o ∧ s.c1 = (n + 1 : Nat) ∧ s.c2 = (k + 1 : Nat)

/-- So many outputs are left to read. -/
def AtOutputs (o : Nat) : Nat → ScanState → Prop
  | 0, s => s.Rests .end_ o
  | n + 1, s => s.Rests .vValue o ∧ s.c1 = (n + 1 : Nat)

/-- So many of an output's tokens are left, and then outputs after it. -/
def AtTokens (o n : Nat) : Nat → ScanState → Prop
  | 0, s => s.Rests .regCnt o ∧ s.c1 = (n + 1 : Nat)
  | k + 1, s => s.Rests .vTidx o ∧ s.c1 = (n + 1 : Nat) ∧ s.c2 = (k + 1 : Nat)

/-- So many of an output's registers are left, and then outputs after it; where none is, the output with the shape ends. -/
def AtRegisters (mode : ScanMode) (o n : Nat) (sh hi lo : Scalar) : Nat → ScanState → Option ScannedOutput → Prop
  | 0, s, out => AtOutputs (o + 1) n s ∧ out = if sh = (2 : Nat) then some ⟨o, limbBytes hi ++ limbBytes lo⟩ else none
  | k + 1, s, out => (s.Rests mode o ∧ s.c1 = (n + 1 : Nat) ∧ s.c2 = (k + 1 : Nat) ∧ s.sh = sh ∧ s.hi = hi ∧ s.lo = lo) ∧ out = none

section Counters

variable {s : ScanState} {o n k : Nat} {x : Scalar}

/-- A counter tests one where one is left. -/
theorem counts_one (counter : x = (n + 1 : Nat)) (bound : n + 1 < fieldModulus) : decide (x = 1) = decide (n = 0) := by
  have one := natCast_inj bound (Nat.lt_of_le_of_lt (Nat.le_add_left 1 n) bound)
  rw [Nat.cast_one] at one
  rw [counter, decide_eq_decide, one]
  omega

theorem counts_down (counter : x = (n + 1 + 1 : Nat)) : x + ((-1 : Int) : Scalar) = (n + 1 : Nat) := by
  rw [counter]
  push_cast
  ring

/-- An input's end leaves the next input, or the data inputs. -/
theorem ScanState.after_nextInput {a : ScanAction} (total : a.C1V = 0) (ends : a.VK = false) (silent : a.OEND = false)
    (outputs : s.outputs = o) (left : s.c1 = (n + 1 : Nat)) (bound : n + 1 < fieldModulus) (value : Scalar) (b : Nat) :
    AtInputs o n (s.after (a.nextInput (s.tests value)) value b) := by
  have one : (s.tests value).zC1 = decide (n = 0) := counts_one left bound
  cases n with
  | zero =>
    simp only [decide_true] at one
    simp only [ScanAction.nextInput, one, if_true]
    constructor <;> simp [ScanState.after, ScanAction.next, ends, silent, outputs]
  | succ n =>
    simp only [Nat.succ_ne_zero, decide_false] at one
    simp only [ScanAction.nextInput, one, Bool.false_eq_true, if_false]
    refine ⟨⟨rfl, ?_, ?_, ?_⟩, ?_, ?_⟩
    · simp [ScanState.after, ScanAction.next, ScanAction.setR, ends]
    · simp [ScanState.after, ScanAction.next, ScanAction.setR, ends]
    · simp [ScanState.after, ScanAction.next, ScanAction.setR, silent, outputs]
    · simp [ScanState.after, ScanAction.next, ScanAction.setR]
    · have down := counts_down left
      simpa [ScanState.after, ScanAction.next, ScanAction.setR, total] using down

/-- An entry's end leaves the next entry, or the input's. -/
theorem ScanState.after_extDone {a : ScanAction} (plain : a.Plain) (outputs : s.outputs = o) (left : s.c1 = (n + 1 : Nat))
    (entries : s.c2 = (k + 1 : Nat)) (bound : n + 1 < fieldModulus) (bound' : k + 1 < fieldModulus) (value : Scalar) (b : Nat) :
    AtEntries o n k (s.after (a.extDone (s.tests value)) value b) := by
  have one : (s.tests value).zC2 = decide (k = 0) := counts_one entries bound'
  obtain ⟨⟨c1k, c1c, c1v⟩, ⟨c2k, c2c, c2b⟩, vk, oend⟩ := plain
  cases k with
  | zero =>
    simp only [decide_true] at one
    simp only [ScanAction.extDone, one, if_true]
    exact ScanState.after_nextInput (a := { a with C2K := 1, C2C := -1 }) c1v vk oend outputs left bound value b
  | succ k =>
    simp only [Nat.succ_ne_zero, decide_false] at one
    simp only [ScanAction.extDone, one, Bool.false_eq_true, if_false]
    refine ⟨⟨rfl, ?_, ?_, ?_⟩, ?_, ?_⟩
    · simp [ScanState.after, ScanAction.next, vk]
    · simp [ScanState.after, ScanAction.next, vk]
    · simp [ScanState.after, ScanAction.next, oend, outputs]
    · simp [ScanState.after, ScanAction.next, c1k, c1c, c1v, left]
    · have down := counts_down entries
      simpa [ScanState.after, ScanAction.next, c2b] using down

theorem ScanAction.nextInput_silent {a : ScanAction} (silent : a.OEND = false) (e : ScanTests) : (a.nextInput e).OEND = false := by
  unfold ScanAction.nextInput
  split <;> exact silent

theorem ScanAction.extDone_silent {a : ScanAction} (silent : a.OEND = false) (e : ScanTests) : (a.extDone e).OEND = false := by
  unfold ScanAction.extDone
  split
  · exact ScanAction.nextInput_silent (by exact silent) e
  · exact silent

/-- An output's end leaves the next output, or the transaction's end. -/
theorem ScanState.after_outDone {a : ScanAction} (total : a.C1V = 0) (ends : a.VK = false) (outputs : s.outputs = o)
    (left : s.c1 = (n + 1 : Nat)) (bound : n + 1 < fieldModulus) (value : Scalar) (b : Nat) :
    AtOutputs (o + 1) n (s.after (a.outDone (s.tests value)) value b) := by
  have one : (s.tests value).zC1 = decide (n = 0) := counts_one left bound
  cases n with
  | zero =>
    simp only [decide_true] at one
    constructor <;> simp [ScanState.after, ScanAction.outDone, one, ends, outputs]
  | succ n =>
    simp only [Nat.succ_ne_zero, decide_false] at one
    refine ⟨⟨?_, ?_, ?_, ?_⟩, ?_⟩
    · simp [ScanState.after, ScanAction.outDone, one]
    · simp [ScanState.after, ScanAction.outDone, ends]
    · simp [ScanState.after, ScanAction.outDone, ends]
    · simp [ScanState.after, ScanAction.outDone, outputs]
    · have down := counts_down left
      simpa [ScanState.after, ScanAction.outDone, total] using down

/-- What an output's end emits. -/
theorem ScanState.act_outDone (s : ScanState) (a : ScanAction) (e : ScanTests) (value : Scalar) (b : Nat) :
    (s.act (a.outDone e) value b).2 = if (s.after a value b).sh = (2 : Nat) then
      some ⟨s.outputs, limbBytes (s.after a value b).hi ++ limbBytes (s.after a value b).lo⟩ else none := by
  by_cases shape : (s.after a value b).sh = (2 : Nat)
  · have shaped : ((a.outDone e).OEND && (s.after (a.outDone e) value b).sh = (2 : Nat)) = true := decide_eq_true shape
    rw [if_pos shape, ScanState.act, if_pos shaped]
    rfl
  · have shaped : ¬((a.outDone e).OEND && (s.after (a.outDone e) value b).sh = (2 : Nat)) = true :=
      fun yes => shape (of_decide_eq_true yes)
    rw [if_neg shape, ScanState.act, if_neg shaped]

/-- A register's end leaves the next register, or the output's. -/
theorem ScanState.act_regDone {a : ScanAction} (plain : a.Plain) (outputs : s.outputs = o) (left : s.c1 = (n + 1 : Nat))
    (registers : s.c2 = (k + 1 : Nat)) (bound : n + 1 < fieldModulus) (bound' : k + 1 < fieldModulus) (value : Scalar) (b : Nat)
    (mode : ScanMode) :
    AtRegisters mode o n (s.after a value b).sh (s.after a value b).hi (s.after a value b).lo k
      (s.act (a.regDone (s.tests value) mode) value b).1 (s.act (a.regDone (s.tests value) mode) value b).2 := by
  have one : (s.tests value).zC2 = decide (k = 0) := counts_one registers bound'
  obtain ⟨⟨c1k, c1c, c1v⟩, ⟨c2k, c2c, c2b⟩, vk, oend⟩ := plain
  cases k with
  | zero =>
    simp only [decide_true] at one
    simp only [ScanAction.regDone, one, if_true]
    refine ⟨ScanState.after_outDone (a := { a with C2K := 1, C2C := -1 }) c1v vk outputs left bound value b, ?_⟩
    rw [ScanState.act_outDone, outputs]
    rfl
  | succ k =>
    simp only [Nat.succ_ne_zero, decide_false] at one
    simp only [ScanAction.regDone, one, Bool.false_eq_true, if_false]
    rw [ScanState.act_silent _ (by exact oend)]
    refine ⟨⟨⟨rfl, ?_, ?_, ?_⟩, ?_, ?_, rfl, rfl, rfl⟩, rfl⟩
    · simp [ScanState.after, ScanAction.next, vk]
    · simp [ScanState.after, ScanAction.next, vk]
    · simp [ScanState.after, ScanAction.next, oend, outputs]
    · simp [ScanState.after, ScanAction.next, c1k, c1c, c1v, left]
    · have down := counts_down registers
      simpa [ScanState.after, ScanAction.next, c2b] using down

end Counters

end Moe
