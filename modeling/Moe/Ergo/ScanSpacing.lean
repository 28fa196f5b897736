import Moe.Ergo.ScanAgrees

namespace Moe

/-- The modes that read no constant of a register. -/
def ScanMode.outer : ScanMode → Bool
  | .r4Ct | .r4Clen | .r4Hi | .r4Lo | .r4Body | .r5Ct | .r5Clen | .r5Body | .rxCt | .rxClen | .rxBody => false
  | _ => true

/-- What a scan's shape and run keep to: the shape is none before R4 ends, and doubled once R5 has. -/
def ScanState.Shaping (s : ScanState) : Prop :=
  match s.mode with
  | .r4Hi | .r4Lo => ∃ k : Nat, k < 16 ∧ s.r = (k + 1 : Nat)
  | .r4Ct | .r4Clen | .r4Body => s.sh = 0
  | .r5Ct | .r5Clen | .r5Body => s.sh = 0 ∨ s.sh = 1
  | .rxCt | .rxClen | .rxBody => s.sh = 0 ∨ s.sh = (2 : Nat)
  | _ => True

/-- Bytes that have to be read, at least, before the next byte can end an output with the shape. -/
def ScanState.need (s : ScanState) : Nat :=
  match s.mode with
  | .r4Hi => s.r.val + 16
  | .r4Lo => s.r.val
  | .r5Ct | .r5Clen | .r5Body | .rxCt | .rxClen | .rxBody => if s.sh = 0 then 32 else 0
  | _ => 32

/-- A step that spends what it emits, and otherwise comes one byte closer at most. -/
abbrev ScanState.Spends (s : ScanState) (step : ScanState × Option ScannedOutput) : Prop :=
  Transducer.Spends ScanState.Shaping ScanState.need 32 s step

section Spending

variable {s : ScanState}

theorem val_succ {k : Nat} (bound : k < 16) : ((k + 1 : Nat) : Scalar).val = k + 1 := by
  rw [ZMod.val_natCast, Nat.mod_eq_of_lt]
  exact Nat.lt_of_le_of_lt bound (by decide)

theorem ScanState.need_le (shaping : s.Shaping) : s.need ≤ 32 := by
  unfold ScanState.Shaping at shaping
  unfold ScanState.need
  split
  · rename_i mode
    rw [mode] at shaping
    obtain ⟨k, bound, r⟩ := shaping
    rw [r, val_succ bound]
    omega
  · rename_i mode
    rw [mode] at shaping
    obtain ⟨k, bound, r⟩ := shaping
    rw [r, val_succ bound]
    omega
  all_goals try split
  all_goals omega

theorem ScanState.need_outer (outer : s.mode.outer = true) : s.Shaping ∧ s.need = 32 := by
  unfold ScanState.Shaping ScanState.need
  cases mode : s.mode <;> rw [mode] at outer <;> first | exact ⟨trivial, rfl⟩ | cases outer

/-- A silent step keeps what shape there is. -/
theorem ScanState.spends_kept {t : ScanState} (kept : t.Shaping) (need : s.need ≤ t.need + 1) : s.Spends (t, none) :=
  ⟨kept, fun _ => need, fun _ emits => absurd emits.symm (Option.some_ne_none _)⟩

/-- A silent step out of the registers spends nothing. -/
theorem ScanState.spends_outer (shaping : s.Shaping) {t : ScanState} (outer : t.mode.outer = true) : s.Spends (t, none) := by
  obtain ⟨kept, need⟩ := t.need_outer outer
  exact ScanState.spends_kept kept (by rw [need]; exact Nat.le_succ_of_le (s.need_le shaping))

/-- An output's end is emitted only where its shape is whole. -/
theorem ScanState.spends_outDone (shaping : s.Shaping) {a : ScanAction} {e : ScanTests} {value : Scalar} {b : Nat}
    (shape : (s.after a value b).sh = (2 : Nat) → s.need = 0) : s.Spends (s.act (a.outDone e) value b) := by
  have outer : (s.act (a.outDone e) value b).1.mode.outer = true := by
    simp only [ScanState.act, ScanState.after, ScanAction.outDone]
    split <;> rfl
  obtain ⟨kept, need⟩ := ScanState.need_outer outer
  refine ⟨kept, fun _ => (Nat.le_succ_of_le (s.need_le shaping)).trans (by rw [need]), fun found emits => ⟨shape ?_, need.ge⟩⟩
  rw [s.act_outDone] at emits
  by_contra part
  rw [if_neg part] at emits
  cases emits

/-- A register's end keeps what shape it gives. -/
theorem ScanState.spends_regDone (shaping : s.Shaping) {a : ScanAction} {e : ScanTests} {value : Scalar} {b : Nat} {next : ScanMode}
    (silent : a.OEND = false) (shape : (s.after a value b).sh = (2 : Nat) → s.need = 0)
    (kept : ∀ t : ScanState, t.mode = next → t.sh = (s.after a value b).sh → t.Shaping ∧ s.need ≤ t.need + 1) :
    s.Spends (s.act (a.regDone e next) value b) := by
  unfold ScanAction.regDone
  cases e.zC2 with
  | true => exact ScanState.spends_outDone (a := { a with C2K := 1, C2C := -1 }) shaping shape
  | false =>
    rw [if_neg Bool.false_ne_true, s.act_silent (by exact silent)]
    obtain ⟨held, closer⟩ := kept (s.after ({ a with C2K := 1, C2C := -1 }.next next) value b) rfl rfl
    exact ScanState.spends_kept held closer

/-- A step reads a byte its mode cannot take, more of a quantity, or its transition. -/
theorem scan_cases (s : ScanState) (byte : UInt8) : ∃ x value, scan s byte = s.act x value byte.toNat ∧
    (x = .go .err ∨ (groupOf s.mode = .vlq ∧ x = { ScanAction.go s.mode with VK := true }) ∨
      ∃ cls, cls ≠ 3 ∧ ¬(groupOf s.mode = .vlq ∧ cls = 1) ∧ x = transition s.mode cls (s.tests value)) := by
  refine ⟨_, _, scan_eq s byte, ?_⟩
  by_cases three : byteClass (groupOf s.mode) byte.toNat = 3
  · rw [three, transition_untaken]
    exact .inl rfl
  · by_cases more : groupOf s.mode = .vlq ∧ byteClass (groupOf s.mode) byte.toNat = 1
    · rw [more.2, transition_vlq _ more.1]
      exact .inr (.inl ⟨more.1, rfl⟩)
    · exact .inr (.inr ⟨_, three, more, rfl⟩)

/-- A transition outside the registers and their count ends no output, and stays outside. -/
theorem transition_outer {mode : ScanMode} (outer : mode.outer = true) (uncounted : mode ≠ .regCnt) {cls : Nat} (taken : cls ≠ 3)
    (last : ¬(groupOf mode = .vlq ∧ cls = 1)) (e : ScanTests) :
    (transition mode cls e).OEND = false ∧ (transition mode cls e).NEXT.outer = true := by
  unfold transition
  rw [if_neg last, if_neg taken]
  cases mode <;> first
    | exact absurd outer Bool.false_ne_true
    | exact absurd rfl uncounted
    | (simp only [ScanAction.next, ScanAction.setR, ScanAction.decR, ScanAction.nextInput, ScanAction.extDone, ScanAction.go]
       (repeat' split) <;> constructor <;> first | rfl | trivial)

/-- A register's mode takes every byte it takes alike. -/
theorem transition_inner {mode : ScanMode} (inner : mode.outer = false) {cls : Nat} (taken : cls ≠ 3)
    (last : ¬(groupOf mode = .vlq ∧ cls = 1)) (e : ScanTests) : transition mode cls e = transition mode 0 e := by
  have zero : ¬(groupOf mode = .vlq ∧ 0 = 1) := fun both => absurd both.2 Nat.zero_ne_one
  unfold transition
  rw [if_neg last, if_neg taken, if_neg zero, if_neg (show ¬0 = 3 by decide)]
  cases mode <;> first | rfl | exact absurd inner.symm Bool.false_ne_true

/-- The count of registers ends the output, or starts one of no shape yet. -/
theorem ScanState.spends_regCnt (shaping : s.Shaping) {cls : Nat} (taken : cls ≠ 3) (value : Scalar) (b : Nat) :
    s.Spends (s.act (transition .regCnt cls (s.tests value)) value b) := by
  have cases_ : transition .regCnt cls (s.tests value) = if cls = 0 then { ScanAction.go .regCnt with SHM := 0 }.outDone (s.tests value)
      else { { ScanAction.go .regCnt with SHM := 0 } with C2K := 0, C2B := 1, NEXT := .r4Ct } := by
    unfold transition
    rw [if_neg fun both => absurd both.1 (by decide), if_neg taken]
  rw [cases_]
  split
  · refine ScanState.spends_outDone shaping fun shape => ?_
    rw [ScanState.after_unshaped] at shape
    exact absurd shape unshaped.1
  · rw [s.act_silent rfl, s.after_registers]
    exact ScanState.spends_kept (t := { s with mode := .r4Ct, c2 := b, sh := 0, a := 0, p := 1 }) rfl
      (Nat.le_succ_of_le (s.need_le shaping))

/-- R4 before its limbs, and where it has none. -/
theorem ScanState.spends_first (shaping : s.Shaping) (modes : s.mode = .r4Ct ∨ s.mode = .r4Clen ∨ s.mode = .r4Body) (value : Scalar) (b : Nat) :
    s.Spends (s.act (transition s.mode 0 (s.tests value)) value b) := by
  have none_ : s.sh = 0 := by
    unfold ScanState.Shaping at shaping
    rcases modes with mode | mode | mode <;> rw [mode] at shaping <;> exact shaping
  have ends : ∀ a : ScanAction, a = .go s.mode ∨ a = (ScanAction.go s.mode).decR → s.Spends (s.act (a.regDone (s.tests value) .r5Ct) value b) := by
    intro a plain
    have kept : (s.after a value b).sh = 0 := by
      rcases plain with rfl | rfl
      · rw [s.after_go]
        exact none_
      · rw [s.after_decR]
        exact none_
    have silent : a.OEND = false := by rcases plain with rfl | rfl <;> rfl
    refine ScanState.spends_regDone shaping silent (fun shape => absurd (kept.symm.trans shape) unshaped.1) fun t mode same => ?_
    rw [kept] at same
    refine ⟨?_, ?_⟩
    · unfold ScanState.Shaping
      rw [mode]
      exact .inl same
    · have need : t.need = 32 := by
        unfold ScanState.need
        rw [mode]
        exact if_pos same
      rw [need]
      exact Nat.le_succ_of_le (s.need_le shaping)
  have stays : ∀ t : ScanState, t.mode = .r4Clen ∨ t.mode = .r4Body → t.sh = s.sh → s.Spends (t, none) := by
    intro t mode same
    rw [none_] at same
    refine ScanState.spends_kept ?_ ?_
    · unfold ScanState.Shaping
      rcases mode with mode | mode <;> rw [mode] <;> exact same
    · have need : t.need = 32 := by
        unfold ScanState.need
        rcases mode with mode | mode <;> rw [mode]
      rw [need]
      exact Nat.le_succ_of_le (s.need_le shaping)
  rcases modes with mode | mode | mode
  · have goes : transition s.mode 0 (s.tests value) = .go .r4Clen := by rw [mode]; rfl
    rw [goes, s.act_go]
    exact stays _ (.inl rfl) rfl
  · have goes : transition s.mode 0 (s.tests value) = if (s.tests value).zV then (ScanAction.go s.mode).regDone (s.tests value) .r5Ct
        else if (s.tests value).z32 then { (ScanAction.go .r4Hi).setR 16 0 with HM := 0 } else (ScanAction.go .r4Body).setR 0 1 := by
      rw [mode]
      rfl
    rw [goes]
    split
    · exact ends _ (.inl rfl)
    · split
      · rw [s.act_silent rfl, s.after_limbs]
        refine ScanState.spends_kept (t := { s with mode := .r4Hi, r := 16, hi := 0, a := 0, p := 1 }) ⟨15, by decide, rfl⟩ ?_
        have need : ({ s with mode := .r4Hi, r := 16, hi := 0, a := 0, p := 1 } : ScanState).need = 32 :=
          congrArg (· + 16) (val_succ (by decide : 15 < 16))
        rw [need]
        exact Nat.le_succ_of_le (s.need_le shaping)
      · rw [s.act_silent rfl, s.after_setR]
        exact stays _ (.inr rfl) rfl
  · have goes : transition s.mode 0 (s.tests value) = if (s.tests value).zR then (ScanAction.go s.mode).decR.regDone (s.tests value) .r5Ct
        else (ScanAction.go s.mode).decR := by
      rw [mode]
      rfl
    rw [goes]
    split
    · exact ends _ (.inr rfl)
    · rw [s.act_silent rfl, s.after_decR]
      exact stays _ (.inr mode) rfl

/-- R4's limbs. -/
theorem ScanState.spends_limbs (shaping : s.Shaping) (modes : s.mode = .r4Hi ∨ s.mode = .r4Lo) (value : Scalar) (b : Nat) :
    s.Spends (s.act (transition s.mode 0 (s.tests value)) value b) := by
  obtain ⟨k, bound, r⟩ : ∃ k : Nat, k < 16 ∧ s.r = (k + 1 : Nat) := by
    unfold ScanState.Shaping at shaping
    rcases modes with mode | mode <;> rw [mode] at shaping <;> exact shaping
  have val := val_succ bound
  have one : (s.tests value).zR = decide (k = 0) := counts_one r (Nat.lt_of_le_of_lt bound (by decide))
  rcases modes with mode | mode
  · have need : s.need = k + 17 := by
      unfold ScanState.need
      rw [mode]
      simp only [r, val]
    have goes : transition s.mode 0 (s.tests value) = if (s.tests value).zR then
        { ({ ScanAction.go .r4Hi with HM := 256, HB := 1 }.decR.next .r4Lo).setR 16 0 with LM := 0 }
        else { ScanAction.go .r4Hi with HM := 256, HB := 1 }.decR := by
      rw [mode]
      rfl
    rw [goes, one]
    cases k with
    | zero =>
      rw [decide_eq_true rfl, if_pos rfl, s.act_silent rfl, s.after_highEnd]
      refine ScanState.spends_kept ⟨15, by decide, rfl⟩ ?_
      have after : ({ s with mode := .r4Lo, r := 16, hi := 256 * s.hi + b, lo := 0, a := 0, p := 1 } : ScanState).need = 16 :=
        val_succ (by decide : 15 < 16)
      rw [need, after]
    | succ k =>
      rw [decide_eq_false (Nat.succ_ne_zero k), if_neg Bool.false_ne_true, s.act_silent rfl, s.after_high, counts_down r]
      have within : k < 16 := Nat.lt_of_succ_lt bound
      refine ScanState.spends_kept ⟨k, within, rfl⟩ ?_
      have after : ({ s with mode := .r4Hi, r := (k + 1 : Nat), hi := 256 * s.hi + b, a := 0, p := 1 } : ScanState).need = k + 1 + 16 :=
        congrArg (· + 16) (val_succ within)
      rw [need, after]
  · have need : s.need = k + 1 := by
      unfold ScanState.need
      rw [mode]
      simp only [r, val]
    have goes : transition s.mode 0 (s.tests value) = if (s.tests value).zR then
        { { ScanAction.go .r4Lo with LM := 256, LB := 1 }.decR with SHM := 0, SHC := 1 }.regDone (s.tests value) .r5Ct
        else { ScanAction.go .r4Lo with LM := 256, LB := 1 }.decR := by
      rw [mode]
      rfl
    rw [goes, one]
    cases k with
    | zero =>
      rw [decide_eq_true rfl, if_pos rfl]
      have half : (s.after { { ScanAction.go .r4Lo with LM := 256, LB := 1 }.decR with SHM := 0, SHC := 1 } value b).sh = 1 := by
        rw [s.after_lowEnd]
      refine ScanState.spends_regDone shaping rfl (fun shape => absurd (half.symm.trans shape) unshaped.2) fun t mode' same => ?_
      rw [half] at same
      refine ⟨?_, by rw [need]; exact Nat.le_add_left 1 _⟩
      unfold ScanState.Shaping
      rw [mode']
      exact .inr same
    | succ k =>
      rw [decide_eq_false (Nat.succ_ne_zero k), if_neg Bool.false_ne_true, s.act_silent rfl, s.after_low, counts_down r]
      have within : k < 16 := Nat.lt_of_succ_lt bound
      refine ScanState.spends_kept ⟨k, within, rfl⟩ ?_
      have after : ({ s with mode := .r4Lo, r := (k + 1 : Nat), lo := 256 * s.lo + b, a := 0, p := 1 } : ScanState).need = k + 1 :=
        val_succ within
      rw [need, after]

/-- The registers after R4: each keeps its shape to its end, where R5 doubles it. -/
theorem ScanState.spends_later {value : Scalar} {b : Nat} {doubled : Scalar} (shaping : s.Shaping) {type count run next : ScanMode} {finish : ScanAction → ScanAction}
    (modes : s.mode = type ∨ s.mode = count ∨ s.mode = run)
    (typed : transition type 0 (s.tests value) = .go count)
    (counted : transition count 0 (s.tests value) = if (s.tests value).zV then (finish (.go count)).regDone (s.tests value) next
      else (ScanAction.go run).setR 0 1)
    (ran : transition run 0 (s.tests value) = if (s.tests value).zR then (finish (ScanAction.go run).decR).regDone (s.tests value) next
      else (ScanAction.go run).decR)
    (finished : ∀ a : ScanAction, a = .go count ∨ a = (ScanAction.go run).decR → (finish a).OEND = false ∧
      (s.after (finish a) value b).sh = doubled)
    (within : ∀ t : ScanState, t.mode = count ∨ t.mode = run → t.sh = s.sh → t.Shaping ∧ t.need = s.need)
    (ends : (doubled = (2 : Nat) → s.need = 0) ∧ ∀ t : ScanState, t.mode = next → t.sh = doubled → t.Shaping ∧ s.need ≤ t.need + 1) :
    s.Spends (s.act (transition s.mode 0 (s.tests value)) value b) := by
  have stays : ∀ t : ScanState, t.mode = count ∨ t.mode = run → t.sh = s.sh → s.Spends (t, none) := by
    intro t mode same
    obtain ⟨kept, need⟩ := within t mode same
    exact ScanState.spends_kept kept (by rw [need]; exact Nat.le_succ _)
  have done : ∀ a : ScanAction, a = .go count ∨ a = (ScanAction.go run).decR →
      s.Spends (s.act ((finish a).regDone (s.tests value) next) value b) := by
    intro a plain
    obtain ⟨silent, shape⟩ := finished a plain
    refine ScanState.spends_regDone shaping silent (fun whole => ends.1 (shape.symm.trans whole)) fun t mode same => ?_
    exact ends.2 t mode (same.trans shape)
  rcases modes with mode | mode | mode
  · rw [mode, typed, s.act_go]
    exact stays _ (.inl rfl) rfl
  · rw [mode, counted]
    split
    · exact done _ (.inl rfl)
    · rw [s.act_silent rfl, s.after_setR]
      exact stays _ (.inr rfl) rfl
  · rw [mode, ran]
    split
    · exact done _ (.inr rfl)
    · rw [s.act_silent rfl, s.after_decR]
      exact stays _ (.inr rfl) rfl

theorem half_ne : (1 : Scalar) ≠ 0 := by
  have cast := natCast_inj (by decide : 1 < fieldModulus) (by decide : 0 < fieldModulus)
  rw [Nat.cast_one, Nat.cast_zero] at cast
  exact fun same => absurd (cast.mp same) Nat.one_ne_zero

theorem ScanState.spends_second (shaping : s.Shaping) (modes : s.mode = .r5Ct ∨ s.mode = .r5Clen ∨ s.mode = .r5Body) (value : Scalar)
    (b : Nat) : s.Spends (s.act (transition s.mode 0 (s.tests value)) value b) := by
  have shape : s.sh = 0 ∨ s.sh = 1 := by
    unfold ScanState.Shaping at shaping
    rcases modes with mode | mode | mode <;> rw [mode] at shaping <;> exact shaping
  have need : s.need = if s.sh = 0 then 32 else 0 := by
    unfold ScanState.need
    rcases modes with mode | mode | mode <;> rw [mode]
  refine @ScanState.spends_later s value b (2 * s.sh) shaping .r5Ct .r5Clen .r5Body .rxCt (fun a => { a with SHM := 2 }) modes rfl rfl rfl
    (fun a plain => ?_) (fun t mode same => ?_) ⟨fun whole => ?_, fun t mode same => ?_⟩
  · rcases plain with rfl | rfl
    · exact ⟨rfl, by rw [s.after_double]⟩
    · exact ⟨rfl, by rw [s.after_doubleR]⟩
  · rw [need, ← same]
    rw [← same] at shape
    constructor
    · unfold ScanState.Shaping
      rcases mode with mode | mode <;> rw [mode] <;> exact shape
    · unfold ScanState.need
      rcases mode with mode | mode <;> rw [mode]
  · rcases shape with none_ | half
    · rw [none_, mul_zero] at whole
      exact absurd whole unshaped.1
    · rw [need, half, if_neg half_ne]
  · rcases shape with none_ | half
    · rw [none_, mul_zero] at same
      have after : t.need = 32 := by
        unfold ScanState.need
        rw [mode]
        exact if_pos same
      refine ⟨?_, by rw [after]; exact Nat.le_succ_of_le (s.need_le shaping)⟩
      unfold ScanState.Shaping
      rw [mode]
      exact .inl same
    · rw [half, mul_one] at same
      refine ⟨?_, by rw [need, half, if_neg half_ne]; exact Nat.zero_le _⟩
      unfold ScanState.Shaping
      rw [mode]
      exact .inr same

theorem ScanState.spends_rest (shaping : s.Shaping) (modes : s.mode = .rxCt ∨ s.mode = .rxClen ∨ s.mode = .rxBody) (value : Scalar)
    (b : Nat) : s.Spends (s.act (transition s.mode 0 (s.tests value)) value b) := by
  have shape : s.sh = 0 ∨ s.sh = (2 : Nat) := by
    unfold ScanState.Shaping at shaping
    rcases modes with mode | mode | mode <;> rw [mode] at shaping <;> exact shaping
  have need : s.need = if s.sh = 0 then 32 else 0 := by
    unfold ScanState.need
    rcases modes with mode | mode | mode <;> rw [mode]
  have kept : ∀ t : ScanState, t.mode = .rxCt ∨ t.mode = .rxClen ∨ t.mode = .rxBody → t.sh = s.sh → t.Shaping ∧ t.need = s.need := by
    intro t mode same
    rw [need, ← same]
    rw [← same] at shape
    constructor
    · unfold ScanState.Shaping
      rcases mode with mode | mode | mode <;> rw [mode] <;> exact shape
    · unfold ScanState.need
      rcases mode with mode | mode | mode <;> rw [mode]
  refine @ScanState.spends_later s value b s.sh shaping .rxCt .rxClen .rxBody .rxCt id modes rfl rfl rfl
    (fun a plain => ?_) (fun t mode same => kept t (.inr mode) same) ⟨fun whole => ?_, fun t mode same => ?_⟩
  · rcases plain with rfl | rfl
    · exact ⟨rfl, by rw [id, s.after_go]⟩
    · exact ⟨rfl, by rw [id, s.after_decR]⟩
  · rw [need, if_neg]
    rw [whole]
    exact unshaped.1.symm
  · obtain ⟨held, after⟩ := kept t (.inl mode) same
    exact ⟨held, by rw [after]; exact Nat.le_succ _⟩

/-- Every step spends what it emits. -/
theorem scan_spends (shaping : s.Shaping) (byte : UInt8) : s.Spends (scan s byte) := by
  obtain ⟨x, value, step, rfl | ⟨group, rfl⟩ | ⟨cls, taken, last, rfl⟩⟩ := scan_cases s byte
  · rw [step, s.act_go]
    exact s.spends_outer shaping rfl
  · rw [step, s.act_silent rfl, s.after_more]
    exact ScanState.spends_kept shaping (Nat.le_succ _)
  · rw [step]
    by_cases outer : s.mode.outer = true
    · by_cases counted : s.mode = .regCnt
      · rw [counted]
        exact s.spends_regCnt shaping taken value byte.toNat
      · obtain ⟨silent, next⟩ := transition_outer outer counted taken last (s.tests value)
        rw [s.act_silent silent]
        exact s.spends_outer shaping next
    · rw [transition_inner (Bool.eq_false_iff.mpr outer) taken last]
      have modes : (s.mode = .r4Ct ∨ s.mode = .r4Clen ∨ s.mode = .r4Body) ∨ (s.mode = .r4Hi ∨ s.mode = .r4Lo) ∨
          (s.mode = .r5Ct ∨ s.mode = .r5Clen ∨ s.mode = .r5Body) ∨ s.mode = .rxCt ∨ s.mode = .rxClen ∨ s.mode = .rxBody := by
        cases mode : s.mode <;> rw [mode] at outer <;> first | exact absurd rfl outer | simp
      rcases modes with first | limbs | second | rest
      · exact s.spends_first shaping first value byte.toNat
      · exact s.spends_limbs shaping limbs value byte.toNat
      · exact s.spends_second shaping second value byte.toNat
      · exact s.spends_rest shaping rest value byte.toNat

end Spending

/-- At most four outputs with the shape end within any 128 bytes. -/
theorem scan_window (read window : Bytes) (short : window.length ≤ 128) :
    (scan.emitted (scan.last scanStart read) window).length ≤ 4 := by
  have start : scanStart.Shaping := trivial
  have spends : ∀ (s : ScanState) (byte : UInt8), s.Shaping → s.Spends (scan s byte) := fun s byte shaping => scan_spends shaping byte
  -- the spacing is the steps' alone: kept apart from the scan's own tables, which no reduction should open
  generalize scan = m at spends ⊢
  have keeps : ∀ (s : ScanState) (byte : UInt8), s.Shaping → (m s byte).1.Shaping := fun s byte kept => (spends s byte kept).keeps
  have shaping := Transducer.last_keeps keeps start read
  rcases Transducer.emitted_spaced spends shaping window with none_ | room
  · rw [none_]
    exact Nat.zero_le _
  · omega

section Indices

/-- A step counts the output that ends at it, and emits it under its index. -/
theorem scan_counts (s : ScanState) (byte : UInt8) : s.outputs ≤ (scan s byte).1.outputs ∧
    ∀ found, (scan s byte).2 = some found → found.output = s.outputs ∧ (scan s byte).1.outputs = s.outputs + 1 := by
  obtain ⟨x, value, step, -⟩ := scan_cases s byte
  rw [step]
  refine ⟨Nat.le_add_right _ _, fun found emits => ?_⟩
  simp only [ScanState.act] at emits ⊢
  split at emits
  · rename_i shaped
    rw [Bool.and_eq_true] at shaped
    obtain rfl := Option.some.inj emits
    exact ⟨rfl, by simp only [ScanState.after, shaped.1, Bool.toNat_true]⟩
  · cases emits

/-- Indices strictly increase, from the count of outputs read. -/
theorem scan_increases (s : ScanState) (bytes : Bytes) :
    (∀ found ∈ scan.emitted s bytes, s.outputs ≤ found.output) ∧ (scan.emitted s bytes).Pairwise fun a b => a.output < b.output := by
  induction bytes generalizing s with
  | nil => exact ⟨fun found member => absurd member List.not_mem_nil, List.Pairwise.nil⟩
  | cons byte rest ih =>
    obtain ⟨grows, counts⟩ := scan_counts s byte
    obtain ⟨later, increases⟩ := ih (scan s byte).1
    rw [Transducer.emitted_cons]
    cases emits : (scan s byte).2 with
    | none => exact ⟨fun found member => grows.trans (later found member), increases⟩
    | some found =>
      obtain ⟨index, next⟩ := counts found emits
      refine ⟨fun other member => ?_, List.pairwise_cons.mpr ⟨fun other member => ?_, increases⟩⟩
      · rcases List.mem_cons.mp member with rfl | after
        · exact index.ge
        · exact grows.trans (later other after)
      · have below := later other member
        omega

/-- A scan that has failed emits nothing more. -/
theorem scan_err {s : ScanState} (failed : s.mode = .err) (bytes : Bytes) : scan.emitted s bytes = [] := by
  induction bytes generalizing s with
  | nil => rfl
  | cons byte rest ih =>
    have goes : ∀ (e : ScanTests) (cls : Nat), transition .err cls e = .go .err := by
      intro e cls
      unfold transition
      rw [if_neg fun both => absurd both.1 (by decide)]
      split <;> rfl
    have step : scan s byte = ({ s with mode := .err, a := 0, p := 1 }, none) := by
      rw [scan_eq, failed]
      simp only [goes]
      exact s.act_go .err _ _
    rw [Transducer.emitted_cons, step]
    exact ih rfl

theorem scanFrom_eq (s : ScanState) (bytes : Bytes) : scanFrom s bytes = scan.emitted s bytes := by
  induction bytes generalizing s with
  | nil => rfl
  | cons byte rest ih =>
    have found : (scan s byte).2.toList = if (scanStep s byte).2 then
        [⟨s.outputs, limbBytes (scanStep s byte).1.hi ++ limbBytes (scanStep s byte).1.lo⟩] else [] := by
      simp only [scan]
      split <;> rfl
    rw [Transducer.emitted_cons, found]
    simp only [scanFrom, ih]
    split
    · rename_i failed
      have failed_ : (scan s byte).1.mode = .err := failed
      rw [scan_err failed_, List.append_nil]
    · rfl

/-- A byte the state's mode cannot take. -/
def ScanState.Refuses (s : ScanState) (byte : UInt8) : Prop := byteClass (groupOf s.mode) byte.toNat = 3

theorem scan_refused {s : ScanState} {byte : UInt8} (refused : s.Refuses byte) (rest : Bytes) : scan.emitted s (byte :: rest) = [] := by
  have step : (scan s byte).1.mode = .err ∧ (scan s byte).2 = none := by
    rw [scan_eq]
    simp only [show byteClass (groupOf s.mode) byte.toNat = 3 from refused, transition_untaken]
    rw [s.act_go]
    exact ⟨rfl, rfl⟩
  rw [Transducer.emitted_cons, step.2, scan_err step.1]
  rfl

end Indices

theorem scanTransaction_framed {unsigned : Bytes} {views : List ErgoOutputView} (framed : frameTransaction unsigned = some views) :
    shapedOutputs unsigned = some (scanTransaction unsigned) := by
  have reads := scan_reads (frameTransaction_reads framed)
  rw [scanTransaction, scanFrom_eq, reads, shapedOutputs, framed]
  rfl

/-- The scan reads what the framer accepts to exactly its outputs with the shape; and whatever it reads, its indices strictly
increase, at most four outputs end within 128 bytes, and it emits nothing from the first byte its mode cannot take. -/
theorem scan_agrees :
    (∀ unsigned views, frameTransaction unsigned = some views → shapedOutputs unsigned = some (scanTransaction unsigned)) ∧
    ∀ unsigned, (scanTransaction unsigned).Pairwise (fun a b => a.output < b.output) ∧
      (∀ read window rest, unsigned = read ++ (window ++ rest) → window.length ≤ 128 →
        ∃ before ends after, scanTransaction unsigned = before ++ (ends ++ after) ∧ scanTransaction read = before ∧
          scanTransaction (read ++ window) = before ++ ends ∧ ends.length ≤ 4) ∧
      ∀ read byte rest, unsigned = read ++ byte :: rest → (scan.last scanStart read).Refuses byte →
        scanTransaction unsigned = scanTransaction read := by
  refine ⟨fun _ _ framed => scanTransaction_framed framed, fun unsigned => ⟨?_, ?_, ?_⟩⟩
  · rw [scanTransaction, scanFrom_eq]
    exact (scan_increases scanStart unsigned).2
  · rintro read window rest rfl short
    simp only [scanTransaction, scanFrom_eq, Transducer.emitted_append]
    exact ⟨_, _, _, rfl, rfl, rfl, scan_window read window short⟩
  · rintro read byte rest rfl refused
    rw [scanTransaction, scanTransaction, scanFrom_eq, scanFrom_eq, Transducer.emitted_append, scan_refused refused, List.append_nil]

end Moe
