import Mathlib.Data.List.Basic

namespace Moe

/-- A call on a state that keeps what it wrote where it throws. -/
abbrev Work (σ ε : Type) := ExceptT ε (StateM σ)

namespace Work

variable {σ ε α β φ : Type}

/-- What a call ends with, its value or what it threw, and the state it leaves either way. -/
def runs (work : Work σ ε α) (s : σ) : Except ε α × σ := StateT.run (ExceptT.run work) s

@[simp] theorem runs_pure (value : α) (s : σ) : (pure value : Work σ ε α).runs s = (.ok value, s) := rfl

@[simp] theorem runs_throw (failure : ε) (s : σ) : (throw failure : Work σ ε α).runs s = (.error failure, s) := rfl

@[simp] theorem runs_get (s : σ) : (get : Work σ ε σ).runs s = (.ok s, s) := rfl

@[simp] theorem runs_modify (f : σ → σ) (s : σ) : (modify f : Work σ ε PUnit).runs s = (.ok ⟨⟩, f s) := rfl

@[simp] theorem runs_lift (value : Except ε α) (s : σ) : (liftM value : Work σ ε α).runs s = (value, s) := rfl

/-- A call goes on from where the one before it returned, and stops where it threw. -/
def andThen (rest : α → Work σ ε β) : Except ε α × σ → Except ε β × σ
  | (.ok value, s) => (rest value).runs s
  | (.error failure, s) => (.error failure, s)

theorem runs_bind (first : Work σ ε α) (rest : α → Work σ ε β) (s : σ) :
    (first >>= rest).runs s = andThen rest (first.runs s) := by
  change (ExceptT.bindCont rest (first.runs s).1 : StateM σ (Except ε β)) (first.runs s).2 = _
  obtain ⟨result, s'⟩ := first.runs s
  cases result with
  | ok value => rfl
  | error failure => rfl

/-- A call, then a last step whether it returned or threw. -/
def lastly (work : Work σ ε α) (step : σ → σ) : Work σ ε α :=
  ExceptT.mk fun s => ((work.runs s).1, step (work.runs s).2)

@[simp] theorem lastly_runs (work : Work σ ε α) (step : σ → σ) (s : σ) :
    (work.lastly step).runs s = ((work.runs s).1, step (work.runs s).2) := rfl

/-- What a call leaves as it was, whether it returns or throws. -/
def Keeps (frame : σ → φ) (work : Work σ ε α) : Prop := ∀ s, frame (work.runs s).2 = frame s

namespace Keeps

variable {frame : σ → φ} {first : Work σ ε α} {rest : α → Work σ ε β}

theorem pure {value : α} : Keeps frame (Pure.pure value : Work σ ε α) := fun _ => rfl

theorem throw {failure : ε} : Keeps frame (MonadExcept.throw failure : Work σ ε α) := fun _ => rfl

theorem get : Keeps frame (MonadState.get : Work σ ε σ) := fun _ => rfl

theorem lift {value : Except ε α} : Keeps frame (liftM value : Work σ ε α) := fun _ => rfl

theorem modify {f : σ → σ} (same : ∀ s, frame (f s) = frame s) : Keeps frame (modifyThe σ f : Work σ ε PUnit) := same

theorem bind (head : Keeps frame first) (tail : ∀ value, Keeps frame (rest value)) : Keeps frame (first >>= rest) := by
  intro s
  have kept := head s
  rw [runs_bind]
  cases ran : first.runs s with
  | mk result s' =>
    rw [ran] at kept
    cases result with
    | ok value => exact (tail value s').trans kept
    | error failure => exact kept

theorem forM {entries : List β} {each : β → Work σ ε PUnit} (kept : ∀ entry ∈ entries, Keeps frame (each entry)) :
    Keeps frame (entries.forM each) := by
  induction entries with
  | nil => exact pure
  | cons entry rest ih =>
    refine bind (kept entry List.mem_cons_self) fun _ => ?_
    exact ih fun other member => kept other (List.mem_cons_of_mem _ member)

theorem foldlM {entries : List β} {step : α → β → Work σ ε α} {start : α}
    (kept : ∀ a, ∀ entry ∈ entries, Keeps frame (step a entry)) : Keeps frame (entries.foldlM step start) := by
  induction entries generalizing start with
  | nil => exact pure
  | cons entry rest ih =>
    rw [List.foldlM_cons]
    refine bind (kept start entry List.mem_cons_self) fun _ => ?_
    exact ih fun a other member => kept a other (List.mem_cons_of_mem _ member)

theorem ofOption {entry : Option β} {each : β → Work σ ε PUnit} (kept : ∀ value, Keeps frame (each value)) :
    Keeps frame (entry.forM each) := by
  cases entry with
  | none => exact pure
  | some value => exact kept value

/-- A step taken under a condition, then the rest. -/
theorem guarded {p : Prop} [Decidable p] {step : Work σ ε PUnit} {rest : PUnit → Work σ ε α} (kept : Keeps frame step)
    (tail : ∀ done, Keeps frame (rest done)) : Keeps frame (if p then step >>= rest else rest ⟨⟩) := by
  split
  · exact bind kept tail
  · exact tail ⟨⟩

/-- A call that leaves the whole state as it was ends where it began. -/
theorem ends (kept : Keeps id first) {s s' : σ} {result : Except ε α} (run : first.runs s = (result, s')) : s' = s := by
  have same := kept s
  rw [run] at same
  exact same

end Keeps

/-- A call that throws a failure `P` holds of leaves the state as it was. -/
def Undoes (P : ε → Prop) (work : Work σ ε α) : Prop :=
  ∀ s failure later, P failure → work.runs s = (.error failure, later) → later = s

namespace Undoes

variable {P : ε → Prop} {first : Work σ ε α} {rest : α → Work σ ε β}

theorem of_keeps (kept : Keeps id first) : Undoes P first := fun _ _ _ _ run => kept.ends run

theorem bind (head : Keeps id first) (tail : ∀ value, Undoes P (rest value)) : Undoes P (first >>= rest) := by
  intro s failure later refused run
  rw [runs_bind] at run
  cases ran : first.runs s with
  | mk result s' =>
    have same := head.ends ran
    subst same
    rw [ran] at run
    cases result with
    | ok value => exact tail value _ _ _ refused run
    | error thrown => exact (Prod.mk.inj run).2.symm

/-- A call undone, then steps that throw nothing `P` holds of. -/
theorem before (head : Undoes P first) (tail : ∀ value s failure, P failure → ((rest value).runs s).1 ≠ .error failure) :
    Undoes P (first >>= rest) := by
  intro s failure later refused run
  rw [runs_bind] at run
  cases ran : first.runs s with
  | mk result s' =>
    rw [ran] at run
    cases result with
    | ok value => exact absurd (congrArg Prod.fst run) (tail value s' failure refused)
    | error thrown =>
      obtain ⟨same, rfl⟩ := Prod.mk.inj run
      rw [Except.error.inj same] at ran
      exact head _ _ _ refused ran

end Undoes

end Work

/-- A connection: its rows, the savepoints open on them, the innermost first, and what is held beside the rows, which no
savepoint restores. A savepoint is named by how many were open before it. -/
structure Connection (σ τ : Type) where
  rows : σ
  saves : List (Nat × σ)
  begun : Bool
  depth : Nat
  aside : τ

namespace Connection

variable {σ τ ε α : Type} {c : Connection σ τ}

/-- The savepoints open, and whether a transaction is. -/
def frame (c : Connection σ τ) : List (Nat × σ) × Bool × Nat := (c.saves, c.begun, c.depth)

/-- The savepoints open and what is held beside the rows: all of a connection but its rows. -/
def outside (c : Connection σ τ) : (List (Nat × σ) × Bool × Nat) × τ := (c.frame, c.aside)

def isTransaction (c : Connection σ τ) : Bool := c.begun || !c.saves.isEmpty

/-- `SAVEPOINT`, under the next name. -/
def save (c : Connection σ τ) : Connection σ τ := { c with saves := (c.depth, c.rows) :: c.saves, depth := c.depth + 1 }

/-- `RELEASE`: the named savepoint goes, with those inside it. -/
def release (c : Connection σ τ) (name : Nat) : Connection σ τ := { c with saves := (c.saves.dropWhile (·.1 != name)).tail }

/-- `ROLLBACK TO`: the rows are those the named savepoint holds, and it stays open. -/
def rollbackTo (c : Connection σ τ) (name : Nat) : Connection σ τ :=
  match c.saves.dropWhile (·.1 != name) with
  | [] => c
  | held :: outer => { c with rows := held.2, saves := held :: outer }

/-- Where the call returned its savepoint goes and its writes stand; where it threw they are undone, or, with the transaction
gone, so is what was known of it. -/
def settle (lost : τ → τ) (name : Nat) : Except ε α × Connection σ τ → Except ε α × Connection σ τ
  | (.ok result, left) => (.ok result, { left.release name with depth := left.depth - 1 })
  | (.error failure, left) =>
    (.error failure, { (if left.isTransaction then (left.rollbackTo name).release name else { left with aside := lost left.aside }) with
      depth := left.depth - 1 })

/-- A call inside a savepoint: its writes stand only if it returns. -/
def savepoint (lost : τ → τ) (body : Work (Connection σ τ) ε α) : Work (Connection σ τ) ε α :=
  ExceptT.mk fun c => settle lost c.depth (body.runs c.save)

section

variable {lost : τ → τ} {body : Work (Connection σ τ) ε α}

theorem savepoint_runs : (savepoint lost body).runs c = settle lost c.depth (body.runs c.save) := rfl

/-- A call that leaves the savepoints as they are ends inside its own. -/
theorem saves_of_keeps (kept : body.Keeps frame) :
    (body.runs c.save).2.saves = (c.depth, c.rows) :: c.saves ∧ (body.runs c.save).2.begun = c.begun ∧
      (body.runs c.save).2.depth = c.depth + 1 := by
  have same := kept c.save
  simp only [frame, save, Prod.mk.injEq] at same
  exact same

/-- A call that throws in its savepoint is undone: the rows and the savepoints open are as they were. -/
theorem savepoint_undone (kept : body.Keeps frame) {failure : ε} {later : Connection σ τ}
    (run : (savepoint lost body).runs c = (.error failure, later)) :
    later.rows = c.rows ∧ later.frame = c.frame ∧ later.aside = (body.runs c.save).2.aside ∧
      (body.runs c.save).1 = .error failure := by
  obtain ⟨saves, begun, depth⟩ := saves_of_keeps (c := c) kept
  rw [savepoint_runs] at run
  generalize body.runs c.save = ended at *
  obtain ⟨result, left⟩ := ended
  cases result with
  | ok value => cases run
  | error thrown =>
    have inside : left.isTransaction = true := by
      simp only at saves
      simp [isTransaction, saves]
    simp only at saves begun depth
    simp only [settle, inside, if_true, Prod.mk.injEq, Except.error.injEq] at run
    obtain ⟨rfl, rfl⟩ := run
    simp [rollbackTo, release, frame, saves, begun, depth]

theorem keeps_frame (kept : body.Keeps outside) : body.Keeps frame := fun c => congrArg Prod.fst (kept c)

/-- A call that leaves what is beside the rows as it is, and throws in its savepoint, leaves the whole connection. -/
theorem savepoint_restores (kept : body.Keeps outside) {failure : ε} {later : Connection σ τ}
    (run : (savepoint lost body).runs c = (.error failure, later)) : later = c := by
  have aside : (body.runs c.save).2.aside = c.aside := congrArg Prod.snd (kept c.save)
  obtain ⟨rows, frames, same, -⟩ := savepoint_undone (keeps_frame kept) run
  simp only [frame, Prod.mk.injEq] at frames
  obtain ⟨saves, begun, depth⟩ := frames
  rw [aside] at same
  cases c
  cases later
  simp only at rows saves begun depth same
  rw [rows, saves, begun, depth, same]

theorem savepoint_undoes {P : ε → Prop} (kept : body.Keeps outside) : (savepoint lost body).Undoes P :=
  fun _ _ _ _ run => savepoint_restores kept run

/-- A savepoint leaves open what was open before it. -/
theorem savepoint_keeps (kept : body.Keeps outside) : (savepoint lost body).Keeps outside := by
  intro c
  cases run : (savepoint lost body).runs c with
  | mk result later =>
    cases result with
    | error failure => exact congrArg outside (savepoint_restores kept run)
    | ok value =>
      obtain ⟨saves, begun, depth⟩ := saves_of_keeps (c := c) (keeps_frame kept)
      have aside : (body.runs c.save).2.aside = c.aside := congrArg Prod.snd (kept c.save)
      rw [savepoint_runs] at run
      generalize body.runs c.save = ended at *
      obtain ⟨result, left⟩ := ended
      cases result with
      | error thrown => cases run
      | ok returned =>
        simp only at saves begun depth aside
        simp only [settle, Prod.mk.injEq, Except.ok.injEq] at run
        obtain ⟨rfl, rfl⟩ := run
        simp [release, outside, frame, saves, begun, depth, aside]

end

end Connection

end Moe
