import Mathlib.Data.List.Forall2

namespace Moe

/-- The checks a replay refusal is named by. -/
inductive Check
  | malformed | kind | capacity | adoption | context | scope | backing | demand | repeatedStatement
  | continuity | revoked | proof | signature | supply | anchor | input | tags | locked | deadline
  | quantity | spent | output | taken | recoveryConflict | arithmetic | configuration | snapshot
  deriving DecidableEq, Repr

def Check.name : Check → String
  | malformed => "MALFORMED" | kind => "KIND" | capacity => "CAPACITY" | adoption => "ADOPTION"
  | context => "CONTEXT" | scope => "SCOPE" | backing => "BACKING" | demand => "DEMAND"
  | repeatedStatement => "REPEATED_STATEMENT" | continuity => "CONTINUITY" | revoked => "REVOKED"
  | proof => "PROOF" | signature => "SIGNATURE" | supply => "SUPPLY" | anchor => "ANCHOR"
  | input => "INPUT" | tags => "TAGS" | locked => "LOCKED" | deadline => "DEADLINE"
  | quantity => "QUANTITY" | spent => "SPENT" | output => "OUTPUT" | taken => "TAKEN"
  | recoveryConflict => "RECOVERY_CONFLICT" | arithmetic => "ARITHMETIC"
  | configuration => "CONFIGURATION" | snapshot => "SNAPSHOT"

/-- Why a call threw. A replay or evidence refusal names its check or status; the others are the
caller's, the codec's or the database's own. -/
inductive Failure
  | replay (check : Check)
  | evidence (status : String)
  | encoding (what : String)
  | typeError (what : String)
  | rangeError (what : String)
  | error (what : String)
  | keptState (what : String)
  | constraint (table : String)
  deriving DecidableEq, Repr

/-- `throw` unless the condition holds. -/
def require (condition : Bool) (failure : Failure) : Except Failure Unit :=
  if condition then .ok () else .error failure

def requireReplay (condition : Bool) (check : Check) : Except Failure Unit :=
  require condition (.replay check)

@[simp] theorem require_eq_ok {condition : Bool} {failure : Failure} {done : Unit} :
    require condition failure = .ok done ↔ condition = true := by
  cases condition <;> simp [require]

@[simp] theorem requireReplay_eq_ok {condition : Bool} {check : Check} {done : Unit} :
    requireReplay condition check = .ok done ↔ condition = true := require_eq_ok

@[simp] theorem require_eq_error {condition : Bool} {failure other : Failure} :
    require condition failure = .error other ↔ condition = false ∧ failure = other := by
  cases condition <;> simp [require]

@[simp] theorem requireReplay_eq_error {condition : Bool} {check : Check} {other : Failure} :
    requireReplay condition check = .error other ↔ condition = false ∧ .replay check = other :=
  require_eq_error

/-- A computation that returned did so step by step. -/
theorem bind_eq_ok {α β : Type} {first : Except Failure α} {rest : α → Except Failure β} {result : β} :
    (first >>= rest) = .ok result ↔ ∃ value, first = .ok value ∧ rest value = .ok result := by
  cases first with
  | error failure => exact ⟨fun thrown => by simp [bind, Except.bind] at thrown, fun ⟨_, run, _⟩ => by simp at run⟩
  | ok value => exact ⟨fun run => ⟨value, rfl, run⟩, fun ⟨_, same, run⟩ => by cases same; exact run⟩

theorem bind_unit_eq_ok {β : Type} {first : Except Failure Unit} {rest : Except Failure β} {result : β} :
    (first >>= fun _ => rest) = .ok result ↔ first = .ok () ∧ rest = .ok result := by
  rw [bind_eq_ok]
  exact ⟨fun ⟨_, run, after⟩ => ⟨run, after⟩, fun ⟨run, after⟩ => ⟨(), run, after⟩⟩

/-- A run whose outcome meets a check has one. -/
theorem ok_of_any {α : Type} {run : Except Failure α} {check : α → Bool} (holds : run.toOption.any check = true) :
    ∃ result, run = .ok result ∧ check result = true := by
  cases run with
  | error failure => cases holds
  | ok result => exact ⟨result, rfl, holds⟩

@[simp] theorem pure_eq_ok {α : Type} {value result : α} :
    (pure value : Except Failure α) = .ok result ↔ value = result := by
  simp [pure, Except.pure]

theorem forM_eq_ok {α : Type} {check : α → Except Failure Unit} {entries : List α} {done : Unit} :
    entries.forM check = .ok done ↔ ∀ entry ∈ entries, check entry = .ok () := by
  induction entries with
  | nil => simp [pure, Except.pure]
  | cons entry rest ih =>
    rw [List.forall_mem_cons, ← ih]
    exact bind_unit_eq_ok

/-- A computation that throws refusals only. -/
def OnlyRefuses {α : Type} (run : Except Failure α) : Prop := ∀ failure, run = .error failure → ∃ check, failure = .replay check

theorem OnlyRefuses.ok {α : Type} {value : α} : OnlyRefuses (.ok value) := fun _ thrown => by cases thrown

theorem OnlyRefuses.requireReplay {condition : Bool} {check : Check} : OnlyRefuses (requireReplay condition check) :=
  fun _ thrown => ⟨check, (requireReplay_eq_error.mp thrown).2.symm⟩

theorem OnlyRefuses.bind {α β : Type} {first : Except Failure α} {rest : α → Except Failure β} (refuses : OnlyRefuses first)
    (after : ∀ value, first = .ok value → OnlyRefuses (rest value)) : OnlyRefuses (first >>= rest) := by
  cases first with
  | error failure =>
    intro other thrown
    obtain rfl : failure = other := Except.error.inj thrown
    exact refuses failure rfl
  | ok value => exact after value rfl

theorem OnlyRefuses.foldlM {α β : Type} {keep : β → Prop} {step : β → α → Except Failure β} {entries : List α}
    (each : ∀ b a, a ∈ entries → keep b → OnlyRefuses (step b a) ∧ ∀ b', step b a = .ok b' → keep b') {start : β} (held : keep start) :
    OnlyRefuses (entries.foldlM step start) := by
  induction entries generalizing start with
  | nil => exact .ok
  | cons entry rest ih =>
    rw [List.foldlM_cons]
    obtain ⟨refuses, kept⟩ := each start entry List.mem_cons_self held
    exact refuses.bind fun value ran => ih (fun b a member => each b a (List.mem_cons_of_mem _ member)) (kept value ran)

/-- What each step keeps, a fold keeps. -/
theorem foldlM_keeps {α β : Type} {keep : β → Prop} {step : β → α → Except Failure β} {entries : List α}
    (each : ∀ b a b', a ∈ entries → keep b → step b a = .ok b' → keep b') {start result : β}
    (run : entries.foldlM step start = .ok result) (held : keep start) : keep result := by
  induction entries generalizing start with
  | nil =>
    obtain rfl := pure_eq_ok.mp run
    exact held
  | cons entry rest ih =>
    obtain ⟨middle, first, run⟩ := bind_eq_ok.mp run
    exact ih (fun b a b' member => each b a b' (List.mem_cons_of_mem _ member)) run
      (each _ _ _ List.mem_cons_self held first)

/-- A value the caller asserts present; reading it absent is a type error. -/
def known {α : Type} (value : Option α) : Except Failure α :=
  match value with
  | some present => .ok present
  | none => .error (.typeError "undefined")

@[simp] theorem known_eq_ok {α : Type} {value : Option α} {present : α} :
    known value = .ok present ↔ value = some present := by
  cases value <;> simp [known]

theorem mapM_eq_ok {α β : Type} {run : α → Except Failure β} {entries : List α} {results : List β} :
    entries.mapM run = .ok results ↔ List.Forall₂ (fun entry result => run entry = .ok result) entries results := by
  induction entries generalizing results with
  | nil => simp [pure, Except.pure, eq_comm]
  | cons entry rest ih =>
    simp only [List.mapM_cons, bind_eq_ok, pure_eq_ok, ih]
    constructor
    · rintro ⟨first, ran, others, runs, rfl⟩
      exact .cons ran runs
    · rintro (_ | ⟨ran, runs⟩)
      exact ⟨_, ran, _, runs, rfl⟩

theorem mapM_total {α β : Type} {run : α → Except Failure β} (total : ∀ entry, ∃ result, run entry = .ok result)
    (entries : List α) : ∃ results, entries.mapM run = .ok results := by
  induction entries with
  | nil => exact ⟨[], rfl⟩
  | cons entry rest ih =>
    obtain ⟨first, ran⟩ := total entry
    obtain ⟨others, runs⟩ := ih
    exact ⟨first :: others, mapM_eq_ok.mpr (.cons ran (mapM_eq_ok.mp runs))⟩

/-- Results that each keep a field of their entry keep it in order. -/
theorem map_eq_of_forall₂ {α β γ : Type} {rel : α → β → Prop} {f : α → γ} {g : β → γ} {entries : List α}
    {results : List β} (pairs : List.Forall₂ rel entries results) (same : ∀ a b, rel a b → g b = f a) :
    results.map g = entries.map f := by
  induction pairs with
  | nil => rfl
  | cons first _ ih => simp [same _ _ first, ih]

theorem forall_of_forall₂ {α β : Type} {rel : α → β → Prop} {holds : β → Prop} {entries : List α} {results : List β}
    (pairs : List.Forall₂ rel entries results) (each : ∀ a b, rel a b → holds b) : ∀ result ∈ results, holds result := by
  induction pairs with
  | nil => simp
  | cons first _ ih => exact List.forall_mem_cons.mpr ⟨each _ _ first, ih⟩

end Moe
