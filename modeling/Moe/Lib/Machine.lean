import Mathlib.Logic.Relation

namespace Moe

/-- A transition system: where it may start, and which states an action may lead to. -/
structure Machine (σ : Type*) (α : Type*) where
  start : σ → Prop
  step : σ → α → σ → Prop

variable {σ α τ : Type*}

/-- A finite run from one state to another, with its actions in order. -/
inductive Machine.Run (m : Machine σ α) : σ → List α → σ → Prop
  | nil {s} : Run m s [] s
  | snoc {s t u actions action} : Run m s actions t → m.step t action u →
      Run m s (actions ++ [action]) u

/-- The states some run from a start state ends in. -/
inductive Machine.Reach (m : Machine σ α) : σ → Prop
  | start {s} : m.start s → Reach m s
  | next {s action t} : Reach m s → m.step s action t → Reach m t

theorem Machine.Run.single {m : Machine σ α} {s t : σ} {action : α} (step : m.step s action t) :
    m.Run s [action] t := by
  simpa using Machine.Run.snoc .nil step

theorem Machine.Run.trans {m : Machine σ α} {s t u : σ} {first second : List α}
    (run : m.Run s first t) (after : m.Run t second u) : m.Run s (first ++ second) u := by
  induction after with
  | nil => simpa using run
  | snoc _ step ih =>
    rw [← List.append_assoc]
    exact .snoc ih step

theorem Machine.Run.cons {m : Machine σ α} {s t u : σ} {action : α} {rest : List α}
    (step : m.step s action t) (run : m.Run t rest u) : m.Run s (action :: rest) u :=
  (Machine.Run.single step).trans run

theorem Machine.Reach.run {m : Machine σ α} {s t : σ} {actions : List α}
    (reach : m.Reach s) (run : m.Run s actions t) : m.Reach t := by
  induction run with
  | nil => exact reach
  | snoc _ step ih => exact .next ih step

/-- A predicate every step keeps holds at the end of every run it holds at the start of. -/
theorem Machine.Run.keeps {m : Machine σ α} {keep : σ → Prop}
    (step : ∀ s action t, keep s → m.step s action t → keep t)
    {s t : σ} {actions : List α} (run : m.Run s actions t) (held : keep s) : keep t := by
  induction run with
  | nil => exact held
  | snoc _ last ih => exact step _ _ _ ih last

/-- An invariant: it holds where the machine starts, and every step keeps it. -/
structure Machine.Invariant (m : Machine σ α) (keep : σ → Prop) : Prop where
  start : ∀ s, m.start s → keep s
  step : ∀ s action t, keep s → m.step s action t → keep t

theorem Machine.Invariant.reach {m : Machine σ α} {keep : σ → Prop} (invariant : m.Invariant keep)
    {s : σ} (reach : m.Reach s) : keep s := by
  induction reach with
  | start first => exact invariant.start _ first
  | next _ step ih => exact invariant.step _ _ _ ih step

/-- A step of `low` from a state related to a state of `high` is matched by a run of `high`
that restores the relation. -/
structure Machine.Simulation (low : Machine σ α) (high : Machine τ α) (rel : σ → τ → Prop) : Prop where
  start : ∀ s, low.start s → ∃ t, high.start t ∧ rel s t
  step : ∀ s action s' t, rel s t → low.step s action s' → ∃ t' actions, high.Run t actions t' ∧ rel s' t'

theorem Machine.Simulation.reach {low : Machine σ α} {high : Machine τ α} {rel : σ → τ → Prop}
    (simulation : low.Simulation high rel) {s : σ} (reach : low.Reach s) :
    ∃ t, high.Reach t ∧ rel s t := by
  induction reach with
  | start first =>
    obtain ⟨t, start, related⟩ := simulation.start _ first
    exact ⟨t, .start start, related⟩
  | next _ step ih =>
    obtain ⟨t, reached, related⟩ := ih
    obtain ⟨t', actions, run, related'⟩ := simulation.step _ _ _ _ related step
    exact ⟨t', reached.run run, related'⟩

end Moe
