import Mathlib.Data.List.Basic
import Mathlib.Tactic.Ring

namespace Moe

variable {σ α β : Type*}

/-- A machine that reads a symbol a step, and may emit at it. -/
abbrev Transducer (σ α β : Type*) := σ → α → σ × Option β

namespace Transducer

variable (m : Transducer σ α β)

/-- The state a machine ends in over a word. -/
def last (s : σ) (word : List α) : σ := word.foldl (fun s a => (m s a).1) s

/-- What a machine emits over a word, in order. -/
def emitted : σ → List α → List β
  | _, [] => []
  | s, a :: rest => (m s a).2.toList ++ emitted (m s a).1 rest

@[simp] theorem last_nil (s : σ) : m.last s [] = s := rfl

@[simp] theorem last_cons (s : σ) (a : α) (rest : List α) : m.last s (a :: rest) = m.last (m s a).1 rest := rfl

@[simp] theorem emitted_nil (s : σ) : m.emitted s [] = [] := rfl

@[simp] theorem emitted_cons (s : σ) (a : α) (rest : List α) :
    m.emitted s (a :: rest) = (m s a).2.toList ++ m.emitted (m s a).1 rest := rfl

theorem last_append (s : σ) (first second : List α) : m.last s (first ++ second) = m.last (m.last s first) second :=
  List.foldl_append

theorem emitted_append (s : σ) (first second : List α) :
    m.emitted s (first ++ second) = m.emitted s first ++ m.emitted (m.last s first) second := by
  induction first generalizing s with
  | nil => rfl
  | cons a rest ih => simp only [List.cons_append, emitted_cons, last_cons, ih, List.append_assoc]

/-- A word read from one state to another, with what is emitted. -/
structure Reads (s : σ) (word : List α) (out : List β) (t : σ) : Prop where
  last : m.last s word = t
  emitted : m.emitted s word = out

variable {m}

theorem Reads.nil {s : σ} : m.Reads s [] [] s := ⟨rfl, rfl⟩

theorem Reads.one {s : σ} {a : α} {t : σ} {out : Option β} (step : m s a = (t, out)) : m.Reads s [a] out.toList t := by
  constructor <;> simp [step]

theorem Reads.append {s t u : σ} {first second : List α} {out out' : List β} (before : m.Reads s first out t)
    (after : m.Reads t second out' u) : m.Reads s (first ++ second) (out ++ out') u := by
  constructor
  · rw [last_append, before.last, after.last]
  · rw [emitted_append, before.last, before.emitted, after.emitted]

theorem Reads.cons {s t u : σ} {a : α} {rest : List α} {out : List β} (step : m s a = (t, none)) (after : m.Reads t rest out u) :
    m.Reads s (a :: rest) out u := by
  simpa using (Reads.one step).append after

theorem last_keeps {keep : σ → Prop} (step : ∀ s a, keep s → keep (m s a).1) {s : σ} (held : keep s) (word : List α) :
    keep (m.last s word) := by
  induction word generalizing s with
  | nil => exact held
  | cons a rest ih => exact ih (step s a held)

/-- A step that keeps an invariant, comes one symbol closer to an emission at most, and emits only what it has come to. -/
structure Spends (keep : σ → Prop) (need : σ → Nat) (gap : Nat) (s : σ) (step : σ × Option β) : Prop where
  keeps : keep step.1
  silent : step.2 = none → need s ≤ need step.1 + 1
  emits : ∀ value, step.2 = some value → need s = 0 ∧ gap ≤ need step.1

/-- Emissions that each spend a potential regained one a step are that far apart: over a word too short for the next there is
no more than it has room for. -/
theorem emitted_spaced {keep : σ → Prop} {need : σ → Nat} {gap : Nat}
    (step : ∀ s a, keep s → Spends keep need gap s (m s a)) {s : σ} (held : keep s) (word : List α) :
    m.emitted s word = [] ∨ need s + ((m.emitted s word).length - 1) * (gap + 1) < word.length := by
  induction word generalizing s with
  | nil => exact .inl rfl
  | cons a rest ih =>
    obtain ⟨kept, silent, spends⟩ := step s a held
    rw [emitted_cons, List.length_cons]
    cases emits : (m s a).2 with
    | none =>
      have closer := silent emits
      simp only [Option.toList_none, List.nil_append]
      rcases ih kept with none_ | room
      · exact .inl none_
      · exact .inr (by omega)
    | some value =>
      have spends := spends value emits
      simp only [Option.toList_some, List.singleton_append, List.length_cons, Nat.add_sub_cancel]
      refine .inr ?_
      rcases ih kept with none_ | room
      · rw [none_, List.length_nil, spends.1]
        omega
      · have more : (m.emitted (m s a).1 rest).length ≤ ((m.emitted (m s a).1 rest).length - 1) + 1 := by omega
        have scaled := Nat.mul_le_mul_right (gap + 1) more
        rw [Nat.add_mul, Nat.one_mul] at scaled
        omega

end Transducer

end Moe
