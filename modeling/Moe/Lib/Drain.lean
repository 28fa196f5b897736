import Mathlib.Data.List.Pairwise

namespace Moe

variable {α κ : Type*}

/-- Entries fetched one query at a time, each after the key of the one before it. -/
def drain (next : Option κ → Option α) (key : α → κ) : Nat → Option κ → List α
  | 0, _ => []
  | queries + 1, after =>
    match next after with
    | none => []
    | some a => a :: drain next key queries (some (key a))

variable {next : Option κ → Option α} {key : α → κ} {entries read rest : List α}

theorem drain_rest {past : κ → α → Bool} (first : ∀ after, next after = (entries.filter fun a => after.all (past · a)).head?)
    (sorted : entries.Pairwise fun a b => past (key a) b = true ∧ past (key b) a = false) (strict : ∀ a ∈ entries, past (key a) a = false)
    (after : Option κ) (left : entries = read ++ rest) (fits : entries.filter (fun a => after.all (past · a)) = rest) (queries : Nat)
    (enough : rest.length ≤ queries) : drain next key queries after = rest := by
  induction queries generalizing read rest after with
  | zero => rw [List.length_eq_zero_iff.mp (Nat.le_zero.mp enough)]; rfl
  | succ queries ih =>
    rw [drain, first, fits]
    cases rest with
    | nil => rfl
    | cons a rest =>
      have follows : entries.filter (fun b => (some (key a)).all (past · b)) = rest := by
        rw [left, List.pairwise_append] at sorted
        obtain ⟨-, later, across⟩ := sorted
        have none_ : read.filter (fun b => (some (key a)).all (past · b)) = [] := by
          refine List.filter_eq_nil_iff.mpr fun b member => ?_
          rw [Option.all_some, (across b member a List.mem_cons_self).2]
          exact Bool.false_ne_true
        have all : rest.filter (fun b => (some (key a)).all (past · b)) = rest := by
          refine List.filter_eq_self.mpr fun b member => ?_
          rw [Option.all_some]
          exact ((List.pairwise_cons.mp later).1 b member).1
        have self : past (key a) a = false := strict a (by rw [left]; exact List.mem_append_right _ List.mem_cons_self)
        rw [left, List.filter_append, none_, List.filter_cons_of_neg (by rw [Option.all_some, self]; exact Bool.false_ne_true), all, List.nil_append]
      simp only [List.head?_cons]
      rw [ih (some (key a)) (by rw [left, List.append_assoc, List.singleton_append] : entries = (read ++ [a]) ++ rest) follows
        (Nat.le_of_succ_le_succ enough)]

/-- Draining a list in strict order, from its first, gives the list. -/
theorem drain_eq {past : κ → α → Bool} (first : ∀ after, next after = (entries.filter fun a => after.all (past · a)).head?)
    (sorted : entries.Pairwise fun a b => past (key a) b = true ∧ past (key b) a = false) (strict : ∀ a ∈ entries, past (key a) a = false)
    {queries : Nat} (enough : entries.length ≤ queries) : drain next key queries none = entries :=
  drain_rest first sorted strict none (List.nil_append _).symm (List.filter_eq_self.mpr fun _ _ => rfl) queries enough

end Moe
