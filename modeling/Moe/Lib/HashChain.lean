import Mathlib.Data.List.Induction

namespace Moe

/-- One link of a chain: the value before it, its entry and its position. -/
structure Link (δ ε : Type) where
  previous : δ
  entry : ε
  position : Nat

namespace HashChain

variable {β δ ε : Type}

section

variable (hash : β → δ) (frame : Link δ ε → β)

/-- The value a chain comes to from `value` at `position` by its entries. -/
def extend (value : δ) (position : Nat) : List ε → δ
  | [] => value
  | entry :: rest => extend (hash (frame ⟨value, entry, position + 1⟩)) (position + 1) rest

/-- The links it hashes on the way. -/
def links (value : δ) (position : Nat) : List ε → List (Link δ ε)
  | [] => []
  | entry :: rest => ⟨value, entry, position + 1⟩ :: links (hash (frame ⟨value, entry, position + 1⟩)) (position + 1) rest

end

variable {hash : β → δ} {frame : Link δ ε → β} {value value' : δ} {p p' : Nat} {entries entries' more : List ε}

theorem extend_append : extend hash frame value p (entries ++ more) =
    extend hash frame (extend hash frame value p entries) (p + entries.length) more := by
  induction entries generalizing value p with
  | nil => rfl
  | cons entry rest ih =>
    rw [List.cons_append, extend, ih, extend, List.length_cons, Nat.add_right_comm, Nat.add_assoc]

theorem links_append : links hash frame value p (entries ++ more) =
    links hash frame value p entries ++ links hash frame (extend hash frame value p entries) (p + entries.length) more := by
  induction entries generalizing value p with
  | nil => rfl
  | cons entry rest ih =>
    rw [List.cons_append, links, ih, links, extend, List.length_cons, Nat.add_right_comm, Nat.add_assoc, List.cons_append]

/-- A chain with a link ends at its last one's digest. -/
theorem extend_last (some_ : entries ≠ []) :
    ∃ x ∈ links hash frame value p entries, extend hash frame value p entries = hash (frame x) := by
  induction entries using List.reverseRecOn with
  | nil => exact absurd rfl some_
  | append_singleton init last =>
    refine ⟨⟨extend hash frame value p init, last, p + init.length + 1⟩, ?_, ?_⟩
    · simp [links_append, links]
    · rw [extend_append]
      rfl

/-- Two chains that come to one value, no two of their links hashing alike, agree wherever both have a link: the later begun is
the rest of the other. -/
theorem extend_binds (some_ : entries ≠ []) (some' : entries' ≠ []) (order : p ≤ p')
    (apart : ∀ x ∈ links hash frame value p entries, ∀ y ∈ links hash frame value' p' entries',
      hash (frame x) = hash (frame y) → x = y)
    (same : extend hash frame value p entries = extend hash frame value' p' entries') :
    ∃ front, entries = front ++ entries' ∧ p' = p + front.length ∧ value' = extend hash frame value p front := by
  induction entries' using List.reverseRecOn generalizing entries with
  | nil => exact absurd rfl some'
  | append_singleton init' last' ih =>
    induction entries using List.reverseRecOn with
    | nil => exact absurd rfl some_
    | append_singleton init last =>
      rw [extend_append, extend_append] at same
      rw [links_append, links_append] at apart
      have top := apart ⟨_, last, p + init.length + 1⟩ (by simp [links]) ⟨_, last', p' + init'.length + 1⟩ (by simp [links]) same
      obtain ⟨before, rfl, places⟩ := Link.mk.inj top
      by_cases first : init' = []
      · subst first
        refine ⟨init, rfl, ?_, before.symm⟩
        simpa using places.symm
      · have more : init ≠ [] := by
          rintro rfl
          have := List.length_pos_iff.mpr first
          simp only [List.length_nil] at places
          omega
        obtain ⟨front, rfl, placed, reached⟩ := ih more first (fun x inX y inY => apart x (List.mem_append_left _ inX) y
          (List.mem_append_left _ inY)) before
        exact ⟨front, by rw [List.append_assoc], placed, reached⟩

end HashChain

end Moe
