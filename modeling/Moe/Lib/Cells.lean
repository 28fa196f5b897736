import Mathlib.Data.List.GetD

namespace Moe

variable {α : Type*} {source target buffer : List α} {width at_ i k n : Nat}

/-- `source` copied into a buffer from a place on, as much of it as the buffer has room for. -/
def copyTo (source target : List α) (at_ : Nat) : List α :=
  target.take at_ ++ source.take (target.length - at_) ++ target.drop (at_ + source.length)

/-- The part of a buffer at place `i`, of cells `width` wide. -/
def cell (width : Nat) (buffer : List α) (i : Nat) : List α := (buffer.drop (width * i)).take width

@[simp] theorem copyTo_length : (copyTo source target at_).length = target.length := by
  simp only [copyTo, List.length_append, List.length_take, List.length_drop]
  omega

theorem getElem?_copyTo (fits : at_ + source.length ≤ target.length) (j : Nat) : (copyTo source target at_)[j]? =
    if at_ ≤ j ∧ j < at_ + source.length then source[j - at_]? else target[j]? := by
  have whole : source.take (target.length - at_) = source := List.take_of_length_le (by omega)
  rw [copyTo, whole]
  obtain before | past := Nat.lt_or_ge j at_
  · rw [if_neg (by omega), List.append_assoc, List.getElem?_append_left (by rw [List.length_take]; omega), List.getElem?_take_of_lt before]
  · obtain within | after := Nat.lt_or_ge j (at_ + source.length)
    · rw [if_pos ⟨past, within⟩, List.getElem?_append_left (by rw [List.length_append, List.length_take]; omega),
        List.getElem?_append_right (by rw [List.length_take]; omega), List.length_take, Nat.min_eq_left (by omega)]
    · rw [if_neg (by omega), List.getElem?_append_right (by rw [List.length_append, List.length_take]; omega), List.length_append,
        List.length_take, Nat.min_eq_left (by omega), List.getElem?_drop, Nat.add_sub_cancel' after]

theorem getElem?_cell (j : Nat) : (cell width buffer i)[j]? = if j < width then buffer[width * i + j]? else none := by
  rw [cell]
  split
  · rename_i inside
    rw [List.getElem?_take_of_lt inside, List.getElem?_drop]
  · rename_i past
    rw [List.getElem?_eq_none]
    rw [List.length_take]
    omega

theorem cell_length (whole : width * (i + 1) ≤ buffer.length) : (cell width buffer i).length = width := by
  rw [Nat.mul_succ] at whole
  rw [cell, List.length_take, List.length_drop]
  omega

/-- A cell copied into a buffer is that place's, and no other's. -/
theorem cell_copyTo (whole : width * (k + 1) ≤ target.length) (length : source.length = width) (i : Nat) :
    cell width (copyTo source target (width * k)) i = if i = k then source else cell width target i := by
  rw [Nat.mul_succ] at whole
  refine List.ext_getElem? fun j => ?_
  rw [getElem?_cell]
  by_cases inside : j < width
  · rw [if_pos inside, getElem?_copyTo (by omega), length]
    by_cases same : i = k
    · subst same
      rw [if_pos (by omega), if_pos rfl, Nat.add_sub_cancel_left]
    · have apart : ¬ (width * k ≤ width * i + j ∧ width * i + j < width * k + width) := by
        obtain below | above := Nat.lt_or_gt_of_ne same
        · have step := Nat.mul_le_mul_left width (Nat.succ_le_of_lt below)
          rw [Nat.mul_succ] at step
          omega
        · have step := Nat.mul_le_mul_left width (Nat.succ_le_of_lt above)
          rw [Nat.mul_succ] at step
          omega
      rw [if_neg apart, if_neg same, getElem?_cell, if_pos inside]
  · rw [if_neg inside]
    split
    · rw [List.getElem?_eq_none (by omega)]
    · rw [getElem?_cell, if_neg inside]

/-- Cells one after another. -/
theorem slice_cells {items : List (List α)} (each : ∀ j, j < items.length → items[j]? = some (cell width buffer (k + j)))
    (whole : width * (k + items.length) ≤ buffer.length) : (buffer.drop (width * k)).take (width * items.length) = items.flatten := by
  induction items generalizing k with
  | nil => simp
  | cons first rest ih =>
    have own := each 0 (Nat.succ_pos _)
    rw [List.getElem?_cons_zero, Option.some.injEq, Nat.add_zero] at own
    have others := ih (k := k + 1) (fun j inside => by
      have next := each (j + 1) (Nat.succ_lt_succ inside)
      rwa [List.getElem?_cons_succ, ← Nat.add_assoc, Nat.add_right_comm] at next) (by
      rw [List.length_cons] at whole
      rwa [Nat.add_assoc, Nat.add_comm 1])
    rw [List.flatten_cons, ← others, own, cell, List.length_cons, Nat.mul_succ, Nat.add_comm (width * rest.length), Nat.mul_succ,
      ← List.drop_drop, List.take_add]

theorem flatten_width {items : List (List α)} (each : ∀ item ∈ items, item.length = width) : items.flatten.length = width * items.length := by
  induction items with
  | nil => rfl
  | cons first rest ih =>
    obtain ⟨own, others⟩ := List.forall_mem_cons.mp each
    rw [List.flatten_cons, List.length_append, own, ih others, List.length_cons, Nat.mul_succ, Nat.add_comm]

theorem cell_flatten {items : List (List α)} (each : ∀ item ∈ items, item.length = width) (inside : i < items.length) :
    items[i]? = some (cell width items.flatten i) := by
  induction items generalizing i with
  | nil => exact absurd inside (Nat.not_lt_zero i)
  | cons first rest ih =>
    obtain ⟨own, others⟩ := List.forall_mem_cons.mp each
    cases i with
    | zero => rw [List.getElem?_cons_zero, cell, Nat.mul_zero, List.drop_zero, List.flatten_cons, List.take_left' own]
    | succ i =>
      rw [List.getElem?_cons_succ, ih others (Nat.lt_of_succ_lt_succ inside), cell, cell, List.flatten_cons, Nat.mul_succ, Nat.add_comm,
        ← List.drop_drop, List.drop_left' own]

/-- A buffer is its cells. -/
theorem eq_flatten {items : List (List α)} (each : ∀ j, j < items.length → items[j]? = some (cell width buffer j))
    (whole : buffer.length = width * items.length) : buffer = items.flatten := by
  have slice := slice_cells (k := 0) (fun j inside => by rw [Nat.zero_add]; exact each j inside) (by rw [Nat.zero_add]; exact Nat.le_of_eq whole.symm)
  rwa [Nat.mul_zero, List.drop_zero, List.take_of_length_le (Nat.le_of_eq whole)] at slice

/-- Cells copied in turn: a place holds the last one copied there, or else what it held. -/
theorem cell_copies (entries : List (Nat × List α)) (each : ∀ entry ∈ entries, width * (entry.1 + 1) ≤ buffer.length ∧ entry.2.length = width)
    (i : Nat) : cell width (entries.foldl (fun buffer entry => copyTo entry.2 buffer (width * entry.1)) buffer) i =
      (entries.reverse.lookup i).getD (cell width buffer i) := by
  induction entries generalizing buffer with
  | nil => rfl
  | cons first rest ih =>
    obtain ⟨⟨whole, length⟩, others⟩ := List.forall_mem_cons.mp each
    rw [List.foldl_cons, ih (by simpa only [copyTo_length] using others), cell_copyTo whole length, List.reverse_cons, List.lookup_append]
    cases rest.reverse.lookup i with
    | some own => rfl
    | none =>
      obtain ⟨place, item⟩ := first
      by_cases same : i = place
      · subst same
        simp
      · have apart : (i == place) = false := by simpa using same
        simp [List.lookup_cons, same, apart]

@[simp] theorem copies_length {β : Type*} (entries : List β) (item : β → List α) (place : β → Nat) :
    (entries.foldl (fun buffer entry => copyTo (item entry) buffer (place entry)) buffer).length = buffer.length := by
  induction entries generalizing buffer with
  | nil => rfl
  | cons first rest ih => rw [List.foldl_cons, ih, copyTo_length]

end Moe
