import Mathlib.Data.List.Infix
import Mathlib.Data.List.Nodup

namespace Moe

section

variable {α κ : Type*}

section

variable [DecidableEq α]

/-- The longest list both begin with. -/
def meet : List α → List α → List α
  | a :: p, b :: q => if a = b then a :: meet p q else []
  | _, _ => []

theorem prefix_meet {p q r : List α} : r <+: meet p q ↔ r <+: p ∧ r <+: q := by
  induction p generalizing q r with
  | nil => simp +contextual [meet]
  | cons a p ih =>
    cases q with
    | nil => simp +contextual [meet]
    | cons b q =>
      cases r with
      | nil => simp
      | cons c r =>
        rw [meet]
        split
        · rename_i same
          subst same
          simp only [List.cons_prefix_cons, ih]
          tauto
        · rename_i apart
          simp only [List.cons_prefix_cons, List.prefix_nil, reduceCtorEq, false_iff]
          rintro ⟨⟨rfl, -⟩, rfl, -⟩
          exact apart rfl

theorem meet_prefix_left (p q : List α) : meet p q <+: p := (prefix_meet.mp (List.prefix_refl _)).1

theorem meet_prefix_right (p q : List α) : meet p q <+: q := (prefix_meet.mp (List.prefix_refl _)).2

theorem meet_eq {p q r : List α} (within : r <+: p ∧ r <+: q) (most : ∀ s, s <+: p → s <+: q → s <+: r) : meet p q = r :=
  (most _ (meet_prefix_left p q) (meet_prefix_right p q)).eq_of_length_le (prefix_meet.mpr within).length_le

theorem meet_of_prefix {p q : List α} (within : p <+: q) : meet p q = p := meet_eq ⟨List.prefix_refl p, within⟩ fun _ left _ => left

/-- A branch off another meets it where the one it grew from does. -/
theorem meet_concat {p q : List α} {a : α} (off : ¬ p ++ [a] <+: q) : meet (p ++ [a]) q = meet p q := by
  refine meet_eq ⟨(meet_prefix_left p q).trans (List.prefix_append p [a]), meet_prefix_right p q⟩ fun s left right => ?_
  rcases List.prefix_concat_iff.mp left with rfl | within
  · exact absurd right off
  · exact prefix_meet.mpr ⟨within, right⟩

theorem meet_append {p q r : List α} (off : ∀ x, x ≠ [] → x <+: r → ¬ p ++ x <+: q) : meet (p ++ r) q = meet p q := by
  induction r using List.reverseRecOn with
  | nil => rw [List.append_nil]
  | append_singleton r a ih =>
    have last := off (r ++ [a]) (by simp) (List.prefix_refl _)
    rw [← List.append_assoc] at last ⊢
    rw [meet_concat last, ih fun x some_ within => off x some_ (within.trans (List.prefix_append r [a]))]

end

/-- A tree told by its branches, each from the root to a node: a branch's beginnings are branches, and its last key tells it. -/
structure Branches (branch : List α → Prop) (key : α → κ) : Prop where
  shorter : ∀ p a, branch (p ++ [a]) → branch p
  told : ∀ p q a b, branch (p ++ [a]) → branch (q ++ [b]) → key a = key b → p ++ [a] = q ++ [b]

namespace Branches

variable {branch : List α → Prop} {key : α → κ} {p q : List α} {a b : α} {i j : Nat}

theorem beginning (tree : Branches branch key) (whole : branch p) (within : q <+: p) : branch q := by
  induction p using List.reverseRecOn with
  | nil => rwa [List.prefix_nil.mp within]
  | append_singleton p a ih =>
    rcases List.prefix_concat_iff.mp within with rfl | earlier
    · exact whole
    · exact ih (tree.shorter p a whole) earlier

theorem take (tree : Branches branch key) (whole : branch p) (n : Nat) : branch (p.take n) := tree.beginning whole (List.take_prefix n p)

theorem take_succ (at_ : p[i]? = some a) : p.take (i + 1) = p.take i ++ [a] := by
  rw [List.take_add_one, at_]
  rfl

/-- Nodes of one key on two branches end the same beginning of both. -/
theorem same (tree : Branches branch key) (whole : branch p) (whole' : branch q) (at_ : p[i]? = some a) (at_' : q[j]? = some b)
    (keys : key a = key b) : i = j ∧ p.take (i + 1) = q.take (j + 1) := by
  have first := tree.take whole (i + 1)
  have second := tree.take whole' (j + 1)
  rw [take_succ at_] at first
  rw [take_succ at_'] at second
  have equal := tree.told _ _ _ _ first second keys
  rw [← take_succ at_, ← take_succ at_'] at equal
  refine ⟨?_, equal⟩
  have inside := (List.getElem?_eq_some_iff.mp at_).choose
  have inside' := (List.getElem?_eq_some_iff.mp at_').choose
  have lengths := congrArg List.length equal
  rw [List.length_take, List.length_take] at lengths
  omega

theorem keys_nodup (tree : Branches branch key) (whole : branch p) : (p.map key).Nodup := by
  rw [List.nodup_iff_getElem?_ne_getElem?]
  intro i j less inside same
  rw [List.length_map] at inside
  rw [List.getElem?_map, List.getElem?_map, List.getElem?_eq_getElem (less.trans inside), List.getElem?_eq_getElem inside] at same
  have := (tree.same whole whole (List.getElem?_eq_getElem (less.trans inside)) (List.getElem?_eq_getElem inside)
    (Option.some.inj same)).1
  omega

/-- A branch is within another where the other holds its last key. -/
theorem prefix_iff (tree : Branches branch key) (whole : branch (p ++ [a])) (whole' : branch q) :
    p ++ [a] <+: q ↔ key a ∈ q.map key := by
  constructor
  · intro within
    exact List.mem_map_of_mem (within.subset (List.mem_append_right p (List.mem_singleton.mpr rfl)))
  · intro member
    obtain ⟨b, member, keys⟩ := List.mem_map.mp member
    obtain ⟨j, at_⟩ := List.mem_iff_getElem?.mp member
    have last : (p ++ [a])[p.length]? = some a := List.getElem?_concat_length
    obtain ⟨rfl, equal⟩ := tree.same whole whole' last at_ keys.symm
    have all : (p ++ [a]).take (p.length + 1) = p ++ [a] := List.take_of_length_le (by rw [List.length_append, List.length_singleton])
    rw [all] at equal
    rw [equal]
    exact List.take_prefix _ q

end Branches

end

end Moe
