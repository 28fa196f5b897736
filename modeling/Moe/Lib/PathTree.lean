import Mathlib.Data.List.Infix

namespace Moe

variable {α : Type}

/-- A namespace of paths, each its parts in order: the files, and the directories that are recorded. -/
structure PathTree (α : Type) where
  file : List α → Prop
  recorded : List α → Prop

theorem prefix_parent {p q : List α} (above : p <+: q) (apart : p ≠ q) : p <+: q.dropLast := by
  obtain ⟨rest, rfl⟩ := above
  have some_ : rest ≠ [] := fun none_ => apart (by rw [none_, List.append_nil])
  rw [List.dropLast_append_of_ne_nil some_]
  exact List.prefix_append _ _

theorem not_prefix_parent {q : List α} (some_ : q ≠ []) : ¬ q <+: q.dropLast := by
  intro above
  have short := above.length_le
  have positive := List.length_pos_of_ne_nil some_
  rw [List.length_dropLast] at short
  omega

namespace PathTree

variable {t : PathTree α} {p q f g d : List α} {c : α}

/-- A recorded path, or one that is no file and that a file lies below. -/
def Directory (t : PathTree α) (p : List α) : Prop := t.recorded p ∨ ¬ t.file p ∧ ∃ f, t.file f ∧ p <+: f ∧ p ≠ f

/-- The namespace is a tree: its root is recorded, nothing lies at or below a file, and what holds a recorded directory is a directory. -/
structure Sound (t : PathTree α) : Prop where
  root : t.recorded []
  alone : ∀ {f p}, t.file f → t.recorded p → ¬ f <+: p
  flat : ∀ {f g}, t.file f → t.file g → f <+: g → f = g
  held : ∀ {p}, t.recorded p → p ≠ [] → t.Directory p.dropLast

def add (t : PathTree α) (p : List α) : PathTree α := { t with file := fun q => q = p ∨ t.file q }

def remove (t : PathTree α) (p : List α) : PathTree α := { t with file := fun q => t.file q ∧ q ≠ p }

def record (t : PathTree α) (p : List α) : PathTree α := { t with recorded := fun q => q = p ∨ t.recorded q }

/-- Without a path and all that lies below it. -/
def prune (t : PathTree α) (p : List α) : PathTree α where
  file q := t.file q ∧ ¬ p <+: q
  recorded q := t.recorded q ∧ ¬ p <+: q

namespace Sound

theorem root_directory (sound : t.Sound) : t.Directory [] := .inl sound.root

theorem not_file_root (sound : t.Sound) : ¬ t.file [] := fun file => sound.alone file sound.root (List.prefix_refl [])

/-- No directory lies at or below a file. -/
theorem not_below_file (sound : t.Sound) (file : t.file f) (above : f <+: p) : ¬ t.Directory p := by
  rintro (own | ⟨other, g, under, below, apart⟩)
  · exact sound.alone file own above
  · have same := sound.flat file under (above.trans below)
    subst same
    exact apart (below.eq_of_length_le above.length_le)

theorem above_file (sound : t.Sound) (file : t.file f) (above : p <+: f) (apart : p ≠ f) : t.Directory p :=
  .inr ⟨fun own => apart (sound.flat own file above), f, file, above, apart⟩

theorem file_parent (sound : t.Sound) (file : t.file f) : t.Directory f.dropLast := by
  have some_ : f ≠ [] := fun none_ => sound.not_file_root (none_ ▸ file)
  exact sound.above_file file (List.dropLast_prefix f) fun same => not_prefix_parent some_ (by rw [same])

theorem parent (sound : t.Sound) (directory : t.Directory q) (some_ : q ≠ []) : t.Directory q.dropLast := by
  obtain own | ⟨-, f, file, below, -⟩ := directory
  · exact sound.held own some_
  · refine sound.above_file file ((List.dropLast_prefix q).trans below) fun same => ?_
    exact not_prefix_parent some_ (by rw [same]; exact below)

/-- What lies above a directory is a directory. -/
theorem above (sound : t.Sound) (directory : t.Directory q) (up : p <+: q) : t.Directory p := by
  induction q using List.reverseRecOn with
  | nil =>
    rw [List.prefix_nil] at up
    exact up ▸ directory
  | append_singleton q c ih =>
    by_cases same : p = q ++ [c]
    · exact same ▸ directory
    · have further := sound.parent directory (List.append_ne_nil_of_right_ne_nil _ (List.cons_ne_nil c []))
      have shorter := prefix_parent up same
      rw [List.dropLast_concat] at further shorter
      exact ih further shorter

/-- A file made in a directory, where no directory is. -/
theorem add (sound : t.Sound) (free : ¬ t.Directory p) (under : t.Directory p.dropLast) : (t.add p).Sound where
  root := sound.root
  alone := by
    rintro f q (rfl | file) own above
    · exact free (sound.above (.inl own) above)
    · exact sound.alone file own above
  flat := by
    rintro f g (rfl | file) (rfl | file') above
    · rfl
    · by_contra apart
      exact free (sound.above_file file' above apart)
    · by_contra apart
      exact sound.not_below_file file (prefix_parent above apart) under
    · exact sound.flat file file' above
  held := by
    intro q own some_
    obtain recorded | ⟨other, g, file, below, apart⟩ := sound.held own some_
    · exact .inl recorded
    · refine .inr ⟨?_, g, .inr file, below, apart⟩
      rintro (same | file')
      · exact free (same ▸ sound.parent (.inl own) some_)
      · exact other file'

/-- A file removed, where every recorded directory's parent is recorded or holds another. -/
theorem remove (sound : t.Sound) (keeps : ∀ d, t.recorded d → d ≠ [] → t.recorded d.dropLast ∨
    ∃ g, t.file g ∧ g ≠ p ∧ d.dropLast <+: g ∧ d.dropLast ≠ g) : (t.remove p).Sound where
  root := sound.root
  alone file own := sound.alone file.1 own
  flat file file' := sound.flat file.1 file'.1
  held := by
    intro d own some_
    obtain recorded | ⟨g, file, other, below, apart⟩ := keeps d own some_
    · exact .inl recorded
    · exact .inr ⟨fun file' => apart (sound.flat file'.1 file below), g, ⟨file, other⟩, below, apart⟩

/-- A directory recorded in a directory, where no file is. -/
theorem record (sound : t.Sound) (free : ¬ t.file p) (under : p ≠ [] → t.Directory p.dropLast) : (t.record p).Sound where
  root := .inr sound.root
  alone := by
    rintro f q file (rfl | own) above
    · have apart : f ≠ q := fun same => free (same ▸ file)
      have some_ : q ≠ [] := fun none_ => sound.not_file_root (List.prefix_nil.mp (none_ ▸ above) ▸ file)
      exact sound.not_below_file file (prefix_parent above apart) (under some_)
    · exact sound.alone file own above
  flat file file' := sound.flat file file'
  held := by
    rintro q (rfl | own) some_
    · exact (under some_).imp .inr fun implied => implied
    · exact (sound.held own some_).imp .inr fun implied => implied

/-- A directory and all below it removed, where every other recorded directory's parent is recorded or holds a file that stays. -/
theorem prune (sound : t.Sound) (some_ : p ≠ []) (keeps : ∀ d, t.recorded d → d ≠ [] → ¬ p <+: d → t.recorded d.dropLast ∨
    ∃ g, t.file g ∧ ¬ p <+: g ∧ d.dropLast <+: g ∧ d.dropLast ≠ g) : (t.prune p).Sound where
  root := ⟨sound.root, fun above => some_ (List.prefix_nil.mp above)⟩
  alone file own := sound.alone file.1 own.1
  flat file file' := sound.flat file.1 file'.1
  held := by
    rintro d ⟨own, out⟩ nonempty
    obtain recorded | ⟨g, file, stays, below, apart⟩ := keeps d own nonempty out
    · exact .inl ⟨recorded, fun above => out (above.trans (List.dropLast_prefix d))⟩
    · exact .inr ⟨fun file' => apart (sound.flat file'.1 file below), g, ⟨file, stays⟩, below, apart⟩

/-- Of the files and recorded directories, those that go through a name under a directory say that there is a file or a directory of it. -/
theorem entry_iff (sound : t.Sound) : (∃ q, (t.file q ∨ t.recorded q) ∧ p ++ [c] <+: q) ↔ t.file (p ++ [c]) ∨ t.Directory (p ++ [c]) := by
  constructor
  · rintro ⟨q, file | own, above⟩
    · by_cases same : p ++ [c] = q
      · exact .inl (same ▸ file)
      · exact .inr (sound.above_file file above same)
    · exact .inr (sound.above (.inl own) above)
  · rintro (file | own | ⟨-, f, file, above, -⟩)
    · exact ⟨_, .inl file, List.prefix_refl _⟩
    · exact ⟨_, .inr own, List.prefix_refl _⟩
    · exact ⟨f, .inl file, above⟩

end Sound

end PathTree

end Moe
