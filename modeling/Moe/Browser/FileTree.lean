import Mathlib.Data.List.Dedup
import Moe.Browser.FileCrashes
import Moe.Browser.Paths
import Moe.Lib.PathTree

namespace Moe

open JsString

theorem dirname_shorter {path : JsString} (name : normal path ≠ [slash]) : (normal (dirname (normal path))).length < (normal path).length := by
  obtain ⟨parts, clean, same⟩ := normal_eq path
  have some_ : parts ≠ [] := fun none_ => name (by rw [same, none_]; rfl)
  have above : ∀ part ∈ parts.dropLast, PathPart part := fun part member => clean part ((List.dropLast_prefix parts).subset member)
  rw [same, dirname_spelling clean, normal_spelling above]
  obtain ⟨init, last, rfl⟩ := (List.eq_nil_or_concat' parts).resolve_left some_
  have own := (clean last (List.mem_append_right _ (List.mem_singleton.mpr rfl))).nonempty
  have positive := List.length_pos_of_ne_nil own
  rw [List.dropLast_concat, spelling_concat, spelling]
  simp only [List.length_append, List.length_cons]
  split
  · rw [List.length_singleton]
    omega
  · omega

/-- Make the directory `path`, and its parents with `recursive`: the first directory made, if any. -/
def mkdir (path : JsString) (recursive : Bool) : PoolWork (Option JsString) := do
  let s ← get
  if (s.names.get? (normal path)).isSome then throw (.system "EEXIST" "mkdir" (normal path) "file already exists")
  if s.isDirectory (normal path) then
    if recursive then return none
    throw (.system "EEXIST" "mkdir" (normal path) "file already exists")
  let first ← (if recursive then (if _root : normal path = [slash] then pure none else mkdir (dirname (normal path)) true)
    else (do
      parentExists "mkdir" (normal path)
      pure none))
  modify fun s => { s with directories := if s.directories.contains (normal path) then s.directories else s.directories ++ [normal path] }
  return some (first.getD (normal path))
termination_by (normal path).length
decreasing_by exact dirname_shorter _root

/-- The names directly under the directory `name`, of the files and the directories made. -/
def Mounted.entries (s : Mounted) (name : JsString) : List JsString :=
  (((s.names.map (·.1) ++ s.directories).filter fun file => (below name).isPrefixOf file && (below name).length < file.length).map
    fun file => (((file.drop (below name).length).splitOn slash).head?.getD [])).dedup

/-- The names directly in directory `path`, sorted. -/
def list (path : JsString) : PoolWork (List JsString) := do
  let s ← get
  let name := normal path
  if (s.names.get? name).isSome then throw (.system "ENOTDIR" "scandir" name "not a directory")
  if s.isDirectory name = false then throw (.system "ENOENT" "scandir" name "no such file or directory")
  return (s.entries name).mergeSort (· ≤ ·)

/-- The files and the directories made under a directory. -/
def Mounted.filesUnder (s : Mounted) (name : JsString) : List JsString := (s.names.map (·.1)).filter (below name).isPrefixOf

def Mounted.directoriesUnder (s : Mounted) (name : JsString) : List JsString := s.directories.filter (below name).isPrefixOf

/-- Remove directory `path`: with `recursive`, every file and directory under it; otherwise only an empty one. -/
def rmdir [Crypto] (path : JsString) (recursive : Bool) : PoolWork Unit := do
  let s ← get
  let name := normal path
  if s.isDirectory name = false then throw (.system "ENOENT" "rmdir" name "no such file or directory")
  let files := s.filesUnder name
  let directories := s.directoriesUnder name
  if recursive = false ∧ (files ≠ [] ∨ directories ≠ []) then throw (.system "ENOTEMPTY" "rmdir" name "directory not empty")
  files.forM fun file => unlink file "rm"
  modify fun s => { s with directories := s.directories.filter fun directory => !directories.contains directory }
  if name ≠ [slash] then modify fun s => { s with directories := s.directories.filter (· ≠ name) }

/-- A path's parts, each as this system names it. -/
def Clean (parts : List JsString) : Prop := ∀ part ∈ parts, PathPart part

theorem Clean.above {p q : List JsString} (clean : Clean q) (above : p <+: q) : Clean p := fun part member => clean part (above.subset member)

theorem Clean.parent {p : List JsString} (clean : Clean p) : Clean p.dropLast := clean.above (List.dropLast_prefix p)

/-- The root is under no path. -/
theorem below_root_out {p : List JsString} (clean : Clean p) (some_ : p ≠ []) : (below (spelling p)).isPrefixOf [slash] = false := by
  rw [below_spelling clean some_, ← Bool.not_eq_true, List.isPrefixOf_iff_prefix]
  intro short
  have length := short.length_le
  cases p with
  | nil => exact some_ rfl
  | cons part p => simp at length

namespace Mounted

/-- The pool's files and the directories made, by their paths' parts. -/
def tree (s : Mounted) : PathTree JsString where
  file p := Clean p ∧ (s.names.get? (spelling p)).isSome
  recorded p := Clean p ∧ spelling p ∈ s.directories

/-- The pool's names are of files and directories of one tree. -/
structure Placed (s : Mounted) : Prop where
  once : (s.names.map (·.1)).Nodup
  named : ∀ name, (s.names.get? name).isSome → ∃ p, Clean p ∧ name = spelling p
  made : ∀ name ∈ s.directories, ∃ p, Clean p ∧ name = spelling p
  sound : s.tree.Sound

/-- Of two pools with the same names and directories one is a tree where the other is. -/
theorem Placed.congr {s s' : Mounted} (placed : s.Placed) (names : ∀ name, (s'.names.get? name).isSome = (s.names.get? name).isSome)
    (once : (s'.names.map (·.1)).Nodup) (directories : s'.directories = s.directories) : s'.Placed := by
  have tree : s'.tree = s.tree := by
    simp only [Mounted.tree, names, directories]
  refine ⟨once, fun name present => placed.named name (names name ▸ present), fun name member => placed.made name (directories ▸ member), ?_⟩
  rw [tree]
  exact placed.sound

end Mounted

variable {s s' : Mounted} {p q : List JsString} {path name : JsString} {id : Nat}

theorem Mounted.tree_clean (directory : s.tree.Directory p) : Clean p := by
  obtain ⟨clean, -⟩ | ⟨-, f, ⟨clean, -⟩, above, -⟩ := directory
  · exact clean
  · exact clean.above above

namespace Mounted.Placed

/-- What the pool calls a directory is one of its tree. -/
theorem isDirectory_iff (placed : s.Placed) (clean : Clean p) : s.isDirectory (spelling p) = true ↔ s.tree.Directory p := by
  have under : (s.names.map (·.1)).any (fun file => (below (spelling p)).isPrefixOf file) = true ↔ ∃ f, s.tree.file f ∧ p <+: f ∧ p ≠ f := by
    rw [List.any_eq_true]
    constructor
    · rintro ⟨file, member, starts⟩
      have present := OrderedMap.get?_isSome_iff.mpr member
      obtain ⟨f, cleanF, rfl⟩ := placed.named file present
      have some_ : f ≠ [] := fun none_ => placed.sound.not_file_root (none_ ▸ ⟨cleanF, present⟩)
      exact ⟨f, ⟨cleanF, present⟩, (below_isPrefixOf clean cleanF some_).mp starts⟩
    · rintro ⟨f, ⟨cleanF, present⟩, above, apart⟩
      have some_ : f ≠ [] := fun none_ => apart (by rw [none_] at above ⊢; exact List.prefix_nil.mp above)
      exact ⟨spelling f, OrderedMap.get?_isSome_iff.mp present, (below_isPrefixOf clean cleanF some_).mpr ⟨above, apart⟩⟩
  have spelled : s.isDirectory (spelling p) = (s.directories.contains (spelling p) ||
      (s.names.get? (spelling p)).isNone && (s.names.map (·.1)).any fun file => (below (spelling p)).isPrefixOf file) := rfl
  rw [spelled, Bool.or_eq_true, Bool.and_eq_true, under, List.contains_iff_mem, PathTree.Directory]
  have absent : (s.names.get? (spelling p)).isNone = true ↔ ¬ s.tree.file p := by
    have file : s.tree.file p ↔ (s.names.get? (spelling p)).isSome = true := and_iff_right clean
    rw [file, Option.isNone_iff_eq_none, Option.not_isSome_iff_eq_none]
  rw [absent]
  exact or_congr_left ⟨fun member => ⟨clean, member⟩, And.right⟩

theorem directory_iff (placed : s.Placed) (clean : Clean p) : s.isDirectory (spelling p) = false ↔ ¬ s.tree.Directory p := by
  rw [← placed.isDirectory_iff clean, Bool.not_eq_true]

/-- A file made where none and no directory is, in a directory. -/
theorem add (placed : s.Placed) (clean : Clean p) (free : s.isDirectory (spelling p) = false)
    (under : s.isDirectory (dirname (spelling p)) = true) (names : ∀ name, (s'.names.get? name).isSome = true ↔
      name = spelling p ∨ (s.names.get? name).isSome = true) (once : (s'.names.map (·.1)).Nodup)
    (directories : s'.directories = s.directories) : s'.Placed := by
  rw [dirname_spelling clean] at under
  have tree : s'.tree = s.tree.add p := by
    have file : s'.tree.file = (s.tree.add p).file := by
      funext q
      refine propext ?_
      constructor
      · rintro ⟨own, present⟩
        exact ((names _).mp present).imp (spelling_inj own clean) fun old => ⟨own, old⟩
      · rintro (rfl | ⟨own, old⟩)
        · exact ⟨clean, (names _).mpr (.inl rfl)⟩
        · exact ⟨own, (names _).mpr (.inr old)⟩
    have recorded : s'.tree.recorded = (s.tree.add p).recorded := by
      funext q
      simp only [Mounted.tree, PathTree.add, directories]
    calc s'.tree = ⟨s'.tree.file, s'.tree.recorded⟩ := rfl
      _ = s.tree.add p := by rw [file, recorded]
  refine ⟨once, fun name present => ?_, fun name member => placed.made name (directories ▸ member), ?_⟩
  · obtain rfl | old := (names name).mp present
    · exact ⟨p, clean, rfl⟩
    · exact placed.named name old
  · rw [tree]
    exact placed.sound.add ((placed.directory_iff clean).mp free) ((placed.isDirectory_iff clean.parent).mp under)

end Mounted.Placed

/-- Of the files and the directories made that stay, the root is one, and what holds any other of the directories is one or is above a
file. -/
def Upheld (file directory : JsString → Prop) : Prop :=
  directory [slash] ∧ ∀ d, directory d → d ≠ [slash] → directory (dirname d) ∨ ∃ f, file f ∧ (below (dirname d)).isPrefixOf f = true

/-- What holds a directory that stays, by its parts. -/
theorem Upheld.parts {file directory : JsString → Prop} (upheld : Upheld file directory)
    (named : ∀ f, file f → ∃ q, Clean q ∧ q ≠ [] ∧ f = spelling q) (clean : Clean p) (own : directory (spelling p)) (some_ : p ≠ []) :
    directory (spelling p.dropLast) ∨ ∃ q, Clean q ∧ file (spelling q) ∧ p.dropLast <+: q ∧ p.dropLast ≠ q := by
  have held := upheld.2 _ own (spelling_ne_root clean some_)
  rw [dirname_spelling clean] at held
  obtain directory | ⟨f, stays, starts⟩ := held
  · exact .inl directory
  · obtain ⟨q, cleanQ, nonempty, rfl⟩ := named f stays
    obtain ⟨above, apart⟩ := (below_isPrefixOf clean.parent cleanQ nonempty).mp starts
    exact .inr ⟨q, cleanQ, stays, above, apart⟩

namespace Mounted.Placed

theorem named_parts (placed : s.Placed) (present : (s.names.get? name).isSome = true) : ∃ q, Clean q ∧ q ≠ [] ∧ name = spelling q := by
  obtain ⟨q, clean, rfl⟩ := placed.named name present
  exact ⟨q, clean, fun none_ => placed.sound.not_file_root (none_ ▸ ⟨clean, present⟩), rfl⟩

/-- A file removed. -/
theorem remove (placed : s.Placed) (clean : Clean p)
    (upheld : Upheld (fun f => (s.names.get? f).isSome = true ∧ f ≠ spelling p) (· ∈ s.directories))
    (names : ∀ name, (s'.names.get? name).isSome = true ↔ (s.names.get? name).isSome = true ∧ name ≠ spelling p)
    (once : (s'.names.map (·.1)).Nodup) (directories : s'.directories = s.directories) : s'.Placed := by
  have tree : s'.tree = s.tree.remove p := by
    have file : s'.tree.file = (s.tree.remove p).file := by
      funext q
      refine propext ?_
      constructor
      · rintro ⟨own, present⟩
        obtain ⟨old, apart⟩ := (names _).mp present
        exact ⟨⟨own, old⟩, fun same => apart (congrArg spelling same)⟩
      · rintro ⟨⟨own, old⟩, apart⟩
        exact ⟨own, (names _).mpr ⟨old, fun same => apart (spelling_inj own clean same)⟩⟩
    have recorded : s'.tree.recorded = (s.tree.remove p).recorded := by
      funext q
      simp only [Mounted.tree, PathTree.remove, directories]
    calc s'.tree = ⟨s'.tree.file, s'.tree.recorded⟩ := rfl
      _ = s.tree.remove p := by rw [file, recorded]
  refine ⟨once, fun name present => placed.named name ((names name).mp present).1, fun name member => placed.made name (directories ▸ member),
    ?_⟩
  rw [tree]
  refine placed.sound.remove ?_
  rintro d ⟨cleanD, own⟩ some_
  obtain directory | ⟨q, cleanQ, ⟨present, apart⟩, above, apart'⟩ :=
    upheld.parts (fun f stays => placed.named_parts stays.1) cleanD own some_
  · exact .inl ⟨cleanD.parent, directory⟩
  · exact .inr ⟨q, ⟨cleanQ, present⟩, fun same => apart (congrArg spelling same), above, apart'⟩

/-- A directory made where no file is, in a directory. -/
theorem record (placed : s.Placed) (clean : Clean p) (free : (s.names.get? (spelling p)).isSome = false)
    (under : p ≠ [] → s.isDirectory (dirname (spelling p)) = true) (names : s'.names = s.names)
    (directories : ∀ d, d ∈ s'.directories ↔ d = spelling p ∨ d ∈ s.directories) : s'.Placed := by
  have tree : s'.tree = s.tree.record p := by
    have file : s'.tree.file = (s.tree.record p).file := by
      funext q
      simp only [Mounted.tree, PathTree.record, names]
    have recorded : s'.tree.recorded = (s.tree.record p).recorded := by
      funext q
      refine propext ?_
      constructor
      · rintro ⟨own, member⟩
        exact ((directories _).mp member).imp (spelling_inj own clean) fun old => ⟨own, old⟩
      · rintro (rfl | ⟨own, old⟩)
        · exact ⟨clean, (directories _).mpr (.inl rfl)⟩
        · exact ⟨own, (directories _).mpr (.inr old)⟩
    calc s'.tree = ⟨s'.tree.file, s'.tree.recorded⟩ := rfl
      _ = s.tree.record p := by rw [file, recorded]
  refine ⟨names ▸ placed.once, fun name present => placed.named name (names ▸ present), fun name member => ?_, ?_⟩
  · obtain rfl | old := (directories name).mp member
    · exact ⟨p, clean, rfl⟩
    · exact placed.made name old
  · rw [tree]
    refine placed.sound.record (fun file => ?_) fun some_ => ?_
    · rw [file.2] at free
      cases free
    · have parent := under some_
      rw [dirname_spelling clean] at parent
      exact (placed.isDirectory_iff clean.parent).mp parent

/-- A directory removed with all under it. -/
theorem prune (placed : s.Placed) (clean : Clean p) (some_ : p ≠ [])
    (upheld : Upheld (fun f => (s.names.get? f).isSome = true ∧ (below (spelling p)).isPrefixOf f = false)
      fun d => d ∈ s.directories ∧ d ≠ spelling p ∧ (below (spelling p)).isPrefixOf d = false)
    (other : ¬ s.tree.file p) (once : (s'.names.map (·.1)).Nodup)
    (names : ∀ name, (s'.names.get? name).isSome = true ↔ (s.names.get? name).isSome = true ∧ (below (spelling p)).isPrefixOf name = false)
    (directories : ∀ d, d ∈ s'.directories ↔ d ∈ s.directories ∧ d ≠ spelling p ∧ (below (spelling p)).isPrefixOf d = false) : s'.Placed := by
  have under : ∀ {q}, Clean q → q ≠ [] → ((below (spelling p)).isPrefixOf (spelling q) = false ↔ ¬ (p <+: q ∧ p ≠ q)) := by
    intro q own nonempty
    rw [← below_isPrefixOf clean own nonempty, Bool.not_eq_true]
  have root : ¬ p <+: [] := fun above => some_ (List.prefix_nil.mp above)
  have tree : s'.tree = s.tree.prune p := by
    have file : s'.tree.file = (s.tree.prune p).file := by
      funext q
      refine propext ?_
      constructor
      · rintro ⟨own, present⟩
        obtain ⟨old, out⟩ := (names _).mp present
        have nonempty : q ≠ [] := fun none_ => placed.sound.not_file_root (none_ ▸ ⟨own, old⟩)
        refine ⟨⟨own, old⟩, fun above => (under own nonempty).mp out ⟨above, ?_⟩⟩
        rintro rfl
        exact other ⟨own, old⟩
      · rintro ⟨⟨own, old⟩, out⟩
        have nonempty : q ≠ [] := fun none_ => placed.sound.not_file_root (none_ ▸ ⟨own, old⟩)
        exact ⟨own, (names _).mpr ⟨old, (under own nonempty).mpr fun both => out both.1⟩⟩
    have recorded : s'.tree.recorded = (s.tree.prune p).recorded := by
      funext q
      refine propext ?_
      constructor
      · rintro ⟨own, member⟩
        obtain ⟨old, apart, out⟩ := (directories _).mp member
        refine ⟨⟨own, old⟩, fun above => ?_⟩
        by_cases none_ : q = []
        · exact root (none_ ▸ above)
        · exact (under own none_).mp out ⟨above, fun same => apart (by rw [same])⟩
      · rintro ⟨⟨own, old⟩, out⟩
        refine ⟨own, (directories _).mpr ⟨old, fun same => out (spelling_inj own clean same ▸ List.prefix_refl _), ?_⟩⟩
        by_cases none_ : q = []
        · subst none_
          exact below_root_out clean some_
        · exact (under own none_).mpr fun both => out both.1
    calc s'.tree = ⟨s'.tree.file, s'.tree.recorded⟩ := rfl
      _ = s.tree.prune p := by rw [file, recorded]
  refine ⟨once, fun name present => placed.named name ((names name).mp present).1,
    fun name member => placed.made name ((directories name).mp member).1, ?_⟩
  rw [tree]
  refine placed.sound.prune some_ ?_
  rintro d ⟨cleanD, own⟩ nonempty out
  obtain directory | ⟨q, cleanQ, ⟨present, apart⟩, above, apart'⟩ := upheld.parts (fun f stays => placed.named_parts stays.1) cleanD
    ⟨own, fun same => out (spelling_inj cleanD clean same ▸ List.prefix_refl _), (under cleanD nonempty).mpr fun both => out both.1⟩ nonempty
  · exact .inl ⟨cleanD.parent, directory.1⟩
  · have nonemptyQ : q ≠ [] := fun none_ => placed.sound.not_file_root (none_ ▸ ⟨cleanQ, present⟩)
    refine .inr ⟨q, ⟨cleanQ, present⟩, fun within => (under cleanQ nonemptyQ).mp apart ⟨within, ?_⟩, above, apart'⟩
    rintro rfl
    exact other ⟨cleanQ, present⟩

end Mounted.Placed

end Moe
