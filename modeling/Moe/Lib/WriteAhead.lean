import Mathlib.Data.List.GetD
import Mathlib.Data.List.Induction

namespace Moe

variable {α β : Type}

/-- One page a log holds: its number, the page count after the commit it ends (zero where it ends none) and its image. -/
structure WriteFrame (α : Type) where
  page : Nat
  after : Nat
  image : α
deriving DecidableEq, Repr

/-- What a log commits: each page's last committed image, the latest first, and the page count after the last commit. -/
structure Commit (α : Type) where
  pages : List (Nat × α)
  count : Nat
deriving DecidableEq, Repr

namespace WriteFrame

def map (f : α → β) (frame : WriteFrame α) : WriteFrame β := ⟨frame.page, frame.after, f frame.image⟩

end WriteFrame

namespace Commit

/-- The image a page has after the commit, where the log holds one. -/
def image? (log : Commit α) (page : Nat) : Option α := log.pages.lookup page

def map (f : α → β) (log : Commit α) : Commit β := ⟨log.pages.map fun entry => (entry.1, f entry.2), log.count⟩

theorem image?_map (f : α → β) (log : Commit α) (page : Nat) : (log.map f).image? page = (log.image? page).map f := by
  obtain ⟨pages, count⟩ := log
  induction pages with
  | nil => rfl
  | cons entry rest ih =>
    obtain ⟨number, image⟩ := entry
    simp only [image?, map, List.map_cons, List.lookup_cons] at ih ⊢
    split
    · rfl
    · exact ih

theorem image?_mem {log : Commit α} {page : Nat} {image : α} (found : log.image? page = some image) : (page, image) ∈ log.pages := by
  obtain ⟨pages, count⟩ := log
  induction pages with
  | nil => cases found
  | cons entry rest ih =>
    obtain ⟨number, own⟩ := entry
    simp only [image?, List.lookup_cons] at found ih
    split at found
    · rename_i same
      obtain rfl := Option.some.inj found
      rw [beq_iff_eq.mp same]
      exact List.mem_cons_self
    · exact List.mem_cons_of_mem _ (ih found)

end Commit

namespace WriteAhead

/-- What a reader of a log holds between two frames: the images of the transaction it is in, and what was committed before. -/
def step (read : List (Nat × α) × Option (Commit α)) (frame : WriteFrame α) : List (Nat × α) × Option (Commit α) :=
  let pending := (frame.page, frame.image) :: read.1
  if frame.after = 0 then (pending, read.2)
  else ([], some ⟨pending ++ (read.2.map (·.pages)).getD [], frame.after⟩)

/-- A log's state is what its last commit leaves; frames after it are of a transaction not committed. -/
def committed (frames : List (WriteFrame α)) : Option (Commit α) := (frames.foldl step ([], none)).2

variable {frames more : List (WriteFrame α)} {log : Commit α}

theorem foldl_pending (open_ : ∀ frame ∈ more, frame.after = 0) (read : List (Nat × α) × Option (Commit α)) :
    (more.foldl step read).2 = read.2 := by
  induction more generalizing read with
  | nil => rfl
  | cons frame rest ih =>
    obtain ⟨first, others⟩ := List.forall_mem_cons.mp open_
    rw [List.foldl_cons, ih others, step, if_pos first]

/-- Frames that end no commit change nothing of what is committed. -/
theorem committed_append_pending (open_ : ∀ frame ∈ more, frame.after = 0) : committed (frames ++ more) = committed frames := by
  rw [committed, List.foldl_append, foldl_pending open_, committed]

theorem committed_pending (open_ : ∀ frame ∈ more, frame.after = 0) : committed more = none := foldl_pending open_ _

theorem committed_take (open_ : ∀ frame ∈ more, frame.after = 0) {n : Nat} (whole : frames.length ≤ n) :
    committed ((frames ++ more).take n) = committed frames := by
  rw [List.take_append, List.take_of_length_le whole]
  exact committed_append_pending fun frame member => open_ frame (List.mem_of_mem_take member)

theorem committed_concat (frames : List (WriteFrame α)) {frame : WriteFrame α} (ends : frame.after ≠ 0) :
    ∃ log, committed (frames ++ [frame]) = some log ∧ log.count = frame.after := by
  rw [committed, List.foldl_append, List.foldl_cons, List.foldl_nil, step, if_neg ends]
  exact ⟨_, rfl, rfl⟩

theorem foldl_map (f : α → β) (read : List (Nat × α) × Option (Commit α)) :
    (frames.map (·.map f)).foldl step (read.1.map (fun entry => (entry.1, f entry.2)), read.2.map (·.map f)) =
      ((frames.foldl step read).1.map (fun entry => (entry.1, f entry.2)), (frames.foldl step read).2.map (·.map f)) := by
  induction frames generalizing read with
  | nil => rfl
  | cons frame rest ih =>
    obtain ⟨pending, done⟩ := read
    rw [List.map_cons, List.foldl_cons, List.foldl_cons, ← ih]
    congr 1
    by_cases ends : frame.after = 0
    · simp [step, WriteFrame.map, ends]
    · cases done with
      | none => simp [step, WriteFrame.map, Commit.map, ends]
      | some done => simp [step, WriteFrame.map, Commit.map, ends]

/-- Committing commutes with whatever is read of an image. -/
theorem committed_map (f : α → β) : committed (frames.map (·.map f)) = (committed frames).map (·.map f) :=
  congrArg Prod.snd (foldl_map f ([], none))

theorem foldl_mem (frames : List (WriteFrame α)) {read : List (Nat × α) × Option (Commit α)} {all : List (WriteFrame α)}
    (held : ∀ entry ∈ read.1 ++ (read.2.map (·.pages)).getD [], ∃ frame ∈ all, frame.page = entry.1 ∧ frame.image = entry.2)
    (more : ∀ frame ∈ frames, frame ∈ all) :
    ∀ entry ∈ (frames.foldl step read).1 ++ ((frames.foldl step read).2.map (·.pages)).getD [],
      ∃ frame ∈ all, frame.page = entry.1 ∧ frame.image = entry.2 := by
  induction frames generalizing read with
  | nil => exact held
  | cons frame rest ih =>
    obtain ⟨first, others⟩ := List.forall_mem_cons.mp more
    rw [List.foldl_cons]
    refine ih ?_ others
    obtain ⟨pending, done⟩ := read
    intro entry member
    have own : entry = (frame.page, frame.image) ∨ entry ∈ pending ++ (done.map (·.pages)).getD [] := by
      by_cases ends : frame.after = 0
      · simpa [step, ends, or_assoc] using member
      · simpa [step, ends, or_assoc] using member
    obtain rfl | earlier := own
    · exact ⟨frame, first, rfl, rfl⟩
    · exact held entry earlier

/-- A committed image is a frame's. -/
theorem committed_image {page : Nat} {image : α} (done : committed frames = some log) (found : log.image? page = some image) :
    ∃ frame ∈ frames, frame.page = page ∧ frame.image = image := by
  have all := @foldl_mem α frames ([], none) frames (by simp) fun _ member => member
  refine all (page, image) (List.mem_append_right _ ?_)
  rw [committed] at done
  rw [done]
  exact Commit.image?_mem found

/-- A commit counts the pages its last frame says. -/
theorem committed_count (done : committed frames = some log) : ∃ frame ∈ frames, frame.after ≠ 0 ∧ log.count = frame.after := by
  induction frames using List.reverseRecOn with
  | nil => cases done
  | append_singleton init frame ih =>
    by_cases ends : frame.after = 0
    · rw [committed_append_pending (by simpa using ends)] at done
      obtain ⟨own, member, counted⟩ := ih done
      exact ⟨own, List.mem_append_left _ member, counted⟩
    · obtain ⟨own, committed_, counted⟩ := committed_concat init ends
      obtain rfl := Option.some.inj (done.symm.trans committed_)
      exact ⟨frame, List.mem_append_right _ List.mem_cons_self, ends, counted⟩

theorem foldl_pages (frames : List (WriteFrame α)) (read : List (Nat × α) × Option (Commit α)) :
    (frames.foldl step read).1 ++ ((frames.foldl step read).2.map (·.pages)).getD [] =
      (frames.map fun frame => (frame.page, frame.image)).reverse ++ (read.1 ++ (read.2.map (·.pages)).getD []) := by
  induction frames generalizing read with
  | nil => rfl
  | cons frame rest ih =>
    rw [List.foldl_cons, ih, List.map_cons, List.reverse_cons, List.append_assoc]
    congr 1
    by_cases ends : frame.after = 0
    · simp [step, ends]
    · simp [step, ends]

/-- A log ending in a commit frame holds every page written in it, the last image first. -/
theorem committed_ends (frames : List (WriteFrame α)) {frame : WriteFrame α} (ends : frame.after ≠ 0) :
    committed (frames ++ [frame]) = some ⟨((frames ++ [frame]).map fun frame => (frame.page, frame.image)).reverse, frame.after⟩ := by
  have pages := foldl_pages frames ([], none)
  rw [Option.map_none, Option.getD_none, List.append_nil, List.append_nil] at pages
  rw [committed, List.foldl_append, List.foldl_cons, List.foldl_nil, step, if_neg ends, List.map_append, List.reverse_append, ← pages]
  rfl

/-- The image found for a page among `n` written in turn is the last one written. -/
theorem lookup_reverse (page : Nat → Nat) (image : Nat → α) {n key : Nat} {own : α} :
    (((List.range n).map fun i => (page i, image i)).reverse).lookup key = some own ↔
      ∃ i < n, page i = key ∧ image i = own ∧ ∀ j < n, i < j → page j ≠ key := by
  induction n with
  | zero => simp
  | succ n ih =>
    rw [List.range_succ, List.map_append, List.reverse_append, List.map_singleton, List.reverse_singleton, List.singleton_append,
      List.lookup_cons]
    by_cases last : page n = key
    · have names : (key == page n) = true := by simpa using last.symm
      simp only [names, Option.some.injEq]
      constructor
      · intro same
        exact ⟨n, Nat.lt_succ_self n, last, same, fun j inside after => by omega⟩
      · rintro ⟨i, inside, named, same, none_⟩
        obtain rfl | before := Nat.eq_or_lt_of_le (Nat.lt_succ_iff.mp inside)
        · exact same
        · exact absurd last (none_ n (Nat.lt_succ_self n) before)
    · have apart : (key == page n) = false := by simpa using Ne.symm last
      simp only [apart, ih]
      constructor
      · rintro ⟨i, inside, named, same, none_⟩
        refine ⟨i, Nat.lt_succ_of_lt inside, named, same, fun j within after => ?_⟩
        obtain rfl | before := Nat.eq_or_lt_of_le (Nat.lt_succ_iff.mp within)
        · exact last
        · exact none_ j before after
      · rintro ⟨i, inside, named, same, none_⟩
        have before : i < n := by
          refine Nat.lt_of_le_of_ne (Nat.lt_succ_iff.mp inside) fun equal => last ?_
          rwa [equal] at named
        exact ⟨i, before, named, same, fun j within after => none_ j (Nat.lt_succ_of_lt within) after⟩

/-- A page a log holds once, it holds while the log grows. -/
theorem committed_keeps {later : Commit α} {page : Nat} (done : committed frames = some log) (grown : committed (frames ++ more) = some later)
    (held : (log.image? page).isSome) : (later.image? page).isSome := by
  suffices all : ∀ (more : List (WriteFrame α)) (read : List (Nat × α) × Option (Commit α)),
      (∃ log, read.2 = some log ∧ (log.image? page).isSome) → ∃ log, (more.foldl step read).2 = some log ∧ (log.image? page).isSome by
    obtain ⟨own, same, some_⟩ := all more (frames.foldl step ([], none)) ⟨log, done, held⟩
    rw [← List.foldl_append] at same
    obtain rfl := Option.some.inj (grown.symm.trans same)
    exact some_
  intro more
  induction more with
  | nil => exact fun _ some_ => some_
  | cons frame rest ih =>
    rintro ⟨pending, done⟩ ⟨log, told, held⟩
    obtain rfl : done = some log := told
    rw [List.foldl_cons]
    refine ih _ ?_
    by_cases ends : frame.after = 0
    · exact ⟨log, by simp [step, ends], held⟩
    · refine ⟨_, by rw [step, if_neg ends], ?_⟩
      simp only [Commit.image?, Option.map_some, Option.getD_some, List.lookup_append, Option.isSome_or] at held ⊢
      rw [held, Bool.or_true]

end WriteAhead

/-- Cells written over: each of the first `count` is what is written there, or else what it held, blank past the old end. -/
def overlay (written : Nat → Option α) (blank : α) (count : Nat) (cells : List α) : List α :=
  (List.range count).map fun i => (written i).getD (cells.getD i blank)

/-- Cells a write was stopped on at any point: each is what it held or what is written there, the end anywhere between the two. -/
structure Torn (written : Nat → Option α) (blank : α) (count : Nat) (cells torn : List α) : Prop where
  least : min cells.length count ≤ torn.length
  most : torn.length ≤ max cells.length count
  each : ∀ i, i < torn.length → torn.getD i blank = cells.getD i blank ∨ written i = some (torn.getD i blank)

variable {written : Nat → Option α} {blank : α} {count : Nat} {cells torn later : List α}

@[simp] theorem overlay_length : (overlay written blank count cells).length = count := by
  rw [overlay, List.length_map, List.length_range]

theorem overlay_getD {i : Nat} (inside : i < count) :
    (overlay written blank count cells).getD i blank = (written i).getD (cells.getD i blank) := by
  rw [List.getD_eq_getElem _ _ (by simpa using inside)]
  simp [overlay]

theorem Torn.cell (stopped : Torn written blank count cells torn) {i : Nat} (inside : i < count) :
    torn.getD i blank = cells.getD i blank ∨ written i = some (torn.getD i blank) := by
  obtain within | past := Nat.lt_or_ge i torn.length
  · exact stopped.each i within
  · have least := stopped.least
    refine .inl ?_
    rw [List.getD_eq_default _ _ past, List.getD_eq_default _ _ (by omega)]

/-- Writing over stopped cells comes to what writing over the first ones does. -/
theorem Torn.overlay (stopped : Torn written blank count cells torn) :
    Moe.overlay written blank count torn = Moe.overlay written blank count cells := by
  refine List.map_congr_left fun i member => ?_
  have inside := List.mem_range.mp member
  obtain same | put := stopped.cell inside
  · rw [same]
  · rw [put]
    rfl

end Moe
