import Moe.Pool.KeptLog
import Moe.Reading

namespace Moe

/-- Page hashes per group: a keep point rehashes the groups its changed pages fall in, not the whole list. -/
def pageGroup : Nat := 256

/-- The byte a database's file locks begin at. -/
def lockByte : Nat := 2 ^ 30

/-- The page holding it, from 1: never written, so no log carries it. -/
def lockPage (pageSize : Nat) : Nat := lockByte / pageSize + 1

def pageCount (pageSize : Nat) (file : Bytes) : Nat := (file.length + pageSize - 1) / pageSize

/-- The page from 0; a short last one as it lies. -/
def pageAt (pageSize : Nat) (file : Bytes) (page : Nat) : Bytes := (file.drop (page * pageSize)).take pageSize

def groupCount (count : Nat) : Nat := (count + pageGroup - 1) / pageGroup

/-- What a log's commit writes at a byte of the file. -/
def Commit.byteAt (log : Commit Bytes) (pageSize : Nat) (i : Nat) : Option UInt8 :=
  (log.image? (i / pageSize + 1)).map fun image => image.getD (i % pageSize) 0

/-- The file a log's commit is moved into. -/
def recovered (pageSize : Nat) (log : Commit Bytes) (file : Bytes) : Bytes :=
  overlay (log.byteAt pageSize) 0 (log.count * pageSize) file

/-- A kept file's page hashes and each group's hash of its pages'. -/
structure PageDigest where
  pageSize : Nat
  pages : List Bytes
  groups : List Bytes
deriving DecidableEq, Repr

section

variable [Crypto]

/-- The lock-byte page's hash on every side: a constant, never its bytes. -/
def lockPageHash : Bytes := sha256 (tag "v3-kept-lock-byte-page")

def pageHash (pageSize : Nat) (file : Bytes) (page : Nat) : Bytes :=
  if page + 1 = lockPage pageSize then lockPageHash else sha256 (pageAt pageSize file page)

def groupFrame (pages : List Bytes) (group : Nat) : Bytes :=
  tag "v3-kept-page-group" ++ ((pages.drop (group * pageGroup)).take pageGroup).flatten

namespace PageDigest

def new (pageSize : Nat) : PageDigest := ⟨pageSize, [], []⟩

/-- Group hashes over `pages`, hashed again for the groups named and for a shorter file's last group. -/
def regroup (digest : PageDigest) (pages : List Bytes) (changed : List Nat) : PageDigest :=
  let changed := if pages.length < digest.pages.length ∧ 0 < pages.length then (pages.length - 1) / pageGroup :: changed else changed
  { digest with
    pages
    groups := (List.range (groupCount pages.length)).map fun group =>
      if changed.contains group then sha256 (groupFrame pages group) else digest.groups.getD group (List.replicate 32 0) }

/-- Every page of a closed file but the lock-byte page. -/
def of (pageSize : Nat) (file : Bytes) : PageDigest :=
  let count := pageCount pageSize file
  (new pageSize).regroup ((List.range count).map (pageHash pageSize file)) (List.range (groupCount count))

/-- The state a log's commit leaves: its page images over the pages known, at the page count it commits. -/
def apply (digest : PageDigest) (log : Commit Bytes) : Except Failure PageDigest := do
  let count := log.count
  let known := digest.pages.length
  let lock := lockPage digest.pageSize
  require (count ≠ lock) (.error "the write-ahead log commits a file ending on SQLite's lock-byte page")
  require ((List.range count).all fun p => p < known || p + 1 = lock || (log.image? (p + 1)).isSome)
    (.error "the write-ahead log lacks a page its commit adds")
  let pages := (List.range count).map fun p =>
    if p + 1 = lock then (if known < lock then lockPageHash else digest.pages.getD p [])
    else (log.image? (p + 1)).getD (digest.pages.getD p [])
  let changed := (log.pages.filter fun entry => 1 ≤ entry.1 ∧ entry.1 ≤ count ∧ entry.1 ≠ lock).map fun entry => (entry.1 - 1) / pageGroup
  return digest.regroup pages (if known < lock ∧ lock ≤ count then changed ++ [(lock - 1) / pageGroup] else changed)

def rootFrame (digest : PageDigest) : Bytes :=
  tag "v3-kept-file" ++ toBytes 8 digest.pageSize ++ toBytes 8 digest.pages.length ++ digest.groups.flatten

/-- The digest, as the party records it. -/
def root (digest : PageDigest) : Bytes := sha256 digest.rootFrame

/-- Its groups are the hashes of its pages'. -/
def Grouped (digest : PageDigest) : Prop :=
  digest.groups = (List.range (groupCount digest.pages.length)).map fun group => sha256 (groupFrame digest.pages group)

/-- What it knows of a file beside a log: each page it has that the log does not hold, whole in the file. -/
structure Knows (digest : PageDigest) (log : Commit Bytes) (file : Bytes) : Prop where
  grouped : digest.Grouped
  whole : ∀ p, p < digest.pages.length → log.image? (p + 1) = none → p + 1 ≠ lockPage digest.pageSize →
    (p + 1) * digest.pageSize ≤ file.length
  pages : ∀ p, p < digest.pages.length → (log.image? (p + 1) = none ∨ p + 1 = lockPage digest.pageSize) →
    digest.pages.getD p [] = pageHash digest.pageSize file p

end PageDigest

/-- Every frame a file's digest hashes: its root's, its groups' and its pages. -/
def digestFrames (pageSize : Nat) (file : Bytes) : List Bytes :=
  (PageDigest.of pageSize file).rootFrame ::
    (List.range (groupCount (pageCount pageSize file))).map (groupFrame (PageDigest.of pageSize file).pages) ++
      (List.range (pageCount pageSize file)).map (pageAt pageSize file)

/-- Two files with the same pages, but for what the lock-byte page holds. -/
structure SameContent (pageSize : Nat) (file other : Bytes) : Prop where
  count : pageCount pageSize file = pageCount pageSize other
  pages : ∀ p, p < pageCount pageSize file → p + 1 ≠ lockPage pageSize → pageAt pageSize file p = pageAt pageSize other p

variable {digest next : PageDigest} {pages : List Bytes} {changed : List Nat} {size : Nat} {file other : Bytes} {log : Commit Bytes}

omit [Crypto] in
theorem groupCount_lt {p count : Nat} (inside : p < count) : p / pageGroup < groupCount count := by
  simp only [groupCount, pageGroup]
  omega

omit [Crypto] in
theorem lt_of_group {group count : Nat} (inside : group < groupCount count) : group * pageGroup < count := by
  simp only [groupCount, pageGroup] at inside ⊢
  omega

/-- Groups stay their pages' hashes where every page that changed is of a group named. -/
theorem PageDigest.Grouped.regroup (grouped : digest.Grouped)
    (kept : ∀ p, p < pages.length → p / pageGroup ∉ changed → digest.pages[p]? = pages[p]?) : (digest.regroup pages changed).Grouped := by
  unfold Grouped PageDigest.regroup
  simp only
  refine List.map_congr_left fun group member => ?_
  have inside := List.mem_range.mp member
  generalize all : (if pages.length < digest.pages.length ∧ 0 < pages.length then (pages.length - 1) / pageGroup :: changed else changed) =
    named
  split
  · rfl
  · rename_i unnamed
    have fresh : group ∉ changed := by
      intro own
      refine unnamed (List.contains_iff_mem.mpr ?_)
      rw [← all]
      split
      · exact List.mem_cons_of_mem _ own
      · exact own
    have first := lt_of_group inside
    have own : (group * pageGroup) / pageGroup = group := Nat.mul_div_cancel _ (by simp only [pageGroup]; omega)
    have held : group * pageGroup < digest.pages.length := by
      have same := kept _ first (by rwa [own])
      rw [List.getElem?_eq_getElem first] at same
      exact (List.getElem?_eq_some_iff.mp same).1
    have known : group < groupCount digest.pages.length := by
      have inside := groupCount_lt held
      rwa [own] at inside
    have slice : (pages.drop (group * pageGroup)).take pageGroup = (digest.pages.drop (group * pageGroup)).take pageGroup := by
      refine List.ext_getElem? fun i => ?_
      obtain near | far := Nat.lt_or_ge i pageGroup
      · rw [List.getElem?_take_of_lt near, List.getElem?_take_of_lt near, List.getElem?_drop, List.getElem?_drop]
        obtain within | past := Nat.lt_or_ge (group * pageGroup + i) pages.length
        · refine (kept _ within ?_).symm
          have same : (group * pageGroup + i) / pageGroup = group := by
            simp only [pageGroup] at near ⊢
            omega
          rwa [same]
        · obtain shorter | longer := Nat.lt_or_ge pages.length digest.pages.length
          · refine absurd ?_ unnamed
            have last : (pages.length - 1) / pageGroup = group := by
              simp only [pageGroup] at near past first ⊢
              omega
            rw [← all, if_pos ⟨shorter, by omega⟩, last]
            exact List.contains_iff_mem.mpr List.mem_cons_self
          · rw [List.getElem?_eq_none past, List.getElem?_eq_none (Nat.le_trans longer past)]
      · rw [List.getElem?_eq_none (by simp; omega), List.getElem?_eq_none (by simp; omega)]
    rw [groupFrame, slice, ← groupFrame, grouped]
    simp [known]

theorem PageDigest.of_grouped : (PageDigest.of size file).Grouped := by
  have fresh : (PageDigest.new size).Grouped := by simp [Grouped, new, groupCount, pageGroup]
  refine fresh.regroup fun p inside outside => absurd ?_ outside
  rw [List.length_map, List.length_range] at inside
  exact List.mem_range.mpr (groupCount_lt inside)

@[simp] theorem PageDigest.of_pages : (PageDigest.of size file).pages = (List.range (pageCount size file)).map (pageHash size file) := rfl

@[simp] theorem PageDigest.of_pageSize : (PageDigest.of size file).pageSize = size := rfl

/-- Two digests of one page size and the same pages are one where their groups are their pages'. -/
theorem PageDigest.Grouped.ext (grouped : digest.Grouped) (grouped' : next.Grouped) (size : digest.pageSize = next.pageSize)
    (pages : digest.pages = next.pages) : digest = next := by
  have groups : digest.groups = next.groups := by
    unfold Grouped at grouped grouped'
    rw [grouped, grouped', pages]
  cases digest
  cases next
  simp only at size pages groups
  rw [size, pages, groups]

omit [Crypto] in
theorem pageCount_of_length {count : Nat} (positive : 0 < size) (length : file.length = count * size) : pageCount size file = count := by
  rw [pageCount, length, Nat.add_sub_assoc positive, Nat.mul_comm, Nat.mul_add_div positive, Nat.div_eq_of_lt (by omega), Nat.add_zero]

omit [Crypto] in
/-- A page is told by its bytes. -/
theorem pageAt_eq {cells image : Bytes} {p : Nat} (whole : (p + 1) * size ≤ cells.length) (length : image.length = size)
    (same : ∀ i, i < size → cells.getD (p * size + i) 0 = image.getD i 0) : pageAt size cells p = image := by
  rw [Nat.succ_mul] at whole
  refine List.ext_getElem (by simp only [pageAt, List.length_take, List.length_drop, length]; omega) fun i inside inside' => ?_
  have within : i < size := length ▸ inside'
  have own := same i within
  rw [List.getD_eq_getElem _ _ (by omega), List.getD_eq_getElem _ _ inside'] at own
  simpa [pageAt] using own

omit [Crypto] in
theorem recovered_getD {p i : Nat} (within : p < log.count) (inside : i < size) :
    (recovered size log file).getD (p * size + i) 0 = ((log.image? (p + 1)).map (·.getD i 0)).getD (file.getD (p * size + i) 0) := by
  have positive : 0 < size := by omega
  have bound : p * size + i < log.count * size :=
    Nat.lt_of_lt_of_le (by rw [Nat.succ_mul]; omega) (Nat.mul_le_mul_right size (Nat.succ_le_of_lt within))
  have quotient : (p * size + i) / size = p := by
    rw [Nat.mul_comm, Nat.mul_add_div positive, Nat.div_eq_of_lt inside, Nat.add_zero]
  have remainder : (p * size + i) % size = i := by rw [Nat.mul_comm, Nat.mul_add_mod, Nat.mod_eq_of_lt inside]
  rw [recovered, overlay_getD bound, Commit.byteAt, quotient, remainder]

omit [Crypto] in
@[simp] theorem recovered_length : (recovered size log file).length = log.count * size := overlay_length

omit [Crypto] in
/-- A page the log holds is its image there. -/
theorem pageAt_recovered {p : Nat} {image : Bytes} (within : p < log.count) (held : log.image? (p + 1) = some image)
    (length : image.length = size) : pageAt size (recovered size log file) p = image := by
  refine pageAt_eq ?_ length fun i inside => ?_
  · rw [recovered_length]
    exact Nat.mul_le_mul_right size (Nat.succ_le_of_lt within)
  · rw [recovered_getD within inside, held]
    rfl

omit [Crypto] in
/-- A page the log lacks is the file's, where the file has it whole. -/
theorem pageAt_recovered_kept {p : Nat} (within : p < log.count) (lacks : log.image? (p + 1) = none) (whole : (p + 1) * size ≤ file.length) :
    pageAt size (recovered size log file) p = pageAt size file p := by
  have length : (pageAt size file p).length = size := by
    rw [Nat.succ_mul] at whole
    simp only [pageAt, List.length_take, List.length_drop]
    omega
  refine pageAt_eq ?_ length fun i inside => ?_
  · rw [recovered_length]
    exact Nat.mul_le_mul_right size (Nat.succ_le_of_lt within)
  · rw [recovered_getD within inside, lacks, Option.map_none, Option.getD_none]
    simp [pageAt, List.getD_eq_getElem?_getD, inside]

theorem PageDigest.apply_eq_ok : digest.apply log = .ok next ↔
    log.count ≠ lockPage digest.pageSize ∧
      (∀ p, p < log.count → p < digest.pages.length ∨ p + 1 = lockPage digest.pageSize ∨ (log.image? (p + 1)).isSome) ∧
      next = digest.regroup ((List.range log.count).map fun p =>
          if p + 1 = lockPage digest.pageSize then (if digest.pages.length < lockPage digest.pageSize then lockPageHash else digest.pages.getD p [])
          else (log.image? (p + 1)).getD (digest.pages.getD p []))
        (if digest.pages.length < lockPage digest.pageSize ∧ lockPage digest.pageSize ≤ log.count then
          (log.pages.filter fun entry => 1 ≤ entry.1 ∧ entry.1 ≤ log.count ∧ entry.1 ≠ lockPage digest.pageSize).map
            (fun entry => (entry.1 - 1) / pageGroup) ++ [(lockPage digest.pageSize - 1) / pageGroup]
        else (log.pages.filter fun entry => 1 ≤ entry.1 ∧ entry.1 ≤ log.count ∧ entry.1 ≠ lockPage digest.pageSize).map
          fun entry => (entry.1 - 1) / pageGroup) := by
  simp only [PageDigest.apply, bind_eq_ok, require_eq_ok, pure_eq_ok, decide_eq_true_eq, List.all_eq_true, List.mem_range, Bool.or_eq_true,
    or_assoc]
  constructor
  · rintro ⟨_, ends, _, adds, rfl⟩
    exact ⟨ends, adds, rfl⟩
  · rintro ⟨ends, adds, rfl⟩
    exact ⟨(), ends, (), adds, rfl⟩

theorem PageDigest.Grouped.apply (grouped : digest.Grouped) (done : digest.apply log = .ok next) : next.Grouped := by
  obtain ⟨-, adds, rfl⟩ := PageDigest.apply_eq_ok.mp done
  refine grouped.regroup fun p inside outside => ?_
  rw [List.length_map, List.length_range] at inside
  have own : (p + 1 - 1) / pageGroup = p / pageGroup := by rw [Nat.add_sub_cancel]
  rw [List.getElem?_map, List.getElem?_range inside, Option.map_some]
  by_cases lock : p + 1 = lockPage digest.pageSize
  · have known : ¬ digest.pages.length < lockPage digest.pageSize := by
      intro fresh
      refine outside ?_
      rw [if_pos ⟨fresh, by omega⟩, ← lock, own]
      exact List.mem_append_right _ List.mem_cons_self
    rw [if_pos lock, if_neg known, List.getD_eq_getElem _ _ (by omega), List.getElem?_eq_getElem (by omega)]
  · rw [if_neg lock]
    cases held : log.image? (p + 1) with
    | some image =>
      refine absurd ?_ outside
      have entry : (p + 1 - 1) / pageGroup ∈
          (log.pages.filter fun entry => 1 ≤ entry.1 ∧ entry.1 ≤ log.count ∧ entry.1 ≠ lockPage digest.pageSize).map
            fun entry => (entry.1 - 1) / pageGroup :=
        List.mem_map.mpr ⟨(p + 1, image), List.mem_filter.mpr ⟨Commit.image?_mem held, by simp [lock]; omega⟩, rfl⟩
      rw [own] at entry
      split
      · exact List.mem_append_left _ entry
      · exact entry
    | none =>
      have known : p < digest.pages.length := by
        obtain known | at_ | added := adds p inside
        · exact known
        · exact absurd at_ lock
        · rw [held] at added
          cases added
      rw [Option.getD_none, List.getD_eq_getElem _ _ known, List.getElem?_eq_getElem known]

namespace PageDigest

/-- A page the commit counts and the log lacks was known, but for the lock-byte page. -/
theorem known_of_lacks (done : digest.apply (log.map sha256) = .ok next) {p : Nat} (inside : p < log.count) (lacks : log.image? (p + 1) = none)
    (unlocked : p + 1 ≠ lockPage digest.pageSize) : p < digest.pages.length := by
  obtain ⟨-, adds, -⟩ := apply_eq_ok.mp done
  obtain known | at_ | added := adds p inside
  · exact known
  · exact absurd at_ unlocked
  · rw [Commit.image?_map, lacks] at added
    cases added

/-- A commit's pages over those known of a file are those of the file it is moved into. -/
theorem Knows.apply (knows : digest.Knows log file) (positive : 0 < digest.pageSize)
    (images : ∀ page image, log.image? page = some image → image.length = digest.pageSize)
    (done : digest.apply (log.map sha256) = .ok next) : next = PageDigest.of digest.pageSize (recovered digest.pageSize log file) := by
  have grouped := knows.grouped.apply done
  have lacking := fun p => known_of_lacks (p := p) done
  obtain ⟨-, -, rfl⟩ := apply_eq_ok.mp done
  refine grouped.ext of_grouped rfl ?_
  change List.map _ (List.range log.count) = (PageDigest.of digest.pageSize (recovered digest.pageSize log file)).pages
  rw [of_pages, pageCount_of_length positive recovered_length]
  refine List.map_congr_left fun p member => ?_
  have inside := List.mem_range.mp member
  rw [pageHash]
  by_cases lock : p + 1 = lockPage digest.pageSize
  · rw [if_pos lock, if_pos lock]
    split
    · rfl
    · rw [knows.pages p (by omega) (.inr lock), pageHash, if_pos lock]
  · rw [if_neg lock, if_neg lock, Commit.image?_map]
    cases held : log.image? (p + 1) with
    | some image =>
      rw [pageAt_recovered inside held (images _ _ held)]
      rfl
    | none =>
      have known := lacking p inside held lock
      rw [Option.map_none, Option.getD_none, knows.pages p known (.inl held), pageHash, if_neg lock,
        pageAt_recovered_kept inside held (knows.whole p known held lock)]

/-- Hashed into the pages known, a commit still beside its file leaves known what was. -/
theorem Knows.hashed (knows : digest.Knows log file) (positive : 0 < digest.pageSize)
    (images : ∀ page image, log.image? page = some image → image.length = digest.pageSize)
    (done : digest.apply (log.map sha256) = .ok next) : next.Knows log file := by
  have lacking := fun p => known_of_lacks (p := p) done
  have hashed := knows.apply positive images done
  have count : next.pages.length = log.count := by
    rw [hashed, of_pages, List.length_map, List.length_range, pageCount_of_length positive recovered_length]
  have size : next.pageSize = digest.pageSize := by rw [hashed, of_pageSize]
  refine ⟨hashed ▸ of_grouped, fun p inside lacks unlocked => ?_, fun p inside lacks => ?_⟩
  · rw [size] at unlocked ⊢
    rw [count] at inside
    exact knows.whole p (lacking p inside lacks unlocked) lacks unlocked
  · rw [size] at lacks ⊢
    rw [count] at inside
    have own : next.pages.getD p [] = pageHash digest.pageSize (recovered digest.pageSize log file) p := by
      rw [hashed, of_pages, pageCount_of_length positive recovered_length, List.getD_eq_getElem _ _ (by simpa using inside)]
      simp
    rw [own, pageHash, pageHash]
    by_cases lock : p + 1 = lockPage digest.pageSize
    · rw [if_pos lock, if_pos lock]
    · have lacks := lacks.resolve_right lock
      rw [if_neg lock, if_neg lock, pageAt_recovered_kept inside lacks (knows.whole p (lacking p inside lacks lock) lacks lock)]

theorem Knows.grown {later : Commit Bytes} (knows : digest.Knows log file)
    (keeps : ∀ page, (log.image? page).isSome → (later.image? page).isSome) : digest.Knows later file := by
  have lacks : ∀ page, later.image? page = none → log.image? page = none := fun page none_ => by
    cases held : log.image? page with
    | none => rfl
    | some image =>
      have some_ := keeps page (by rw [held]; rfl)
      rw [none_] at some_
      cases some_
  exact ⟨knows.grouped, fun p inside none_ => knows.whole p inside (lacks _ none_),
    fun p inside none_ => knows.pages p inside (none_.imp_left (lacks _))⟩

theorem Knows.of (positive : 0 < size) {count : Nat} (length : file.length = count * size) : (PageDigest.of size file).Knows log file := by
  have counted := pageCount_of_length positive length
  refine ⟨of_grouped, fun p inside _ _ => ?_, fun p inside _ => ?_⟩
  · rw [of_pages, List.length_map, List.length_range, counted] at inside
    rw [of_pageSize, length]
    exact Nat.mul_le_mul_right _ (Nat.succ_le_of_lt inside)
  · rw [of_pages, List.length_map, List.length_range] at inside
    rw [of_pages, List.getD_eq_getElem _ _ (by simpa using inside)]
    simp

theorem Knows.new : (PageDigest.new size).Knows log file :=
  ⟨by simp [Grouped, PageDigest.new, groupCount, pageGroup], fun p inside => absurd inside (Nat.not_lt_zero p),
    fun p inside => absurd inside (Nat.not_lt_zero p)⟩

end PageDigest

theorem pageHash_length {p : Nat} : (pageHash size file p).length = 32 := by
  rw [pageHash]
  split <;> exact Crypto.sha256_length _

/-- A digest is of one page size and one file's pages, but for the lock-byte page and collisions. -/
theorem PageDigest.root_binds {size' : Nat} (wide : size < 2 ^ 64) (wide' : size' < 2 ^ 64) (bound : pageCount size file < 2 ^ 32)
    (apart : HashesApart (digestFrames size file) (digestFrames size' other))
    (same : (PageDigest.of size file).root = (PageDigest.of size' other).root) : size = size' ∧ SameContent size file other := by
  have frames := apart _ List.mem_cons_self _ List.mem_cons_self same
  simp only [rootFrame, List.append_assoc, List.append_cancel_left_eq, of_pageSize] at frames
  obtain ⟨sizes, frames⟩ := List.append_inj frames (by simp)
  obtain ⟨counts, groups⟩ := List.append_inj frames (by simp)
  obtain rfl := toBytes_inj (by simpa using wide) (by simpa using wide') sizes
  rw [@of_grouped _ size file, @of_grouped _ size other] at groups
  have groups := flatten_inj (by omega : 0 < 32) (by simp [Crypto.sha256_length]) (by simp [Crypto.sha256_length]) groups
  have groupCounts := congrArg List.length groups
  simp only [of_pages, List.length_map, List.length_range] at counts groupCounts
  have count : pageCount size file = pageCount size other := by
    refine @toBytes_inj 8 _ _ (by simp; omega) ?_ counts
    simp only [groupCount, pageGroup] at groupCounts
    simp
    omega
  refine ⟨rfl, count, fun p inside unlocked => ?_⟩
  have group := groupCount_lt inside
  have hashes : sha256 (groupFrame (PageDigest.of size file).pages (p / pageGroup)) =
      sha256 (groupFrame (PageDigest.of size other).pages (p / pageGroup)) := by
    have own := congrArg (·[p / pageGroup]?) groups
    simpa [group, ← groupCounts] using own
  have framed := apart _ (List.mem_append_left _ (List.mem_cons_of_mem _ (List.mem_map_of_mem (List.mem_range.mpr group)))) _
    (List.mem_append_left _ (List.mem_cons_of_mem _ (List.mem_map_of_mem (List.mem_range.mpr (groupCounts ▸ group))))) hashes
  simp only [groupFrame, List.append_cancel_left_eq] at framed
  have slices := flatten_inj (by omega : 0 < 32)
    (fun item member => by
      obtain ⟨q, -, rfl⟩ := List.mem_map.mp (List.mem_of_mem_drop (List.mem_of_mem_take member))
      exact pageHash_length)
    (fun item member => by
      obtain ⟨q, -, rfl⟩ := List.mem_map.mp (List.mem_of_mem_drop (List.mem_of_mem_take member))
      exact pageHash_length) framed
  have pages := congrArg (·[p % pageGroup]?) slices
  have split_ : p / pageGroup * pageGroup + p % pageGroup = p := by rw [Nat.mul_comm, Nat.div_add_mod]
  have below : p % pageGroup < pageGroup := Nat.mod_lt _ (by simp only [pageGroup]; omega)
  simp only [List.getElem?_take_of_lt below, List.getElem?_drop, split_, of_pages, List.getElem?_map, List.getElem?_range inside,
    List.getElem?_range (count ▸ inside), Option.map_some, Option.some.injEq, pageHash, if_neg unlocked] at pages
  exact apart _ (List.mem_append_right _ (List.mem_map_of_mem (List.mem_range.mpr inside))) _
    (List.mem_append_right _ (List.mem_map_of_mem (List.mem_range.mpr (count ▸ inside)))) pages

end

end Moe
