import Moe.Lib.Cells
import Moe.Lib.Savepoint
import Moe.Pool.PageDigest

namespace Moe

/-- A kept file's digest as it is held: page hashes in a buffer that may be longer than the pages counted, and group hashes. -/
structure PageBuffer where
  pageSize : Nat
  lockPage : Nat
  pages : Bytes
  groups : Bytes
  length : Nat
deriving DecidableEq, Repr

section

variable [Crypto]

namespace PageBuffer

def new (pageSize lockByte : Nat) : PageBuffer := ⟨pageSize, lockByte / pageSize + 1, [], [], 0⟩

/-- Room for `count` page hashes, grown by doubling. -/
def reserve (digest : PageBuffer) (count : Nat) : PageBuffer :=
  if 32 * count ≤ digest.pages.length then digest
  else { digest with pages := copyTo digest.pages (List.replicate (max (32 * count) (2 * digest.pages.length)) 0) 0 }

def hashGroup (pages : Bytes) (count : Nat) (hashes : Bytes) (group : Nat) : Bytes :=
  if count ≤ group * pageGroup then hashes
  else copyTo (sha256 (tag "v3-kept-page-group" ++
    (pages.drop (32 * group * pageGroup)).take (32 * min count ((group + 1) * pageGroup) - 32 * group * pageGroup))) hashes (32 * group)

/-- Group hashes at `count` pages, hashed again for the groups named and for a shorter file's last group. -/
def regroup (digest : PageBuffer) (count : Nat) (groups : List Nat) : PageBuffer :=
  let groups := if count < digest.length ∧ 0 < count then groups ++ [(count - 1) / pageGroup] else groups
  let fresh := List.replicate (32 * groupCount count) 0
  let held := copyTo (digest.groups.take (min digest.groups.length fresh.length)) fresh 0
  { digest with groups := groups.foldl (hashGroup digest.pages count) held, length := count }

/-- A page's hash as a full digest takes it: of its bytes as they lie, but the lock-byte page's a constant. -/
def hashOf (digest : PageBuffer) (file : Bytes) (page : Nat) : Bytes :=
  if page + 1 = digest.lockPage then lockPageHash else sha256 (pageAt digest.pageSize file page)

/-- Every page of a closed file but the lock-byte page. -/
def of (pageSize lockByte : Nat) (file : Bytes) : PageBuffer :=
  let count := pageCount pageSize file
  let digest := (new pageSize lockByte).reserve count
  let hashed := { digest with pages := (List.range count).foldl (fun pages p => copyTo (digest.hashOf file p) pages (32 * p)) digest.pages }
  hashed.regroup count (List.range (groupCount count))

/-- The state a log's commit leaves: its page images over the pages known, at the page count it commits. -/
def apply (log : Commit Bytes) : Work PageBuffer Failure Unit := do
  let digest ← get
  let lock := digest.lockPage
  liftM (require (log.count ≠ lock) (.error "the write-ahead log commits a file ending on SQLite's lock-byte page"))
  liftM (require ((List.range log.count).all fun p => p < digest.length || p + 1 = lock || (log.image? (p + 1)).isSome)
    (.error "the write-ahead log lacks a page its commit adds"))
  modify fun digest => digest.reserve log.count
  let named := log.pages.reverse.filter fun entry => 1 ≤ entry.1 ∧ entry.1 ≤ log.count ∧ entry.1 ≠ lock
  modify fun digest => { digest with pages := named.foldl (fun pages entry => copyTo entry.2 pages (32 * (entry.1 - 1))) digest.pages }
  let changed := named.map fun entry => (entry.1 - 1) / pageGroup
  if digest.length < lock ∧ lock ≤ log.count then
    modify fun digest => ({ digest with pages := copyTo lockPageHash digest.pages (32 * (lock - 1)) }).regroup log.count
      (changed ++ [(lock - 1) / pageGroup])
  else modify fun digest => digest.regroup log.count changed

/-- The digest, as the party records it. -/
def root (digest : PageBuffer) : Bytes :=
  sha256 (tag "v3-kept-file" ++ (toBytes 8 digest.pageSize ++ toBytes 8 digest.length) ++ digest.groups)

/-- A digest that holds `hashes`, one for each page, and each group's hash of its pages'. -/
structure Holds (digest : PageBuffer) (hashes : List Bytes) : Prop where
  length : digest.length = hashes.length
  room : 32 * hashes.length ≤ digest.pages.length
  each : ∀ own ∈ hashes, own.length = 32
  pages : ∀ i, i < hashes.length → hashes[i]? = some (cell 32 digest.pages i)
  grouped : digest.groups = ((List.range (groupCount hashes.length)).map fun group => sha256 (groupFrame hashes group)).flatten

variable {digest : PageBuffer} {hashes later : List Bytes} {changed : List Nat} {buffer pages : Bytes} {log : Commit Bytes} {count : Nat}

omit [Crypto] in
theorem pages_slice (each : ∀ i, i < hashes.length → hashes[i]? = some (cell 32 pages i)) (room : 32 * hashes.length ≤ pages.length)
    {group : Nat} (inside : group < groupCount hashes.length) :
    (pages.drop (32 * group * pageGroup)).take (32 * min hashes.length ((group + 1) * pageGroup) - 32 * group * pageGroup) =
      ((hashes.drop (group * pageGroup)).take pageGroup).flatten := by
  have first := lt_of_group inside
  have length : ((hashes.drop (group * pageGroup)).take pageGroup).length = min hashes.length ((group + 1) * pageGroup) - group * pageGroup := by
    rw [List.length_take, List.length_drop, Nat.succ_mul]
    omega
  have slice := @slice_cells _ pages 32 (group * pageGroup) ((hashes.drop (group * pageGroup)).take pageGroup) (fun j within => by
      rw [length, Nat.succ_mul] at within
      rw [List.getElem?_take_of_lt (by omega), List.getElem?_drop]
      exact each _ (by omega)) (by
      rw [length, Nat.succ_mul]
      omega)
  rw [← slice, length, Nat.mul_assoc]
  congr 1
  rw [Nat.mul_sub]

@[simp] theorem hashGroups_length (groups : List Nat) : (groups.foldl (hashGroup pages count) buffer).length = buffer.length := by
  induction groups generalizing buffer with
  | nil => rfl
  | cons first rest ih =>
    rw [List.foldl_cons, ih, hashGroup]
    split
    · rfl
    · exact copyTo_length

/-- Groups hashed again over their pages; the others as they were. -/
theorem cell_hashGroups (each : ∀ i, i < hashes.length → hashes[i]? = some (cell 32 pages i)) (room : 32 * hashes.length ≤ pages.length)
    (groups : List Nat) (length : buffer.length = 32 * groupCount hashes.length) {group : Nat} (inside : group < groupCount hashes.length) :
    cell 32 (groups.foldl (hashGroup pages hashes.length) buffer) group =
      if group ∈ groups then sha256 (groupFrame hashes group) else cell 32 buffer group := by
  induction groups generalizing buffer with
  | nil => rfl
  | cons first rest ih =>
    rw [List.foldl_cons]
    by_cases past : hashes.length ≤ first * pageGroup
    · have same : hashGroup pages hashes.length buffer first = buffer := if_pos past
      have apart : group ≠ first := fun equal => by
        have below := lt_of_group inside
        rw [equal] at below
        omega
      rw [same, ih length]
      simp only [List.mem_cons, apart, false_or]
    · have within : first < groupCount hashes.length := by
        simp only [groupCount, pageGroup] at past ⊢
        omega
      have written : hashGroup pages hashes.length buffer first = copyTo (sha256 (groupFrame hashes first)) buffer (32 * first) := by
        rw [hashGroup, if_neg past, pages_slice each room within, groupFrame]
      have next : (copyTo (sha256 (groupFrame hashes first)) buffer (32 * first)).length = 32 * groupCount hashes.length := by
        rw [copyTo_length, length]
      rw [written, ih next, cell_copyTo (by rw [length]; exact Nat.mul_le_mul_left _ (Nat.succ_le_of_lt within)) (Crypto.sha256_length _)]
      by_cases same : group = first
      · subst same
        simp
      · simp only [List.mem_cons, same, false_or, if_false]

omit [Crypto] in
/-- Group hashes carried into a list of another length: zeros past the ones held. -/
theorem cell_carried {items : List Bytes} (each : ∀ own ∈ items, own.length = 32) (count : Nat) {group : Nat} (inside : group < count) :
    cell 32 (copyTo (items.flatten.take (min items.flatten.length (List.replicate (32 * count) (0 : UInt8)).length))
      (List.replicate (32 * count) 0) 0) group = items.getD group (List.replicate 32 0) := by
  have whole := flatten_width each
  have fits : 0 + (items.flatten.take (min items.flatten.length (List.replicate (32 * count) (0 : UInt8)).length)).length ≤
      (List.replicate (32 * count) (0 : UInt8)).length := by
    simp only [List.length_take, List.length_replicate]
    omega
  refine List.ext_getElem? fun j => ?_
  rw [getElem?_cell]
  by_cases near : j < 32
  · rw [if_pos near, getElem?_copyTo fits]
    simp only [Nat.zero_le, true_and, Nat.zero_add, Nat.sub_zero, List.length_take, List.length_replicate, whole]
    obtain known | fresh := Nat.lt_or_ge group items.length
    · rw [if_pos (by omega), List.getElem?_take_of_lt (by omega)]
      have own := cell_flatten each known
      rw [List.getD_eq_getElem _ _ known, List.getElem?_eq_getElem known, Option.some.injEq] at *
      rw [own, getElem?_cell, if_pos near]
    · rw [if_neg (by omega), List.getD_eq_default _ _ fresh, List.getElem?_replicate, List.getElem?_replicate, if_pos (by omega), if_pos near]
  · rw [if_neg near, List.getElem?_eq_none]
    rw [List.getD_eq_getElem?_getD]
    cases found : items[group]? with
    | none => simpa using near
    | some own =>
      have length := each own (List.mem_of_getElem? found)
      simpa [length] using near

/-- Rehashed where a page changed, the groups are the hashes of the new pages. -/
theorem Holds.regroup (holds : digest.Holds hashes) (length : later.length = count) (each : ∀ own ∈ later, own.length = 32)
    (room : 32 * later.length ≤ pages.length) (held : ∀ i, i < later.length → later[i]? = some (cell 32 pages i))
    (kept : ∀ p, p < later.length → p / pageGroup ∉ changed → hashes[p]? = later[p]?) :
    (({ digest with pages } : PageBuffer).regroup count changed).Holds later := by
  subst length
  refine ⟨rfl, room, each, held, ?_⟩
  have abstract : (PageDigest.mk digest.pageSize hashes ((List.range (groupCount hashes.length)).map fun group => sha256 (groupFrame hashes group))).Grouped :=
    rfl
  have grouped := abstract.regroup kept
  have widths : ∀ own ∈ (List.range (groupCount hashes.length)).map fun group => sha256 (groupFrame hashes group), own.length = 32 := by
    intro own member
    obtain ⟨group, -, rfl⟩ := List.mem_map.mp member
    exact Crypto.sha256_length _
  simp only [PageBuffer.regroup, holds.length, holds.grouped]
  generalize named : (if later.length < hashes.length ∧ 0 < later.length then changed ++ [(later.length - 1) / pageGroup] else changed) = groups
  refine @eq_flatten _ _ 32 _ (fun group inside => ?_) ?_
  · rw [List.length_map, List.length_range] at inside
    rw [List.getElem?_map, List.getElem?_range inside, Option.map_some,
      cell_hashGroups held room groups (by rw [copyTo_length, List.length_replicate]) inside, cell_carried widths _ inside]
    have own := congrArg (·[group]?) grouped
    simp only [PageDigest.regroup, List.getElem?_map, List.getElem?_range inside, Option.map_some, Option.some.injEq] at own
    rw [← own]
    refine congrArg some ?_
    have member : group ∈ groups ↔ (if later.length < hashes.length ∧ 0 < later.length then (later.length - 1) / pageGroup :: changed
        else changed).contains group = true := by
      rw [List.contains_iff_mem, ← named]
      split
      · rw [List.mem_append, List.mem_singleton, List.mem_cons, or_comm]
      · exact Iff.rfl
    by_cases changes : group ∈ groups
    · rw [if_pos changes, if_pos (member.mp changes)]
    · rw [if_neg changes, if_neg fun own => changes (member.mpr own)]
  · rw [List.length_map, List.length_range, hashGroups_length, copyTo_length, List.length_replicate]

omit [Crypto] in
/-- Room made for more hashes leaves the ones there as they were. -/
theorem reserve_spec (digest : PageBuffer) (count : Nat) : ∃ pages, digest.reserve count = { digest with pages } ∧
    32 * count ≤ pages.length ∧ ∀ i, 32 * (i + 1) ≤ digest.pages.length → cell 32 pages i = cell 32 digest.pages i := by
  unfold reserve
  split
  · rename_i room
    exact ⟨digest.pages, rfl, room, fun _ _ => rfl⟩
  · refine ⟨_, rfl, ?_, fun i inside => List.ext_getElem? fun j => ?_⟩
    · rw [copyTo_length, List.length_replicate]
      omega
    · rw [getElem?_cell, getElem?_cell]
      by_cases near : j < 32
      · rw [if_pos near, if_pos near, getElem?_copyTo (by rw [List.length_replicate]; omega), if_pos (by omega), Nat.sub_zero]
      · rw [if_neg near, if_neg near]

/-- What an accepted log leaves of the page hashes. -/
def patched (digest : PageBuffer) (log : Commit Bytes) : Bytes :=
  let named := log.pages.reverse.filter fun entry => 1 ≤ entry.1 ∧ entry.1 ≤ log.count ∧ entry.1 ≠ digest.lockPage
  let pages := named.foldl (fun pages entry => copyTo entry.2 pages (32 * (entry.1 - 1))) (digest.reserve log.count).pages
  if digest.length < digest.lockPage ∧ digest.lockPage ≤ log.count then copyTo lockPageHash pages (32 * (digest.lockPage - 1)) else pages

/-- The groups an accepted log's pages fall in. -/
def touched (digest : PageBuffer) (log : Commit Bytes) : List Nat :=
  let named := (log.pages.reverse.filter fun entry => 1 ≤ entry.1 ∧ entry.1 ≤ log.count ∧ entry.1 ≠ digest.lockPage).map
    fun entry => (entry.1 - 1) / pageGroup
  if digest.length < digest.lockPage ∧ digest.lockPage ≤ log.count then named ++ [(digest.lockPage - 1) / pageGroup] else named

/-- A log a file of `known` pages can take: it does not end on the lock-byte page, and holds every other page it adds. -/
def Extends (lock known : Nat) (log : Commit Bytes) : Prop :=
  log.count ≠ lock ∧ ∀ p < log.count, known ≤ p → p + 1 ≠ lock → (log.image? (p + 1)).isSome

instance {lock known : Nat} : Decidable (Extends lock known log) := inferInstanceAs (Decidable (_ ∧ _))

omit [Crypto] in
theorem extends_iff {lock known : Nat} : Extends lock known log ↔ log.count ≠ lock ∧
    ((List.range log.count).all fun p => p < known || p + 1 = lock || (log.image? (p + 1)).isSome) = true := by
  simp only [Extends, List.all_eq_true, List.mem_range, Bool.or_eq_true, decide_eq_true_eq]
  refine and_congr_right fun _ => forall₂_congr fun p _ => ⟨fun adds => ?_, fun held added unlocked => ?_⟩
  · by_cases known_ : p < known
    · exact .inl (.inl known_)
    · by_cases lock_ : p + 1 = lock
      · exact .inl (.inr lock_)
      · exact .inr (adds (by omega) lock_)
  · obtain (known_ | lock_) | some_ := held
    · omega
    · exact absurd lock_ unlocked
    · exact some_

theorem apply_runs (accepted : Extends digest.lockPage digest.length log) :
    (apply log).runs digest = (.ok (), ({ digest with pages := digest.patched log } : PageBuffer).regroup log.count (digest.touched log)) := by
  obtain ⟨ends, adds⟩ := extends_iff.mp accepted
  obtain ⟨pages, same, -⟩ := reserve_spec digest log.count
  unfold apply patched touched
  simp only [Work.runs_bind, Work.runs_get, Work.andThen, Work.runs_lift, require, ends, adds, ne_eq, not_false_eq_true, decide_true,
    if_true, Work.runs_modify, same]
  split
  · simp only [Work.runs_modify]
  · simp only [Work.runs_modify]

/-- A log refused leaves the digest as it was. -/
theorem apply_refused (refused : ¬ Extends digest.lockPage digest.length log) :
    ∃ failure, (apply log).runs digest = (.error failure, digest) := by
  rw [extends_iff, not_and] at refused
  unfold apply
  simp only [Work.runs_bind, Work.runs_get, Work.andThen, Work.runs_lift]
  by_cases ends : log.count = digest.lockPage
  · rw [require, if_neg (by simpa using ends)]
    exact ⟨_, rfl⟩
  · rw [require, if_pos (by simpa using ends)]
    simp only
    rw [require, if_neg (refused ends)]
    exact ⟨_, rfl⟩

/-- The hash an accepted log leaves a page. -/
def laterHash (lock : Nat) (hashes : List Bytes) (log : Commit Bytes) (p : Nat) : Bytes :=
  if p + 1 = lock then (if hashes.length < lock then lockPageHash else hashes.getD p [])
  else (log.image? (p + 1)).getD (hashes.getD p [])

omit [Crypto] in
theorem lookup_named (log : Commit Bytes) (lock count p : Nat) :
    (((log.pages.reverse.filter fun entry => 1 ≤ entry.1 ∧ entry.1 ≤ count ∧ entry.1 ≠ lock).map
      fun entry => (entry.1 - 1, entry.2)).reverse).lookup p = if p < count ∧ p + 1 ≠ lock then log.image? (p + 1) else none := by
  rw [List.filter_reverse, List.map_reverse, List.reverse_reverse, Commit.image?]
  induction log.pages with
  | nil => simp
  | cons entry rest ih =>
    obtain ⟨page, image⟩ := entry
    rw [List.filter_cons, List.lookup_cons]
    by_cases own : page = p + 1
    · subst own
      by_cases named : p < count ∧ p + 1 ≠ lock
      · rw [if_pos (by simpa using ⟨Nat.succ_le_of_lt named.1, named.2⟩), if_pos named]
        simp
      · rw [if_neg (by simpa [Nat.succ_le_iff] using named), ih, if_neg named, if_neg named]
    · have apart : (p + 1 == page) = false := by simpa using Ne.symm own
      rw [apart]
      split
      · rename_i named
        simp only [decide_eq_true_eq] at named
        have other : (p == page - 1) = false := by
          rw [beq_eq_false_iff_ne]
          omega
        rw [List.map_cons, List.lookup_cons, other, ih]
      · exact ih

theorem lockPageHash_length : lockPageHash.length = 32 := Crypto.sha256_length _

theorem patched_length : 32 * log.count ≤ (digest.patched log).length := by
  obtain ⟨pages, same, room, -⟩ := reserve_spec digest log.count
  unfold patched
  rw [same]
  simp only
  split
  · rw [copyTo_length, copies_length _ Prod.snd]
    exact room
  · rw [copies_length _ Prod.snd]
    exact room

theorem cell_patched (holds : digest.Holds hashes) (accepted : Extends digest.lockPage digest.length log)
    (images : ∀ entry ∈ log.pages, entry.2.length = 32) {p : Nat} (inside : p < log.count) :
    cell 32 (digest.patched log) p = laterHash digest.lockPage hashes log p := by
  obtain ⟨pages, same, room, kept⟩ := reserve_spec digest log.count
  have old : ∀ p, p < hashes.length → cell 32 pages p = hashes.getD p [] := by
    intro p known
    have within := Nat.mul_le_mul_left 32 (Nat.succ_le_of_lt known)
    have own := holds.pages p known
    rw [kept p (Nat.le_trans within holds.room), List.getD_eq_getElem?_getD, own, Option.getD_some]
  have written : ∀ p, p < log.count → cell 32 ((log.pages.reverse.filter fun entry => 1 ≤ entry.1 ∧ entry.1 ≤ log.count ∧
      entry.1 ≠ digest.lockPage).foldl (fun pages entry => copyTo entry.2 pages (32 * (entry.1 - 1))) pages) p =
      (if p < log.count ∧ p + 1 ≠ digest.lockPage then log.image? (p + 1) else none).getD (cell 32 pages p) := by
    intro p inside
    have copies := @cell_copies _ pages 32 ((log.pages.reverse.filter fun entry => 1 ≤ entry.1 ∧ entry.1 ≤ log.count ∧
      entry.1 ≠ digest.lockPage).map fun entry => (entry.1 - 1, entry.2)) (by
        intro own member
        obtain ⟨entry, filtered, rfl⟩ := List.mem_map.mp member
        obtain ⟨held, named⟩ := List.mem_filter.mp filtered
        simp only [decide_eq_true_eq] at named
        exact ⟨by simp only; omega, images entry (List.mem_reverse.mp held)⟩) p
    rw [lookup_named, List.foldl_map] at copies
    exact copies
  have known : p + 1 ≠ digest.lockPage → log.image? (p + 1) = none → p < hashes.length := by
    intro unlocked lacks
    obtain known | added := Nat.lt_or_ge p hashes.length
    · exact known
    · have own := accepted.2 p inside (by rw [holds.length]; exact added) unlocked
      rw [lacks] at own
      cases own
  unfold patched laterHash
  rw [same, holds.length]
  simp only
  by_cases lock : p + 1 = digest.lockPage
  · rw [if_pos lock]
    split
    · rename_i enters
      rw [if_pos enters.1, ← lock, Nat.add_sub_cancel, cell_copyTo (by
        rw [copies_length _ Prod.snd]
        exact Nat.le_trans (Nat.mul_le_mul_left 32 (Nat.succ_le_of_lt inside)) room) lockPageHash_length, if_pos rfl]
    · rename_i stays
      have fresh : ¬ hashes.length < digest.lockPage := fun fresh => stays ⟨fresh, by omega⟩
      rw [if_neg fresh, written p inside, if_neg (by simp [lock]), Option.getD_none, old p (by omega)]
  · have own : (log.image? (p + 1)).getD (cell 32 pages p) = (log.image? (p + 1)).getD (hashes.getD p []) := by
      cases lacks : log.image? (p + 1) with
      | none => rw [Option.getD_none, Option.getD_none, old p (known lock lacks)]
      | some image => rfl
    rw [if_neg lock, ← own]
    split
    · rename_i enters
      rw [cell_copyTo (by
        rw [copies_length _ Prod.snd]
        refine Nat.le_trans (Nat.mul_le_mul_left 32 ?_) room
        omega) lockPageHash_length, if_neg (by omega), written p inside, if_pos ⟨inside, lock⟩]
    · rw [written p inside, if_pos ⟨inside, lock⟩]

theorem laterHash_length (holds : digest.Holds hashes) (accepted : Extends digest.lockPage digest.length log)
    (images : ∀ entry ∈ log.pages, entry.2.length = 32) {p : Nat} (inside : p < log.count) :
    (laterHash digest.lockPage hashes log p).length = 32 := by
  rw [← cell_patched holds accepted images inside]
  refine cell_length (Nat.le_trans (Nat.mul_le_mul_left 32 (Nat.succ_le_of_lt inside)) patched_length)

/-- A page whose group no change touched has the hash it had. -/
theorem untouched (holds : digest.Holds hashes) (accepted : Extends digest.lockPage digest.length log) {p : Nat} (inside : p < log.count)
    (outside : p / pageGroup ∉ digest.touched log) : hashes[p]? = some (laterHash digest.lockPage hashes log p) := by
  have known : ∀ p, p < hashes.length → hashes[p]? = some (hashes.getD p []) := fun p known => by
    rw [List.getD_eq_getElem _ _ known, List.getElem?_eq_getElem known]
  unfold laterHash
  unfold touched at outside
  by_cases lock : p + 1 = digest.lockPage
  · have stays : ¬ hashes.length < digest.lockPage := by
      intro fresh
      refine outside ?_
      rw [if_pos ⟨by rw [holds.length]; exact fresh, by omega⟩, ← lock, Nat.add_sub_cancel]
      exact List.mem_append_right _ List.mem_cons_self
    rw [if_pos lock, if_neg stays]
    exact known p (by omega)
  · rw [if_neg lock]
    cases held : log.image? (p + 1) with
    | some image =>
      refine absurd ?_ outside
      have entry : p / pageGroup ∈ (log.pages.reverse.filter fun entry => 1 ≤ entry.1 ∧ entry.1 ≤ log.count ∧
          entry.1 ≠ digest.lockPage).map fun entry => (entry.1 - 1) / pageGroup :=
        List.mem_map.mpr ⟨(p + 1, image), List.mem_filter.mpr ⟨List.mem_reverse.mpr (Commit.image?_mem held), by simp [lock]; omega⟩,
          by rw [Nat.add_sub_cancel]⟩
      split
      · exact List.mem_append_left _ entry
      · exact entry
    | none =>
      obtain before | added := Nat.lt_or_ge p hashes.length
      · exact known p before
      · have own := accepted.2 p inside (by rw [holds.length]; exact added) lock
        rw [held] at own
        cases own

/-- A log applied leaves the digest holding each page's later hash. -/
theorem Holds.apply (holds : digest.Holds hashes) (accepted : Extends digest.lockPage digest.length log)
    (images : ∀ entry ∈ log.pages, entry.2.length = 32) :
    (({ digest with pages := digest.patched log } : PageBuffer).regroup log.count (digest.touched log)).Holds
      ((List.range log.count).map (laterHash digest.lockPage hashes log)) := by
  have length : ((List.range log.count).map (laterHash digest.lockPage hashes log)).length = log.count := by
    rw [List.length_map, List.length_range]
  have each : ∀ p, p < log.count → ((List.range log.count).map (laterHash digest.lockPage hashes log))[p]? =
      some (laterHash digest.lockPage hashes log p) := fun p inside => by
    rw [List.getElem?_map, List.getElem?_range inside, Option.map_some]
  refine holds.regroup length ?_ (by rw [length]; exact patched_length) (fun p inside => ?_) (fun p inside outside => ?_)
  · intro own member
    obtain ⟨p, inside, rfl⟩ := List.mem_map.mp member
    exact laterHash_length holds accepted images (List.mem_range.mp inside)
  · rw [length] at inside
    rw [each p inside, cell_patched holds accepted images inside]
  · rw [length] at inside
    rw [each p inside]
    exact untouched holds accepted inside outside

theorem hashOf_length {file : Bytes} {p : Nat} : (digest.hashOf file p).length = 32 := by
  rw [hashOf]
  split
  · exact lockPageHash_length
  · exact Crypto.sha256_length _

theorem new_holds {size lockByte : Nat} : (new size lockByte).Holds [] :=
  ⟨rfl, Nat.zero_le _, fun _ member => absurd member List.not_mem_nil, fun i inside => absurd inside (Nat.not_lt_zero i), rfl⟩

/-- A closed file's digest holds each page's hash. -/
theorem of_holds {size lockByte : Nat} {file : Bytes} :
    (of size lockByte file).Holds ((List.range (pageCount size file)).map ((new size lockByte).hashOf file)) := by
  obtain ⟨pages, same, room, -⟩ := reserve_spec (new size lockByte) (pageCount size file)
  have length : ((List.range (pageCount size file)).map ((new size lockByte).hashOf file)).length = pageCount size file := by
    rw [List.length_map, List.length_range]
  unfold of
  simp only [same]
  refine new_holds.regroup length ?_ ?_ (fun p inside => ?_) (fun p inside outside => ?_)
  · intro own member
    obtain ⟨p, -, rfl⟩ := List.mem_map.mp member
    exact hashOf_length
  · rw [length, copies_length]
    exact room
  · rw [length] at inside
    have copies := @cell_copies _ pages 32 ((List.range (pageCount size file)).map fun p => (p, (new size lockByte).hashOf file p)) (by
      intro entry member
      obtain ⟨p, within, rfl⟩ := List.mem_map.mp member
      exact ⟨Nat.le_trans (Nat.mul_le_mul_left 32 (Nat.succ_le_of_lt (List.mem_range.mp within))) room, hashOf_length⟩) p
    have lastly : ((List.range (pageCount size file)).map fun p => (p, (new size lockByte).hashOf file p)).reverse.lookup p =
        some ((new size lockByte).hashOf file p) :=
      (WriteAhead.lookup_reverse id ((new size lockByte).hashOf file)).mpr ⟨p, inside, rfl, rfl, fun j _ after equal => by
        simp only [id_eq] at equal
        omega⟩
    rw [lastly, Option.getD_some, List.foldl_map] at copies
    rw [List.getElem?_map, List.getElem?_range inside, Option.map_some, ← copies]
    rfl
  · rw [length] at inside
    exact absurd (List.mem_range.mpr (groupCount_lt inside)) outside

theorem of_scope {size lockByte : Nat} {file : Bytes} :
    (of size lockByte file).pageSize = size ∧ (of size lockByte file).lockPage = lockByte / size + 1 := by
  obtain ⟨pages, same, -⟩ := reserve_spec (new size lockByte) (pageCount size file)
  unfold of
  simp only [same]
  exact ⟨rfl, rfl⟩

/-- A root is of the page size and the hashes held. -/
theorem Holds.root {next : PageBuffer} (holds : digest.Holds hashes) (holds' : next.Holds hashes) (size : digest.pageSize = next.pageSize) :
    digest.root = next.root := by
  rw [PageBuffer.root, PageBuffer.root, size, holds.length, holds'.length, holds.grouped, holds'.grouped]

/-- The file a log is checkpointed into; a log no digest of the file takes is not. -/
def checkpoint (size lockByte : Nat) (file : Bytes) (log : Commit Bytes) : Bytes :=
  if Extends (lockByte / size + 1) (pageCount size file) log then recovered size log file else file

/-- A keep point's digest, from the log's page images by their hashes. -/
def keep (digest : PageBuffer) (log : Commit Bytes) : PageBuffer := ((apply (log.map sha256)).runs digest).2

/-- A log holds images of one page each. -/
def Paged (size : Nat) (log : Commit Bytes) : Prop := ∀ entry ∈ log.pages, entry.2.length = size

omit [Crypto] in
theorem extends_map {lock known : Nat} (f : Bytes → Bytes) : Extends lock known (log.map f) ↔ Extends lock known log := by
  unfold Extends
  simp only [Commit.image?_map, Option.isSome_map]
  exact Iff.rfl

/-- The later hashes are those of the file the log is checkpointed into. -/
theorem laterHash_recovered {size lockByte : Nat} {file : Bytes} {known : Nat} (whole : file.length = known * size)
    (paged : Paged size log) (accepted : Extends (lockByte / size + 1) known log) :
    (List.range log.count).map (laterHash (lockByte / size + 1) ((List.range known).map ((new size lockByte).hashOf file)) (log.map sha256)) =
      (List.range log.count).map ((new size lockByte).hashOf (recovered size log file)) := by
  refine List.map_congr_left fun p member => ?_
  have inside := List.mem_range.mp member
  have held : ∀ p, p < known → ((List.range known).map ((new size lockByte).hashOf file)).getD p [] = (new size lockByte).hashOf file p := by
    intro p within
    rw [List.getD_eq_getElem?_getD, List.getElem?_map, List.getElem?_range within]
    rfl
  rw [laterHash, List.length_map, List.length_range, hashOf, Commit.image?_map]
  change (if p + 1 = lockByte / size + 1 then _ else _) = if p + 1 = lockByte / size + 1 then _ else sha256 (pageAt size _ p)
  by_cases lock : p + 1 = lockByte / size + 1
  · rw [if_pos lock, if_pos lock]
    split
    · rfl
    · rw [held p (by omega), hashOf]
      exact if_pos lock
  · rw [if_neg lock, if_neg lock]
    cases found : log.image? (p + 1) with
    | some image => rw [Option.map_some, Option.getD_some, pageAt_recovered inside found (paged _ (Commit.image?_mem found))]
    | none =>
      have before : p < known := by
        obtain before | added := Nat.lt_or_ge p known
        · exact before
        · have own := accepted.2 p inside added lock
          rw [found] at own
          cases own
      rw [Option.map_none, Option.getD_none, held p before, hashOf]
      refine (if_neg lock).trans ?_
      rw [pageAt_recovered_kept inside found (by rw [whole]; exact Nat.mul_le_mul_right size (Nat.succ_le_of_lt before))]
      rfl

/-- What a digest kept beside a file of whole pages is: the hashes of that file's pages. -/
structure Beside (size lockByte : Nat) (file : Bytes) (digest : PageBuffer) : Prop where
  whole : file.length = pageCount size file * size
  holds : digest.Holds ((List.range (pageCount size file)).map ((new size lockByte).hashOf file))
  pageSize : digest.pageSize = size
  lockPage : digest.lockPage = lockByte / size + 1

variable {size lockByte : Nat} {file : Bytes}

theorem Beside.of (positive : 0 < size) (whole : file.length = count * size) : Beside size lockByte file (of size lockByte file) :=
  ⟨by rw [pageCount_of_length positive whole, whole], of_holds, of_scope.1, of_scope.2⟩

/-- A log checkpointed into the file and applied to the digest leaves the digest beside the file. -/
theorem Beside.keep (beside : Beside size lockByte file digest) (positive : 0 < size) (paged : Paged size log) :
    Beside size lockByte (checkpoint size lockByte file log) (digest.keep log) := by
  have known : digest.length = pageCount size file := by
    rw [beside.holds.length, List.length_map, List.length_range]
  have scope : Extends digest.lockPage digest.length (log.map sha256) ↔ Extends (lockByte / size + 1) (pageCount size file) log := by
    rw [extends_map, beside.lockPage, known]
  by_cases accepted : Extends (lockByte / size + 1) (pageCount size file) log
  · have taken := scope.mpr accepted
    have images : ∀ entry ∈ (log.map sha256).pages, entry.2.length = 32 := by
      intro own member
      obtain ⟨entry, -, rfl⟩ := List.mem_map.mp member
      exact Crypto.sha256_length _
    have later := beside.holds.apply taken images
    have counted : pageCount size (recovered size log file) = log.count := pageCount_of_length positive recovered_length
    have same := laterHash_recovered beside.whole paged accepted
    rw [← beside.lockPage] at same
    rw [PageBuffer.keep, apply_runs taken, checkpoint, if_pos accepted]
    refine ⟨by rw [counted, recovered_length], ?_, beside.pageSize, beside.lockPage⟩
    rw [counted, ← same]
    exact later
  · obtain ⟨failure, run⟩ := apply_refused fun taken => accepted (scope.mp taken)
    rw [PageBuffer.keep, run, checkpoint, if_neg accepted]
    exact beside

theorem Beside.keeps {logs : List (Commit Bytes)} (beside : Beside size lockByte file digest) (positive : 0 < size)
    (paged : ∀ log ∈ logs, Paged size log) :
    Beside size lockByte (logs.foldl (checkpoint size lockByte) file) (logs.foldl PageBuffer.keep digest) := by
  induction logs generalizing file digest with
  | nil => exact beside
  | cons log rest ih =>
    obtain ⟨first, others⟩ := List.forall_mem_cons.mp paged
    exact ih (beside.keep positive first) others

end PageBuffer

open PageBuffer in
/-- From a file of whole pages, the digest that log after log updates is the one taken of the file they are checkpointed into; a log is
taken where it does not end on the lock-byte page and holds every other page it adds, and one refused leaves the digest as it was. -/
theorem pageDigest_incremental {size lockByte count : Nat} {file : Bytes} {logs : List (Commit Bytes)} (positive : 0 < size)
    (whole : file.length = count * size) (paged : ∀ log ∈ logs, Paged size log) :
    (logs.foldl keep (PageBuffer.of size lockByte file)).root =
        (PageBuffer.of size lockByte (logs.foldl (checkpoint size lockByte) file)).root ∧
      ∀ (digest : PageBuffer) (log : Commit Bytes),
        (Extends digest.lockPage digest.length log → ((apply log).runs digest).1 = .ok ()) ∧
        (¬ Extends digest.lockPage digest.length log → ∃ failure, (apply log).runs digest = (.error failure, digest)) := by
  have first : Beside size lockByte file (PageBuffer.of size lockByte file) := Beside.of positive whole
  have beside := first.keeps positive paged
  refine ⟨beside.holds.root of_holds (by rw [beside.pageSize, of_scope.1]), fun digest log => ⟨fun accepted => ?_, apply_refused⟩⟩
  rw [apply_runs accepted]

end

section Samples

local instance bufferCrypto : Crypto := sampleCrypto

/-- A log that adds a page past a file's first. -/
def sampleAdding : Commit Bytes := ⟨[(2, [1, 2])], 2⟩

/-- A log that cuts the file to a page. -/
def sampleCutting : Commit Bytes := ⟨[(1, [3, 4])], 1⟩

open PageBuffer in
theorem pageDigest_incremental_sample :
    ([sampleAdding, sampleCutting, sampleAdding].foldl keep (PageBuffer.of 2 2 [5, 6])).root =
        (PageBuffer.of 2 2 ([sampleAdding, sampleCutting, sampleAdding].foldl (checkpoint 2 2) [5, 6])).root ∧
      ∀ (digest : PageBuffer) (log : Commit Bytes),
        (Extends digest.lockPage digest.length log → ((apply log).runs digest).1 = .ok ()) ∧
        (¬ Extends digest.lockPage digest.length log → ∃ failure, (apply log).runs digest = (.error failure, digest)) :=
  pageDigest_incremental (by omega) (by decide : [5, 6].length = 1 * 2) (by simp [Paged, sampleAdding, sampleCutting])

open PageBuffer in
/-- A short last page is hashed as it lies; a log that adds the page past it has it filled in the file, and its hash left. -/
theorem pageDigest_short_page : Paged 2 sampleAdding ∧ Extends (PageBuffer.of 2 100 [7]).lockPage (PageBuffer.of 2 100 [7]).length sampleAdding ∧
    checkpoint 2 100 [7] sampleAdding = recovered 2 sampleAdding [7] ∧
    (keep (PageBuffer.of 2 100 [7]) sampleAdding).root ≠ (PageBuffer.of 2 100 (recovered 2 sampleAdding [7])).root := by
  refine ⟨by simp [Paged, sampleAdding], ?_, ?_, ?_⟩
  · decide +kernel
  · decide +kernel
  · decide +kernel

end Samples

end Moe
