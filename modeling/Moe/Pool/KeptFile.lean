import Moe.Pool.PageDigest

namespace Moe

open WriteAhead

def schemaVersion : Nat := 13

/-- A closed database file's page size from its header, or none where it names none. -/
def headerPageSize (file : Bytes) : Option Nat :=
  let raw := ofBytes ((file.drop 16).take 2)
  let size := if raw = 1 then 65536 else raw
  if 18 ≤ file.length ∧ 512 ≤ size ∧ size &&& (size - 1) = 0 then some size else none

/-- What `PRAGMA user_version` answers of a closed file. -/
def userVersion (file : Bytes) : Nat := readUInt32BE file 60

/-- The digest file's text: the page digest and the kept file's identity. -/
structure Vouched where
  root : Bytes
  identity : Bytes
deriving DecidableEq, Repr

/-- A kept file's files on disk: itself under its identity, its write-ahead log, a rollback journal (as the file it is played into) and
the digest recorded last. -/
structure KeptDisk where
  file : Option Bytes
  identity : Bytes
  log : Option Bytes
  journal : Option Bytes
  digest : Option Vouched
deriving DecidableEq, Repr

/-- What a log beside a file of this page size commits. -/
def KeptDisk.commits (disk : KeptDisk) (pageSize : Nat) : Option (Commit Bytes) := disk.log.bind (committedImages · pageSize)

/-- The file as it lies once the database has opened it: a rollback journal is played into it, and what its log commits moved in. -/
def KeptDisk.opened (disk : KeptDisk) (file : Bytes) : Bytes :=
  let played := disk.journal.getD file
  match headerPageSize played with
  | none => played
  | some size => match disk.commits size with
    | none => played
    | some log => recovered size log played

theorem headerPageSize_eq_some {file : Bytes} {size : Nat} : headerPageSize file = some size ↔
    18 ≤ file.length ∧ 512 ≤ size ∧ size &&& (size - 1) = 0 ∧
      size = if ofBytes [file.getD 16 0, file.getD 17 0] = 1 then 65536 else ofBytes [file.getD 16 0, file.getD 17 0] := by
  unfold headerPageSize
  by_cases long : 18 ≤ file.length
  · have word : (file.drop 16).take 2 = [file.getD 16 0, file.getD 17 0] := by
      rw [List.drop_eq_getElem_cons (by omega), List.drop_eq_getElem_cons (by omega), List.getD_eq_getElem _ _ (by omega),
        List.getD_eq_getElem _ _ (by omega)]
      rfl
    simp only [word]
    generalize (if ofBytes [file.getD 16 0, file.getD 17 0] = 1 then 65536 else ofBytes [file.getD 16 0, file.getD 17 0]) = own
    constructor
    · intro headed
      split at headed
      · rename_i holds
        obtain rfl := Option.some.inj headed
        exact ⟨long, holds.2.1, holds.2.2, rfl⟩
      · cases headed
    · rintro ⟨-, least, power, rfl⟩
      exact if_pos ⟨long, least, power⟩
  · simp [long]

theorem headerPageSize_range {file : Bytes} {size : Nat} (headed : headerPageSize file = some size) : 512 ≤ size ∧ size ≤ 65536 := by
  obtain ⟨-, least, -, same⟩ := headerPageSize_eq_some.mp headed
  have bound := ofBytes_lt [file.getD 16 0, file.getD 17 0]
  simp only [List.length_cons, List.length_nil] at bound
  refine ⟨least, ?_⟩
  split at same <;> omega

/-- A header's two bytes are all its page size is read from. -/
theorem headerPageSize_bytes {file other : Bytes} {size : Nat} (headed : headerPageSize file = some size)
    (headed' : headerPageSize other = some size) : file.getD 16 0 = other.getD 16 0 ∧ file.getD 17 0 = other.getD 17 0 := by
  obtain ⟨-, least, -, same⟩ := headerPageSize_eq_some.mp headed
  obtain ⟨-, -, -, same'⟩ := headerPageSize_eq_some.mp headed'
  have bound := ofBytes_lt [file.getD 16 0, file.getD 17 0]
  have bound' := ofBytes_lt [other.getD 16 0, other.getD 17 0]
  simp only [List.length_cons, List.length_nil] at bound bound'
  have raw : ofBytes [file.getD 16 0, file.getD 17 0] = ofBytes [other.getD 16 0, other.getD 17 0] := by
    split at same <;> split at same' <;> omega
  have bytes : [file.getD 16 0, file.getD 17 0] = [other.getD 16 0, other.getD 17 0] :=
    (toBytes_ofBytes [file.getD 16 0, file.getD 17 0]).symm.trans
      ((congrArg (toBytes 2) raw).trans (toBytes_ofBytes [other.getD 16 0, other.getD 17 0]))
  simpa using bytes

/-- A file stopped between two of one page size has it. -/
theorem headerPageSize_torn {file torn : Bytes} {size : Nat} {log : Commit Bytes} (headed : headerPageSize file = some size)
    (after : headerPageSize (recovered size log file) = some size)
    (stopped : Torn (log.byteAt size) 0 (log.count * size) file torn) : headerPageSize torn = some size := by
  have bytes := headerPageSize_bytes headed after
  obtain ⟨long, least, power, same⟩ := headerPageSize_eq_some.mp headed
  obtain ⟨long', -, -, -⟩ := headerPageSize_eq_some.mp after
  rw [recovered_length] at long'
  have kept : ∀ i, i < 18 → file.getD i 0 = (recovered size log file).getD i 0 → torn.getD i 0 = file.getD i 0 := by
    intro i low own
    obtain held | put := stopped.cell (by omega : i < log.count * size)
    · exact held
    · rw [own, recovered, overlay_getD (by omega), put, Option.getD_some]
  have length := stopped.least
  refine headerPageSize_eq_some.mpr ⟨by omega, least, power, ?_⟩
  rw [kept 16 (by omega) bytes.1, kept 17 (by omega) bytes.2]
  exact same

section

variable [Crypto]

def vouched (identity : Bytes) (pages : PageDigest) : Vouched := ⟨pages.root, identity⟩

/-- The file's pages as it lies, where its log holds a commit and the digest names the file without it. -/
def KeptDisk.lying (disk : KeptDisk) (file : Bytes) : Option PageDigest :=
  match headerPageSize file, disk.digest with
  | some raw, some named =>
    if (committedLog disk.log raw).isSome ∧ named = vouched disk.identity (.of raw file) then some (.of raw file) else none
  | _, _ => none

/-- The log is dropped where the file without it is the one vouched for. -/
def KeptDisk.kept (disk : KeptDisk) (file : Bytes) : KeptDisk :=
  if (disk.lying file).isSome then { disk with log := none } else disk

/-- A kept file's page digest where it may be reused, and its files after the opening. -/
def keptFileHolds (disk : KeptDisk) : Option PageDigest × KeptDisk :=
  match disk.file with
  | none => (none, disk)
  | some file =>
    let dropped := disk.lying file
    let moved := (disk.kept file).opened file
    let closed := { disk with file := some moved, log := none, journal := none }
    match headerPageSize moved, disk.digest with
    | some size, some named =>
      let pages := match dropped with
        | some lying => if disk.journal.isNone ∧ lying.pageSize = size then lying else .of size moved
        | none => .of size moved
      if userVersion moved = schemaVersion ∧ named = vouched disk.identity pages then (some pages, closed) else (none, closed)
    | _, _ => (none, closed)

variable {disk : KeptDisk} {file : Bytes} {size : Nat} {pages : PageDigest}

theorem KeptDisk.lying_eq_some : disk.lying file = some pages ↔ ∃ raw, headerPageSize file = some raw ∧ (committedLog disk.log raw).isSome ∧
    disk.digest = some (vouched disk.identity (.of raw file)) ∧ pages = .of raw file := by
  unfold lying
  cases headed : headerPageSize file with
  | none => simp
  | some raw =>
    cases named : disk.digest with
    | none => simp
    | some text =>
      simp only [Option.some.injEq, exists_eq_left']
      split
      · rename_i holds
        simp only [holds, Option.some.injEq, true_and]
        exact ⟨Eq.symm, Eq.symm⟩
      · rename_i fails
        simp only [reduceCtorEq, false_iff, not_and]
        exact fun commits same => absurd ⟨commits, same⟩ fails

/-- What is opened is closed without log or journal. -/
def KeptDisk.closed (disk : KeptDisk) (file : Bytes) : KeptDisk :=
  { disk with file := some ((disk.kept file).opened file), log := none, journal := none }

/-- An opening is accepted exactly where the recorded digest names the file as it is then closed, at this layout. -/
theorem keptFileHolds_eq (present : disk.file = some file) : keptFileHolds disk =
    ((headerPageSize ((disk.kept file).opened file)).bind fun size =>
      if userVersion ((disk.kept file).opened file) = schemaVersion ∧
          disk.digest = some (vouched disk.identity (.of size ((disk.kept file).opened file))) then
        some (.of size ((disk.kept file).opened file)) else none, disk.closed file) := by
  unfold keptFileHolds KeptDisk.closed
  simp only [present]
  cases headed : headerPageSize ((disk.kept file).opened file) with
  | none => rfl
  | some size =>
    cases named : disk.digest with
    | none => simp
    | some text =>
      have hashed : ∀ lying, disk.lying file = some lying →
          (if disk.journal.isNone ∧ lying.pageSize = size then lying else PageDigest.of size ((disk.kept file).opened file)) =
            PageDigest.of size ((disk.kept file).opened file) := by
        intro lying lies
        split
        · rename_i unplayed
          obtain ⟨raw, header, -, -, rfl⟩ := KeptDisk.lying_eq_some.mp lies
          obtain ⟨unplayed, rfl⟩ := unplayed
          have dropped : (disk.kept file).opened file = file := by
            simp [KeptDisk.kept, lies, KeptDisk.opened, KeptDisk.commits, Option.isNone_iff_eq_none.mp unplayed, header]
          rw [dropped]
          rfl
        · rfl
      cases lies : disk.lying file with
      | none =>
        simp only [Option.some.injEq, Option.bind_some]
        split <;> rfl
      | some lying =>
        simp only [hashed lying lies, Option.some.injEq, Option.bind_some]
        split <;> rfl

/-- What an accepted opening found. -/
theorem keptFileHolds_accepts {closed : KeptDisk} (held : keptFileHolds disk = (some pages, closed)) : ∃ file size,
    disk.file = some file ∧ closed = disk.closed file ∧ headerPageSize ((disk.kept file).opened file) = some size ∧
      userVersion ((disk.kept file).opened file) = schemaVersion ∧ pages = .of size ((disk.kept file).opened file) ∧
        disk.digest = some (vouched disk.identity pages) := by
  cases present : disk.file with
  | none =>
    rw [keptFileHolds] at held
    simp [present] at held
  | some file =>
    rw [keptFileHolds_eq present, Prod.mk.injEq, Option.bind_eq_some_iff] at held
    obtain ⟨⟨size, headed, found⟩, rfl⟩ := held
    split at found
    · rename_i holds
      obtain rfl := Option.some.inj found
      exact ⟨file, size, rfl, rfl, headed, holds.1, rfl, holds.2⟩
    · cases found

/-- An opening whose file, once opened, is the one vouched for is accepted. -/
theorem keptFileHolds_of_opened (present : disk.file = some file) (headed : headerPageSize ((disk.kept file).opened file) = some size)
    (version : userVersion ((disk.kept file).opened file) = schemaVersion)
    (named : disk.digest = some (vouched disk.identity (.of size ((disk.kept file).opened file)))) :
    keptFileHolds disk = (some (.of size ((disk.kept file).opened file)), disk.closed file) := by
  rw [keptFileHolds_eq present, headed, Option.bind_some, if_pos ⟨version, named⟩]

end

end Moe
