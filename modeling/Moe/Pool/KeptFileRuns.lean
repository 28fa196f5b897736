import Moe.Pool.KeptFile

namespace Moe

open WriteAhead

/-- A state a digest was recorded of: whole pages at this layout, not ending on the lock-byte page. -/
structure Laid (size : Nat) (state : Bytes) : Prop where
  headed : headerPageSize state = some size
  version : userVersion state = schemaVersion
  paged : ∃ count, state.length = count * size ∧ count < 2 ^ 32 ∧ count ≠ lockPage size

inductive KeptPhase
  | idle | moving
  deriving DecidableEq, Repr

/-- A store open on a kept file: the file as it lies, its log's frames up to the last commit and after it, the page hashes it knows,
and the content its recorded digest was recorded of. -/
structure KeptRun where
  size : Nat
  header : WalHeader
  identity : Bytes
  file : Bytes
  settled : List (WriteFrame Bytes)
  pending : List (WriteFrame Bytes)
  known : PageDigest
  digest : Option Vouched
  state : Option Bytes
  phase : KeptPhase

namespace KeptRun

def log (s : KeptRun) : Commit Bytes := (WriteAhead.committed s.settled).getD ⟨[], 0⟩

/-- What a reader of the store sees committed. -/
def content (s : KeptRun) : Bytes := ((WriteAhead.committed s.settled).map fun log => recovered s.size log s.file).getD s.file

/-- A new file, no digest recorded of it yet. -/
structure Fresh (s : KeptRun) : Prop where
  headed : headerPageSize s.file = some s.size
  settled : s.settled = []
  pending : s.pending = []
  known : s.known = .new s.size
  digest : s.digest = none
  state : s.state = none
  phase : s.phase = .idle

/-- What a crash leaves on disk: every frame of a commit, and any bytes of what was being written after, a commit's last frame never
whole before the commit. -/
structure Crashed (s : KeptRun) (disk : KeptDisk) : Prop where
  file : disk.file = some s.file
  identity : disk.identity = s.identity
  digest : disk.digest = s.digest
  journal : disk.journal = none
  log : (s.settled = [] ∧ disk.log = none) ∨ ∃ flight n, flight.length ≤ 1 ∧ (∀ frame ∈ flight, frame.Framed s.size) ∧
    (s.settled = [] ∨ (writeLog s.header s.size s.settled).length ≤ n) ∧
      (flight = [] ∨ n < (writeLog s.header s.size (s.settled ++ s.pending ++ flight)).length) ∧
        disk.log = some ((writeLog s.header s.size (s.settled ++ s.pending ++ flight)).take n)

end KeptRun

/-- A kept file between openings, or a store open on it. Closed, whether its close moved in a commit no digest names. -/
inductive KeptState
  | opened (s : KeptRun)
  | closed (state : Option Bytes) (strayed : Bool) (disk : KeptDisk)

section

variable [Crypto]

/-- The steps of a store open on its kept file. A digest is recorded of what the log commits, from the page hashes known, before the
log is moved into the file; a move may be stopped at any byte. -/
inductive KeptStep : KeptRun → KeptRun → Prop
  | write {s : KeptRun} {frame : WriteFrame Bytes} : s.phase = .idle → frame.Framed s.size → frame.after = 0 →
      KeptStep s { s with pending := s.pending ++ [frame] }
  | rollback {s : KeptRun} : s.phase = .idle → KeptStep s { s with pending := [] }
  | commit {s : KeptRun} {frame : WriteFrame Bytes} : s.phase = .idle → frame.Framed s.size → frame.after ≠ 0 →
      KeptStep s { s with settled := s.settled ++ s.pending ++ [frame], pending := [] }
  | unrecorded {s : KeptRun} {log : Commit Bytes} {pages : PageDigest} : s.phase = .idle → WriteAhead.committed s.settled = some log →
      s.known.apply (log.map sha256) = .ok pages → KeptStep s { s with known := pages }
  | record {s : KeptRun} {log : Commit Bytes} {pages : PageDigest} : s.phase = .idle → WriteAhead.committed s.settled = some log →
      headerPageSize s.content = some s.size → userVersion s.content = schemaVersion → s.known.apply (log.map sha256) = .ok pages →
      KeptStep s { s with known := pages, digest := some (vouched s.identity pages), state := some s.content, phase := .moving }
  | move {s : KeptRun} {file : Bytes} : s.phase = .moving → Torn (s.log.byteAt s.size) 0 (s.log.count * s.size) s.file file →
      KeptStep s { s with file }
  | moved {s : KeptRun} (header : WalHeader) : s.phase = .moving →
      KeptStep s { s with header, file := s.content, settled := [], pending := [], phase := .idle }

/-- No two frames of a state's digest and a file's collide. -/
def KeptApart (state : Option Bytes) (pageSize : Nat) (file : Bytes) : Prop :=
  ∀ V size, state = some V → headerPageSize V = some size → HashesApart (digestFrames size V) (digestFrames pageSize file)

/-- The states of a kept file's life from its making: its store's steps, crashes at any of them, closes (the last moving in a commit
whose digest could not be recorded), and openings, themselves stopped anywhere, that meet no collision. -/
inductive KeptReached : KeptState → Prop
  | starts {s : KeptRun} : s.Fresh → KeptReached (.opened s)
  | steps {s t : KeptRun} : KeptReached (.opened s) → KeptStep s t → KeptReached (.opened t)
  | crashes {s : KeptRun} {disk : KeptDisk} : KeptReached (.opened s) → s.Crashed disk → KeptReached (.closed s.state false disk)
  | strays {s : KeptRun} : KeptReached (.opened s) → s.phase = .idle →
      KeptReached (.closed s.state true ⟨some s.content, s.identity, none, none, s.digest⟩)
  | drops {state : Option Bytes} {strayed : Bool} {disk : KeptDisk} {file : Bytes} {lying : PageDigest} :
      KeptReached (.closed state strayed disk) → disk.file = some file → disk.lying file = some lying →
      KeptApart state lying.pageSize file → KeptReached (.closed state strayed { disk with log := none })
  | stops {state : Option Bytes} {strayed : Bool} {disk : KeptDisk} {file torn : Bytes} {size : Nat} {log : Commit Bytes} :
      KeptReached (.closed state strayed disk) → disk.file = some file → disk.lying file = none → headerPageSize file = some size →
      disk.commits size = some log → Torn (log.byteAt size) 0 (log.count * size) file torn →
      KeptReached (.closed state strayed { disk with file := some torn })
  | reopens {state : Option Bytes} {strayed : Bool} {disk closed : KeptDisk} {file : Bytes} {pages : PageDigest} (header : WalHeader) :
      KeptReached (.closed state strayed disk) → keptFileHolds disk = (some pages, closed) → closed.file = some file →
      KeptApart state pages.pageSize file →
      KeptReached (.opened ⟨pages.pageSize, header, disk.identity, file, [], [], pages, disk.digest, state, .idle⟩)
  | discards {state : Option Bytes} {strayed : Bool} {disk closed : KeptDisk} {s : KeptRun} :
      KeptReached (.closed state strayed disk) → keptFileHolds disk = (none, closed) → s.Fresh → KeptReached (.opened s)

/-- What holds of a store open on a kept file. -/
structure KeptRun.Ok (s : KeptRun) : Prop where
  headed : headerPageSize s.file = some s.size
  framed : ∀ frame ∈ s.settled ++ s.pending, frame.Framed s.size
  open_ : ∀ frame ∈ s.pending, frame.after = 0
  sized : s.known.pageSize = s.size
  knows : s.phase = .idle → s.known.Knows s.log s.file
  unnamed : s.state = none → s.digest = none
  named : ∀ V, s.state = some V → Laid s.size V ∧ s.digest = some ⟨(PageDigest.of s.size V).root, s.identity⟩
  idle : s.phase = .idle → ∀ V, s.state = some V → SameContent s.size V s.file
  moving : s.phase = .moving → ∃ log, WriteAhead.committed s.settled = some log ∧ s.state = some (recovered s.size log s.file) ∧
    s.known = PageDigest.of s.size (recovered s.size log s.file)

/-- A state a digest names, that a kept file's files hold: the file, whatever its log, or the file its log is moved into. -/
def KeptDisk.Holds (disk : KeptDisk) (V : Bytes) : Prop := ∃ size file, Laid size V ∧ disk.file = some file ∧ headerPageSize file = some size ∧
  disk.journal = none ∧ disk.digest = some (vouched disk.identity (.of size V)) ∧
    (SameContent size V file ∨ ∃ log, disk.commits size = some log ∧ recovered size log file = V)

/-- What holds of a kept file's files between openings. -/
structure KeptDisk.Ok (state : Option Bytes) (strayed : Bool) (disk : KeptDisk) : Prop where
  unnamed : state = none → disk.digest = none
  named : ∀ V, state = some V → ∃ size identity, Laid size V ∧ disk.digest = some ⟨(PageDigest.of size V).root, identity⟩
  holds : strayed = false → ∀ V, state = some V → disk.Holds V

variable {size : Nat} {V file torn : Bytes} {log : Commit Bytes} {s t : KeptRun} {disk : KeptDisk} {state : Option Bytes} {strayed : Bool}

theorem SameContent.of_eq (same : SameContent size V file) : PageDigest.of size V = PageDigest.of size file := by
  refine PageDigest.of_grouped.ext PageDigest.of_grouped rfl ?_
  rw [PageDigest.of_pages, PageDigest.of_pages, ← same.count]
  refine List.map_congr_left fun p member => ?_
  rw [pageHash, pageHash]
  split
  · rfl
  · rename_i unlocked
    rw [same.pages p (List.mem_range.mp member) unlocked]

omit [Crypto] in
theorem Laid.count_pos (laid : Laid size V) : 0 < pageCount size V := by
  have range := headerPageSize_range laid.headed
  have long := (headerPageSize_eq_some.mp laid.headed).1
  exact Nat.div_pos (by omega) (by omega)

omit [Crypto] in
theorem Laid.count_lt (laid : Laid size V) : pageCount size V < 2 ^ 32 := by
  have range := headerPageSize_range laid.headed
  obtain ⟨count, length, bound, -⟩ := laid.paged
  rwa [pageCount_of_length (by omega) length]

omit [Crypto] in
/-- Its last page is whole, so no other file with its pages is longer or shorter. -/
theorem SameContent.length (laid : Laid size V) (same : SameContent size V file) : file.length = V.length := by
  have range := headerPageSize_range laid.headed
  have some_ := laid.count_pos
  obtain ⟨count, length, -, unlocked⟩ := laid.paged
  have counted := pageCount_of_length (by omega) length
  have other := same.count
  obtain ⟨last, rfl⟩ : ∃ last, count = last + 1 := ⟨count - 1, by omega⟩
  have page := congrArg List.length (same.pages last (by omega) unlocked)
  simp only [pageAt, List.length_take, List.length_drop, length, Nat.succ_mul] at page
  rw [counted, pageCount] at other
  have most : file.length + size - 1 < (last + 1 + 1) * size := (Nat.div_lt_iff_lt_mul (by omega)).mp (by omega)
  rw [Nat.succ_mul, Nat.succ_mul] at most
  rw [length, Nat.succ_mul]
  omega

omit [Crypto] in
/-- The first page is never the lock-byte page: a file with a state's pages has its layout. -/
theorem SameContent.laid (laid : Laid size V) (same : SameContent size V file) : Laid size file := by
  have range := headerPageSize_range laid.headed
  have length := same.length laid
  have lock : 0 + 1 ≠ lockPage size := by
    have positive : 0 < lockByte / size := Nat.div_pos (by simp only [lockByte]; omega) (by omega)
    simp only [lockPage]
    omega
  have page := same.pages 0 laid.count_pos lock
  simp only [pageAt, Nat.zero_mul, List.drop_zero] at page
  have cell : ∀ i, i < size → V.getD i 0 = file.getD i 0 := by
    intro i inside
    have own := congrArg (·.getD i 0) page
    simpa [List.getD_eq_getElem?_getD, List.getElem?_take_of_lt inside] using own
  obtain ⟨long, least, power, sized⟩ := headerPageSize_eq_some.mp laid.headed
  refine ⟨headerPageSize_eq_some.mpr ⟨by omega, least, power, ?_⟩, ?_, length ▸ laid.paged⟩
  · rw [← cell 16 (by omega), ← cell 17 (by omega)]
    exact sized
  · have word : ∀ bytes : Bytes, ((bytes.take size).drop 60).take 4 = (bytes.drop 60).take 4 := by
      intro bytes
      rw [List.drop_take, List.take_take, Nat.min_eq_left (by omega)]
    rw [← laid.version, userVersion, userVersion, readUInt32BE, readUInt32BE, ← word file, ← page, word V]

omit [Crypto] in
theorem SameContent.refl (file : Bytes) : SameContent size file file := ⟨rfl, fun _ _ _ => rfl⟩

namespace KeptRun

omit [Crypto] in
theorem log_eq (done : WriteAhead.committed s.settled = some log) : s.log = log := by rw [KeptRun.log, done, Option.getD_some]

omit [Crypto] in
theorem content_eq (done : WriteAhead.committed s.settled = some log) : s.content = recovered s.size log s.file := by
  rw [KeptRun.content, done, Option.map_some, Option.getD_some]

theorem Ok.images (ok : s.Ok) (page : Nat) (image : Bytes) (held : s.log.image? page = some image) : image.length = s.size := by
  rw [KeptRun.log] at held
  cases done : WriteAhead.committed s.settled with
  | none =>
    rw [done] at held
    cases held
  | some log =>
    rw [done, Option.getD_some] at held
    obtain ⟨frame, member, -, rfl⟩ := committed_image done held
    exact (ok.framed frame (List.mem_append_left _ member)).2.2.2

theorem Ok.positive (ok : s.Ok) : 0 < s.size := by
  have range := headerPageSize_range ok.headed
  omega

/-- A commit leaves what a store knows of its file beside the log grown. -/
theorem Ok.knows_grown (ok : s.Ok) (idle : s.phase = .idle) (more : List (WriteFrame Bytes)) (later : Commit Bytes)
    (grown : WriteAhead.committed (s.settled ++ more) = some later) : s.known.Knows later s.file := by
  refine (ok.knows idle).grown fun page held => ?_
  rw [KeptRun.log] at held
  cases done : WriteAhead.committed s.settled with
  | none =>
    rw [done] at held
    cases held
  | some log =>
    rw [done, Option.getD_some] at held
    exact committed_keeps done grown held

theorem Fresh.ok (fresh : s.Fresh) : s.Ok where
  headed := fresh.headed
  framed := by simp [fresh.settled, fresh.pending]
  open_ := by simp [fresh.pending]
  sized := by rw [fresh.known]; rfl
  knows := fun _ => fresh.known ▸ PageDigest.Knows.new
  unnamed := fun _ => fresh.digest
  named := fun V some_ => by
    rw [fresh.state] at some_
    cases some_
  idle := fun _ V some_ => by
    rw [fresh.state] at some_
    cases some_
  moving := fun moving => by
    rw [fresh.phase] at moving
    cases moving

/-- A digest recorded of what the log commits names the file the log is moved into. -/
theorem Ok.record (ok : s.Ok) (idle : s.phase = .idle) (done : WriteAhead.committed s.settled = some log)
    (headed : headerPageSize s.content = some s.size) (version : userVersion s.content = schemaVersion) {pages : PageDigest}
    (hashed : s.known.apply (log.map sha256) = .ok pages) :
    Laid s.size s.content ∧ pages = PageDigest.of s.size (recovered s.size log s.file) := by
  have knows := ok.knows idle
  have images := ok.images
  rw [log_eq done] at knows images
  rw [← ok.sized] at images
  have pages_ := knows.apply (ok.sized ▸ ok.positive) images hashed
  rw [ok.sized] at pages_
  obtain ⟨frame, member, ends, counted⟩ := committed_count done
  have framed := ok.framed frame (List.mem_append_left _ member)
  obtain ⟨unlocked, -, -⟩ := PageDigest.apply_eq_ok.mp hashed
  rw [ok.sized] at unlocked
  exact ⟨⟨headed, version, log.count, by rw [content_eq done, recovered_length], counted ▸ framed.2.2.1, unlocked⟩, pages_⟩

/-- Every step of a store keeps what holds of it. -/
theorem Ok.step (ok : s.Ok) (step : KeptStep s t) : t.Ok := by
  cases step with
  | @write frame idle framed open_ =>
    refine ⟨ok.headed, ?_, ?_, ok.sized, ok.knows, ok.unnamed, ok.named, ok.idle, ok.moving⟩
    · intro own member
      rw [← List.append_assoc, List.mem_append, List.mem_singleton] at member
      obtain member | rfl := member
      · exact ok.framed own member
      · exact framed
    · intro own member
      obtain member | member := List.mem_append.mp member
      · exact ok.open_ own member
      · rw [List.mem_singleton.mp member]
        exact open_
  | rollback idle =>
    refine ⟨ok.headed, fun own member => ok.framed own ?_, fun own member => (List.not_mem_nil member).elim, ok.sized, ok.knows, ok.unnamed,
      ok.named, ok.idle, ok.moving⟩
    simp only [List.append_nil] at member
    exact List.mem_append_left _ member
  | @commit frame idle framed ends =>
    refine ⟨ok.headed, ?_, fun own member => (List.not_mem_nil member).elim, ok.sized, fun _ => ?_, ok.unnamed, ok.named, ok.idle, fun moving => ?_⟩
    · intro own member
      simp only [List.append_nil] at member
      rw [List.mem_append, List.mem_singleton] at member
      obtain member | rfl := member
      · exact ok.framed own member
      · exact framed
    · obtain ⟨later, done, -⟩ := committed_concat (s.settled ++ s.pending) ends
      rw [log_eq done]
      rw [List.append_assoc] at done
      exact ok.knows_grown idle _ later done
    · rw [idle] at moving
      cases moving
  | @unrecorded log pages idle done hashed =>
    have knows := ok.knows idle
    have images := ok.images
    rw [log_eq done] at knows images
    rw [← ok.sized] at images
    have pages_ := knows.apply (ok.sized ▸ ok.positive) images hashed
    have sized : pages.pageSize = s.size := by rw [pages_, PageDigest.of_pageSize, ok.sized]
    refine ⟨ok.headed, ok.framed, ok.open_, sized, fun _ => ?_, ok.unnamed, ok.named, ok.idle, fun moving => ?_⟩
    · have hashed := knows.hashed (ok.sized ▸ ok.positive) images hashed
      rwa [← log_eq done] at hashed
    · rw [idle] at moving
      cases moving
  | @record log pages idle done headed version hashed =>
    obtain ⟨laid, rfl⟩ := ok.record idle done headed version hashed
    refine ⟨ok.headed, ok.framed, ok.open_, rfl, fun idle => ?_, fun none_ => ?_, fun V some_ => ?_, fun idle => ?_, fun _ => ?_⟩
    · cases idle
    · cases none_
    · obtain rfl := Option.some.inj some_
      refine ⟨laid, ?_⟩
      simp only [vouched, PageDigest.root, content_eq done]
    · cases idle
    · exact ⟨log, done, by rw [content_eq done], rfl⟩
  | @move file moving stopped =>
    obtain ⟨log, done, state, known⟩ := ok.moving moving
    rw [log_eq done] at stopped
    have same : recovered s.size log file = recovered s.size log s.file := stopped.overlay
    refine ⟨?_, ok.framed, ok.open_, ok.sized, fun idle => ?_, ok.unnamed, ok.named, fun idle => ?_, fun _ => ⟨log, done, ?_, ?_⟩⟩
    · exact headerPageSize_torn ok.headed (ok.named _ state).1.headed stopped
    · rw [moving] at idle
      cases idle
    · rw [moving] at idle
      cases idle
    · exact state.trans (congrArg some same.symm)
    · exact known.trans (congrArg _ same.symm)
  | moved header moving =>
    obtain ⟨log, done, state, known⟩ := ok.moving moving
    have content := KeptRun.content_eq done
    have laid := (ok.named _ state).1
    rw [← content] at state known laid
    have positive := ok.positive
    refine ⟨laid.headed, by simp, by simp, ok.sized, fun _ => ?_, ok.unnamed, ok.named, fun _ V some_ => ?_, fun moving => ?_⟩
    · obtain ⟨count, length, -⟩ := laid.paged
      rw [known]
      exact PageDigest.Knows.of positive length
    · obtain rfl := Option.some.inj (state.symm.trans some_)
      exact SameContent.refl _
    · cases moving

/-- After a crash the log commits what it did. -/
theorem Ok.crashed_commits (ok : s.Ok) (crashed : s.Crashed disk) : disk.commits s.size = WriteAhead.committed s.settled := by
  have range := headerPageSize_range ok.headed
  rw [KeptDisk.commits]
  obtain ⟨empty, log⟩ | ⟨flight, n, one, framed, synced, cut, log⟩ := crashed.log
  · rw [log, empty]
    rfl
  · rw [log, Option.bind_some]
    refine committedImages_take (fun frame member => ?_) (by omega) synced ok.open_ one cut
    obtain member | member := List.mem_append.mp member
    · exact ok.framed frame member
    · exact framed frame member

theorem Ok.crashes (ok : s.Ok) (crashed : s.Crashed disk) : disk.Ok s.state false := by
  refine ⟨fun none_ => crashed.digest.trans (ok.unnamed none_), fun V some_ => ?_, fun _ V some_ => ?_⟩
  · obtain ⟨laid, named⟩ := ok.named V some_
    exact ⟨s.size, s.identity, laid, crashed.digest.trans named⟩
  · obtain ⟨laid, named⟩ := ok.named V some_
    have digest : disk.digest = some (vouched disk.identity (.of s.size V)) := by
      rw [crashed.digest, named, crashed.identity, vouched]
    refine ⟨s.size, s.file, laid, crashed.file, ok.headed, crashed.journal, digest, ?_⟩
    cases phase : s.phase with
    | idle => exact .inl (ok.idle phase V some_)
    | moving =>
      obtain ⟨log, done, state, -⟩ := ok.moving phase
      obtain rfl := Option.some.inj (some_.symm.trans state)
      exact .inr ⟨log, (ok.crashed_commits crashed).trans done, rfl⟩

theorem Ok.strays (ok : s.Ok) : KeptDisk.Ok s.state true ⟨some s.content, s.identity, none, none, s.digest⟩ :=
  ⟨ok.unnamed, fun V some_ => ⟨s.size, s.identity, ok.named V some_⟩, fun kept => by cases kept⟩

end KeptRun

namespace KeptDisk

/-- A digest that names a state names no file of other content, but on a collision. -/
theorem Ok.binds (ok : disk.Ok state strayed) {pages : PageDigest} {raw : Nat} (headed : headerPageSize file = some raw)
    (pages_ : pages = .of raw file) (named : disk.digest = some (vouched disk.identity pages)) (some_ : state = some V)
    (apart : KeptApart state raw file) : Laid raw V ∧ SameContent raw V file := by
  obtain ⟨size, identity, laid, digest⟩ := ok.named V some_
  have range := headerPageSize_range laid.headed
  have range' := headerPageSize_range headed
  rw [named, pages_, vouched, Option.some.injEq, Vouched.mk.injEq] at digest
  obtain ⟨rfl, same⟩ := PageDigest.root_binds (by omega) (by omega) laid.count_lt (apart V size some_ laid.headed) digest.1.symm
  exact ⟨laid, same⟩

/-- Dropped, a log the digest vouches for nothing of leaves the state in the file. -/
theorem Ok.drops (ok : disk.Ok state strayed) (present : disk.file = some file) {lying : PageDigest} (lies : disk.lying file = some lying)
    (apart : KeptApart state lying.pageSize file) : ({ disk with log := none } : KeptDisk).Ok state strayed := by
  obtain ⟨raw, headed, -, named, pages⟩ := lying_eq_some.mp lies
  refine ⟨ok.unnamed, ok.named, fun kept V some_ => ?_⟩
  obtain ⟨size, own, laid, present', headed', journal, digest, -⟩ := ok.holds kept V some_
  obtain rfl := Option.some.inj (present.symm.trans present')
  obtain rfl := Option.some.inj (headed.symm.trans headed')
  rw [pages, PageDigest.of_pageSize] at apart
  obtain ⟨-, same⟩ := ok.binds headed rfl named some_ apart
  exact ⟨raw, file, laid, present, headed, journal, digest, .inl same⟩

/-- Stopped anywhere as its log is moved in, a file still comes to the state. -/
theorem Ok.stops (ok : disk.Ok state strayed) (present : disk.file = some file) (lies : disk.lying file = none)
    (headed : headerPageSize file = some size) (commits : disk.commits size = some log)
    (stopped : Torn (log.byteAt size) 0 (log.count * size) file torn) : ({ disk with file := some torn } : KeptDisk).Ok state strayed := by
  refine ⟨ok.unnamed, ok.named, fun kept V some_ => ?_⟩
  obtain ⟨own, file', laid, present', headed', journal, digest, same | ⟨log', commits', after⟩⟩ := ok.holds kept V some_
  · obtain rfl := Option.some.inj (present.symm.trans present')
    obtain rfl := Option.some.inj (headed.symm.trans headed')
    have named : (committedLog disk.log size).isSome := by
      rw [committedLog_eq, ← KeptDisk.commits, commits]
      rfl
    rw [same.of_eq] at digest
    have lies' := lying_eq_some.mpr ⟨size, headed, named, digest, rfl⟩
    rw [lies] at lies'
    cases lies'
  · obtain rfl := Option.some.inj (present.symm.trans present')
    obtain rfl := Option.some.inj (headed.symm.trans headed')
    obtain rfl := Option.some.inj (commits.symm.trans commits')
    refine ⟨size, torn, laid, rfl, headerPageSize_torn headed (by rw [after]; exact laid.headed) stopped, journal, digest, .inr ⟨log, commits, ?_⟩⟩
    have same : recovered size log torn = recovered size log file := stopped.overlay
    rw [same, after]

/-- An accepted opening's file has the content its digest was recorded of, but on a collision. -/
theorem Ok.accepts (ok : disk.Ok state strayed) {closed : KeptDisk} {pages : PageDigest} (held : keptFileHolds disk = (some pages, closed))
    (present : closed.file = some file) (apart : KeptApart state pages.pageSize file) :
    ∃ V, state = some V ∧ Laid pages.pageSize V ∧ SameContent pages.pageSize V file ∧ headerPageSize file = some pages.pageSize ∧
      pages = .of pages.pageSize file ∧ disk.digest = some (vouched disk.identity pages) := by
  obtain ⟨own, size, -, rfl, headed, -, pages_, named⟩ := keptFileHolds_accepts held
  obtain rfl := Option.some.inj present
  have sized : pages.pageSize = size := by rw [pages_, PageDigest.of_pageSize]
  cases some_ : state with
  | none =>
    rw [ok.unnamed some_] at named
    cases named
  | some V =>
    rw [sized] at apart ⊢
    obtain ⟨laid, same⟩ := ok.binds headed pages_ named some_ apart
    exact ⟨V, rfl, laid, same, headed, pages_, named⟩

theorem Ok.reopens (ok : disk.Ok state strayed) {closed : KeptDisk} {pages : PageDigest} (held : keptFileHolds disk = (some pages, closed))
    (present : closed.file = some file) (apart : KeptApart state pages.pageSize file) (header : WalHeader) :
    KeptRun.Ok ⟨pages.pageSize, header, disk.identity, file, [], [], pages, disk.digest, state, .idle⟩ := by
  obtain ⟨V, some_, laid, same, headed, pages_, named⟩ := ok.accepts held present apart
  have range := headerPageSize_range headed
  obtain ⟨count, length, -⟩ := laid.paged
  refine ⟨headed, by simp, by simp, rfl, fun _ => ?_, ok.unnamed, fun W some' => ?_, fun _ W some' => ?_, fun moving => ?_⟩
  · have knows : (PageDigest.of pages.pageSize file).Knows ⟨[], 0⟩ file :=
      .of (by omega : 0 < pages.pageSize) ((same.length laid).trans length)
    rwa [← pages_] at knows
  · obtain rfl := Option.some.inj (some_.symm.trans some')
    refine ⟨laid, ?_⟩
    rw [same.of_eq, ← pages_]
    exact named
  · obtain rfl := Option.some.inj (some_.symm.trans some')
    exact same
  · cases moving

end KeptDisk

/-- What holds of a kept file's state. -/
def KeptState.Ok : KeptState → Prop
  | .opened s => s.Ok
  | .closed state strayed disk => disk.Ok state strayed

/-- Every state of a kept file's life keeps what holds of it. -/
theorem KeptReached.ok {state : KeptState} (reached : KeptReached state) : state.Ok := by
  induction reached with
  | starts fresh => exact fresh.ok
  | steps _ step ih => exact KeptRun.Ok.step ih step
  | crashes _ crashed ih => exact KeptRun.Ok.crashes ih crashed
  | strays _ _ ih => exact KeptRun.Ok.strays ih
  | drops _ present lies apart ih => exact KeptDisk.Ok.drops ih present lies apart
  | stops _ present lies headed commits stopped ih => exact KeptDisk.Ok.stops ih present lies headed commits stopped
  | reopens header _ held present apart ih => exact KeptDisk.Ok.reopens ih held present apart header
  | discards _ _ fresh _ => exact fresh.ok

omit [Crypto] in
/-- Nothing to move in, an opening leaves the file as it lies. -/
theorem KeptDisk.opened_none (journal : disk.journal = none) (headed : headerPageSize file = some size) (none_ : disk.commits size = none) :
    disk.opened file = file := by
  rw [opened, journal, Option.getD_none]
  simp only [headed, none_]

/-- A log dropped leaves the file as it lies. -/
theorem KeptDisk.kept_opened {lying : PageDigest} (lies : disk.lying file = some lying) (journal : disk.journal = none) :
    (disk.kept file).opened file = file := by
  obtain ⟨raw, headed, -⟩ := lying_eq_some.mp lies
  rw [kept, lies]
  exact opened_none journal headed rfl

/-- A file with the state's content, vouched for whatever its log commits, is accepted as it lies. -/
theorem KeptDisk.holds_lying {lying : PageDigest} (present : disk.file = some file) (lies : disk.lying file = some lying)
    (journal : disk.journal = none) (laid : Laid size file) :
    keptFileHolds disk = (some (.of size file), { disk with file := some file, log := none, journal := none }) := by
  have dropped := kept_opened lies journal
  obtain ⟨raw, headed, -, named, -⟩ := lying_eq_some.mp lies
  obtain rfl := Option.some.inj (headed.symm.trans laid.headed)
  have held := keptFileHolds_of_opened present (by rw [dropped]; exact headed) (by rw [dropped]; exact laid.version)
    (by rw [dropped]; exact named)
  rwa [closed, dropped] at held

/-- Files that hold a state are accepted, but on a collision. -/
theorem KeptDisk.Holds.sized (holds : disk.Holds V) : ∃ file size, disk.file = some file ∧ headerPageSize file = some size ∧
    (KeptApart (some V) size file → (keptFileHolds disk).1.isSome) := by
  obtain ⟨size, file, laid, present, headed, journal, digest, content⟩ := holds
  refine ⟨file, size, present, headed, fun apart => ?_⟩
  cases lies : disk.lying file with
  | some lying =>
    obtain ⟨raw, headed', -, named, -⟩ := lying_eq_some.mp lies
    obtain rfl := Option.some.inj (headed.symm.trans headed')
    have range := headerPageSize_range headed
    rw [digest, vouched, vouched, Option.some.injEq, Vouched.mk.injEq] at named
    obtain ⟨-, same⟩ := PageDigest.root_binds (by omega) (by omega) laid.count_lt (apart V size rfl laid.headed) named.1
    rw [holds_lying present lies journal (same.laid laid)]
    rfl
  | none =>
    have kept_ : disk.kept file = disk := by
      rw [kept, lies]
      rfl
    have accepted : Laid size (disk.opened file) → PageDigest.of size (disk.opened file) = PageDigest.of size V →
        (keptFileHolds disk).1.isSome := by
      intro laid same
      rw [keptFileHolds_of_opened present (by rw [kept_]; exact laid.headed) (by rw [kept_]; exact laid.version)
        (by rw [kept_, same]; exact digest)]
      rfl
    cases commits : disk.commits size with
    | none =>
      obtain same | ⟨log, some_, -⟩ := content
      · have opened_ := opened_none journal headed commits
        exact accepted (by rw [opened_]; exact same.laid laid) (by rw [opened_, same.of_eq])
      · rw [commits] at some_
        cases some_
    | some log =>
      obtain same | ⟨log', some_, after⟩ := content
      · have named : (committedLog disk.log size).isSome := by
          rw [committedLog_eq, ← KeptDisk.commits, commits]
          rfl
        rw [same.of_eq] at digest
        have lies' := lying_eq_some.mpr ⟨size, headed, named, digest, rfl⟩
        rw [lies] at lies'
        cases lies'
      · obtain rfl := Option.some.inj (commits.symm.trans some_)
        have opened_ : disk.opened file = V := by
          rw [opened, journal, Option.getD_none]
          simp only [headed, commits]
          exact after
        exact accepted (by rw [opened_]; exact laid) (by rw [opened_])

end

section

local instance keptCrypto : Crypto := sampleCrypto

end

end Moe
