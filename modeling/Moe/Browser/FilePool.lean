import Moe.Browser.FileSettling

namespace Moe

open JsString

/-- A call of the mounted worker. -/
inductive PoolCall
  | create (path : JsString) (exclusive : Bool) (ino now : Nat)
  | anonymous (ino now : Nat)
  | opened (member : Nat)
  | closed (member : Nat)
  | write (member : Nat) (bytes : Bytes) (at_ : Nat)
  | truncate (member length : Nat)
  | flush (member : Nat)
  | unlink (path : JsString) (syscall : String)
  | link (source target : JsString)
  | rename (source target : JsString)

/-- A call made as its callers make it: a random identity is of six bytes, an opening is of a file in use, and a closing or a data call of
one open. -/
def PoolCall.Meant (s : Mounted) : PoolCall → Prop
  | .create _ _ ino _ => ino < 2 ^ 48
  | .anonymous ino _ => ino < 2 ^ 48
  | .opened member => member < s.count ∧ member ∉ s.free
  | .closed member => 0 < (s.members member).opens
  | .write member _ _ => 0 < (s.members member).opens
  | .truncate member _ => 0 < (s.members member).opens
  | .flush member => 0 < (s.members member).opens
  | .unlink _ _ => True
  | .link _ _ => True
  | .rename _ _ => True

/-- A call whose header writes are read back: the name given holds no lone surrogate, and time and sequence stay within eight bytes. -/
def PoolCall.Plain (s : Mounted) : PoolCall → Prop
  | .create path _ _ now => isWellFormed (normal path) = true ∧ now * 1000000 < 2 ^ 64 ∧ s.sequence < 2 ^ 64
  | .unlink _ _ => s.sequence < 2 ^ 64
  | .link _ target => isWellFormed (normal target) = true ∧ s.sequence < 2 ^ 64
  | .rename _ target => isWellFormed (normal target) = true ∧ s.sequence + 1 < 2 ^ 64
  | .anonymous _ _ => True
  | .opened _ => True
  | .closed _ => True
  | .write _ _ _ => True
  | .truncate _ _ => True
  | .flush _ => True

section

variable [Crypto]

def PoolCall.work : PoolCall → PoolWork Unit
  | .create path exclusive ino now => do
    let _ ← Moe.create path exclusive ino now
    return
  | .anonymous ino now => do
    let _ ← anonymousFile ino now
    return
  | .opened member => openedFile member
  | .closed member => closedFile member
  | .write member bytes at_ => writeFile member bytes at_
  | .truncate member length => truncateFile member length
  | .flush member => flushFile member
  | .unlink path syscall => Moe.unlink path syscall
  | .link source target => Moe.link source target
  | .rename source target => Moe.rename source target

/-- The pool once a call returns or throws. -/
def PoolCall.after (c : PoolCall) (s : Mounted) : Mounted := (c.work.runs s).2

/-- The worker with the pool mounted, or the pool's files with no worker. -/
inductive PoolState
  | mounted (s : Mounted)
  | files (count : Nat) (disk : Nat → Bytes)

inductive PoolEvent
  | call (c : PoolCall)
  | refill
  | directories (directories : List JsString)
  | crash (c : PoolCall)
  | stop
  | mount
  | mountCrash

/-- The members whose data may be lost where a call is stopped. -/
def atRisk (s s' : Mounted) (id : Nat) : Bool := decide (id < s.count) && (s.unflushed id || s'.unflushed id)

/-- The pool's steps: a call, a member added, directories made or removed, a crash in a call or between calls, and a mount, which may
itself be stopped. -/
inductive PoolStep : PoolState → PoolEvent → PoolState → Prop
  | call {s : Mounted} {c : PoolCall} : c.Meant s → PoolStep (.mounted s) (.call c) (.mounted { c.after s with writes := [] })
  | refill {s : Mounted} : PoolStep (.mounted s) .refill (.mounted { s with count := s.count + 1, free := s.free ++ [s.count] })
  | directories {s : Mounted} {directories : List JsString} :
      PoolStep (.mounted s) (.directories directories) (.mounted { s with directories })
  | crash {s : Mounted} {c : PoolCall} {disk disk' : Nat → Bytes} : c.Meant s → Stopped s.disk (c.after s).writes disk →
      Lost (atRisk s (c.after s)) disk disk' → PoolStep (.mounted s) (.crash c) (.files s.count disk')
  | stop {s : Mounted} {disk : Nat → Bytes} : Lost (atRisk s s) s.disk disk → PoolStep (.mounted s) .stop (.files s.count disk)
  | mount {count : Nat} {disk : Nat → Bytes} {s : Mounted} : mountFiles count disk = .ok (.ok (), s) →
      PoolStep (.files count disk) .mount (.mounted { s with writes := [] })
  | mountCrash {count : Nat} {disk disk' : Nat → Bytes} {result : Except HostFailure Unit} {s : Mounted} :
      mountFiles count disk = .ok (result, s) → Stopped disk s.writes disk' → PoolStep (.files count disk) .mountCrash (.files count disk')

/-- An event whose header writes are read back. -/
def PoolEvent.Plain : PoolState → PoolEvent → Prop
  | .mounted s, .call c => c.Plain s
  | .mounted s, .crash c => c.Plain s
  | .files count disk, .mount => MountRoom count disk
  | .files count disk, .mountCrash => MountRoom count disk
  | _, _ => True

/-- The states a pool reaches, made empty, by the events `allowed`. -/
inductive PoolRun (allowed : PoolState → PoolEvent → Prop) : PoolState → Prop
  | start : PoolRun allowed (.files 0 fun _ => [])
  | step {state state' : PoolState} {event : PoolEvent} : PoolRun allowed state → allowed state event → PoolStep state event state' →
      PoolRun allowed state'

def PoolState.Ok : PoolState → Prop
  | .mounted s => s.Ok ∧ s.writes = []
  | .files count disk => ∃ next, Unmounted count disk next

variable {s s' m : Mounted} {id count next : Nat} {disk disk' : Nat → Bytes} {c : PoolCall}

/-- A call whose value is left. -/
theorem Sustains.left {α : Type} {work : PoolWork α} (sustains : Sustains s work) : Sustains s (work >>= fun _ => (pure () : PoolWork Unit)) := by
  have same : ((work >>= fun _ => (pure () : PoolWork Unit)).runs s).2 = (work.runs s).2 := by
    rw [Work.runs_bind]
    obtain ⟨result, last⟩ := work.runs s
    cases result <;> rfl
  obtain ⟨ok, survives, rising⟩ := sustains
  refine ⟨?_, ?_, ?_⟩ <;> rw [same]
  · exact ok
  · exact survives
  · exact rising

theorem Mounted.Held.used (held : s.Held) (open_ : 0 < (s.members id).opens) : id < s.count ∧ id ∉ s.free := by
  refine ⟨Nat.lt_of_not_le fun out => ?_, fun free => ?_⟩
  · rw [(held.outside id out).2] at open_
    exact absurd open_ (Nat.lt_irrefl 0)
  · rw [(held.free id free).2.2.2.2] at open_
    exact absurd open_ (Nat.lt_irrefl 0)

/-- Every call keeps what holds, wherever it is stopped. -/
theorem Mounted.Ok.sustains (ok : s.Ok) (empty : s.writes = []) (meant : c.Meant s) (plain : c.Plain s) : Sustains s c.work := by
  cases c with
  | create path exclusive ino now =>
    obtain ⟨named, time, room⟩ := plain
    exact (ok.create empty named (Nat.lt_of_lt_of_le meant (by decide)) time room).left
  | anonymous ino now => exact (ok.anonymous empty ino now).left
  | opened member => exact ok.opened empty meant.1 meant.2
  | closed member => exact ok.closed empty (ok.held.used meant).1 (ok.held.used meant).2
  | write member bytes at_ => exact ok.writes empty (ok.held.used meant).1 (ok.held.used meant).2 bytes at_
  | truncate member length => exact ok.truncates empty (ok.held.used meant).1 (ok.held.used meant).2 length
  | flush member => exact ok.flushes empty member
  | unlink path syscall => exact ok.unlink empty plain syscall
  | link source target => exact ok.link empty plain.1 plain.2
  | rename source target => exact ok.rename empty plain.1 plain.2

theorem writeHeader_count (member : Nat) (names : List JsString) : (writeHeader member names).Keeps Mounted.count := by
  refine Work.Keeps.bind .get fun start => .bind (.modify fun _ => rfl) fun _ => .bind .lift fun part => .modify fun _ => rfl

theorem loseName_count (member : Nat) (name : JsString) : (loseName member name).Keeps Mounted.count := by
  refine Work.Keeps.bind .get fun start => ?_
  simp only
  split
  · exact writeHeader_count member _
  · exact .modify fun _ => rfl

omit [Crypto] in
theorem parentExists_count (syscall : String) (name : JsString) : (parentExists syscall name).Keeps Mounted.count := by
  intro s
  obtain ⟨result, same⟩ := parentExists_runs syscall name (s := s)
  rw [same]

omit [Crypto] in
theorem takeMember_count (path : JsString) : (takeMember path).Keeps Mounted.count := by
  refine Work.Keeps.bind .get fun start => ?_
  split
  · exact .throw
  · exact .bind (.modify fun _ => rfl) fun _ => .pure

/-- No call changes how many members the pool has. -/
theorem PoolCall.keeps_count (c : PoolCall) : c.work.Keeps Mounted.count := by
  cases c with
  | create path exclusive ino now =>
    refine Work.Keeps.bind (.bind .get fun start => ?_) fun _ => .pure
    simp only
    split
    · split
      · exact .throw
      · exact .pure
    · exact .guarded .throw fun _ => .bind (parentExists_count _ _) fun _ => .bind (takeMember_count _) fun member =>
        .bind (.modify fun _ => rfl) fun _ => .bind (.modify fun _ => rfl) fun _ => .bind (writeHeader_count _ _) fun _ =>
          .bind (.modify fun _ => rfl) fun _ => .pure
  | anonymous ino now =>
    exact .bind (.bind (takeMember_count _) fun member => .bind (.modify fun _ => rfl) fun _ => .pure) fun _ => .pure
  | opened member => exact .modify fun _ => rfl
  | closed member =>
    refine Work.Keeps.bind (.modify fun _ => rfl) fun _ => .bind .get fun start => ?_
    split
    · exact .modify fun _ => rfl
    · exact .pure
  | write member bytes at_ => exact .modify fun _ => rfl
  | truncate member length => exact .modify fun _ => rfl
  | flush member => exact .modify fun _ => rfl
  | unlink path syscall =>
    refine Work.Keeps.bind .get fun start => ?_
    simp only
    split
    · exact .throw
    · exact .bind (loseName_count _ _) fun _ => .modify fun _ => rfl
  | link source target =>
    refine Work.Keeps.bind .get fun start => ?_
    simp only
    split
    · exact .throw
    · exact .guarded .throw fun _ => .bind (parentExists_count _ _) fun _ => .bind (writeHeader_count _ _) fun _ => .modify fun _ => rfl
  | rename source target =>
    refine Work.Keeps.bind .get fun start => ?_
    simp only
    split
    · exact .throw
    · split
      · exact .pure
      · refine Work.Keeps.guarded .throw fun _ => .bind (parentExists_count _ _) fun _ => ?_
        split
        · exact .pure
        · refine Work.Keeps.bind (writeHeader_count _ _) fun _ => .bind (.modify fun _ => rfl) fun _ => ?_
          split
          · exact .pure
          · exact loseName_count _ _

end

end Moe
