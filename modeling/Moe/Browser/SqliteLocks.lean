import Mathlib.Data.Finset.Card
import Mathlib.Logic.Function.Basic
import Moe.Lib.Machine

namespace Moe.Sqlite

/-- A place in the worker's memory; 0 is none. -/
abbrev Pointer := Nat

def shmLocks : Nat := 8

def lockNone : Nat := 0
def lockShared : Nat := 1
def lockReserved : Nat := 2
def lockPending : Nat := 3
def lockExclusive : Nat := 4

/-- What a call answers. -/
inductive Code
  | ok | busy | misuse | cantOpen | ioerrShmLock | ioerrShmMap | ioerrClose | unknownFile
  deriving DecidableEq, Repr

/-- A file lock's holders among the worker's connections. -/
structure FileLock where
  shared : Finset Pointer := ∅
  reserved : Pointer := 0
  pending : Pointer := 0
  exclusive : Pointer := 0
  deriving DecidableEq

/-- A database's shared memory: its regions, the connections mapping it, and its eight locks. -/
structure Shared where
  regions : List Pointer := []
  users : Finset Pointer := ∅
  readers : Nat → Int := fun _ => 0
  writer : Nat → Pointer := fun _ => 0

/-- A connection's file lock, and the shared-memory locks it holds: bit i shared, bit 8 + i exclusive. -/
structure Open where
  level : Nat := lockNone
  shmHeld : BitVec 32 := 0
  deriving DecidableEq

/-- The worker's connections to one file, which member it is of the pool, how often that is open, and its locks. -/
structure State where
  opens : Pointer → Option Open
  memberOpens : Nat
  lock : Option FileLock
  shared : Option Shared

/-- No connection, the member open elsewhere so many times. -/
def State.initial (elsewhere : Nat) : State := ⟨fun _ => none, elsewhere, none, none⟩

namespace State

def lockOf (s : State) : FileLock := s.lock.getD {}

def setOpen (s : State) (pFile : Pointer) (value : Option Open) : State := { s with opens := Function.update s.opens pFile value }

end State

def FileLock.strongest (lock : FileLock) : Nat :=
  if lock.exclusive ≠ 0 then lockExclusive
  else if lock.pending ≠ 0 then lockPending
  else if lock.reserved ≠ 0 then lockReserved
  else if lock.shared.card > 0 then lockShared
  else lockNone

/-- A connection's part of a file lock, given up but for its shared lock. -/
def FileLock.lower (lock : FileLock) (pFile : Pointer) : FileLock where
  shared := lock.shared
  reserved := if lock.reserved = pFile then 0 else lock.reserved
  pending := if lock.pending = pFile then 0 else lock.pending
  exclusive := if lock.exclusive = pFile then 0 else lock.exclusive

def FileLock.leave (lock : FileLock) (pFile : Pointer) : FileLock := { lock with shared := lock.shared.erase pFile }

/-- A file that cannot be found or made is refused. -/
def xOpen (s : State) (pFile : Pointer) (found : Bool) : State × Code :=
  if found then ({ s.setOpen pFile (some {}) with memberOpens := s.memberOpens + 1 }, .ok) else (s, .cantOpen)

/-- The close is counted whatever the removal does. -/
def xClose (s : State) (pFile : Pointer) (removed : Bool) : State × Code :=
  match s.opens pFile with
  | none => (s, .ok)
  | some _ =>
    let s := { s.setOpen pFile none with
      lock := s.lock.map fun lock => (lock.lower pFile).leave pFile
      memberOpens := s.memberOpens - 1 }
    if removed then (if s.memberOpens = 0 then { s with lock := none } else s, .ok) else (s, .ioerrClose)

/-- A connection whose lock is not the file's strongest is refused where that lock is pending or stronger, or where it asks for more than
a shared lock; an exclusive one passes through pending until no other shared lock is held. -/
def xLock (s : State) (pFile : Pointer) (level : Nat) : State × Code :=
  match s.opens pFile with
  | none => (s, .unknownFile)
  | some file =>
    let lock := s.lockOf
    let s := { s with lock := some lock }
    if file.level ≥ level then (s, .ok)
    else if file.level ≠ lock.strongest ∧ (lock.strongest ≥ lockPending ∨ level > lockShared) then (s, .busy)
    else if level = lockShared then
      ({ s.setOpen pFile (some { file with level := lockShared }) with lock := some { lock with shared := insert pFile lock.shared } }, .ok)
    else if level = lockReserved then
      ({ s.setOpen pFile (some { file with level := lockReserved }) with lock := some { lock with reserved := pFile } }, .ok)
    else if ∃ holder ∈ lock.shared, holder ≠ pFile then
      ({ s.setOpen pFile (some { file with level := lockPending }) with lock := some { lock with pending := pFile } }, .busy)
    else
      ({ s.setOpen pFile (some { file with level := lockExclusive }) with
        lock := some { lock with pending := pFile, exclusive := pFile } }, .ok)

def xUnlock (s : State) (pFile : Pointer) (level : Nat) : State × Code :=
  match s.opens pFile with
  | none => (s, .unknownFile)
  | some file =>
    let lock := s.lockOf
    let s := { s with lock := some lock }
    if file.level ≤ level then (s, .ok)
    else
      let lower := lock.lower pFile
      ({ s.setOpen pFile (some { file with level := level }) with
        lock := some (if level = lockNone then lower.leave pFile else lower) }, .ok)

/-- Whether any connection holds more than a shared lock. -/
def xCheckReservedLock (s : State) (pFile : Pointer) : State × Code × Bool :=
  match s.opens pFile with
  | none => (s, .unknownFile, false)
  | some _ =>
    let lock := s.lockOf
    ({ s with lock := some lock }, .ok, lock.reserved ≠ 0 || lock.pending ≠ 0 || lock.exclusive ≠ 0)

/-- Regions up to one, each at the next place the memory has; whether it had them. -/
def grow (region : Nat) : List Pointer → List Pointer → List Pointer × Bool
  | regions, [] => (regions, region < regions.length)
  | regions, at_ :: rest => if region < regions.length then (regions, true) else grow region (regions ++ [at_]) rest

/-- Maps a region, and says where it is. -/
def xShmMap (s : State) (pFile : Pointer) (region : Nat) (extend : Bool) (allocs : List Pointer) : State × Code × Pointer :=
  match s.opens pFile with
  | none => (s, .ioerrShmMap, 0)
  | some _ =>
    let memory := s.shared.getD {}
    let memory := { memory with users := insert pFile memory.users }
    if memory.regions[region]? = none ∧ extend = false then ({ s with shared := some memory }, .ok, 0)
    else
      let (regions, grown) := grow region memory.regions allocs
      let s := { s with shared := some { memory with regions } }
      if grown then (s, .ok, regions[region]?.getD 0) else (s, .ioerrShmMap, 0)

/-- The flags of a request for shared-memory locks. -/
structure ShmFlags where
  unlock : Bool
  lock : Bool
  shared : Bool
  exclusive : Bool
  deriving DecidableEq

def holds (held : BitVec 32) (bit : Nat) : Bool := held &&& (1#32 <<< bit) ≠ 0

def hold (held : BitVec 32) (bit : Nat) : BitVec 32 := held ||| (1#32 <<< bit)

def release (held : BitVec 32) (bit : Nat) : BitVec 32 := held &&& ~~~(1#32 <<< bit)

/-- The slots a request names. -/
def slots (offset n : Nat) : List Nat := List.range' offset n

def unlockSlot (flags : ShmFlags) (at_ : Shared × BitVec 32) (i : Nat) : Shared × BitVec 32 :=
  let at_ := if flags.shared ∧ holds at_.2 i then
    ({ at_.1 with readers := Function.update at_.1.readers i (at_.1.readers i - 1) }, release at_.2 i) else at_
  if flags.exclusive ∧ holds at_.2 (shmLocks + i) then
    ({ at_.1 with writer := Function.update at_.1.writer i 0 }, release at_.2 (shmLocks + i)) else at_

def shareSlot (at_ : Shared × BitVec 32) (i : Nat) : Shared × BitVec 32 :=
  if holds at_.2 i then at_
  else ({ at_.1 with readers := Function.update at_.1.readers i (at_.1.readers i + 1) }, hold at_.2 i)

def takeSlot (pFile : Pointer) (at_ : Shared × BitVec 32) (i : Nat) : Shared × BitVec 32 :=
  ({ at_.1 with writer := Function.update at_.1.writer i pFile }, hold at_.2 (shmLocks + i))

/-- Whether another connection stands in the way of a shared lock. -/
def shareBlocked (memory : Shared) (pFile : Pointer) (i : Nat) : Bool := memory.writer i ≠ 0 && memory.writer i ≠ pFile

def takeBlocked (memory : Shared) (pFile : Pointer) (held : BitVec 32) (i : Nat) : Bool :=
  (memory.writer i ≠ 0 && memory.writer i ≠ pFile) || memory.readers i - (if holds held i then 1 else 0) > 0

/-- Locks or unlocks so many slots of the shared memory. -/
def xShmLock (s : State) (pFile : Pointer) (offset n : Nat) (flags : ShmFlags) : State × Code :=
  match s.opens pFile with
  | none => (s, .unknownFile)
  | some file =>
    match s.shared with
    | none => (s, .ioerrShmLock)
    | some memory =>
      let put (at_ : Shared × BitVec 32) : State := { s.setOpen pFile (some { file with shmHeld := at_.2 }) with shared := some at_.1 }
      if flags.unlock then (put ((slots offset n).foldl (unlockSlot flags) (memory, file.shmHeld)), .ok)
      else if flags.lock = false then (s, .misuse)
      else if flags.shared then
        if (slots offset n).any (shareBlocked memory pFile) then (s, .busy)
        else (put ((slots offset n).foldl shareSlot (memory, file.shmHeld)), .ok)
      else if (slots offset n).any (takeBlocked memory pFile file.shmHeld) then (s, .busy)
      else (put ((slots offset n).foldl (takeSlot pFile) (memory, file.shmHeld)), .ok)

/-- Gives up what a connection holds of a slot. -/
def dropSlot (pFile : Pointer) (held : BitVec 32) (memory : Shared) (i : Nat) : Shared where
  regions := memory.regions
  users := memory.users
  readers := if holds held i then Function.update memory.readers i (memory.readers i - 1) else memory.readers
  writer := if memory.writer i = pFile then Function.update memory.writer i 0 else memory.writer

/-- The last connection's unmapping drops the memory. -/
def xShmUnmap (s : State) (pFile : Pointer) : State × Code :=
  match s.opens pFile with
  | none => (s, .unknownFile)
  | some file =>
    match s.shared with
    | none => (s, .ok)
    | some memory =>
      let memory := (List.range shmLocks).foldl (dropSlot pFile file.shmHeld) memory
      let memory := { memory with users := memory.users.erase pFile }
      let s := s.setOpen pFile (some { file with shmHeld := 0 })
      ({ s with shared := if memory.users = ∅ then none else some memory }, .ok)

/-- A call, with what the pool and the memory answered it. -/
inductive Call
  | «open» (pFile : Pointer) (found : Bool)
  | close (pFile : Pointer) (removed : Bool)
  | lock (pFile : Pointer) (level : Nat)
  | unlock (pFile : Pointer) (level : Nat)
  | shmMap (pFile : Pointer) (region : Nat) (extend : Bool) (allocs : List Pointer)
  | shmLock (pFile : Pointer) (offset n : Nat) (flags : ShmFlags)
  | shmUnmap (pFile : Pointer)

def State.call (s : State) : Call → State × Code
  | .open pFile found => xOpen s pFile found
  | .close pFile removed => xClose s pFile removed
  | .lock pFile level => xLock s pFile level
  | .unlock pFile level => xUnlock s pFile level
  | .shmMap pFile region extend allocs => ((xShmMap s pFile region extend allocs).1, (xShmMap s pFile region extend allocs).2.1)
  | .shmLock pFile offset n flags => xShmLock s pFile offset n flags
  | .shmUnmap pFile => xShmUnmap s pFile

/-- Whether a connection maps the shared memory. -/
def State.Maps (s : State) (pFile : Pointer) : Prop := ∃ memory, s.shared = some memory ∧ pFile ∈ memory.users

/-- SQLite's order: a file opened where none is open, calls on an open one only, a shared lock before more, no lock but a shared one
left at an unlock, the memory mapped before its locks, each of them among the eight, and unmapped before the close. -/
def Call.Follows (s : State) : Call → Prop
  | .open pFile _ => pFile ≠ 0 ∧ s.opens pFile = none
  | .close pFile _ => (∃ file, s.opens pFile = some file) ∧ ¬ s.Maps pFile
  | .lock pFile level => ∃ file, s.opens pFile = some file ∧ (level = lockShared ∨
      (level = lockReserved ∨ level = lockExclusive) ∧ lockShared ≤ file.level)
  | .unlock pFile level => (∃ file, s.opens pFile = some file) ∧ (level = lockNone ∨ level = lockShared)
  | .shmMap pFile _ _ _ => ∃ file, s.opens pFile = some file
  | .shmLock pFile offset n _ => (∃ file, s.opens pFile = some file) ∧ s.Maps pFile ∧ offset + n ≤ shmLocks
  | .shmUnmap pFile => ∃ file, s.opens pFile = some file

end Moe.Sqlite
