import Mathlib.Logic.Function.Basic
import Moe.Browser.HeaderCodec
import Moe.Lib.OrderedMap
import Moe.Lib.Savepoint

namespace Moe

open JsString

/-- One member of the pool, but for its handle: a file of this system, or a free one (no names, empty). -/
structure Member where
  names : List JsString := []
  ino : Nat := 0
  birth : Nat := 0
  sequence : Nat := 0
  copy : Copy := .second
  opens : Nat := 0
  anonymous : Bool := false
  deriving DecidableEq, Repr

/-- What a call writes through a member's handle. -/
inductive PoolWrite
  | header (member : Nat) (copy : Copy) (part : Bytes)
  | truncate (member : Nat) (length : Nat)
  | data (member : Nat) (at_ : Nat) (bytes : Bytes)
  deriving DecidableEq, Repr

def PoolWrite.apply (disk : Nat → Bytes) : PoolWrite → Nat → Bytes
  | .header member copy part => Function.update disk member (writeAt (disk member) copy.offset part)
  | .truncate member length => Function.update disk member (setLength (disk member) length)
  | .data member at_ bytes => Function.update disk member (writeAt (disk member) (headerBytes + at_) bytes)

/-- The mounted pool: its members' files, which of them hold data not flushed, the members as the worker knows them, and what its
last call wrote. -/
structure Mounted where
  count : Nat
  disk : Nat → Bytes
  unflushed : Nat → Bool
  members : Nat → Member
  free : List Nat
  names : OrderedMap JsString Nat
  directories : List JsString
  sequence : Nat
  writes : List PoolWrite

abbrev PoolWork := Work Mounted HostFailure

namespace Mounted

def setMember (s : Mounted) (member : Nat) (own : Member) : Mounted := { s with members := Function.update s.members member own }

def perform (s : Mounted) (write : PoolWrite) : Mounted := { s with disk := write.apply s.disk, writes := s.writes ++ [write] }

/-- What a flush through a member's handle makes durable. -/
def flushed (s : Mounted) (member : Nat) : Mounted := { s with unflushed := Function.update s.unflushed member false }

def isDirectory (s : Mounted) (name : JsString) : Bool :=
  s.directories.contains name ||
    (s.names.get? name).isNone && (s.names.map (·.1)).any fun file => (if name = [slash] then [slash] else name ++ [slash]).isPrefixOf file

end Mounted

/-- The name's parent must be a directory. -/
def parentExists (syscall : String) (name : JsString) : PoolWork Unit := do
  let s ← get
  if (s.names.get? (dirname name)).isSome then throw (.system "ENOTDIR" syscall name "a file is not a directory")
  if s.isDirectory (dirname name) = false then throw (.system "ENOENT" syscall name "no such file or directory")

section

variable [Crypto]

/-- Rewrite a member's header over its older copy with `names`, and flush it; only then does the member take them. -/
def writeHeader (member : Nat) (names : List JsString) : PoolWork Unit := do
  let start ← get
  let own := start.members member
  modify fun s => { s with sequence := s.sequence + 1 }
  let part ← liftM (encode own.ino own.birth names start.sequence)
  modify fun s => ((s.perform (.header member own.copy.other part)).flushed member).setMember member
    { own with names, sequence := start.sequence, copy := own.copy.other }

/-- Empty a member and return it to the free ones. -/
def release (member : Nat) : PoolWork Unit :=
  modify fun s => let own := s.members member
    { ((s.perform (.truncate member 0)).flushed member).setMember member
        { own with names := [], anonymous := false, opens := 0, sequence := 0, copy := .second } with
      free := s.free ++ [member] }

/-- A free member. -/
def takeMember (path : JsString) : PoolWork Nat := do
  let s ← get
  match s.free.getLast? with
  | none => throw (.system "ENOSPC" "open" path "no free file in the pool")
  | some member =>
    modify fun s => { s with free := s.free.dropLast }
    return member

/-- A new file at `path`, or the one there unless `exclusive`. -/
def create (path : JsString) (exclusive : Bool) (ino now : Nat) : PoolWork Nat := do
  let s ← get
  let name := normal path
  match s.names.get? name with
  | some there => if exclusive then throw (.system "EEXIST" "open" name "file already exists") else return there
  | none =>
    if s.isDirectory name then throw (.system "EISDIR" "open" name "illegal operation on a directory")
    parentExists "open" name
    let member ← takeMember name
    modify fun s => s.setMember member { s.members member with ino, birth := now * 1000000 }
    modify fun s => s.perform (.truncate member headerBytes)
    writeHeader member [name]
    modify fun s => { s with names := s.names.set name member }
    return member

/-- A temporary file with no name, freed at its close. -/
def anonymousFile (ino now : Nat) : PoolWork Nat := do
  let member ← takeMember ("(temporary)".toList.flatMap units)
  modify fun s => s.setMember member { s.members member with anonymous := true, ino, birth := now * 1000000 }
  return member

def openedFile (member : Nat) : PoolWork Unit :=
  modify fun s => s.setMember member { s.members member with opens := (s.members member).opens + 1 }

/-- Close one opening of a member: one with no name left is freed at its last close. -/
def closedFile (member : Nat) : PoolWork Unit := do
  modify fun s => s.setMember member { s.members member with opens := (s.members member).opens - 1 }
  let s ← get
  if (s.members member).opens = 0 ∧ (s.members member).names = [] then release member

/-- Write at a data offset. -/
def writeFile (member : Nat) (bytes : Bytes) (at_ : Nat) : PoolWork Unit :=
  modify fun s => { s.perform (.data member at_ bytes) with unflushed := Function.update s.unflushed member true }

def truncateFile (member length : Nat) : PoolWork Unit :=
  modify fun s => { s.perform (.truncate member (headerBytes + length)) with unflushed := Function.update s.unflushed member true }

def flushFile (member : Nat) : PoolWork Unit := modify fun s => s.flushed member

/-- A member loses a name: its header is written without it, or with its last name, no opening holding it, it is emptied. -/
def loseName (member : Nat) (name : JsString) : PoolWork Unit := do
  let s ← get
  let names := (s.members member).names.filter (· ≠ name)
  if names ≠ [] ∨ 0 < (s.members member).opens then writeHeader member names else release member

/-- Remove the name `path`; the file goes with its last name, once no opening holds it. -/
def unlink (path : JsString) (syscall : String) : PoolWork Unit := do
  let s ← get
  let name := normal path
  match s.names.get? name with
  | none =>
    throw (if s.isDirectory name then .system "EISDIR" syscall name "illegal operation on a directory"
      else .system "ENOENT" syscall name "no such file or directory")
  | some member =>
    loseName member name
    modify fun s => { s with names := s.names.erase name }

/-- A second name for the file at `source`. -/
def link (source target : JsString) : PoolWork Unit := do
  let s ← get
  match s.names.get? (normal source) with
  | none => throw (.system "ENOENT" "link" (normal source) "no such file or directory")
  | some member =>
    if (s.names.get? (normal target)).isSome || s.isDirectory (normal target) then
      throw (.system "EEXIST" "link" (normal target) "file already exists")
    parentExists "link" (normal target)
    writeHeader member ((s.members member).names ++ [normal target])
    modify fun s => { s with names := s.names.set (normal target) member }

/-- Rename a file, replacing one at the target: the moved file's header written first. -/
def rename (source target : JsString) : PoolWork Unit := do
  let s ← get
  match s.names.get? (normal source) with
  | none => throw (.system "ENOENT" "rename" (normal source) "no such file or directory")
  | some member =>
    if normal source = normal target then return
    if s.isDirectory (normal target) then throw (.system "EISDIR" "rename" (normal target) "illegal operation on a directory")
    parentExists "rename" (normal target)
    let replaced := s.names.get? (normal target)
    if replaced = some member then return
    writeHeader member ((s.members member).names.map fun name => if name = normal source then normal target else name)
    modify fun s => { s with names := (s.names.erase (normal source)).set (normal target) member }
    match replaced with
    | none => return
    | some old => loseName old (normal target)

/-- A member as its file's header gives it. -/
def mountMember (file : Bytes) : Except HostFailure Member := do
  match ← newest file with
  | none => return {}
  | some (header, copy) => return { names := header.names, ino := header.ino, birth := header.birth, sequence := header.sequence, copy }

def mountMembers (disk : Nat → Bytes) : Nat → Except HostFailure (Nat → Member)
  | 0 => .ok fun _ => {}
  | count + 1 => do
    let members ← mountMembers disk count
    let own ← mountMember (disk count)
    return Function.update members count own

/-- A name two members claim belongs to the one written last: a member keeps the names no earlier one took. -/
def settleMember (member : Nat) : PoolWork Unit := do
  let s ← get
  let names := (s.members member).names
  let kept := names.filter fun name => (s.names.get? name).isNone
  modify fun s => { s with names := kept.foldl (fun map name => map.set name member) s.names }
  if kept = [] then release member
  else if kept.length ≠ names.length then writeHeader member kept

/-- The pool as a mount finds it, before any name is settled. -/
def mountState (count : Nat) (disk : Nat → Bytes) (members : Nat → Member) : Mounted where
  count := count
  disk := disk
  unflushed := fun _ => false
  members := members
  free := []
  names := []
  directories := [[slash]]
  sequence := (List.range count).foldl (fun next id => if next ≤ (members id).sequence then (members id).sequence + 1 else next) 1
  writes := []

/-- Its members, the one written last first. -/
def mountOrder (count : Nat) (members : Nat → Member) : List Nat :=
  (List.range count).mergeSort fun a b => (members b).sequence ≤ (members a).sequence

/-- Mount the pool's `count` members: their headers read, then each settled in the order of its writing. -/
def mountFiles (count : Nat) (disk : Nat → Bytes) : Except HostFailure (Except HostFailure Unit × Mounted) := do
  let members ← mountMembers disk count
  return ((mountOrder count members).forM settleMember : PoolWork Unit).runs (mountState count disk members)

end

end Moe
