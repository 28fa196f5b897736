import Moe.Lib.JsString
import Moe.Pool.Field

namespace Moe

open JsString

section Paths

def slash : UInt16 := 0x2F

/-- A path without empty parts, `.` and, where a name stands before it, `..`. -/
def normalized (path : JsString) : JsString :=
  let absolute := path.head? == some slash
  let parts := (path.splitOn slash).foldl (fun parts part =>
    if part = [] ∨ part = [0x2E] then parts
    else if part = [0x2E, 0x2E] then
      (if parts ≠ [] ∧ parts.getLast? ≠ some [0x2E, 0x2E] then parts.dropLast else if absolute then parts else parts ++ [part])
    else parts ++ [part]) ([] : List JsString)
  let joined := [slash].intercalate parts ++ if parts ≠ [] ∧ path.getLast? = some slash then [slash] else []
  if absolute then slash :: joined else if joined = [] then [0x2E] else joined

def resolve (path : JsString) : JsString :=
  let out := normalized (if path.head? = some slash then path else slash :: path)
  if 1 < out.length ∧ out.getLast? = some slash then out.dropLast else out

/-- A path as this system names it: absolute, normalized. -/
def normal (path : JsString) : JsString := resolve path

def dirname (path : JsString) : JsString :=
  let trimmed := if 1 < path.length then (path.reverse.dropWhile (· == slash)).reverse else path
  match trimmed.reverse.findIdx? (· == slash) with
  | none => [0x2E]
  | some back => if back + 1 = trimmed.length then [slash] else trimmed.take (trimmed.length - 1 - back)

theorem normalized_head {path : JsString} (absolute : path.head? = some slash) : (normalized path).head? = some slash := by
  unfold normalized
  simp only [absolute, beq_self_eq_true, if_true]
  rfl

theorem normal_head (path : JsString) : (normal path).head? = some slash := by
  have absolute : (if path.head? = some slash then path else slash :: path).head? = some slash := by
    split
    · assumption
    · rfl
  have head := normalized_head absolute
  unfold normal resolve
  simp only
  generalize normalized (if path.head? = some slash then path else slash :: path) = out at head
  split
  · rename_i long
    rw [List.head?_dropLast, if_pos long.1, head]
  · exact head

end Paths

/-- What a call of the file pool throws: an error as a system call reports it, or a text decoder's. -/
inductive HostFailure
  | system (code syscall : String) (path : JsString) (message : String)
  | undecodable
  deriving DecidableEq, Repr

def copyBytes : Nat := 2048

/-- The bytes before a file's data in its member: two header copies. -/
def headerBytes : Nat := 4096

def sumAt : Nat := copyBytes - 32

def poolMagic : Bytes := tag "moe-files 1" ++ List.replicate 5 0

/-- A header's two copies. -/
inductive Copy
  | first | second
  deriving DecidableEq, Repr

def Copy.other : Copy → Copy
  | .first => .second
  | .second => .first

def Copy.offset : Copy → Nat
  | .first => 0
  | .second => copyBytes

structure PoolHeader where
  names : List JsString
  ino : Nat
  birth : Nat
  sequence : Nat
  deriving DecidableEq, Repr

/-- `count` names from a byte of a header on; none where one passes the header's end. -/
def decodeNames (part : Bytes) : Nat → Nat → Except HostFailure (Option (List JsString))
  | 0, _ => .ok (some [])
  | count + 1, at_ =>
    let length := ofBytes ((part.drop at_).take 2)
    if sumAt < at_ + 2 + length then .ok none
    else match textDecode ((part.drop (at_ + 2)).take length) with
      | none => .error .undecodable
      | some name => (·.map (name :: ·)) <$> decodeNames part count (at_ + 2 + length)

def encodeNames : Nat → List JsString → Except HostFailure Bytes
  | _, [] => .ok []
  | at_, name :: rest =>
    let bytes := textEncode name
    if sumAt < at_ + 2 + bytes.length then .error (.system "EINVAL" "open" name "a file's names exceed its header")
    else (toBytes 2 bytes.length ++ bytes ++ ·) <$> encodeNames (at_ + 2 + bytes.length) rest

/-- A file's bytes from `at_` on, written over or after what it holds, zeros between. -/
def writeAt (file : Bytes) (at_ : Nat) (bytes : Bytes) : Bytes :=
  file.take at_ ++ List.replicate (at_ - file.length) 0 ++ bytes ++ file.drop (at_ + bytes.length)

def setLength (file : Bytes) (length : Nat) : Bytes := file.take length ++ List.replicate (length - file.length) 0

section

variable [Crypto]

def decode (part : Bytes) : Except HostFailure (Option PoolHeader) :=
  if part.take 16 ≠ poolMagic then .ok none
  else if (part.drop sumAt).take 32 ≠ sha256 (part.take sumAt) then .ok none
  else (·.map fun names => ⟨names, ofBytes ((part.drop 24).take 8), ofBytes ((part.drop 32).take 8), ofBytes ((part.drop 16).take 8)⟩) <$>
    decodeNames part (ofBytes ((part.drop 40).take 2)) 42

def encode (ino birth : Nat) (names : List JsString) (sequence : Nat) : Except HostFailure Bytes := do
  let lead := poolMagic ++ toBytes 8 sequence ++ toBytes 8 ino ++ toBytes 8 birth ++ toBytes 2 names.length
  let part := setLength (lead ++ (← encodeNames 42 names)) sumAt
  return part ++ sha256 part

/-- The header a copy holds, where the file reaches it. -/
def copyAt (file : Bytes) (copy : Copy) : Except HostFailure (Option PoolHeader) :=
  if copy.offset + copyBytes ≤ file.length then decode ((file.drop copy.offset).take copyBytes) else .ok none

/-- The newer of a file's header copies. -/
def newest (file : Bytes) : Except HostFailure (Option (PoolHeader × Copy)) := do
  let first ← copyAt file .first
  let second ← copyAt file .second
  return match first, second with
    | some a, some b => if a.sequence < b.sequence then some (b, .second) else some (a, .first)
    | some a, none => some (a, .first)
    | none, some b => some (b, .second)
    | none, none => none

end

end Moe
