import Moe.Transport.TrailRoutes

namespace Moe

namespace Transport

structure PackageLimits where
  maxBytes : Nat
  maxItems : Nat

/-- An opaque payload under its kind. -/
structure EvidenceItem where
  kind : Nat
  payload : Bytes
  deriving DecidableEq

/-- An item as the reader delivers it, whole or in pieces, with its payload's hash. -/
structure ToldItem extends EvidenceItem where
  hash : Bytes
  deriving DecidableEq

structure PackageReading where
  total : Option Nat
  maxItemBytes : Option Nat
  maxItems : Option Nat

/-- One backing's snapshot digest in a checkpoint's directory. -/
structure SnapshotDigest where
  name : Bytes
  digest : Bytes
  deriving DecidableEq

def packageLimits (value : PackageLimits) : Except Failure PackageLimits := do
  require (value.maxBytes < 2 ^ 64 && value.maxItems < 2 ^ 64) (.encoding "invalid package budget")
  return value

def packageBudget (size count : Nat) (bound : Option PackageLimits) : Except Failure Unit :=
  match bound with
  | none => .ok ()
  | some limit => require (size ≤ limit.maxBytes && count ≤ limit.maxItems) (.error "package reader budget exceeded")

def requireEvidenceKind (kind : Nat) : Except Failure Unit :=
  require (1 ≤ kind && kind ≤ 11) (.encoding "unsupported evidence kind")

/-- Items stand in strictly increasing (kind, hash) order. -/
def inItemOrder (previous : Option (Nat × Bytes)) (kind : Nat) (hash : Bytes) : Bool :=
  match previous with
  | none => true
  | some before => !(kind < before.1 || (kind = before.1 && byteValues hash ≤ byteValues before.2))

def ordered (previous : Option (Nat × Bytes)) (kind : Nat) (hash : Bytes) : Except Failure Unit :=
  require (inItemOrder previous kind hash) (.encoding "evidence items must be strictly ordered")

def withinTotal (size : Nat) (total : Option Nat) (what : String) : Except Failure Unit :=
  match total with
  | none => .ok ()
  | some total => require (size ≤ total) (.encoding what)

def withinLimit (size : Nat) (limit : Option Nat) (what : String) : Except Failure Unit :=
  match limit with
  | none => .ok ()
  | some limit => require (size ≤ limit) (.error what)

def writeItem (item : EvidenceItem) : Bytes := toBytes 1 item.kind ++ toBytes 8 item.payload.length ++ item.payload

section Reader

variable [Crypto] (stream : Nat → Nat → Bool) (reading : PackageReading)

/-- One item after `previous`, and the bytes then read. A streamed payload is hashed piece by piece. -/
def readItem (previous : Option (Nat × Bytes)) (offset : Nat) : FrameReader (ToldItem × Nat) := do
  let head ← Pull.take 9
  let kind := ofBytes (head.take 1)
  Pull.lift (requireEvidenceKind kind)
  let length := ofBytes (head.drop 1)
  let offset := offset + 9
  Pull.lift (withinTotal (offset + length) reading.total "truncated evidence payload")
  if stream kind length then do
    let payload ← pieces length length []
    let hash := sha256 payload
    Pull.lift (ordered previous kind hash)
    return (⟨⟨kind, payload⟩, hash⟩, offset + length)
  else do
    Pull.lift (withinLimit length reading.maxItemBytes "package item exceeds the reader's budget")
    Pull.lift (require (length ≤ maxSafeInteger) (.error "package item exceeds the implementation's range"))
    let payload ← Pull.take length
    let hash := sha256 payload
    Pull.lift (ordered previous kind hash)
    return (⟨⟨kind, payload⟩, hash⟩, offset + length)

def readItems : Nat → Option (Nat × Bytes) → Nat → FrameReader (List ToldItem)
  | 0, _, _ => pure []
  | count + 1, previous, offset => do
    let (item, offset) ← readItem stream reading previous offset
    let items ← readItems count (some (item.kind, item.hash)) offset
    return item :: items

/-- The frame: the context, the count, then each item's kind, length and payload, to the exact end. -/
def readPackage (context : Bytes) : FrameReader (List ToldItem) := do
  let fixed := context.length + 4
  Pull.lift (withinTotal fixed reading.total "truncated package")
  let head ← Pull.take fixed
  Pull.lift (require (head.take context.length = context) (.encoding "wrong package context"))
  let count := u32At head context.length
  Pull.lift (withinLimit count reading.maxItems "package reader budget exceeded")
  Pull.lift (withinTotal (fixed + 9 * count) reading.total "impossible evidence count")
  readItems stream reading count none fixed

end Reader

section Encoder

variable [Crypto]

/-- One item judged, and the size so far. -/
def ownItem (bound : Option PackageLimits) (count size : Nat) (item : EvidenceItem) : Except Failure Nat := do
  requireEvidenceKind item.kind
  require (item.payload.length < 2 ^ 64) (.encoding "evidence payload too long")
  packageBudget (size + item.payload.length) count bound
  return size + item.payload.length

/-- Each item after the one before it. -/
def requireOrder : Option (Nat × Bytes) → List EvidenceItem → Except Failure Unit
  | _, [] => .ok ()
  | previous, item :: items => do
    ordered previous item.kind (sha256 item.payload)
    requireOrder (some (item.kind, sha256 item.payload)) items

def writePackage (context : Bytes) (items : List EvidenceItem) : Bytes := context ++ toBytes 4 items.length ++ items.flatMap writeItem

/-- Accepts canonical order, never repairs or deduplicates. -/
def encodePackage (context : Bytes) (input : List EvidenceItem) (boundIn : Option PackageLimits) : Except Failure Bytes := do
  let bound ← boundIn.mapM packageLimits
  let count := input.length
  require (count < 2 ^ 32) (.encoding "invalid evidence count")
  let size := context.length + 4 + 9 * count
  packageBudget size count bound
  let size ← input.foldlM (ownItem bound count) size
  require (size ≤ maxSafeInteger) (.error "package allocation range exceeded")
  requireOrder none input
  return writePackage context input

def decodePackage (context input : Bytes) (boundIn : Option PackageLimits) : Except Failure (List EvidenceItem) := do
  let bound ← boundIn.mapM packageLimits
  packageBudget input.length 0 bound
  let told ← FrameFeed.read (readPackage (fun _ _ => false) ⟨some input.length, none, bound.map (·.maxItems)⟩ context) [input]
  return told.map (·.toEvidenceItem)

end Encoder

/-- The magic and version a directory starts with. -/
def directoryMagic : Bytes := tag "MOED" ++ [1]

def writeDigest (entry : SnapshotDigest) : Bytes := entry.name ++ entry.digest

/-- One entry judged against the name before it. -/
def ownDigest (previous : Option Bytes) (entry : SnapshotDigest) : Except Failure (Option Bytes) := do
  require (entry.name.length = 32) (.encoding "invalid package bytes")
  require (entry.digest.length = 32) (.encoding "invalid package bytes")
  require (previous.all fun before => byteValues before < byteValues entry.name) (.encoding "unordered directory")
  return some entry.name

def encodeEvidenceDirectory (input : List SnapshotDigest) (boundIn : Option PackageLimits) : Except Failure Bytes := do
  let bound ← boundIn.mapM packageLimits
  let count := input.length
  require (count < 2 ^ 32) (.encoding "invalid directory count")
  packageBudget (9 + 64 * count) count bound
  let _ ← input.foldlM ownDigest none
  return directoryMagic ++ toBytes 4 count ++ input.flatMap writeDigest

def decodeEvidenceDirectory (input : Bytes) (boundIn : Option PackageLimits) : Except Failure (List SnapshotDigest) := do
  let bound ← boundIn.mapM packageLimits
  packageBudget input.length 0 bound
  require (9 ≤ input.length) (.encoding "truncated directory")
  require (subarray input 0 5 = directoryMagic) (.encoding "wrong package context")
  let count := u32At input 5
  packageBudget input.length count bound
  require (9 + 64 * count = input.length) (.encoding "wrong directory length")
  let name (i : Nat) : Bytes := subarray input (9 + 64 * i) (41 + 64 * i)
  require ((List.range (count - 1)).all fun i => byteValues (name i) < byteValues (name (i + 1))) (.encoding "unordered directory")
  return (List.range count).map fun i => ⟨name i, subarray input (41 + 64 * i) (73 + 64 * i)⟩

end Transport

end Moe
