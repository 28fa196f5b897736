import Moe.Lib.JsString
import Moe.Lit.Notes

namespace Moe.Terms

/-- A construction's silence clause: a duration and a challenge window under tag 1, the duration alone under tag 6. -/
inductive SilenceTag
  | one
  | six
  deriving DecidableEq

/-- A construction's terms: its tag-5 name and its silence clause. -/
structure Profile where
  construction : Bytes
  silenceTag : SilenceTag
  named : 0 < construction.length ∧ construction.length ≤ 255

def profileOf (construction : JsString) (silenceTag : SilenceTag) : Except Failure Profile :=
  let construction := JsString.textEncode construction
  if named : 0 < construction.length ∧ construction.length ≤ 255 then .ok ⟨construction, silenceTag, named⟩
  else .error (.rangeError "invalid terms profile")

/-- The pool's 1305 bytes hold an 11-byte name and a 16-byte silence payload. -/
def Profile.maxBytes (p : Profile) : Nat := 1305 - 11 + p.construction.length - if p.silenceTag = .one then 0 else 8

structure Payout where
  thing : JsString
  quantumExponent : Int
  perUnit : Nat
  deriving DecidableEq

structure Silence where
  noCommitmentDuration : Nat
  challengeWindow : Option Nat
  deriving DecidableEq

structure NonService where
  duration : Nat
  count : Nat
  window : Nat
  deriving DecidableEq

/-- Root terms under a profile; the challenge window is present exactly under a tag-1 profile. -/
structure ConstructionTerms where
  obligor : Bytes
  payout : Payout
  operator : Bytes
  configuration : Bytes
  venue : Bytes
  interval : Nat
  silence : Option Silence
  replacementRule : Option Bytes
  nonService : Option NonService
  deriving DecidableEq

def magic : Bytes := tag "MOEB"

def maxU64 : Nat := 2 ^ 64 - 1

def maxQuantityBytes : Nat := 32

/-- The bytes a quantity needs. -/
def minimalLength (n : Nat) : Nat := if n = 0 then 0 else minimalLength (n / 256) + 1
  termination_by n
  decreasing_by omega

/-- Unsigned big-endian of minimal length, no leading zero byte. -/
def bigintToMinimalBytes (n : Nat) : Bytes := toBytes (minimalLength n) n

def minimalBytesToBigint (bytes : Bytes) : Except Failure Nat := do
  require (bytes.head? ≠ some 0) (.encoding "non-minimal bigint encoding")
  return ofBytes bytes

/-- A signed byte, two's complement. -/
def signedByte (n : Int) : Bytes := [UInt8.ofNat (n % 256).toNat]

def readSignedByte : Reader Int := do
  let n ← Reader.u8
  return if n > 127 then (n : Int) - 256 else n

/-- An owned copy, judged by its own length. -/
def own (bytes : Bytes) (max : Nat) (what : String) (whole : Bool) : Except Failure Bytes := do
  require (bytes.length ≤ max && (!whole || bytes.length = max)) (.encoding s!"invalid {what} bytes")
  return bytes

def unsigned (value max : Nat) (what : String) : Except Failure Unit := require (value ≤ max) (.encoding s!"invalid {what}")

section Keys

variable [PublicKeys]

def key (bytes : Bytes) (what : String) : Except Failure Bytes := do
  let result ← own bytes 32 what true
  require (isValidPublicKey result) (.encoding s!"invalid {what} key")
  return result

/-- The checks on a payout, and its thing's bytes. -/
def ownPayout (payout : Payout) : Except Failure Bytes := do
  require (payout.thing.length ≠ 0 && payout.thing.length ≤ 1024 && payout.thing.isWellFormed) (.encoding "invalid payout thing")
  let thingBytes := payout.thing.textEncode
  require (thingBytes.length ≤ 1024) (.encoding "payout thing too long")
  require (-128 ≤ payout.quantumExponent && payout.quantumExponent ≤ 127) (.encoding "invalid quantum exponent")
  require (1 ≤ payout.perUnit && payout.perUnit < 2 ^ (8 * maxQuantityBytes)) (.encoding "payout per unit out of range")
  return thingBytes

def ownSilence (p : Profile) (silence : Silence) : Except Failure Unit := do
  unsigned silence.noCommitmentDuration maxU64 "no-commitment duration"
  match p.silenceTag, silence.challengeWindow with
  | .one, some challengeWindow => unsigned challengeWindow maxU64 "challenge window"
  | .one, none => .error (.encoding "invalid challenge window")
  | .six, some _ => .error (.encoding "invalid challenge window")
  | .six, none => .ok ()

def ownNonService (nonService : NonService) : Except Failure Unit := do
  unsigned nonService.duration maxU64 "non-service duration"
  unsigned nonService.count 0xFFFFFFFF "non-service count"
  unsigned nonService.window maxU64 "non-service window"

/-- The check on a field where there is one. -/
def ifPresent {α : Type} (check : α → Except Failure Unit) : Option α → Except Failure Unit
  | none => .ok ()
  | some value => check value

/-- Emits only the constant-payout, empty-reliance profile. -/
def encodeTerms (p : Profile) (fields : ConstructionTerms) : Except Failure Bytes := do
  let obligor ← key fields.obligor "obligor"
  let operator ← key fields.operator "operator"
  let configuration ← own fields.configuration 32 "configuration" true
  let venue ← own fields.venue 32 "venue" true
  let thingBytes ← ownPayout fields.payout
  unsigned fields.interval maxU64 "witness interval"
  ifPresent (ownSilence p) fields.silence
  ifPresent (fun rule => do let _ ← key rule "replacement"; return) fields.replacementRule
  ifPresent ownNonService fields.nonService
  return magic ++ toBytes 1 1 ++ toBytes 1 1 ++ obligor ++
    toBytes 1 1 ++ lengthPrefixed thingBytes ++ signedByte fields.payout.quantumExponent ++
    lengthPrefixed (bigintToMinimalBytes fields.payout.perUnit) ++ toBytes 4 0 ++
    toBytes 1 5 ++ operator ++
    toBytes 4 (2 + fields.silence.isSome.toNat + fields.replacementRule.isSome.toNat + fields.nonService.isSome.toNat) ++
    (if p.silenceTag = .one then fields.silence.elim [] fun s =>
      toBytes 1 1 ++ toBytes 8 s.noCommitmentDuration ++ toBytes 8 (s.challengeWindow.getD 0) else []) ++
    toBytes 1 2 ++ venue ++ toBytes 8 fields.interval ++
    (fields.replacementRule.elim [] fun rule => toBytes 1 3 ++ rule) ++
    (fields.nonService.elim [] fun n => toBytes 1 4 ++ toBytes 8 n.duration ++ toBytes 4 n.count ++ toBytes 8 n.window) ++
    toBytes 1 5 ++ lengthPrefixed p.construction ++ configuration ++
    (if p.silenceTag = .six then fields.silence.elim [] fun s => toBytes 1 6 ++ toBytes 8 s.noCommitmentDuration else [])

end Keys

/-- A clause as it is read: each tag has one payload whatever the construction. -/
inductive Clause
  | window (noCommitmentDuration challengeWindow : Nat)
  | venue (venue : Bytes) (interval : Nat)
  | replacement (rule : Bytes)
  | nonService (clause : NonService)
  | construction (name configuration : Bytes)
  | lapse (noCommitmentDuration : Nat)
  deriving DecidableEq

/-- What the clauses read so far say. -/
structure Found where
  venue : Option (Bytes × Nat) := none
  configuration : Option Bytes := none
  silence : Option Silence := none
  replacementRule : Option Bytes := none
  nonService : Option NonService := none

def Found.take (found : Found) : Clause → Found
  | .window duration challengeWindow => { found with silence := some ⟨duration, some challengeWindow⟩ }
  | .venue venue interval => { found with venue := some (venue, interval) }
  | .replacement rule => { found with replacementRule := some rule }
  | .nonService clause => { found with nonService := some clause }
  | .construction _ configuration => { found with configuration := some configuration }
  | .lapse duration => { found with silence := some ⟨duration, none⟩ }

def readWindow (p : Profile) : Reader Clause := do
  require (p.silenceTag = .one) (.encoding "unsupported clause")
  let duration ← Reader.u64
  let challengeWindow ← Reader.u64
  return .window duration challengeWindow

def readVenue : Reader Clause := do
  let venue ← Reader.raw 32
  let interval ← Reader.u64
  return .venue venue interval

def readReplacement : Reader Clause := do
  let rule ← Reader.raw 32
  return .replacement rule

def readNonService : Reader Clause := do
  let duration ← Reader.u64
  let count ← Reader.u32
  let window ← Reader.u64
  return .nonService ⟨duration, count, window⟩

def readConstruction (p : Profile) : Reader Clause := do
  let name ← Reader.lengthPrefixed p.construction.length
  require (name = p.construction) (.encoding "unsupported construction")
  let configuration ← Reader.raw 32
  return .construction name configuration

def readLapse (p : Profile) : Reader Clause := do
  require (p.silenceTag = .six) (.encoding "unsupported clause")
  let duration ← Reader.u64
  return .lapse duration

def readClause (p : Profile) : Nat → Reader Clause
  | 1 => readWindow p
  | 2 => readVenue
  | 3 => readReplacement
  | 4 => readNonService
  | 5 => readConstruction p
  | 6 => readLapse p
  | _ => liftM (.error (.encoding "unsupported clause") : Except Failure Clause)

/-- Clauses in the order of their tags, each tag once. -/
def readClauses (p : Profile) : Nat → Nat → Found → Reader Found
  | 0, _, found => pure found
  | count + 1, previous, found => do
    let tag ← Reader.u8
    require (previous < tag) (.encoding "noncanonical clause order")
    let clause ← readClause p tag
    readClauses p count tag (found.take clause)

def Found.terms (found : Found) (obligor : Bytes) (payout : Payout) (operator : Bytes) : Except Failure ConstructionTerms :=
  match found.venue, found.configuration with
  | some (venue, interval), some configuration =>
    .ok { obligor, payout, operator, configuration, venue, interval, silence := found.silence,
          replacementRule := found.replacementRule, nonService := found.nonService }
  | _, _ => .error (.encoding "missing required clause")

def decodeThing (bytes : Bytes) : Except Failure JsString :=
  match JsString.textDecodeKeeping bytes with
  | some thing => .ok thing
  | none => .error (.encoding "invalid payout UTF-8")

def readPrefix : Reader Unit := do
  let own ← Reader.raw 4
  require (own = magic) (.encoding "unsupported root terms prefix")
  let version ← Reader.u8
  require (version = 1) (.encoding "unsupported root terms prefix")
  let kind ← Reader.u8
  require (kind = 1) (.encoding "unsupported root terms prefix")

def readPayout : Reader Payout := do
  let constant ← Reader.u8
  require (constant = 1) (.encoding "unsupported payout")
  let thingBytes ← Reader.lengthPrefixed 1024
  let thing ← liftM (decodeThing thingBytes)
  let quantumExponent ← readSignedByte
  let quantity ← Reader.lengthPrefixed maxQuantityBytes
  let perUnit ← liftM (minimalBytesToBigint quantity)
  return { thing, quantumExponent, perUnit }

section Keys

variable [PublicKeys]

def readTerms (p : Profile) : Reader ConstructionTerms := do
  readPrefix
  let obligor ← Reader.raw 32
  let payout ← readPayout
  let reliance ← Reader.u32
  require (reliance = 0) (.encoding "unsupported reliance")
  let evidence ← Reader.u8
  require (evidence = 5) (.encoding "unsupported evidence")
  let operator ← Reader.raw 32
  let count ← Reader.u32
  require (2 ≤ count && count ≤ 5) (.encoding "invalid clause count")
  let found ← readClauses p count 0 {}
  Reader.expectEnd
  let fields ← liftM (found.terms obligor payout operator)
  let _ ← liftM (encodeTerms p fields)
  return fields

/-- Strict, bounded decoding, the constructor's validation reused on what is read. -/
def decodeTerms (p : Profile) (bytes : Bytes) : Except Failure ConstructionTerms := do
  let own ← own bytes p.maxBytes "root terms" false
  Reader.run (readTerms p) own

end Keys

end Moe.Terms
