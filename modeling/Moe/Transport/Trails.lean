import Moe.Transport.Headers

namespace Moe

namespace Transport

/-- A construction's trail: its contexts and its largest record and root terms, its frames' lengths within a u32. -/
structure TrailProfile where
  context : Bytes
  headerContext : Bytes
  maxRecordBytes : Nat
  maxTermsBytes : Nat
  headerFits : maxHeaderBytes headerContext < 2 ^ 32
  recordFits : maxRecordBytes < 2 ^ 32

def v3Trails : TrailProfile where
  context := tag "moe/pool/v3/trail"
  headerContext := tag "moe/pool/v3/segment"
  maxRecordBytes := 131978
  maxTermsBytes := 1305
  headerFits := by decide
  recordFits := by decide

def litTrails : TrailProfile where
  context := tag "moe/lit/v1/trail"
  headerContext := tag "moe/lit/v1/segment"
  maxRecordBytes := 2 * (4 + 4096)
  maxTermsBytes := 1296
  headerFits := by decide
  recordFits := by decide

/-- A caller's budget for one trail held in memory. -/
structure TrailLimits where
  maxBytes : Nat
  maxEvents : Nat

/-- One scoped backing's terms with their signature, neither authenticated here. -/
structure TermField where
  terms : Bytes
  signature : Bytes
  deriving DecidableEq

structure ServedTrail where
  header : Bytes
  terms : List TermField
  records : List Bytes
  deriving DecidableEq

/-- A terms field as the reader delivers it: without the terms where it skipped a field longer than any root terms. -/
structure ToldTerms where
  terms : Option Bytes
  signature : Bytes
  deriving DecidableEq

/-- What a trail's sink is told of an accepted frame. -/
structure ToldTrail where
  header : Bytes
  terms : List ToldTerms
  count : Nat
  records : List Bytes
  deriving DecidableEq

structure TrailReading where
  keepLongTerms : Bool
  budget : Option TrailLimits
  /-- The reader's own first events, and their bytes of the frame. -/
  retained : Nat × Nat

/-- The largest count a JavaScript array, and a number the code allocates by, has. -/
def maxSafeInteger : Nat := 2 ^ 53 - 1

namespace TrailProfile

variable (f : TrailProfile)

def fixed : Nat := f.context.length + 12
def prefixBytes : Nat := headerPrefixBytes f.headerContext

end TrailProfile

def limits (value : TrailLimits) : Except Failure TrailLimits := do
  require (value.maxBytes < 2 ^ 64 && value.maxEvents < 2 ^ 64) (.encoding "invalid trail budget")
  return value

def byteBudget (size : Nat) (budget : Option TrailLimits) : Except Failure Unit :=
  match budget with
  | none => .ok ()
  | some bound => require (size ≤ bound.maxBytes) (.error "trail exceeds reader byte budget")

def eventBudget (count : Nat) (budget : Option TrailLimits) : Except Failure Unit :=
  match budget with
  | none => .ok ()
  | some bound => require (count ≤ bound.maxEvents) (.error "trail exceeds reader event budget")

def contextAt (input context : Bytes) : Except Failure Unit :=
  require (input.take context.length = context) (.encoding "wrong trail context")

def u32At (bytes : Bytes) (offset : Nat) : Nat := ofBytes ((bytes.drop offset).take 4)

/-- Go on where a condition holds. -/
def check (condition : Bool) (what : String) : FrameReader Unit := Pull.lift (require condition (.encoding what))

section Reader

variable (f : TrailProfile) (total : Nat)

/-- One scoped terms field, and what is then consumed. -/
def readTerm (keepLongTerms : Bool) (consumed : Nat) : FrameReader (ToldTerms × Nat) := do
  let length := ofBytes (← Pull.take 4)
  let consumed := consumed + 4
  check (consumed + length + 64 ≤ total) "trail field byte bound"
  if keepLongTerms || length ≤ f.maxTermsBytes then do
    let terms ← Pull.take length
    let signature ← Pull.take 64
    return (⟨some terms, signature⟩, consumed + (length + 64))
  else do
    let _ ← pieces length length []
    let signature ← Pull.take 64
    return (⟨none, signature⟩, consumed + (length + 64))

def readTerms (keepLongTerms : Bool) : Nat → Nat → FrameReader (List ToldTerms × Nat)
  | 0, consumed => pure ([], consumed)
  | count + 1, consumed => do
    let (term, consumed) ← readTerm f total keepLongTerms consumed
    let (terms, consumed) ← readTerms keepLongTerms count consumed
    return (term :: terms, consumed)

def readRecord (consumed : Nat) : FrameReader (Bytes × Nat) := do
  let length := ofBytes (← Pull.take 4)
  let consumed := consumed + 4
  check (length ≤ f.maxRecordBytes && consumed + length ≤ total) "trail field byte bound"
  let record ← Pull.take length
  return (record, consumed + length)

def readRecords : Nat → Nat → FrameReader (List Bytes × Nat)
  | 0, consumed => pure ([], consumed)
  | count + 1, consumed => do
    let (record, consumed) ← readRecord f total consumed
    let (records, consumed) ← readRecords count consumed
    return (record :: records, consumed)

/-- A trail's header, its length within the bounds and its count of scoped terms matching it, and what is then consumed. -/
def readHead : FrameReader (Bytes × Nat × Nat) := do
  check (f.fixed + minHeaderBytes f.headerContext + 68 ≤ total) "truncated trail"
  let head ← Pull.take (f.context.length + 4)
  Pull.lift (contextAt head f.context)
  let headerLength := u32At head f.context.length
  let consumed := head.length
  check (minHeaderBytes f.headerContext ≤ headerLength && headerLength ≤ maxHeaderBytes f.headerContext && consumed + headerLength ≤ total)
    "trail header byte bound"
  let header ← Pull.take headerLength
  let consumed := consumed + headerLength
  Pull.lift (contextAt header f.headerContext)
  let count := u32At header (f.prefixBytes - 4)
  check (1 ≤ count && count ≤ 65536 && headerLength = f.prefixBytes + 136 * count) "trail header count or size"
  check (68 * count + 8 ≤ total - consumed) "truncated scoped terms"
  return (header, count, consumed)

/-- The frame of exactly `total` bytes: the header, the scoped terms, the event count and each record, to the exact end, and
only then the header's full decoding. Every count fits the bytes that remain before any element is read. -/
def readTrail (options : TrailReading) : FrameReader ToldTrail := do
  let (header, count, consumed) ← readHead f total
  let (terms, consumed) ← readTerms f total options.keepLongTerms count consumed
  check (consumed + 8 ≤ total) "missing trail event count"
  let events := ofBytes (← Pull.take 8)
  let consumed := consumed + 8
  Pull.lift (eventBudget events options.budget)
  check (4 * events ≤ total - consumed) "trail count exceeds remaining bytes"
  check (options.retained.1 ≤ events && options.retained.2 ≤ total - consumed) "trailing trail bytes"
  let (records, consumed) ← readRecords f total (events - options.retained.1) (consumed + options.retained.2)
  check (consumed = total) "trailing trail bytes"
  let _ ← Pull.lift (decodeSegmentHeader f.headerContext header)
  return ⟨header, terms, events, records⟩

end Reader

/-- One terms field judged, and the size so far. -/
def ownTerm (budget : Option TrailLimits) (size : Nat) (term : TermField) : Except Failure Nat := do
  require (term.signature.length = 64) (.encoding "invalid trail bytes")
  require (term.terms.length ≤ 2 ^ 32 - 1) (.encoding "terms exceed u32 length")
  byteBudget (size + term.terms.length) budget
  return size + term.terms.length

def ownTrailRecord (f : TrailProfile) (budget : Option TrailLimits) (size : Nat) (record : Bytes) : Except Failure Nat := do
  require (record.length ≤ f.maxRecordBytes) (.encoding "trail record too long")
  byteBudget (size + record.length) budget
  return size + record.length

/-- Shape and budgets precede header decoding. -/
def requireTrail (f : TrailProfile) (input : ServedTrail) (budgetIn : Option TrailLimits) : Except Failure Nat := do
  let budget ← budgetIn.mapM limits
  eventBudget input.records.length budget
  let header := input.header
  let size := f.fixed + header.length + 68 * input.terms.length + 4 * input.records.length
  byteBudget size budget
  require (minHeaderBytes f.headerContext ≤ header.length && header.length ≤ maxHeaderBytes f.headerContext) (.encoding "trail header byte bound")
  contextAt header f.headerContext
  let count := u32At header (f.prefixBytes - 4)
  require (1 ≤ count && count ≤ 65536 && header.length = f.prefixBytes + 136 * count) (.encoding "trail header count or size")
  require (input.terms.length = count) (.encoding "wrong scoped terms count")
  let size ← input.terms.foldlM (ownTerm budget) size
  let size ← input.records.foldlM (ownTrailRecord f budget) size
  require (size ≤ maxSafeInteger) (.error "trail exceeds implementation allocation range")
  let _ ← decodeSegmentHeader f.headerContext header
  return size

def writeTerm (term : TermField) : Bytes := lengthPrefixed term.terms ++ term.signature

/-- A frame's head: the context, the header, each scoped terms field and the event count. -/
def headOf (f : TrailProfile) (header : Bytes) (terms : List TermField) (events : Nat) : Bytes :=
  f.context ++ lengthPrefixed header ++ terms.flatMap writeTerm ++ toBytes 8 events

def writeTrail (f : TrailProfile) (trail : ServedTrail) : Bytes :=
  headOf f trail.header trail.terms trail.records.length ++ trail.records.flatMap lengthPrefixed

def encodeTrail (f : TrailProfile) (input : ServedTrail) (budget : Option TrailLimits) : Except Failure Bytes := do
  let _ ← requireTrail f input budget
  return writeTrail f input

/-- A trail held in memory, read by the one trail reader under the caller's budget. -/
def decodeTrail (f : TrailProfile) (input : Bytes) (budgetIn : Option TrailLimits) : Except Failure ServedTrail := do
  let budget ← budgetIn.mapM limits
  byteBudget input.length budget
  let told ← FrameFeed.read (readTrail f input.length ⟨true, budget, (0, 0)⟩) [input]
  return ⟨told.header, told.terms.map fun term => ⟨term.terms.getD [], term.signature⟩, told.records⟩

end Transport

end Moe
