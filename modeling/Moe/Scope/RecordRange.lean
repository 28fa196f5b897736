import Mathlib.Data.List.Lex
import Mathlib.Data.List.SplitBy
import Mathlib.Data.List.Sort
import Mathlib.Order.Defs.LinearOrder
import Moe.Lib.OrderedMap
import Moe.Scope.VenueRecords

namespace Moe

/-- Byte strings compare by their bytes' values, at the first that differs. -/
def byteValues (bytes : Bytes) : List Nat := bytes.map (·.toNat)

theorem byteValues_inj {a b : Bytes} (same : byteValues a = byteValues b) : a = b :=
  List.map_injective_iff.mpr (fun _ _ => UInt8.toNat_inj.mp) same

def isU64 (value : Nat) : Bool := value < 2 ^ 64

/-- The record kinds a range answer carries, in their codes' order. -/
inductive RecordKind
  | commitment | replacement | revocation | publication
  deriving DecidableEq

def fixedBytes : Nat := 102
def entryBytes : Nat := 20

/-- Exact record lengths for kinds 1–3, a maximum for kind 4. -/
def maxRangeRecordBytes : RecordKind → Nat
  | .commitment => 136
  | .replacement => 233
  | .revocation => 96
  | .publication => 131914

def recordLengthFits (kind : RecordKind) (length : Nat) : Bool :=
  if kind = .publication then length ≤ maxRangeRecordBytes .publication else length = maxRangeRecordBytes kind

structure RangeRequest where
  venue : Bytes
  kind : RecordKind
  subject : Bytes
  fromIndex : Nat
  toIndex : Nat
  deriving DecidableEq

/-- For kind 4 the ordinal is the venue's order within the index; zero for kinds 1–3. -/
structure RangeEntry where
  index : Nat
  ordinal : Nat
  record : Bytes
  deriving DecidableEq

structure RangeAnswer where
  request : RangeRequest
  entries : List RangeEntry
  deriving DecidableEq

structure RangeLimits where
  maxBytes : Nat
  maxEntries : Nat
  deriving DecidableEq

def copyLimits (value : RangeLimits) : Except Failure RangeLimits := do
  require (isU64 value.maxBytes && isU64 value.maxEntries) (.encoding "invalid range budget")
  return value

/-- A budget refuses locally, as the caller's own limit. -/
def budget (size count : Nat) (bound : RangeLimits) : Except Failure Unit :=
  require (size ≤ bound.maxBytes && count ≤ bound.maxEntries) (.rangeError "range reader budget exceeded")

/-- Kind-4 entries strictly increase by (index, ordinal); kinds 1–3 carry a zero ordinal and stand at one index in ascending
record-byte order. -/
def inOrder (kind : RecordKind) (entry : RangeEntry) : Option RangeEntry → Bool
  | none => kind = .publication || entry.ordinal = 0
  | some previous =>
    if previous.index < entry.index then kind = .publication || entry.ordinal = 0
    else if entry.index < previous.index then false
    else if kind = .publication then previous.ordinal < entry.ordinal
    else entry.ordinal = 0 && byteValues previous.record ≤ byteValues entry.record

def isWellFormedRequest (r : RangeRequest) : Bool :=
  r.venue.length = 32 && r.subject.length = 32 && isU64 r.fromIndex && isU64 r.toIndex && r.fromIndex ≤ r.toIndex

def copyRequest (r : RangeRequest) : Except Failure RangeRequest := do
  require (isWellFormedRequest r) (.encoding "malformed range request")
  return r

/-- One entry judged against the one before it and the size so far. -/
def validEntry (request : RangeRequest) (bound : Option RangeLimits) (count : Nat) (read : Option RangeEntry × Nat)
    (entry : RangeEntry) : Except Failure (Option RangeEntry × Nat) := do
  require (isU64 entry.index && isU64 entry.ordinal) (.encoding "invalid range entry")
  require (request.fromIndex ≤ entry.index && entry.index ≤ request.toIndex && inOrder request.kind entry read.1)
    (.encoding "range entry out of order, ordinal or range")
  require (recordLengthFits request.kind entry.record.length) (.encoding "range record length does not fit its kind")
  let size := read.2 + entry.record.length
  match bound with
  | some limits => budget size count limits
  | none => .ok ()
  return (some entry, size)

/-- An answer's structure: its request, its entries and its frame's size. -/
def validEntries (answer : RangeAnswer) (bound : Option RangeLimits) : Except Failure (RangeRequest × List RangeEntry × Nat) := do
  let request ← copyRequest answer.request
  let count := answer.entries.length
  require (count ≤ 2 ^ 32 - 1) (.encoding "range entry count exceeds u32")
  let size := fixedBytes + entryBytes * count
  match bound with
  | some limits => budget size count limits
  | none => .ok ()
  let read ← answer.entries.foldlM (validEntry request bound count) (none, size)
  return (request, answer.entries, read.2)

/-- An answer of one kind, valid in its frame. -/
def RangeAnswer.requireKind (answer : RangeAnswer) (kind : RecordKind) : Except Failure (RangeRequest × List RangeEntry) := do
  let request ← copyRequest answer.request
  require (request.kind = kind) (.encoding "wrong range kind")
  let read ← validEntries ⟨request, answer.entries⟩ none
  return (read.1, read.2.1)

/-- A held commitment as a range derives it. -/
structure RangeHeld where
  index : Nat
  commitment : Commitment
  deriving DecidableEq

/-- The highest sequence held before the entries at an index. -/
structure HeldPrior where
  fromIndex : Nat
  highest : Nat
  deriving DecidableEq

/-- A role's replacement that counts, by its signed-message hash, at its first witnessing. -/
structure AdmittedReplacement where
  index : Nat
  identity : Bytes
  replacement : Replacement
  deriving DecidableEq

section

variable [Crypto]

/-- One index's commitments by sequence, the lesser record bytes standing for a sequence told twice. -/
def heldCandidate (subject : Bytes) (highest : Nat) (candidates : OrderedMap Nat (Commitment × Bytes)) (entry : RangeEntry) :
    OrderedMap Nat (Commitment × Bytes) :=
  match decodeCommitment entry.record with
  | .error _ => candidates
  | .ok commitment =>
    if commitment.operator ≠ subject ∨ commitment.sequence ≤ highest ∨ verifyCommitment commitment = false then candidates
    else match candidates.get? commitment.sequence with
      | none => candidates.set commitment.sequence (commitment, entry.record)
      | some twin => if byteValues entry.record < byteValues twin.2 then candidates.set commitment.sequence (commitment, entry.record) else candidates

def heldCandidates (subject : Bytes) (highest : Nat) (entries : List RangeEntry) : OrderedMap Nat (Commitment × Bytes) :=
  entries.foldl (heldCandidate subject highest) []

/-- One candidate held at an index, in its turn. -/
def holdCandidate (candidates : OrderedMap Nat (Commitment × Bytes)) (index : Nat) (held : List RangeHeld × Nat) (sequence : Nat) :
    List RangeHeld × Nat :=
  match candidates.get? sequence with
  | none => held
  | some (commitment, _) => (held.1 ++ [⟨index, commitment⟩], sequence)

/-- What one index adds to the held commitments and to the highest sequence: its candidates in ascending order. -/
def holdIndex (subject : Bytes) (held : List RangeHeld × Nat) (entries : List RangeEntry) : List RangeHeld × Nat :=
  let candidates := heldCandidates subject held.2 entries
  ((candidates.map (·.1)).insertionSort (· ≤ ·)).foldl (holdCandidate candidates ((entries.head?.map (·.index)).getD 0)) held

/-- The held commitments of a run of entries, index by index, above what was held before. -/
def holdEntries (subject : Bytes) (highest : Nat) (entries : List RangeEntry) : List RangeHeld × Nat :=
  (entries.splitBy fun a b => a.index = b.index).foldl (holdIndex subject) ([], highest)

/-- The prior a range may carry: none from index zero, else the one established for its first index. -/
def priorHighest (request : RangeRequest) (prior : Option HeldPrior) : Except Failure Nat :=
  if request.fromIndex = 0 then do
    require (prior = none) (.encoding "a range from index zero has no prior held state")
    return 0
  else match prior with
    | none => .error (.encoding "held prior must be established for the range's first index")
    | some p => do
      require (isU64 p.fromIndex && isU64 p.highest && p.fromIndex = request.fromIndex)
        (.encoding "held prior must be established for the range's first index")
      return p.highest

def heldCommitments (answer : RangeAnswer) (prior : Option HeldPrior) : Except Failure (List RangeHeld × HeldPrior) := do
  let (request, entries) ← answer.requireKind .commitment
  let highest ← priorHighest request prior
  let held := holdEntries request.subject highest entries
  return (held.1, ⟨request.toIndex + 1, held.2⟩)

/-- Whether an entry is the subject's own revocation. -/
def revokes (subject : Bytes) (entry : RangeEntry) : Bool :=
  match decodeRevocation entry.record with
  | .error _ => false
  | .ok revocation => revocation.obligor = subject && isSignedRevocation revocation

/-- The first entry that decodes, names the subject and verifies. -/
def revocationIndex (answer : RangeAnswer) : Except Failure (Option Nat) := do
  let (request, entries) ← answer.requireKind .revocation
  return (entries.find? (revokes request.subject)).map (·.index)

/-- An entry as a replacement that counts for a subject under a rule key. -/
def admitEntry (subject rule : Bytes) (entry : RangeEntry) : Option AdmittedReplacement :=
  match decodeReplacement entry.record with
  | .error _ => none
  | .ok (backingName, replacement) =>
    if backingName ≠ subject ∨ verifyReplacement backingName replacement rule = false then none
    else some ⟨entry.index, replacementHash backingName replacement, replacement⟩

/-- One identity counts once, at its first witnessing. -/
def admitNext (subject rule : Bytes) (admitted : List AdmittedReplacement) (entry : RangeEntry) : List AdmittedReplacement :=
  match admitEntry subject rule entry with
  | none => admitted
  | some a => if admitted.any (·.identity = a.identity) then admitted else admitted ++ [a]

def admitEntries (subject rule : Bytes) (entries : List RangeEntry) : List AdmittedReplacement :=
  entries.foldl (admitNext subject rule) []

/-- Without a declared rule no record counts. -/
def admittedReplacements (answer : RangeAnswer) (ruleKey : Option Bytes) : Except Failure (List AdmittedReplacement) := do
  let (request, entries) ← answer.requireKind .replacement
  match ruleKey with
  | none => return []
  | some rule => do
    require (rule.length = 32) (.encoding "invalid range bytes")
    return admitEntries request.subject rule entries

end

end Moe
