import Moe.Lib.Drain
import Moe.Scope.RecordRange

namespace Moe

def rangeLimits : RangeLimits := ⟨1048576, 4096⟩
/-- The most taken for one index past `rangeLimits`, whatever a venue declares. -/
def indexLimits : RangeLimits := ⟨2 ^ 25, 2 ^ 18⟩

def unresolvedEvidence : Failure := .evidence "unresolved-evidence"

/-- What a venue does with one request: it refuses by the budget, fails, throws, has no answer, or answers with bytes. -/
inductive VenueReply
  | limited | venueError | throws (failure : Failure) | absent | bytes (answer : Bytes)

/-- A venue, whose answers may depend on what it has been asked. -/
structure Venue (V : Type) where
  range : V → RangeRequest → RangeLimits → V × VenueReply
  indexLimits : Option (V → V × Except Failure RangeLimits)

/-- The big-endian integer of some bytes of a frame. -/
def frameInt (bytes : Bytes) (offset width : Nat) : Nat := ofBytes ((bytes.drop offset).take width)

def recordKindOf : Nat → Option RecordKind
  | 1 => some .commitment
  | 2 => some .replacement
  | 3 => some .revocation
  | 4 => some .publication
  | _ => none

/-- The entries of a frame, each judged against the one before it, to the frame's last byte. -/
def decodeEntries (expected : RangeRequest) : Nat → Bytes → Option RangeEntry → Except Failure (List RangeEntry)
  | 0, rest, _ => do
    require (rest = []) (.encoding "trailing range bytes")
    return []
  | count + 1, rest, previous => do
    require (entryBytes ≤ rest.length) (.encoding "truncated range entry")
    let length := frameInt rest 16 4
    require (recordLengthFits expected.kind length && length ≤ rest.length - entryBytes)
      (.encoding "range record length does not fit its kind")
    let entry : RangeEntry := ⟨frameInt rest 0 8, frameInt rest 8 8, (rest.drop entryBytes).take length⟩
    require (expected.fromIndex ≤ entry.index && entry.index ≤ expected.toIndex && inOrder expected.kind entry previous)
      (.encoding "range entry out of order, ordinal or range")
    let later ← decodeEntries expected count (rest.drop (entryBytes + length)) (some entry)
    return entry :: later

/-- Bytes as the exact answer to a reader's own request. -/
def decodeRangeAnswer (input : Bytes) (expected : RangeRequest) (boundIn : RangeLimits) : Except Failure RangeAnswer := do
  let bound ← copyLimits boundIn
  budget input.length 0 bound
  let expected ← copyRequest expected
  require (fixedBytes ≤ input.length) (.encoding "truncated range answer")
  require (input.take 17 = tag "moe/pool/v3/range") (.encoding "wrong range context")
  match recordKindOf (frameInt input 49 1) with
  | none => .error (.encoding "unsupported range record kind")
  | some kind => do
    let carried : RangeRequest := ⟨(input.drop 17).take 32, kind, (input.drop 50).take 32, frameInt input 82 8, frameInt input 90 8⟩
    require (carried = expected) (.encoding "answer to another request")
    let count := frameInt input 98 4
    budget input.length count bound
    require (entryBytes * count ≤ input.length - fixedBytes) (.encoding "impossible range entry count")
    let entries ← decodeEntries expected count (input.drop fixedBytes) none
    return ⟨expected, entries⟩

/-- A reply that is to be a window's answer. -/
def takeReply (request : RangeRequest) (limits : RangeLimits) : VenueReply → Except Failure RangeAnswer
  | .limited => .error (.rangeError "range reader budget exceeded")
  | .venueError => .error unresolvedEvidence
  | .throws failure => .error failure
  | .absent => .error unresolvedEvidence
  | .bytes answer => decodeRangeAnswer answer request limits

section Windows

variable {V σ : Type} (venue : Venue V)

/-- A single index over the budget, asked again under the venue's own bound for an index. -/
def askIndex (v : V) (request : RangeRequest) : V × Except Failure RangeAnswer :=
  match venue.indexLimits with
  | none => (v, .error (.rangeError "range reader budget exceeded"))
  | some declare =>
    match declare v with
    | (v, .error failure) => (v, .error failure)
    | (v, .ok declared) =>
      if isU64 declared.maxBytes && isU64 declared.maxEntries then
        let limits : RangeLimits := ⟨min declared.maxBytes indexLimits.maxBytes, min declared.maxEntries indexLimits.maxEntries⟩
        let asked := venue.range v request limits
        (asked.1, takeReply request limits asked.2)
      else (v, .error (.encoding "invalid range budget"))

/-- A window's answer, or none where it is over the budget and is to be asked again in halves. -/
def askWindow (v : V) (request : RangeRequest) : V × Except Failure (Option RangeAnswer) :=
  let asked := venue.range v request rangeLimits
  match asked.2 with
  | .limited =>
    if request.fromIndex < request.toIndex then (asked.1, .ok none)
    else
      let again := askIndex venue asked.1 request
      (again.1, again.2.map some)
  | reply => (asked.1, (takeReply request rangeLimits reply).map some)

theorem askWindow_none {v v' : V} {request : RangeRequest} (halve : askWindow venue v request = (v', .ok none)) :
    request.fromIndex < request.toIndex := by
  have never : ∀ {α : Type} (result : Except Failure α), result.map some ≠ .ok none := by
    intro α result same
    cases result <;> cases same
  rw [askWindow] at halve
  simp only at halve
  split at halve
  · split at halve
    · assumption
    · exact absurd (Prod.mk.inj halve).2 (never _)
  · exact absurd (Prod.mk.inj halve).2 (never _)

/-- What a reading holds besides its venue: the requests answered so far, and what its windows are read into. -/
structure WindowState (V σ : Type) where
  venue : V
  answered : List RangeRequest
  read : σ

/-- A subject's answer over `[start, t]` read as successive windows: one over the budget is asked again in halves, and the next one
after an answer is twice as wide. -/
def readWindows (venueId : Bytes) (kind : RecordKind) (subject : Bytes) (t : Nat) (take : σ → RangeAnswer → σ × Except Failure Bool)
    (state : WindowState V σ) (start span : Nat) (wide : 0 < span) : WindowState V σ × Except Failure Unit :=
  if started : start ≤ t then
    let stop := if t < start + span - 1 then t else start + span - 1
    match asked : askWindow venue state.venue ⟨venueId, kind, subject, start, stop⟩ with
    | (v, .error failure) => ({ state with venue := v }, .error failure)
    | (v, .ok none) =>
      have more : start < stop := askWindow_none venue asked
      readWindows venueId kind subject t take { state with venue := v } start ((stop - start + 1) / 2) (by omega)
    | (v, .ok (some answer)) =>
      let taken := take state.read answer
      let next : WindowState V σ := ⟨v, state.answered ++ [answer.request], taken.1⟩
      match taken.2 with
      | .error failure => (next, .error failure)
      | .ok true => (next, .ok ())
      | .ok false => readWindows venueId kind subject t take next (stop + 1) (span * 2) (by omega)
  else (state, .ok ())
termination_by (t + 1 - start, min span (t + 1 - start))
decreasing_by
  · apply Prod.Lex.right
    have bound : stop = if t < start + span - 1 then t else start + span - 1 := rfl
    split at bound <;> omega
  · apply Prod.Lex.left
    have bound : stop = if t < start + span - 1 then t else start + span - 1 := rfl
    split at bound <;> omega

end Windows

structure HeldRow where
  operator : Bytes
  sequence : Nat
  index : Nat
  root : Bytes
  signature : Bytes
  deriving DecidableEq

structure ReplacementRow where
  backing : Bytes
  identity : Bytes
  index : Nat
  record : Bytes
  deriving DecidableEq

structure PublicationRow where
  backing : Bytes
  index : Nat
  ordinal : Nat
  record : Bytes
  deriving DecidableEq

/-- A kept answer: the index it is kept through, and what it carries on. -/
structure KeptAnswer where
  through : Nat
  value : Option Nat
  deriving DecidableEq

/-- The kept answers and the rows they were read into. -/
structure KeptRows where
  answers : OrderedMap (RecordKind × Bytes) KeptAnswer
  held : List HeldRow
  replacements : List ReplacementRow
  publications : List PublicationRow

namespace KeptRows

def empty : KeptRows := ⟨[], [], [], []⟩

variable (rows : KeptRows)

def keptAnswer (kind : RecordKind) (subject : Bytes) : Option KeptAnswer := rows.answers.get? (kind, subject)

/-- One held row, unless its operator already holds its sequence. -/
def insertHeld (row : HeldRow) : Except Failure KeptRows :=
  if rows.held.any fun r => r.operator = row.operator && r.sequence = row.sequence then .error (.constraint "answer_held")
  else .ok { rows with held := rows.held ++ [row] }

def putHeld (operator : Bytes) (held : List RangeHeld) : Except Failure KeptRows :=
  held.foldlM (fun rows h => rows.insertHeld ⟨operator, h.commitment.sequence, h.index, h.commitment.root, h.commitment.signature⟩) rows

/-- An admitted replacement, kept at its first witnessing only. -/
def putReplacement (row : ReplacementRow) : KeptRows :=
  if rows.replacements.any fun r => r.backing = row.backing && r.identity = row.identity then rows
  else { rows with replacements := rows.replacements ++ [row] }

/-- One publication, unless another holds its venue position. -/
def insertPublication (row : PublicationRow) : Except Failure KeptRows :=
  if rows.publications.any fun r => r.index = row.index && r.ordinal = row.ordinal then .error unresolvedEvidence
  else .ok { rows with publications := rows.publications ++ [row] }

def putPublications (backing : Bytes) (entries : List RangeEntry) : Except Failure KeptRows :=
  entries.foldlM (fun rows entry => rows.insertPublication ⟨backing, entry.index, entry.ordinal, entry.record⟩) rows

def heldRow (operator : Bytes) (row : HeldRow) : RangeHeld := ⟨row.index, ⟨row.sequence, row.root, operator, row.signature⟩⟩

/-- The first held row of an operator that passes a test, under an order. -/
def selectHeld (operator : Bytes) (test : HeldRow → Bool) (order : HeldRow → HeldRow → Bool) : Option RangeHeld :=
  (((rows.held.filter fun row => row.operator = operator && test row).insertionSort fun a b => order a b = true).head?).map (heldRow operator)

/-- The first kept held commitment in `[fromIndex, t]` whose sequence exceeds `after`, if given. -/
def nextHeld (operator : Bytes) (fromIndex : Nat) (after : Option Nat) (t : Nat) : Option RangeHeld :=
  let first := rows.selectHeld operator (fun row => fromIndex ≤ row.index && row.index ≤ t)
    fun a b => a.index < b.index || a.index = b.index && a.sequence ≤ b.sequence
  match after with
  | none => first
  | some sequence =>
    match rows.selectHeld operator (fun row => sequence < row.sequence && row.index ≤ t) fun a b => a.sequence ≤ b.sequence with
    | none => none
    | some h => if fromIndex ≤ h.index then some h else first

/-- An operator's held commitments by `t`, one row a query. -/
def heldThrough (operator : Bytes) (t : Nat) : List RangeHeld :=
  drain (fun after => rows.nextHeld operator 0 after t) (·.commitment.sequence) rows.held.length none

/-- A backing's kept admitted replacements witnessed by `t`, in answer order. -/
def replacementsThrough (backing : Bytes) (t : Nat) : List RangeEntry :=
  ((rows.replacements.filter fun row => row.backing = backing && row.index ≤ t).insertionSort fun a b =>
    (a.index < b.index || a.index = b.index && byteValues a.record ≤ byteValues b.record) = true).map fun row => ⟨row.index, 0, row.record⟩

/-- A backing's kept publication after a position, or its first, witnessed by `t`. -/
def nextPublication (backing : Bytes) (after : Option (Nat × Nat)) (t : Nat) : Option RangeEntry :=
  (((rows.publications.filter fun row => row.backing = backing && row.index ≤ t &&
    (after.all fun a => a.1 < row.index || row.index = a.1 && a.2 < row.ordinal)).insertionSort fun a b =>
      (a.index < b.index || a.index = b.index && a.ordinal ≤ b.ordinal) = true).head?).map fun row => ⟨row.index, row.ordinal, row.record⟩

/-- A backing's publications by `t` in venue order, one row a query. -/
def publicationsThrough (backing : Bytes) (t : Nat) : List RangeEntry :=
  drain (fun after => rows.nextPublication backing after t) (fun entry => (entry.index, entry.ordinal)) rows.publications.length none

/-- K's revocation, where a kept answer has it witnessed by `t`. -/
def revocationThrough (obligor : Bytes) (t : Nat) : Option Nat :=
  ((rows.keptAnswer .revocation obligor).bind (·.value)).bind fun at_ => if at_ ≤ t then some at_ else none

end KeptRows

/-- What windows are read into: the kept rows, the bytes charged to the party, and what a window carries to the next. -/
structure KeptRead (χ : Type) where
  rows : KeptRows
  spent : Nat
  carry : χ

section Takes

variable [Crypto] (quota : Nat)

/-- Taken bytes count against the party's quota, whether or not they fit it. -/
def KeptRead.charge {χ : Type} (read : KeptRead χ) (amount : Nat) : KeptRead χ × Except Failure Unit :=
  ({ read with spent := read.spent + amount },
    require (read.spent + amount ≤ quota) (.error "the reader's evidence quota is exhausted"))

/-- One entry's replacement, kept if it counts. -/
def takeReplacement (backing : Bytes) (rule : Option Bytes) (request : RangeRequest) (read : KeptRead Unit) (entry : RangeEntry) :
    KeptRead Unit × Except Failure Unit :=
  match admittedReplacements ⟨request, [entry]⟩ rule with
  | .error failure => (read, .error failure)
  | .ok [] => (read, .ok ())
  | .ok (admitted :: _) =>
    match read.charge quota entry.record.length with
    | (read, .error failure) => (read, .error failure)
    | (read, .ok ()) => ({ read with rows := read.rows.putReplacement ⟨backing, admitted.identity, entry.index, entry.record⟩ }, .ok ())

def takeReplacements (backing : Bytes) (rule : Option Bytes) (request : RangeRequest) : KeptRead Unit → List RangeEntry →
    KeptRead Unit × Except Failure Bool
  | read, [] => (read, .ok false)
  | read, entry :: rest =>
    match takeReplacement quota backing rule request read entry with
    | (read, .error failure) => (read, .error failure)
    | (read, .ok ()) => takeReplacements backing rule request read rest

def takeReplacementAnswer (backing : Bytes) (rule : Option Bytes) (read : KeptRead Unit) (answer : RangeAnswer) :
    KeptRead Unit × Except Failure Bool :=
  takeReplacements quota backing rule answer.request read answer.entries

/-- A window that has the revocation is the last one read. -/
def takeRevocationAnswer (read : KeptRead (Option Nat)) (answer : RangeAnswer) : KeptRead (Option Nat) × Except Failure Bool :=
  match revocationIndex answer with
  | .error failure => (read, .error failure)
  | .ok found => ({ read with carry := found }, .ok found.isSome)

def takeHeldAnswer (operator : Bytes) (read : KeptRead (Option HeldPrior)) (answer : RangeAnswer) :
    KeptRead (Option HeldPrior) × Except Failure Bool :=
  match heldCommitments answer read.carry with
  | .error failure => (read, .error failure)
  | .ok (held, next) =>
    match read.charge quota (136 * held.length) with
    | (read, .error failure) => (read, .error failure)
    | (read, .ok ()) =>
      match read.rows.putHeld operator held with
      | .error failure => (read, .error failure)
      | .ok rows => ({ read with rows, carry := some next }, .ok false)

def takePublicationAnswer (backing : Bytes) (read : KeptRead Unit) (answer : RangeAnswer) : KeptRead Unit × Except Failure Bool :=
  match read.charge quota (answer.entries.foldl (fun sum entry => sum + entry.record.length) 0) with
  | (read, .error failure) => (read, .error failure)
  | (read, .ok ()) =>
    match read.rows.putPublications backing answer.entries with
    | .error failure => (read, .error failure)
    | .ok rows => ({ read with rows }, .ok false)

end Takes

/-- A reading's own state: its venue, the requests answered, its kept rows and what it has charged. -/
structure Extension (V : Type) where
  venue : V
  answered : List RangeRequest
  rows : KeptRows
  spent : Nat

section Extend

variable {V : Type} (venue : Venue V) (venueId : Bytes) (t : Nat)

/-- A kept answer read on from an index: its rows stand only if every window does, and then it is kept through `t`. -/
def Extension.read {χ : Type} (e : Extension V) (kind : RecordKind) (subject : Bytes) (start : Nat) (carry : χ)
    (take : KeptRead χ → RangeAnswer → KeptRead χ × Except Failure Bool) (value : χ → Option Nat) : Extension V × Except Failure Unit :=
  let run := if started : start ≤ t then
      readWindows venue venueId kind subject t take ⟨e.venue, e.answered, ⟨e.rows, e.spent, carry⟩⟩ start (t - start + 1) (by omega)
    else (⟨e.venue, e.answered, ⟨e.rows, e.spent, carry⟩⟩, .ok ())
  match run.2 with
  | .error failure => (⟨run.1.venue, run.1.answered, e.rows, run.1.read.spent⟩, .error failure)
  | .ok () =>
    let rows := run.1.read.rows
    (⟨run.1.venue, run.1.answered, { rows with answers := rows.answers.set (kind, subject) ⟨t, value run.1.read.carry⟩ }, run.1.read.spent⟩, .ok ())

/-- What a reading asks of the kept answers. -/
inductive KeptCall
  | replacements (backing : Bytes) (rule : Option Bytes)
  | revocation (obligor : Bytes)
  | held (operator : Bytes)
  | publications (backing : Bytes)

def KeptCall.kind : KeptCall → RecordKind
  | .replacements .. => .replacement
  | .revocation _ => .revocation
  | .held _ => .commitment
  | .publications _ => .publication

def KeptCall.subject : KeptCall → Bytes
  | .replacements backing _ => backing
  | .revocation obligor => obligor
  | .held operator => operator
  | .publications backing => backing

/-- Whether a kept answer already decides `t`: it is kept through it, or it has found a revocation. -/
def KeptCall.decided (call : KeptCall) (kept : KeptAnswer) : Bool :=
  t ≤ kept.through || match call with
    | .revocation _ => kept.value.isSome
    | _ => false

variable [Crypto] (quota : Nat)

/-- An answer's windows from an index on, under what the kept answer carries. -/
def KeptCall.windows (call : KeptCall) (e : Extension V) (start : Nat) (kept : Option Nat) : Extension V × Except Failure Unit :=
  match call with
  | .replacements backing rule => e.read venue venueId t .replacement backing start () (takeReplacementAnswer quota backing rule) fun _ => none
  | .revocation obligor => e.read venue venueId t .revocation obligor start none takeRevocationAnswer id
  | .held operator =>
    e.read venue venueId t .commitment operator start (if start = 0 then none else some ⟨start, kept.getD 0⟩) (takeHeldAnswer quota operator)
      fun prior => some (prior.elim (kept.getD 0) (·.highest))
  | .publications backing => e.read venue venueId t .publication backing start () (takePublicationAnswer quota backing) fun _ => none

/-- A kept answer extended to `t`, unless it already decides it. -/
def KeptCall.extend (call : KeptCall) (e : Extension V) : Extension V × Except Failure Unit :=
  match e.rows.keptAnswer call.kind call.subject with
  | none => call.windows venue venueId t quota e 0 none
  | some kept => if call.decided t kept then (e, .ok ()) else call.windows venue venueId t quota e (kept.through + 1) kept.value

end Extend

end Moe
