import Mathlib.Data.List.Basic
import Moe.Refusals

namespace Moe

inductive CheckpointClass
  | valid | lapsed | excluded
  deriving DecidableEq, Repr

/-- A held checkpoint as a receipt's read takes it: where it carries a backing of the receipt's scope, its segment; and the event it has at
the receipt's position, if any. -/
structure ReceiptPoint (ε : Type) where
  index : Nat
  sequence : Nat
  segment : Option Nat
  classification : CheckpointClass
  emptyOpening : Bool
  event : Option ε
  deriving DecidableEq, Repr

/-- A receipt, its segment's opening sequence and boundaries, and its operator's held checkpoints through the judging index. -/
structure ReceiptRead (ε : Type) where
  segment : Nat
  opening : Nat
  after : Nat
  event : ε
  termBoundary : Option Nat
  silence : Option Nat
  now : Nat
  points : List (ReceiptPoint ε)
  deriving DecidableEq, Repr

inductive ReceiptStatus
  | final | contradicted | lapsed | abandoned | pending
  deriving DecidableEq, Repr

inductive LapseKind
  | silence | scopeBoundary | movedPast | repair
  deriving DecidableEq, Repr

/-- What became of the sequence a receipt names. -/
inductive ReceiptReference
  | held | movedPast | notReached
  deriving DecidableEq, Repr

structure ReceiptFact where
  sequence : Nat
  index : Nat
  deriving DecidableEq, Repr

structure ReceiptVerdict where
  status : ReceiptStatus
  sequence : ReceiptReference
  includedAt : List ReceiptFact
  contradictedAt : List ReceiptFact
  lapse : Option (LapseKind × Option Nat)
  abandonedAt : Option ReceiptFact
  deriving DecidableEq, Repr

/-- What a receipt's walk holds between two checkpoints. -/
structure ReceiptWalk where
  opened : Bool
  lastSegment : Nat
  passedOver : Nat
  contradictedAt : List ReceiptFact
  deriving DecidableEq, Repr

def invalidReceipt : Failure := .evidence "invalid-receipt"

/-- The silence boundary, where a clock read through an index has reached it. -/
def clockThrough (silence : Option Nat) (through : Nat) : Option Nat := silence.filter fun boundary => boundary ≤ through

namespace ReceiptRead

variable {ε : Type} [DecidableEq ε] (read : ReceiptRead ε)

def carries (p : ReceiptPoint ε) : Bool := p.segment.isSome

def own (p : ReceiptPoint ε) : Bool := p.segment = some read.segment

def reference : Option (ReceiptPoint ε) := read.points.find? (·.sequence = read.after)

def movedPast : Bool := read.reference.isNone && read.points.any (read.after < ·.sequence)

section Walk

def start : ReceiptWalk := ⟨false, read.after, 0, []⟩

def fact (p : ReceiptPoint ε) : ReceiptFact := ⟨p.sequence, p.index⟩

/-- The checkpoint `after` names is of the receipt's segment. -/
def checkReference : Except Failure Unit :=
  match read.reference with
  | none => .ok ()
  | some p => require (read.own p) invalidReceipt

/-- The reference is checked when the walk reaches it. -/
def checkReached (p : ReceiptPoint ε) : Except Failure Unit := if read.after ≤ p.sequence then read.checkReference else .ok ()

def finishAs (walk : ReceiptWalk) (status : ReceiptStatus) (included : List ReceiptFact) (lapse : Option (LapseKind × Option Nat))
    (abandoned : Option ReceiptFact) : Except Failure ReceiptVerdict := do
  read.checkReference
  return ⟨status, if read.reference.isSome then .held else if read.movedPast then .movedPast else .notReached, included,
    walk.contradictedAt, lapse, abandoned⟩

def lapseAs (walk : ReceiptWalk) (kind : LapseKind) (at_ : Option Nat) : Except Failure ReceiptVerdict :=
  if walk.contradictedAt ≠ [] then read.finishAs walk .contradicted [] none none
  else read.finishAs walk .lapsed [] (some (kind, at_)) none

/-- The earlier of the two boundaries an opened segment has; a term's end alone before. -/
def endOf (walk : ReceiptWalk) (clock : Option Nat) : Option Nat :=
  let silence := if walk.opened then clock else none
  match read.termBoundary, silence with
  | none, silence => silence
  | some term, none => some term
  | some term, some silence => some (if term < silence then term else silence)

def boundary (walk : ReceiptWalk) (at_ : Nat) (clock : Option Nat) : Except Failure (Option ReceiptVerdict) :=
  match read.endOf walk clock with
  | none => .ok none
  | some stop =>
    if stop ≤ at_ then (read.lapseAs walk (if (if walk.opened then clock else none) = some stop then .silence else .scopeBoundary) (some stop)).map some
    else .ok none

/-- The segment stands from its opening as witnessed, valid or excluded; a lapsed one founds nothing. -/
def openedBy (walk : ReceiptWalk) (p : ReceiptPoint ε) : ReceiptWalk :=
  if read.own p && p.sequence = read.opening && p.classification ≠ .lapsed then { walk with opened := true } else walk

/-- A valid checkpoint of the segment. -/
def counts (p : ReceiptPoint ε) : Bool := p.classification = .valid && read.own p

/-- A checkpoint without the receipt's event contradicts it above a held `after`, and where it has another at the position. -/
def markedBy (walk : ReceiptWalk) (p : ReceiptPoint ε) : ReceiptWalk :=
  if read.counts p && (if read.after < p.sequence then read.reference.isSome else p.event.isSome) then
    { walk with contradictedAt := walk.contradictedAt ++ [fact p] }
  else walk

/-- A valid checkpoint of another segment decides. -/
def transitionAt (walk : ReceiptWalk) (p : ReceiptPoint ε) : Except Failure ReceiptVerdict :=
  if walk.contradictedAt ≠ [] then read.finishAs walk .contradicted [] none none
  else if read.movedPast then read.lapseAs walk .movedPast none
  else if p.emptyOpening && walk.passedOver < p.sequence - walk.lastSegment - 1 then read.lapseAs walk .repair (some p.index)
  else read.finishAs walk .abandoned [] none (some (fact p))

/-- What a checkpoint that does not include the receipt leaves of its walk. -/
def proceed (walk : ReceiptWalk) (p : ReceiptPoint ε) : Except Failure (ReceiptWalk × Option ReceiptVerdict) :=
  if p.sequence ≤ read.after then .ok (walk, none)
  else if read.own p then .ok ({ walk with lastSegment := p.sequence, passedOver := 0 }, none)
  else if p.classification ≠ .valid || !carries p then .ok ({ walk with passedOver := walk.passedOver + 1 }, none)
  else (read.transitionAt walk p).map fun verdict => (walk, some verdict)

/-- One held checkpoint, in its turn. -/
def checkpoint (walk : ReceiptWalk) (p : ReceiptPoint ε) : Except Failure (ReceiptWalk × Option ReceiptVerdict) := do
  read.checkReached p
  let walk := read.openedBy walk p
  require (!read.counts p || walk.opened) invalidReceipt
  if read.counts p && p.event = some read.event then (read.finishAs walk .final [fact p] none none).map fun verdict => (walk, some verdict)
  else read.proceed (read.markedBy walk p) p

def finish (walk : ReceiptWalk) : Except Failure ReceiptVerdict :=
  if walk.contradictedAt ≠ [] then read.finishAs walk .contradicted [] none none
  else if read.movedPast then read.lapseAs walk .movedPast none
  else read.finishAs walk .pending [] none none

/-- The walk's boundary at an index: the silence clock runs from the opening as witnessed, through the term boundary at most. -/
def boundaryAt (walk : ReceiptWalk) (openingIndex : Option Nat) (at_ : Nat) : Except Failure (Option ReceiptVerdict) :=
  match openingIndex with
  | none => read.boundary walk at_ none
  | some _ => read.boundary walk at_ (clockThrough read.silence ((read.termBoundary.map (min · at_)).getD at_))

/-- The verdict met, or else what the rest of the walk comes to. -/
def unlessMet (met : Option ReceiptVerdict) (rest : Except Failure ReceiptVerdict) : Except Failure ReceiptVerdict :=
  match met with
  | some verdict => .ok verdict
  | none => rest

/-- The selected read over the held checkpoints left. -/
def walkFrom (walk : ReceiptWalk) (openingIndex : Option Nat) : List (ReceiptPoint ε) → Except Failure ReceiptVerdict
  | [] => do
    let met ← read.boundaryAt walk openingIndex read.now
    unlessMet met (read.finish walk)
  | p :: rest => do
    let met ← read.boundaryAt walk openingIndex p.index
    unlessMet met do
      let (walk, verdict) ← read.checkpoint walk p
      unlessMet verdict (walkFrom walk
        (if p.classification ≠ .lapsed && read.own p && p.sequence = read.opening then some p.index else openingIndex) rest)

/-- A receipt read over its operator's held checkpoints, from its segment's opening sequence on. -/
def receiptWalk : Except Failure ReceiptVerdict := do
  require (read.opening ≤ read.after) invalidReceipt
  read.walkFrom read.start none (read.points.filter (read.opening ≤ ·.sequence))

end Walk

section Classify

/-- How a record's reading ended: what it found, and why it lapsed. -/
structure Classified where
  included : Bool
  contradicted : Bool
  abandoned : Bool
  lapse : Option LapseKind
  deriving DecidableEq, Repr

structure Classification where
  status : ReceiptStatus
  included : Bool
  contradicted : Bool
  abandoned : Bool
  lapse : Option LapseKind
  deriving DecidableEq, Repr

def live (p : ReceiptPoint ε) : Bool := read.termBoundary.all (p.index < ·)

def receiptPassed (p : ReceiptPoint ε) : Bool := p.classification = .excluded || p.classification = .lapsed

/-- The segment's checkpoint at `after`, or its latest live one below. -/
def base : Option (ReceiptPoint ε) :=
  let below := read.points.reverse.find? fun p => p.sequence < read.after && read.live p && read.own p && !receiptPassed p
  match read.reference with
  | none => below
  | some after => if read.live after && !receiptPassed after then some after else below

/-- The held checkpoints above `after`, in ascending order. -/
def classifyFrom (contradicted : Bool) (lastSegment passedOver : Nat) : List (ReceiptPoint ε) → Classified
  | [] => ⟨false, contradicted, false, none⟩
  | p :: rest =>
    if !read.live p then ⟨false, contradicted, false, none⟩
    else if (clockThrough read.silence p.index).isSome then ⟨false, contradicted, false, some .silence⟩
    else if !carries p then classifyFrom contradicted lastSegment (passedOver + 1) rest
    else if read.own p then
      if !receiptPassed p && p.event = some read.event then ⟨true, contradicted, false, none⟩
      else classifyFrom (contradicted || !receiptPassed p && read.reference.isSome) p.sequence 0 rest
    else if read.reference.isNone || contradicted then ⟨false, contradicted, false, none⟩
    else if receiptPassed p then classifyFrom contradicted lastSegment (passedOver + 1) rest
    else if p.emptyOpening && passedOver < p.sequence - lastSegment - 1 then ⟨false, contradicted, false, some .repair⟩
    else ⟨false, contradicted, true, none⟩

/-- The last index a silence boundary is read through. -/
def horizon : Nat :=
  match read.termBoundary with
  | some term => if term < read.now then term else read.now
  | none => read.now

/-- The kinds of lapse by their priority, and the status. -/
def conclude (found : Classified) : Classification :=
  if found.included then ⟨.final, found.included, found.contradicted, found.abandoned, none⟩
  else
    let ended := read.termBoundary.any (· ≤ read.now)
    let lapse := if !found.abandoned && found.lapse = none && (clockThrough read.silence read.horizon).isSome then some .silence else found.lapse
    let lapse := if read.movedPast && lapse ≠ some .silence then some .movedPast
      else if lapse = none && ended then some .scopeBoundary else lapse
    let status := if found.contradicted then .contradicted else if found.abandoned then .abandoned
      else if lapse.isSome then .lapsed else .pending
    ⟨status, found.included, found.contradicted, found.abandoned, if status = .lapsed then lapse else none⟩

def requireReference : Except Failure Unit :=
  match read.reference with
  | none => .ok ()
  | some after => require (read.own after) (.error "receipt after segment")

/-- Compared with its base, and then with what is above `after`. -/
def classifyBase : Option (ReceiptPoint ε) → Classification
  | none => read.conclude (read.classifyFrom false read.after 0 (read.points.filter (read.after < ·.sequence)))
  | some first =>
    if first.event = some read.event then ⟨.final, true, false, false, none⟩
    else read.conclude (read.classifyFrom first.event.isSome read.after 0 (read.points.filter (read.after < ·.sequence)))

/-- The verdict at the present index from the complete finite record. -/
def classify : Except Failure Classification := do
  read.requireReference
  return read.classifyBase read.base

end Classify

end ReceiptRead

end Moe
