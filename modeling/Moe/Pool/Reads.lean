import Moe.Pool.Field
import Moe.Pool.Placement

namespace Moe

/-- An event with the namespace, segment and position it stands at. -/
structure EventView where
  ns : Nat
  segment : Bytes
  position : Nat
  row : StoredEvent
  deriving DecidableEq

/-- A demand with the event that stood it up and the one that ended it. -/
structure PresentedDemand where
  demand : Demand
  event : Option EventView
  end_ : Option (Option EventView)
  deriving DecidableEq

/-- A stored column's value, as the digest of a row hashes it. -/
inductive Column
  | blob (bytes : Bytes)
  | integer (value : Nat)
  | text (chars : Bytes)
  deriving DecidableEq

def Column.le : Column → Column → Bool
  | blob a, blob b => a ≤ b
  | integer a, integer b => a ≤ b
  | text a, text b => a ≤ b
  | _, _ => false

/-- Rows in the order of their columns, the first that differs deciding. -/
def rowLe : List Column → List Column → Bool
  | a :: as, b :: bs => if a = b then rowLe as bs else a.le b
  | _, _ => true

def decimal (value : Nat) : Bytes := tag (toString value)

/-- A column's bytes: a number or a text as its characters. -/
def Column.field : Column → Bytes
  | blob bytes => bytes
  | integer value => decimal value
  | text chars => chars

def frameColumn (column : Column) : Bytes := toBytes 8 column.field.length ++ column.field

/-- One table's part of a digest: its name, then each column of its rows in order, framed by its length. -/
def tableBytes (table : String) (rows : List (List Column)) : Bytes :=
  tag (table ++ ":") ++ ((rows.mergeSort rowLe).flatMap fun row => row.flatMap frameColumn)

namespace Rows

/-- Placed rows in namespace order, and within a namespace by a number of their own. -/
def inOrder {α : Type} (number : Placed α → Nat) (rows : List (Placed α)) : List (Placed α) :=
  rows.mergeSort fun a b => a.ns < b.ns ∨ a.ns = b.ns ∧ number a ≤ number b

def hasEvent (rows : Rows) (identity : Bytes) : Bool := rows.events.any (·.row.identity = identity)

/-- What a digest of the visible facts hashes, table by table. -/
def factBytes (rows : Rows) : Bytes :=
  tableBytes "event" (rows.events.map fun e => [.blob e.row.identity, .integer e.row.kind, .blob e.row.proofHash,
    .blob e.row.signatureHash, .blob e.row.history, .blob e.row.evidence, .blob (fieldToBytes e.row.noteRoot), .blob e.row.spentRoot]) ++
  tableBytes "nullifier" (rows.nullifiers.map fun n => [.blob (toBytes 32 n.row.nf), .blob (toBytes 32 n.row.tag)]) ++
  tableBytes "output" (rows.outputs.map fun o => [.blob (toBytes 32 o.row.cm), .integer o.row.leaf, .integer o.row.settlement.toNat]) ++
  tableBytes "anchor" (rows.anchors.map fun a => [.blob (fieldToBytes a.row)]) ++
  tableBytes "demand" (rows.demands.map fun d => [.text (hexText d.row.id), .blob d.row.backing, .text (decimal d.row.quantity),
    .blob (toBytes 32 d.row.tag0), .blob (toBytes 32 d.row.tag1), .blob d.row.presenter, .text (decimal d.row.instant),
    .text (decimal d.row.deadline)]) ++
  tableBytes "demand_end" (rows.demandEnds.map fun e => [.text (hexText e.row)]) ++
  tableBytes "demand_nullifier" (rows.demands.flatMap fun d => d.row.nullifiers.zipIdx.map fun entry =>
    [.text (hexText d.row.id), .integer entry.2, .blob (toBytes 32 entry.1)])

end Rows

/-! The reads at `(ns, p)`. -/
namespace Store

variable (s : Store)

/-- The event at a position of a namespace itself. -/
def eventAt (ns p : Nat) : Option EventView := (s.event ns p).map fun row => ⟨ns, s.segment ns, p, row⟩

def hasNullifier (ns p nf : Nat) : Except Failure Bool := do
  requireKey nf
  return (s.visible ns p).hasNullifier nf

def hasOutput (ns p cm : Nat) : Except Failure Bool := do
  requireKey cm
  return (s.visible ns p).hasOutput cm

def hasAnchor (ns p root : Nat) : Except Failure Bool := do
  let _ ← requireField root "field element"
  return (s.visible ns p).hasAnchor root

def hasSpentTag (ns p tag : Nat) : Except Failure Bool := do
  requireKey tag
  return (s.visible ns p).hasSpentTag tag

def isEffective (ns p : Nat) (id : Bytes) : Bool := (s.visible ns p).isEffective id
def hasEvent (ns p : Nat) (identity : Bytes) : Bool := (s.visible ns p).hasEvent identity
def demand (ns p : Nat) (id : Bytes) : Option Demand := (s.visible ns p).demand id

def demandsWithTag (ns p tag : Nat) : Except Failure (List (Bytes × Demand)) := do
  requireKey tag
  return (s.visible ns p).demandsWithTag tag

def presentedWithTag (ns p tag : Nat) : Except Failure (List (Bytes × Demand)) := do
  requireKey tag
  return (s.visible ns p).presentedWithTag tag

/-- A visible demand, ended or not, with its events. -/
def presented (ns p : Nat) (id : Bytes) : Option PresentedDemand :=
  ((s.visible ns p).demands.find? (·.row.id = id)).map fun held =>
    { demand := held.row.demand, event := s.eventAt held.ns held.position
      end_ := ((s.visible ns p).demandEnds.find? (·.row = id)).map fun ended => s.eventAt ended.ns ended.position }

/-- The visible events that spent a nullifier of a tag, in namespace and position order. -/
def tagSpends (ns p tag : Nat) : Except Failure (List (Option EventView)) := do
  requireKey tag
  return (Rows.inOrder (·.position) ((s.visible ns p).nullifiers.filter (·.row.tag = tag))).map fun spend => s.eventAt spend.ns spend.position

def output (ns p cm : Nat) : Except Failure (Option (Placed StoredOutput)) := do
  requireKey cm
  return (s.visible ns p).output cm

def outputs (ns p : Nat) : List (Placed StoredOutput) := Rows.inOrder (·.row.leaf) (s.visible ns p).outputs
def nullifiers (ns p : Nat) : List Nat := (Rows.inOrder (·.position) (s.visible ns p).nullifiers).map (·.row.nf)

/-- Every visible event with its segment, imports among them. -/
def events (ns p : Nat) : List EventView :=
  (Rows.inOrder (·.position) (s.visible ns p).events).map fun e => ⟨e.ns, s.segment e.ns, e.position, e.row⟩

def factDigest [Crypto] (ns p : Nat) : Bytes := sha256 (s.visible ns p).factBytes

end Store

/-! Copying an imported frontier, and dropping namespaces. -/
namespace Store

/-- The namespaces holding replays under an identity, oldest first. -/
def namespacesOf (s : Store) (identity : Bytes) : List Nat :=
  (List.range s.next).filter fun ns => (s.namespaces ns).any (·.identity = identity)

/-- The first namespace of a segment that holds a prefix, by its history there. -/
def heldPrefix (s : Store) (segment : Bytes) (upto : Nat) (history : Option Bytes) : List Nat → Except Failure (Option Nat)
  | [] => .ok none
  | ns :: rest => do
    let own ← s.find ns
    if own.segment = segment ∧ upto ≤ own.position then
      if upto = 0 then return some ns
      let held ← known (s.event ns upto)
      if some held.history = history then return some ns
      heldPrefix s segment upto history rest
    else heldPrefix s segment upto history rest

/-- A copy of a namespace's rows through a position, at that tip and under its own number. -/
def copyOf [Crypto] (n : Namespace) (ns : Nat) (identity : Bytes) (upto : Nat) (at_ : Option StoredEvent) : Namespace :=
  { segment := n.segment, identity, keeps := n.keeps, imports := [], position := upto
    history := (at_.map (·.history)).getD (List.replicate 32 0), evidence := (at_.map (·.evidence)).getD (List.replicate 32 0)
    leaves := 0, noteRoot := (at_.map (·.noteRoot)).getD emptyNoteRoot, ommers := emptyOmmers, spent := none, baseSpent := emptySpent
    rows := (n.rows.through upto).map fun placed => ⟨ns, placed.position, placed.row⟩
    totals := n.totals.filter (·.position ≤ upto), witnesses := [] }

/-- One imported segment's rows copied, or the namespace here that holds them. -/
def copySegment [Crypto] (source : Store) (identity : Bytes → Bytes) (state : Store × OrderedMap Bytes ImportEntry)
    (entry : Bytes × ImportEntry) : Except Failure (Store × OrderedMap Bytes ImportEntry) := do
  let s := state.1
  let upto := entry.2.upto
  let n ← source.find entry.2.ns
  let at_ := if upto = 0 then none else n.event upto
  require (n.segment = entry.1 && upto ≤ n.position && (upto = 0 || at_.isSome)) (.error "an imported frontier names no replayed position")
  let held ← s.heldPrefix n.segment upto (at_.map (·.history)) (s.namespacesOf (identity n.segment))
  match held with
  | some ns => return (s, OrderedMap.set state.2 entry.1 ⟨ns, upto⟩)
  | none =>
    return ({ s.put s.next (copyOf n s.next (identity n.segment) upto at_) with next := s.next + 1 },
      OrderedMap.set state.2 entry.1 ⟨s.next, upto⟩)

/-- Copy a frontier read in another store into this one; this store's own is returned as it is. -/
def copyFrontier [Crypto] (s : Store) (source : Option Store) (frontier : Imports) (identity : Bytes → Bytes) :
    Except Failure (Imports × Store) :=
  match source with
  | none => .ok (frontier, s)
  | some other => do
    let (later, segments) ← frontier.segments.foldlM (copySegment other identity) (s, [])
    return (⟨segments, frontier.totals⟩, later)

/-- The namespaces some namespaces read: themselves and those they import. -/
def live (s : Store) (keep : List Nat) : List Nat := keep.flatMap fun ns => ns :: (s.imports ns).map (·.2.ns)

/-- Drop every namespace that `keep` does not read. -/
def collect (s : Store) (keep : List Nat) : Store :=
  { s with namespaces := fun ns => if ns ∈ s.live keep then s.namespaces ns else none }

end Store

end Moe
