import Mathlib.Data.List.Dedup
import Moe.Pool.NoteTree
import Moe.Pool.Rows
import Moe.Pool.SpentSet

namespace Moe

variable [Crypto]

/-- The namespace and position an imported segment's rows are read to. -/
structure ImportEntry where
  ns : Nat
  upto : Nat
  deriving DecidableEq

/-- A new namespace's imported frontier: one namespace per imported segment, and the totals it
starts from. -/
structure Imports where
  segments : OrderedMap Bytes ImportEntry
  totals : OrderedMap Bytes Totals

/-- What a namespace that imports nothing starts from. -/
def Imports.empty : Imports := ⟨[], []⟩

structure StoredTotal where
  backing : Bytes
  position : Nat
  totals : Totals
  deriving DecidableEq

/-- A witnessed output, its mark, and the siblings on its path that no longer change. -/
structure StoredWitness where
  leaf : Nat
  cm : Nat
  mark : WitnessMark
  siblings : List Nat

/-- One segment's replay under one replay identity: its tip, its imports by reference, and its own
rows. The totals are newest first, as the rows are. -/
structure Namespace where
  segment : Bytes
  identity : Bytes
  keeps : NamespaceConstruction
  imports : OrderedMap Bytes ImportEntry
  position : Nat
  history : Bytes
  evidence : Bytes
  leaves : Nat
  noteRoot : Nat
  ommers : Ommers
  spent : SpentSet
  baseSpent : Bytes
  rows : Rows
  totals : List StoredTotal
  witnesses : List StoredWitness

/-- The namespaces by number; the next one opened takes `next`. -/
structure Store where
  next : Nat
  namespaces : Nat → Option Namespace

def Store.empty : Store := ⟨1, fun _ => none⟩

structure AppendOutput where
  cm : Nat
  capsule : Option Bytes
  settlement : Bool
  witness : Option WitnessMark

/-- Everything one accepted record writes; the caller has judged it against the pre-state. -/
structure Append where
  identity : Bytes
  kind : Nat
  index : Option Nat
  record : Bytes
  proofHash : Bytes
  signatureHash : Bytes
  evidence : Bytes
  supply : Option Supply
  nullifiers : List StoredNullifier
  outputs : List AppendOutput
  demand : Option (Bytes × Demand)
  ended : Option Bytes
  keys : List EventKey
  history : Nat → Bytes → Bytes

/-- A stored nullifier, commitment or tag is a 256-bit value. -/
def requireKey (value : Nat) : Except Failure Unit :=
  require (value < keyBound) (.typeError "a stored key is a 256-bit value")

namespace Namespace

def total (n : Namespace) (p : Nat) (backing : Bytes) : Totals :=
  ((n.totals.find? fun row => row.backing = backing && row.position ≤ p).map (·.totals)).getD .zero

def totalsAt (n : Namespace) (p : Nat) : OrderedMap Bytes Totals :=
  ((n.totals.filter (·.position ≤ p)).map (·.backing)).dedup.map fun backing => (backing, n.total p backing)

def event (n : Namespace) (p : Nat) : Option StoredEvent :=
  (n.rows.events.find? (·.position = p)).map (·.row)

/-- The output table's key, and the width its commitments are stored at. -/
def checkOutputs (n : Namespace) (outputs : List AppendOutput) : Except Failure Unit := do
  if n.keeps.tree then require (outputs.all fun output => isField output.cm) (.encoding "left child is not a canonical field element")
  else outputs.forM fun output => requireKey output.cm
  require ((outputs.map (·.cm)).Nodup ∧ ∀ output ∈ outputs, ∀ held ∈ n.rows.outputs, held.row.cm ≠ output.cm)
    (.constraint "output")

/-- The spent set takes each nullifier, and the nullifier table holds each once. -/
def spend (n : Namespace) (nullifiers : List StoredNullifier) : Except Failure SpentSet := do
  let spent ← n.spent.insertAll (nullifiers.map (·.nf))
  nullifiers.forM fun spend => requireKey spend.tag
  require ((nullifiers.map (·.nf)).Nodup ∧ ∀ spend ∈ nullifiers, ∀ held ∈ n.rows.nullifiers, held.row.nf ≠ spend.nf)
    (.constraint "nullifier")
  return spent

/-- A demand's row and its tag and nullifier rows, none of which may stand before it. -/
def stand (n : Namespace) (demand : Bytes × Demand) : Except Failure StoredDemand := do
  let (id, value) := demand
  require (n.rows.demands.all (fun held => held.row.id ≠ id || held.row.nullifiers = []) &&
    n.rows.demandEnds.all (·.row ≠ id)) (.keptState "a demand's rows before it stands")
  match value.tags with
  | tag0 :: tag1 :: _ =>
    value.tags.forM requireKey
    (value.nullifiers.getD []).forM requireKey
    require (n.rows.demands.all (·.row.id ≠ id)) (.constraint "demand")
    return ⟨id, value.backing, value.quantity, tag0, tag1, value.presenter, value.instant, value.deadline,
      value.tags, value.nullifiers.getD []⟩
  | _ => .error (.typeError "a stored key is a 256-bit value")

def endDemand (n : Namespace) (id : Bytes) : Except Failure Bytes := do
  require (n.rows.demandEnds.all (·.row ≠ id)) (.constraint "demand_end")
  return id

/-- The note tree after a record's outputs; without one, outputs are only numbered in scan order. -/
def appendOutputs (n : Namespace) (cms : List Nat) : NoteAppend :=
  if n.keeps.tree then appendNotes cms n.ommers n.leaves n.noteRoot
  else ⟨n.ommers, n.leaves + cms.length, n.noteRoot, (List.range' n.leaves cms.length).map fun leaf => (leaf, []), []⟩

/-- A completed right block is the sibling of every leaf in the left block beside it. -/
def settleSibling (completed : CompletedBlock) (row : StoredWitness) : StoredWitness :=
  let left := (completed.block - 1) <<< completed.height
  if completed.height < noteTreeDepth ∧ completed.block % 2 = 1 ∧ left ≤ row.leaf ∧
      row.leaf < completed.block <<< completed.height then
    { row with siblings := row.siblings.set completed.height completed.node }
  else row

/-- A note tree's namespace keeps the witnesses of its unspent notes only. -/
def witnessesAfter (n : Namespace) (record : Append) (notes : NoteAppend) : List StoredWitness :=
  let born := (record.outputs.zip notes.born).filterMap fun (output, leaf, siblings) =>
    output.witness.map fun mark => ⟨leaf, output.cm, mark, siblings⟩
  let moved := notes.completed.foldl (fun rows completed => rows.map (settleSibling completed)) (n.witnesses ++ born)
  if n.keeps.tree then moved.filter fun row => row.mark.nf ∉ record.nullifiers.map (·.nf) else moved

/-- An anchor already held keeps its row. -/
def newAnchors (n : Namespace) (noteRoot : Nat) : List Nat :=
  if n.keeps.tree ∧ ∀ held ∈ n.rows.anchors, held.row ≠ noteRoot then [noteRoot] else []

def outputRows (n : Namespace) (outputs : List AppendOutput) : List StoredOutput :=
  outputs.zipIdx.map fun (output, i) => ⟨output.cm, n.leaves + i, output.capsule, output.settlement⟩

/-- The event row of a record, with the chain values after it. -/
def eventOf (n : Namespace) (record : Append) (spent : SpentSet) : StoredEvent :=
  let noteRoot := (n.appendOutputs (record.outputs.map (·.cm))).noteRoot
  { identity := record.identity, kind := record.kind, index := record.index, proofHash := record.proofHash
    signatureHash := record.signatureHash, settlement := if record.kind = 6 then some record.record else none
    history := record.history noteRoot spent.root, evidence := record.evidence, noteRoot, spentRoot := spent.root
    supply := record.supply }

/-- The rows one record adds. -/
def added (n : Namespace) (ns : Nat) (record : Append) (spent : SpentSet) (demand : Option StoredDemand) : Rows :=
  let facts : List Fact :=
    .event (n.eventOf record spent) :: (n.outputRows record.outputs).map .output ++ record.nullifiers.map .nullifier ++
      (n.newAnchors (n.eventOf record spent).noteRoot).map .anchor ++ demand.toList.map .demand ++
      record.ended.toList.map .demandEnd ++ record.keys.dedup.map .eventKey
  facts.map (⟨ns, n.position + 1, ·⟩)

/-- The namespace with a record's rows, totals and tip written. -/
def written (n : Namespace) (ns : Nat) (record : Append) (spent : SpentSet) (demand : Option StoredDemand) : Namespace :=
  let notes := n.appendOutputs (record.outputs.map (·.cm))
  { n with
    position := n.position + 1, history := (n.eventOf record spent).history, evidence := record.evidence
    leaves := notes.leaves, noteRoot := notes.noteRoot, ommers := notes.ommers, spent
    rows := n.added ns record spent demand ++ n.rows
    totals := (record.supply.toList.map fun supply =>
      ⟨supply.backing, n.position + 1, (n.total n.position supply.backing).add supply.totals⟩) ++ n.totals
    witnesses := n.witnessesAfter record notes }

/-- Write one judged record at the tip of namespace number `ns`. -/
def append (n : Namespace) (ns : Nat) (record : Append) : Except Failure Namespace := do
  n.checkOutputs record.outputs
  let spent ← n.spend record.nullifiers
  let demand ← record.demand.mapM n.stand
  let _ ← record.ended.mapM n.endDemand
  return n.written ns record spent demand

end Namespace

namespace Store

def find (s : Store) (ns : Nat) : Except Failure Namespace :=
  match s.namespaces ns with
  | some n => .ok n
  | none => .error (.error "unknown replay namespace")

def put (s : Store) (ns : Nat) (n : Namespace) : Store :=
  { s with namespaces := fun other => if other = ns then some n else s.namespaces other }

def rows (s : Store) (ns : Nat) : Rows := ((s.namespaces ns).map (·.rows)).getD []

/-- The imported frontier of a namespace, each imported segment with its namespace and position. -/
def imports (s : Store) (ns : Nat) : OrderedMap Bytes ImportEntry :=
  ((s.namespaces ns).map fun n => n.imports.mergeSort fun a b => a.2.ns ≤ b.2.ns).getD []

/-- The rows of some namespaces, each through its own position. -/
def union (s : Store) (entries : List ImportEntry) : Rows :=
  entries.flatMap fun entry => (s.rows entry.ns).through entry.upto

/-- The rows visible from `(ns, p)`: the namespace's own through `p`, and each imported namespace's
through its imported position. -/
def visible (s : Store) (ns p : Nat) : Rows :=
  s.union (⟨ns, p⟩ :: (s.imports ns).map (·.2))

def event (s : Store) (ns p : Nat) : Option StoredEvent := (s.namespaces ns).bind (·.event p)

def total (s : Store) (ns p : Nat) (backing : Bytes) : Totals :=
  ((s.namespaces ns).map (·.total p backing)).getD .zero

def totals (s : Store) (ns p : Nat) : OrderedMap Bytes Totals := ((s.namespaces ns).map (·.totalsAt p)).getD []

def segment (s : Store) (ns : Nat) : Bytes := ((s.namespaces ns).map (·.segment)).getD []

/-- The frontier a successor importing the state at `(ns, p)` reads. -/
def frontier (s : Store) (ns p : Nat) : Imports :=
  ⟨OrderedMap.set (s.imports ns) (s.segment ns) ⟨ns, p⟩, s.totals ns p⟩

/-- A statement already in this segment's own history; imports are not statements of it. -/
def hasStatement (s : Store) (ns p : Nat) (identity : Bytes) : Bool :=
  ((s.rows ns).through p).events.any (·.row.identity = identity)

/-- A fresh namespace: the empty tree and anchor, the imported rows by reference, the spent set built
from them and the totals it starts from. -/
def fresh (s : Store) (segment identity : Bytes) (imports : Imports) (history evidence : Bytes)
    (keeps : NamespaceConstruction) (spent : SpentSet) : Namespace :=
  { segment, identity, keeps, imports := imports.segments, position := 0, history, evidence, leaves := 0
    noteRoot := emptyNoteRoot, ommers := emptyOmmers, spent, baseSpent := spent.root
    rows := if keeps.tree then [⟨s.next, 0, .anchor emptyNoteRoot⟩] else []
    totals := imports.totals.map fun (backing, total) => ⟨backing, 0, total⟩, witnesses := [] }

/-- The nullifiers of a union, in the order a successor's spent set takes them. -/
def importedNullifiers (s : Store) (imports : Imports) : List Nat :=
  (s.union (imports.segments.map (·.2))).nullifiers.map (·.row.nf)

/-- Open a fresh namespace over an imported frontier; the successor's spent set holds every imported
nullifier. -/
def «open» (s : Store) (segment identity : Bytes) (imported : Option Imports) (history evidence : Bytes)
    (keeps : NamespaceConstruction) : Except Failure (Nat × Store) := do
  let imports := imported.getD .empty
  imports.segments.forM fun entry => do
    let source ← s.find entry.2.ns
    require (source.keeps = keeps) (.typeError "an import is of another construction")
  require (imports.segments.map (·.2.ns)).Nodup (.constraint "import")
  let spent ← SpentSet.insertAll none (s.importedNullifiers imports)
  return (s.next, { s.put s.next (s.fresh segment identity imports history evidence keeps spent) with next := s.next + 1 })

def append (s : Store) (ns : Nat) (record : Append) : Except Failure Store := do
  let n ← s.find ns
  return s.put ns (← n.append ns record)

end Store

/-! The visible rows' answers to the state's questions. -/
namespace Rows

def hasNullifier (rows : Rows) (nf : Nat) : Bool := rows.nullifiers.any (·.row.nf = nf)
def hasOutput (rows : Rows) (cm : Nat) : Bool := rows.outputs.any (·.row.cm = cm)
def hasAnchor (rows : Rows) (root : Nat) : Bool := rows.anchors.any (·.row = root)
def hasSpentTag (rows : Rows) (tag : Nat) : Bool := rows.nullifiers.any (·.row.tag = tag)

/-- A recovery statement, of kind 4 to 6, already effective. -/
def isEffective (rows : Rows) (id : Bytes) : Bool := rows.events.any fun event => event.row.identity = id && 4 ≤ event.row.kind

def output (rows : Rows) (cm : Nat) : Option (Placed StoredOutput) := rows.outputs.find? (·.row.cm = cm)

def isEnded (rows : Rows) (id : Bytes) : Bool := rows.demandEnds.any (·.row = id)

def demand (rows : Rows) (id : Bytes) : Option Demand :=
  (rows.demands.find? fun held => held.row.id = id && !rows.isEnded held.row.id).map (·.row.demand)

/-- Every demand naming `tag`, ended or not. -/
def presentedWithTag (rows : Rows) (tag : Nat) : List (Bytes × Demand) :=
  (rows.demands.filter fun held => tag ∈ held.row.tags).map fun held => (held.row.id, held.row.demand)

def demandsWithTag (rows : Rows) (tag : Nat) : List (Bytes × Demand) :=
  (rows.demands.filter fun held => tag ∈ held.row.tags ∧ !rows.isEnded held.row.id).map fun held =>
    (held.row.id, held.row.demand)

end Rows

end Moe
