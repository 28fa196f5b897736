import Mathlib.Data.List.Sort
import Moe.Pool.ReplayStore

namespace Moe

variable [Crypto]

/-- 32 siblings, one per level, and 32 direction bits, true where the path node is the right child. -/
structure NotePath where
  siblings : List Nat
  right : List Bool
  deriving DecidableEq

def isNotePath (path : NotePath) : Bool :=
  path.siblings.length = noteTreeDepth && path.right.length = noteTreeDepth && path.siblings.all isField

/-- The root a leaf and its path carry. -/
def noteRootOf (leaf : Nat) (path : NotePath) : Except Failure Nat := do
  require (isNotePath path) (.encoding "malformed note path")
  let node ← requireField leaf "leaf"
  return (List.range noteTreeDepth).foldl (fun node level =>
    let sibling := path.siblings.getD level 0
    if path.right.getD level false then noteNode level sibling node else noteNode level node sibling) node

/-- Whether a path carries `leaf` to `anchor`. -/
def notePathProves (anchor leaf : Nat) (path : NotePath) : Bool :=
  match noteRootOf leaf path with
  | .ok root => root = anchor
  | .error _ => false

/-- The whole tree: its used leaves, and the nodes above them by level and index; an absent one is empty. -/
structure NoteTree where
  leafList : List Nat := []
  nodes : OrderedMap (Nat × Nat) Nat := []

namespace NoteTree

def node (tree : NoteTree) (level index : Nat) : Nat :=
  if level = 0 then tree.leafList.getD index 0 else (tree.nodes.get? (level, index)).getD (emptyNoteSubtree level)

def root (tree : NoteTree) : Nat := tree.node noteTreeDepth 0

/-- One commitment, against those the tree has and those before it in its call. -/
def checkFresh (tree : NoteTree) (fresh : List Nat) (commitment : Nat) : Except Failure (List Nat) := do
  let _ ← requireField commitment "commitment"
  require (commitment ≠ 0) (.encoding "a zero commitment is an unused leaf")
  require (commitment ∉ tree.leafList && commitment ∉ fresh) (.encoding "commitment already in the note tree")
  return commitment :: fresh

def setNode (tree : NoteTree) (level index value : Nat) : NoteTree :=
  { tree with nodes := tree.nodes.set (level, index) value }

/-- The parents of a level's changed nodes, from `low` to `high`. -/
def rehashLevel (tree : NoteTree) (level low high : Nat) : NoteTree :=
  (List.range' (low / 2) (high / 2 + 1 - low / 2)).foldl (fun tree index =>
    tree.setNode (level + 1) index (noteNode level (tree.node level (2 * index)) (tree.node level (2 * index + 1)))) tree

/-- Every node whose subtree changed, a level at a time up to the root. -/
def rehash (tree : NoteTree) (low high : Nat) : NoteTree :=
  (List.range noteTreeDepth).foldl (fun tree level => tree.rehashLevel level (low / 2 ^ level) (high / 2 ^ level)) tree

/-- Append commitments in order, hashing each changed node once; the checks run before any change. -/
def appendAll (tree : NoteTree) (commitments : List Nat) : Except Failure NoteTree := do
  let _ ← commitments.foldlM tree.checkFresh []
  require (tree.leafList.length + commitments.length ≤ noteTreeCapacity) (.encoding "note tree is full")
  if commitments = [] then return tree
  let grown := { tree with leafList := tree.leafList ++ commitments }
  return grown.rehash tree.leafList.length (grown.leafList.length - 1)

/-- The path for a used leaf, against the current root. -/
def path (tree : NoteTree) (position : Nat) : Except Failure NotePath := do
  require (position < tree.leafList.length) (.encoding "no leaf at that position")
  return {
    siblings := (List.range noteTreeDepth).map fun level =>
      let index := position / 2 ^ level
      tree.node level (if index % 2 = 1 then index - 1 else index + 1)
    right := (List.range noteTreeDepth).map fun level => position / 2 ^ level % 2 = 1 }

end NoteTree

/-- At each height the node of the block holding the next free leaf, folded from the frontier. -/
def fillingNodes (leaves : Nat) (ommers : Ommers) : List Nat :=
  (List.range (noteTreeDepth - 1)).foldl (fun nodes k =>
    let below := nodes.getD k 0
    nodes ++ [if leaves.testBit k then noteNode k (ommers.at k) below else noteNode k below (emptyNoteSubtree k)]) [emptyNoteSubtree 0]

/-- The filling nodes a store folded last, under the tip they are of. -/
structure Filling where
  ns : Nat
  leaves : Nat
  noteRoot : Nat
  nodes : List Nat

/-- A witnessed output's path at its namespace's tip. -/
structure WitnessPath where
  leaf : Nat
  anchor : Nat
  ns : Nat
  path : NotePath

namespace Namespace

/-- The filling nodes at the tip: the store's last, where they are of this tip. -/
def filling (n : Namespace) (ns : Nat) (last : Option Filling) : Filling :=
  match last with
  | some filling =>
    if filling.ns = ns ∧ filling.leaves = n.leaves ∧ filling.noteRoot = n.noteRoot then filling
    else ⟨ns, n.leaves, n.noteRoot, fillingNodes n.leaves n.ommers⟩
  | none => ⟨ns, n.leaves, n.noteRoot, fillingNodes n.leaves n.ommers⟩

/-- A right sibling is kept once its block completes; an empty block is the empty subtree, and the one block still filling
is folded from the frontier. -/
def rightSibling (leaves : Nat) (filling : Filling) (leaf h kept : Nat) : Nat :=
  let start := ((leaf >>> h) + 1) <<< h
  if leaves ≤ start then emptyNoteSubtree h
  else if leaves < start + 1 <<< h then filling.nodes.getD h 0
  else kept

/-- The path of a witnessed output at the tip, which must be at `position`, and the filling nodes folded for it. -/
def witness (n : Namespace) (ns : Nat) (kept : Bool) (last : Option Filling) (position leaf : Nat) :
    Except Failure (Option WitnessPath) × Option Filling :=
  if n.position ≠ position then
    (.error (if kept then .keptState "a kept witness is past the read position"
      else .error "the witnessed namespace has moved past the read position"), last)
  else
    match n.witnesses.find? (·.leaf = leaf) with
    | none => (.ok none, last)
    | some row =>
      if row.siblings.length ≠ noteTreeDepth then (.error (.encoding "field element must be 32 bytes"), last)
      else
        let filling := n.filling ns last
        let siblings := (List.range noteTreeDepth).map fun h =>
          if leaf.testBit h then row.siblings.getD h 0 else rightSibling n.leaves filling leaf h (row.siblings.getD h 0)
        (.ok (some ⟨leaf, n.noteRoot, ns, ⟨siblings, (List.range noteTreeDepth).map leaf.testBit⟩⟩), some filling)

end Namespace

/-- The witness rows of some leaves, in leaf order, one page of them. -/
def witnessesIn (rows : List StoredWitness) (start stop limit : Nat) : List StoredWitness :=
  ((rows.filter fun row => start ≤ row.leaf && row.leaf < stop).insertionSort (·.leaf ≤ ·.leaf)).take limit

/-- Store a sibling on each row of a page. -/
def movePage (page : List StoredWitness) (completed : CompletedBlock) (rows : List StoredWitness) : List StoredWitness :=
  rows.map fun row =>
    if row.leaf ∈ page.map (·.leaf) then { row with siblings := row.siblings.set completed.height completed.node } else row

/-- The rows of a left block, a page at a time; a full page holds a row, so they are at most one more than the rows. -/
def settlePages (limit : Nat) (completed : CompletedBlock) : Nat → Nat → List StoredWitness → List StoredWitness
  | 0, _, rows => rows
  | pages + 1, start, rows =>
    let page := witnessesIn rows start (completed.block <<< completed.height) limit
    let moved := movePage page completed rows
    if page.length < limit then moved
    else settlePages limit completed pages (((page.getLast?.map (·.leaf)).getD 0) + 1) moved

/-- A completed right block is the sibling of every leaf in the left block beside it. -/
def settleBlock (limit : Nat) (rows : List StoredWitness) (completed : CompletedBlock) : List StoredWitness :=
  if noteTreeDepth ≤ completed.height ∨ completed.block % 2 = 0 then rows
  else settlePages limit completed (rows.length + 1) ((completed.block - 1) <<< completed.height) rows

namespace Namespace

/-- The witness rows a record leaves, those beside the blocks it completed rewritten a page at a time. -/
def witnessesPaged (n : Namespace) (limit : Nat) (record : Append) (notes : NoteAppend) : List StoredWitness :=
  let born := (record.outputs.zip notes.born).filterMap fun (output, leaf, siblings) =>
    output.witness.map fun mark => ⟨leaf, output.cm, mark, siblings⟩
  let moved := notes.completed.foldl (settleBlock limit) (n.witnesses ++ born)
  if n.keeps.tree then moved.filter fun row => row.mark.nf ∉ record.nullifiers.map (·.nf) else moved

/-- Write one judged record, its witness pages of `limit` rows. -/
def appendPaged (n : Namespace) (limit ns : Nat) (record : Append) : Except Failure Namespace := do
  let after ← n.append ns record
  return { after with witnesses := n.witnessesPaged limit record (n.appendOutputs (record.outputs.map (·.cm))) }

end Namespace

end Moe
