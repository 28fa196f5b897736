import Moe.Ergo.Scan
import Moe.Lib.OrderedMap
import Moe.Lib.SparseTree
import Moe.Pool.Field

namespace Moe

open OrderedMap

/-- The map's depth: one level a bit of a 32-bit key. -/
def mapDepth : Nat := 32

/-- An output with the shape, at its block's height, its transaction's position in the block's section and its index in the transaction. -/
structure MapEntry where
  subject : Bytes
  height : Nat
  position : Nat
  output : Nat
  deriving DecidableEq

/-- A subject's key: its last four bytes read as an integer. -/
def subjectKey (subject : Bytes) : Except Failure Nat := do
  require (subject.length = 32) (.encoding "a subject is 32 bytes")
  return ofBytes ((subject.drop 28).take 4)

/-- A path for a key: its leaf's count and chain value and 32 siblings, from the leaf's up. -/
structure MapPath where
  count : Nat
  chain : Nat
  siblings : List Nat
  deriving DecidableEq

/-- An entry appended to the map, with its key's path just before. -/
structure MapUpdate where
  entry : MapEntry
  before : MapPath
  deriving DecidableEq

structure KeyState where
  count : Nat
  chain : Nat
  entries : List MapEntry
  deriving DecidableEq

/-- The map at a header: every entry by its key, and the nonempty nodes by level and index. -/
structure SubjectMap where
  height : Nat
  id : Bytes
  keys : OrderedMap Nat KeyState := []
  nodes : OrderedMap (Nat × Nat) Nat := []
  deriving DecidableEq

/-- A block's entries, in order of position and output. -/
def blockEntries (height : Nat) (transactions : List Bytes) : List MapEntry :=
  transactions.zipIdx.flatMap fun own => (scanTransaction own.1).map fun found => ⟨found.subject, height, own.2, found.output⟩

section

variable [Crypto]

/-- A key's next chain value from the one before it and the key's next entry. -/
def entryChain (previous : Nat) (entry : MapEntry) : Except Failure Nat := do
  let limbs ← limbsOf entry.subject
  return poseidon2Hash [1010, previous, limbs.1, limbs.2, entry.height, entry.position, entry.output]

/-- A key's leaf: zero where its count is zero. -/
def mapLeaf (count chain : Nat) : Nat := if count = 0 then 0 else poseidon2Hash [1011, count, chain]

def mapNode (left right : Nat) : Nat := poseidon2Hash [1012, left, right]

/-- The empty subtrees by level. -/
def emptySubtree : Nat → Nat
  | 0 => 0
  | level + 1 => mapNode (emptySubtree level) (emptySubtree level)

/-- The node a value comes to along a key's siblings. -/
def foldSiblings (key node : Nat) (siblings : List Nat) : Nat :=
  (List.range mapDepth).foldl (fun node l =>
    if key.testBit l then mapNode (siblings.getD l 0) node else mapNode node (siblings.getD l 0)) node

/-- The root a path gives for `key`, or none for a malformed path. -/
def pathRoot (key : Nat) (path : MapPath) : Option Nat :=
  if key < 2 ^ 32 ∧ path.count < 2 ^ 64 ∧ isField path.chain ∧ ¬(path.count = 0 ∧ path.chain ≠ 0) ∧ path.siblings.length = mapDepth ∧
      path.siblings.all isField then
    some (foldSiblings key (mapLeaf path.count path.chain) path.siblings)
  else none

/-- The root a map-update leaf folds an update to: its key's leaf replaced along the same siblings. -/
def MapUpdate.root (update : MapUpdate) : Except Failure Nat := do
  let key ← subjectKey update.entry.subject
  let chain ← entryChain update.before.chain update.entry
  return foldSiblings key (mapLeaf (update.before.count + 1) chain) update.before.siblings

namespace SubjectMap

/-- The map at the start header: empty. -/
def start (startId : Bytes) (startHeight : Nat) : Except Failure SubjectMap := do
  require (startId.length = 32 && startHeight < 2 ^ 32) (.encoding "invalid exhaustion start")
  return { height := startHeight, id := startId }

def node (map : SubjectMap) (level index : Nat) : Nat := (get? map.nodes (level, index)).getD (emptySubtree level)

def root (map : SubjectMap) : Nat := map.node mapDepth 0

def setNode (map : SubjectMap) (level index value : Nat) : SubjectMap := { map with nodes := set map.nodes (level, index) value }

/-- The path for `key` at the map's end. -/
def path (map : SubjectMap) (key : Nat) : Except Failure MapPath := do
  require (key < 2 ^ 32) (.encoding "a key is below 2^32")
  return ⟨(get? map.keys key).elim 0 KeyState.count, (get? map.keys key).elim 0 KeyState.chain,
    (List.range mapDepth).map fun l => map.node l ((key >>> l) ^^^ 1)⟩

/-- A level's step up a branch: the map, the index and the node there. -/
def raise (branch : SubjectMap × Nat × Nat) (level : Nat) : SubjectMap × Nat × Nat :=
  let sibling := branch.1.node level (branch.2.1 ^^^ 1)
  let parent := if branch.2.1.testBit 0 then mapNode sibling branch.2.2 else mapNode branch.2.2 sibling
  (branch.1.setNode (level + 1) (branch.2.1 >>> 1) parent, branch.2.1 >>> 1, parent)

/-- Set a key's leaf, and every node above it. -/
def setLeaf (map : SubjectMap) (key leaf : Nat) : SubjectMap :=
  ((List.range mapDepth).foldl raise (map.setNode 0 key leaf, key, leaf)).1

def append (map : SubjectMap) (entry : MapEntry) : Except Failure SubjectMap := do
  let key ← subjectKey entry.subject
  let state := (get? map.keys key).getD ⟨0, 0, []⟩
  let chain ← entryChain state.chain entry
  let keys := set map.keys key ⟨state.count + 1, chain, state.entries ++ [entry]⟩
  return { map with keys }.setLeaf key (mapLeaf (state.count + 1) chain)

/-- Append entries in order, each with its key's path just before it. -/
def appendEntries (map : SubjectMap) : List MapEntry → Except Failure (List MapUpdate × SubjectMap)
  | [] => .ok ([], map)
  | entry :: rest => do
    let key ← subjectKey entry.subject
    let before ← map.path key
    let next ← map.append entry
    let after ← next.appendEntries rest
    return (⟨entry, before⟩ :: after.1, after.2)

/-- Append the next block: its header id, and its section's transactions in section order. -/
def appendBlock (map : SubjectMap) (id : Bytes) (transactions : List Bytes) : Except Failure (List MapUpdate × SubjectMap) := do
  require (id.length = 32) (.encoding "invalid exhaustion block")
  require (map.height + 1 < 2 ^ 32) (.encoding "exhaustion height out of range")
  let after ← map.appendEntries (blockEntries (map.height + 1) transactions)
  return (after.1, { after.2 with id, height := map.height + 1 })

/-- The map after a sequence of blocks, with every update in order; a call that throws leaves it. -/
def run (map : SubjectMap) : List (Bytes × List Bytes) → List MapUpdate × SubjectMap
  | [] => ([], map)
  | (id, transactions) :: rest => match map.appendBlock id transactions with
    | .error _ => map.run rest
    | .ok (updates, next) => (updates ++ (next.run rest).1, (next.run rest).2)

end SubjectMap

end

end Moe
