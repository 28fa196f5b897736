import Moe.Pool.Field

namespace Moe

variable [Crypto]

def noteTreeDepth : Nat := 32
def noteTreeCapacity : Nat := 2 ^ 32

/-- `node(level, left, right)`, `level` the children's. -/
def noteNode (level left right : Nat) : Nat := poseidon2Hash [1004, level, left, right]

/-- The empty subtree whose top is at each level. -/
def emptyNoteSubtree : Nat → Nat
  | 0 => 0
  | level + 1 => noteNode level (emptyNoteSubtree level) (emptyNoteSubtree level)

def emptyNoteRoot : Nat := emptyNoteSubtree noteTreeDepth

/-- The frontier: `ommers[h]` is the completed left subtree of height `h` waiting for its right
sibling, present where bit `h` of the leaf count is 1. -/
abbrev Ommers := List (Option Nat)

def emptyOmmers : Ommers := List.replicate (noteTreeDepth + 1) none

/-- Read where the leaf count's bit says a subtree waits. -/
def Ommers.at (ommers : Ommers) (h : Nat) : Nat := (ommers[h]?.join).getD 0

/-- A block completed while a leaf was appended: its height, its number and its node. -/
structure CompletedBlock where
  height : Nat
  block : Nat
  node : Nat

/-- Carry the leaf's node up while its block is a right one, then leave it waiting. -/
def Ommers.carry (leaf : Nat) : Nat → Nat → Nat → Ommers → Ommers × List CompletedBlock
  | 0, h, node, ommers => (ommers.set h (some node), [])
  | fuel + 1, h, node, ommers =>
    if leaf.testBit h then
      let parent := noteNode h (ommers.at h) node
      let (rest, completed) := carry leaf fuel (h + 1) parent (ommers.set h none)
      (rest, ⟨h + 1, leaf >>> (h + 1), parent⟩ :: completed)
    else (ommers.set h (some node), [])

/-- The frontier after leaf number `leaf`, and the blocks it completed, the leaf itself first. -/
def Ommers.push (ommers : Ommers) (leaf cm : Nat) : Ommers × List CompletedBlock :=
  let (after, completed) := ommers.carry leaf noteTreeDepth 0 cm
  (after, ⟨0, leaf, cm⟩ :: completed)

/-- A fresh leaf's siblings: the waiting left subtrees, and the empty subtree on its right. -/
def Ommers.siblings (ommers : Ommers) (leaf : Nat) : List Nat :=
  (List.range noteTreeDepth).map fun h => if leaf.testBit h then ommers.at h else emptyNoteSubtree h

/-- The root folded from the last leaf, the frontier before it on its left. -/
def Ommers.rootFrom (before : Ommers) (last cm : Nat) : Nat :=
  (List.range noteTreeDepth).foldl
    (fun node h => if last.testBit h then noteNode h (before.at h) node else noteNode h node (emptyNoteSubtree h)) cm

/-- What appending a record's outputs leaves: the frontier, the leaf count, the root, each output's
leaf and siblings at its birth, and the blocks completed on the way. -/
structure NoteAppend where
  ommers : Ommers
  leaves : Nat
  noteRoot : Nat
  born : List (Nat × List Nat)
  completed : List CompletedBlock

/-- Append each output in turn, then fold the root from the last one. -/
def appendNotes : List Nat → Ommers → Nat → Nat → NoteAppend
  | [], ommers, leaves, noteRoot => ⟨ommers, leaves, noteRoot, [], []⟩
  | cm :: rest, ommers, leaves, _ =>
    let (after, completed) := ommers.push leaves cm
    let tail := appendNotes rest after (leaves + 1) (ommers.rootFrom leaves cm)
    { tail with born := (leaves, ommers.siblings leaves) :: tail.born, completed := completed ++ tail.completed }

@[simp] theorem appendNotes_leaves (outputs : List Nat) (ommers : Ommers) (leaves noteRoot : Nat) :
    (appendNotes outputs ommers leaves noteRoot).leaves = leaves + outputs.length := by
  induction outputs generalizing ommers leaves noteRoot with
  | nil => rfl
  | cons cm rest ih =>
    simp only [appendNotes, ih, List.length_cons]
    omega

end Moe
