import Moe.Pool.Field
import Moe.Pool.RecordForms

namespace Moe

namespace Succinct

section

variable [Crypto]

/-- The proof length a cover fixes. -/
def coverProofBytes : Nat := 14656

/-- Whether records of a kind carry a proof replay verifies: every kind but the withdrawal and the request. -/
def provedKind (kind : Nat) : Bool := kind = 1 || kind = 2 || kind = 3 || kind = 4 || kind = 6

/-- The proved records among a trail's decoded ones. -/
def provedOf (records : List Record) : List Record := records.filter fun record => provedKind record.kind

/-- The leaf digest of a proof of a kind with these public inputs and this hash. -/
def statementLeafDigest (kind : Nat) (inputs : List Nat) (proofHash : Bytes) : Except Failure Nat := do
  let (hi, lo) ← limbsOf proofHash
  return poseidon2Hash ([1008, kind] ++ inputs ++ [hi, lo])

def leafDigest (record : ProofFreeRecord) : Except Failure Nat := statementLeafDigest record.kind record.publicInputs record.proofHash

/-- Two spans' digest, left then right. -/
def nodeDigest (left right : Nat) : Nat := poseidon2Hash [1009, left, right]

/-- A check proof and the span it covers: a leaf's kind, or none for a node, and the span's digest. -/
structure Cover where
  kind : Option Nat
  digest : Nat
  proof : Bytes
  deriving DecidableEq

/-- What proves covers: a leaf's after its statement proof is checked, where it gives one, and a node's over two. -/
structure SpanProver where
  leaf : Record → Except Failure (Option Cover)
  node : Cover → Cover → Except Failure Cover

/-- What a keeper holds for a span's digest after the covers kept so far. -/
abbrev Held := List Cover → Nat → Option Bytes

/-- The cover of each height's left span whose right sibling comes next. -/
abbrev Pending := List (Option Cover)

def Pending.at (pending : Pending) (h : Nat) : Option Cover := pending[h]?.join

/-- An array's entry set, extended with holes where it is past the end. -/
def Pending.set (pending : Pending) (h : Nat) (cover : Option Cover) : Pending :=
  List.set (pending ++ List.replicate (h + 1 - pending.length) none) h cover

/-- Where a walk of a trail's proved records stands, with the covers kept so far in order. -/
structure CoverWalk where
  proved : Nat
  pending : Pending
  kept : List Cover
  deriving DecidableEq

/-- Nothing walked. -/
def CoverWalk.start : CoverWalk := ⟨0, [], []⟩

def CoverWalk.keep (walk : CoverWalk) (cover : Cover) : CoverWalk := { walk with kept := walk.kept ++ [cover] }

/-- What a walk returns: where it stands, how many covers it made, how many records it read and whether it was stopped. -/
structure CoverTrail where
  walk : CoverWalk
  made : Nat
  read : Nat
  stopped : Bool

variable (prover : SpanProver) (held : Held)

/-- The cover held of a record's leaf: none is looked up for a proof of another length. -/
def heldLeaf (record : Record) (walk : CoverWalk) : Except Failure (Option Cover) :=
  if record.proof.length = coverProofBytes then do
    let digest ← statementLeafDigest record.kind record.publicInputs (sha256 record.proof)
    return (held walk.kept digest).map fun proof => ⟨some record.kind, digest, proof⟩
  else .ok none

/-- A record's leaf cover, held or proved and kept. -/
def coverLeaf (record : Record) (walk : CoverWalk) : Except Failure (Option Cover × CoverWalk) := do
  match ← heldLeaf held record walk with
  | some cover => return (some cover, walk)
  | none => match ← prover.leaf record with
    | some leaf => return (some leaf, walk.keep leaf)
    | none => return (none, walk)

/-- The cover over two spans, held or proved and kept; none where either has none. -/
def coverNode (left cover : Option Cover) (walk : CoverWalk) : Except Failure (Option Cover × CoverWalk) :=
  match left, cover with
  | some left, some cover =>
    let digest := nodeDigest left.digest cover.digest
    match held walk.kept digest with
    | some proof => .ok (some ⟨none, digest, proof⟩, walk)
    | none => do
      let node ← prover.node left cover
      return (some node, walk.keep node)
  | _, _ => .ok (none, walk)

/-- A span's cover carried up from a height, while it is a right one, to where it waits for its right sibling. -/
def carryCover (h index : Nat) (cover : Option Cover) (walk : CoverWalk) : Except Failure CoverWalk :=
  if index % 2 = 0 then .ok { walk with pending := walk.pending.set h cover }
  else do
    let (above, walk) ← coverNode prover held (walk.pending.at h) cover { walk with pending := walk.pending.set h none }
    carryCover (h + 1) (index / 2) above walk
termination_by index
decreasing_by omega

def coverRecord (record : Record) (walk : CoverWalk) : Except Failure CoverWalk := do
  let (cover, walk) ← coverLeaf prover held record walk
  let walk ← carryCover prover held 0 walk.proved cover walk
  return { walk with proved := walk.proved + 1 }

/-- One record read: its leaf and the nodes it completes, or nothing where its kind is not proved. -/
def coverNext (bytes : Bytes) (walk : CoverWalk) : Except Failure CoverWalk := do
  let record ← decodeRecord bytes
  if provedKind record.kind then coverRecord prover held record walk else return walk

/-- The records read until `stop` holds, asked before each with how many were read. -/
def walkRecords (stop : Nat → Bool) : List Bytes → Nat → CoverWalk → Except Failure (CoverWalk × Nat × Bool)
  | [], read, walk => .ok (walk, read, false)
  | bytes :: rest, read, walk =>
    if stop read then .ok (walk, read, true) else do walkRecords stop rest (read + 1) (← coverNext prover held bytes walk)

/-- Covers of every aligned span of a trail's proved records, numbered from 0, from its complete records in order, or those after where an
earlier walk stood. -/
def coverTrail (stop : Nat → Bool) (records : List Bytes) (walk : CoverWalk) : Except Failure CoverTrail := do
  let (next, read, stopped) ← walkRecords prover held stop records 0 walk
  return ⟨next, next.kept.length - walk.kept.length, read, stopped⟩

/-- A trail walked in pieces, each from where the one before stood, over the records after those it read. -/
def coverPieces : List (Nat → Bool) → List Bytes → CoverWalk → Except Failure (CoverWalk × List Bytes)
  | [], records, walk => .ok (walk, records)
  | stop :: stops, records, walk => do
    let piece ← coverTrail prover held stop records walk
    coverPieces stops (records.drop piece.read) piece.walk

end

end Succinct

end Moe
