import Moe.Pool.State
import Moe.Pool.Succinct

namespace Moe

namespace Succinct

section

variable [Crypto]

/-- What establishment reads of a served trail. -/
structure ServedTrailOf where
  segment : Bytes
  length : Nat
  records : List Bytes

/-- A trail record's place: its segment, its position and its chain value there. -/
structure RecordAt where
  segment : Bytes
  position : Nat
  evidence : Bytes

/-- A proved record as the first pass of an establishment reads it. -/
structure ProvedRecord where
  digest : Nat
  kind : Nat
  proofHash : Bytes
  adopted : Bool
  position : Nat
  chain : Option Bytes

/-- The first pass: the records read so far, the chain value at the position reached, the proved records and the proofs to fetch. -/
structure FirstPass where
  position : Nat
  chain : Option Bytes
  proved : List ProvedRecord
  requests : List (Bytes × RecordAt)

def maxSafeInteger : Nat := 2 ^ 53 - 1

/-- Whether the adopted publication at a position carries a record's `proofHash`. -/
def heldByBlock (block : List Adopted) (position : Nat) (record : ProofFreeRecord) : Except Failure Bool :=
  match block[position]? with
  | none => .ok false
  | some at_ => do return record.proofHash = (← decodeProofFree at_.bytes).proofHash

/-- The chain value carried over a record, where one is carried. -/
def carryChain (record : ProofFreeRecord) (position : Nat) : Option Bytes → Except Failure (Option Bytes)
  | none => .ok none
  | some chain => do return some (nextEvidenceHash chain (← proofFreeDigests record) position)

def readProved (trail : ServedTrailOf) (block : List Adopted) (capacity : Nat) (pass : FirstPass) (bytes : Bytes) : Except Failure FirstPass := do
  let position := pass.position + 1
  let record ← decodeProofFree bytes
  let chain ← carryChain record position pass.chain
  let held ← heldByBlock block pass.position record
  let pass := { pass with position, chain }
  if record.kind = 7 then
    return if held then pass
      else { pass with requests := pass.requests ++ [(record.proofHash, ⟨trail.segment, position, chain.getD []⟩)] }
  else if !provedKind record.kind then return pass
  else do
    require (pass.proved.length ≠ capacity) (.error "a served trail holding more records than its length")
    let digest ← leafDigest record
    return { pass with proved := pass.proved ++ [⟨digest, record.kind, record.proofHash, held, position, chain⟩] }

/-- Each proved record after a position with its leaf digest and kind, and the kind-7 proofs to fetch for their length. -/
def provedRecords (trail : ServedTrailOf) (after : Nat) (block : List Adopted) (start : Option Bytes) : Except Failure FirstPass := do
  require (after ≤ trail.length && trail.length - after ≤ maxSafeInteger) (.rangeError "a trail past the safe integer range")
  (trail.records.drop after).foldlM (readProved trail block (trail.length - after)) ⟨after, start, [], []⟩

/-- What a span's asks found for each of its records: covered, none asked alone, none in a wider span; and for an establishment a record to
ask about once more, unsplit. -/
inductive Found
  | unknown | covered | none | unsplit | once
  deriving DecidableEq

/-- A span asked for a cover, by its first record's number, its height and its digest. -/
structure SpanAsk where
  first : Nat
  height : Nat
  digest : Nat
  deriving DecidableEq

/-- What a set verifies: a check proof of a kind's leaf, or of a node, against a digest. -/
structure CheckSet where
  verify : Option Nat → Nat → Bytes → Bool

/-- Where a reader obtains check proofs, after the asks before: any party, untrusted. -/
structure CheckSupply where
  cover : List SpanAsk → Nat → (Bytes → Bool) → Option Bytes

structure Asking where
  found : List Found
  tail : Bool
  asked : List SpanAsk

/-- The span's entries of a list. -/
def span {α : Type} (values : List α) (index size : Nat) : List α := (values.drop index).take size

/-- Every record of a span with the same answer. -/
def Asking.fill (a : Asking) (index size : Nat) (state : Found) : Asking :=
  { a with found := a.found.take index ++ List.replicate size state ++ a.found.drop (index + size) }

/-- The digests over adjacent pairs of a level. -/
def pairNodes (below : List Nat) : List Nat :=
  (List.range (below.length / 2)).map fun j => nodeDigest (below.getD (2 * j) 0) (below.getD (2 * j + 1) 0)

/-- A level of a top span's digests, made bottom up. -/
def spanLevel (leaves : List Nat) : Nat → List Nat
  | 0 => leaves
  | l + 1 => pairNodes (spanLevel leaves l)

/-- The records a partition is made over: their number of the first, their leaf digests and kinds, and which to ask about once. -/
structure PartitionOf where
  start : Nat
  digests : List Nat
  kinds : List Nat
  once : List Bool

variable (set : CheckSet) (supply : CheckSupply) (p : PartitionOf)

/-- Whether the supply gives a cover of a span that verifies. -/
def answered (a : Asking) (kind : Option Nat) (digest : Nat) : Bool :=
  (supply.cover a.asked digest (set.verify kind digest)).any (set.verify kind digest)

def Asking.ask (a : Asking) (first height digest : Nat) : Asking := { a with asked := a.asked ++ [⟨first, height, digest⟩] }

/-- A span of a top span's digests asked for a cover, and split where none verifies. -/
def askSpan (first : Nat) (leaves : List Nat) : Nat → Nat → Asking → Asking
  | 0, j, a =>
    let index := first - p.start + j
    if (span a.found index 1).all (· ≠ .unknown) then a
    else
      let digest := (spanLevel leaves 0).getD j 0
      if answered set supply a p.kinds[index]? digest then (a.ask (p.start + index) 0 digest).fill index 1 .covered
      else { (a.ask (p.start + index) 0 digest).fill index 1 .none with tail := true }
  | l + 1, j, a =>
    let index := first - p.start + j * 2 ^ (l + 1)
    if (span a.found index (2 ^ (l + 1))).all (· ≠ .unknown) then a
    else if (span a.found index (2 ^ (l + 1))).any (· ≠ .unknown) then askSpan first leaves l (2 * j + 1) (askSpan first leaves l (2 * j) a)
    else
      let digest := (spanLevel leaves (l + 1)).getD j 0
      let asked := a.ask (p.start + index) (l + 1) digest
      if answered set supply a none digest then asked.fill index (2 ^ (l + 1)) .covered
      else if a.tail || (span p.once index (2 ^ (l + 1))).all id then asked.fill index (2 ^ (l + 1)) .unsplit
      else askSpan first leaves l (2 * j + 1) (askSpan first leaves l (2 * j) asked)

def coverSpan (a : Asking) (first s : Nat) : Asking :=
  askSpan set supply p first (span p.digests (first - p.start) (2 ^ s)) s 0 a

/-- The height of the widest aligned span at a number that ends in time. -/
def spanHeight (i stop s : Nat) : Nat :=
  if i % 2 ^ (s + 1) = 0 ∧ i + 2 ^ (s + 1) ≤ stop then spanHeight i stop (s + 1) else s
termination_by stop - s
decreasing_by
  have wide : s + 1 < 2 ^ (s + 1) := Nat.lt_two_pow_self
  omega

/-- The top spans of the canonical partition, each by its first number and height. -/
def topSpans (i stop : Nat) : List (Nat × Nat) :=
  if i < stop then (i, spanHeight i stop 0) :: topSpans (i + 2 ^ spanHeight i stop 0) stop else []
termination_by stop - i
decreasing_by
  have wide := Nat.two_pow_pos (spanHeight i stop 0)
  omega

/-- Asks over the records numbered from a start; `known` gives what an earlier partition found for each. -/
def partition (start : Nat) (digests kinds : List Nat) (known : Nat → Found) : Asking :=
  let states := (List.range digests.length).map known
  let p : PartitionOf := ⟨start, digests, kinds, states.map (· = .once)⟩
  (topSpans start (start + digests.length)).foldl (fun a (first, s) => coverSpan set supply p a first s)
    ⟨states.map fun state => if state = .once then .unknown else state, false, []⟩

end

end Succinct

end Moe
