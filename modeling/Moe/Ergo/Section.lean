import Moe.Bytes
import Moe.Lib.LoneTree

namespace Moe

/-- What the Ergo reader takes from its packages: Blake2b with a 32-byte digest. -/
class Blake where
  blake2b : Bytes → Bytes
  blake2b_length : ∀ bytes, (blake2b bytes).length = 32

export Blake (blake2b)

/-- A transaction as a block commits to it: its id and its witness id. -/
structure CommittedTransaction where
  id : Bytes
  witnessId : Bytes
  deriving DecidableEq

/-- A transaction as a reader holds it: its unsigned bytes and its witness id. -/
structure ErgoTransactionView where
  unsigned : Bytes
  witnessId : Bytes
  deriving DecidableEq

/-- One step of an inclusion path: a sibling, or none for a lone child. -/
abbrev InclusionStep := Option Bytes

def maxInclusionSteps : Nat := 32

def leafFrame (leaf : Bytes) : Bytes := 0 :: leaf
def loneFrame (child : Bytes) : Bytes := 1 :: child
def pairFrame (left right : Bytes) : Bytes := 1 :: (left ++ right)

/-- A section's leaves: ids of 32 bytes and witness ids of 31; none for anything else. -/
def committedLeaves (transactions : List CommittedTransaction) : Option (List Bytes × List Bytes) :=
  if transactions.all (·.id.length = 32) && transactions.all (·.witnessId.length = 31) then
    some (transactions.map (·.id), transactions.map (·.witnessId))
  else none

section

variable [Blake]

def loneNode (child : Bytes) : Bytes := blake2b (loneFrame child)
def pairNode (left right : Bytes) : Bytes := blake2b (pairFrame left right)

/-- The levels above a section's leaves: an absent right sibling contributes no bytes, and even one leaf has a parent. -/
def merkleRoot (leaves : List Bytes) : Except Failure Bytes := do
  require (leaves ≠ []) (.encoding "a block transaction section is nonempty")
  return (LoneTree.levels loneNode pairNode leaves.length (leaves.map fun leaf => blake2b (leafFrame leaf))).getD 0 []

/-- The root under a section's own version: 1 over the ids alone, every other over the ids and then the witness ids. -/
def transactionsRoot (version : Nat) (transactions : List CommittedTransaction) : Except Failure Bytes :=
  match committedLeaves transactions with
  | none => .error (.encoding "a transaction id is 32 bytes and a witness id 31")
  | some (ids, witnessIds) => merkleRoot (if version = 1 then ids else ids ++ witnessIds)

/-- Whether a section reproduces a header's transactions root under either rule. -/
def sectionMatchesRoot (transactions : List CommittedTransaction) (root : Bytes) : Except Failure Bool :=
  match committedLeaves transactions with
  | none => .ok false
  | some (ids, witnessIds) => do
    if (← merkleRoot ids) = root then return true
    else return (← merkleRoot (ids ++ witnessIds)) = root

/-- A level's node at an index, or none outside the level. -/
def nodeAt (level : List Bytes) (at_ : Int) : Option Bytes := if at_ < 0 then none else level[at_.toNat]?

/-- `at >>= 1`: the index's low 32 bits, signed, halved. -/
def halved (at_ : Int) : Int := at_.bmod (2 ^ 32) / 2

/-- The siblings up from a level, none beside a lone child. -/
def siblingsFrom : Nat → List Bytes → Int → List InclusionStep
  | 0, _, _ => []
  | fuel + 1, level, at_ =>
    let sibling := if at_ % 2 = 0 then nodeAt level (at_ + 1) else nodeAt level (at_ - 1)
    let next := LoneTree.pairUp loneNode pairNode level
    sibling :: if 1 < next.length then siblingsFrom fuel next (halved at_) else []

/-- The inclusion path for the leaf at position `j`. -/
def inclusionPath (leaves : List Bytes) (j : Nat) : Except Failure (List InclusionStep) := do
  require (j < leaves.length) (.encoding "invalid inclusion position")
  return siblingsFrom leaves.length (leaves.map fun leaf => blake2b (leafFrame leaf)) j

/-- The transactions root a path gives for the transaction at position `j`, or none for a malformed path, a lone child where
bit `l` of `j` is one, or a set bit of `j` at or above the path's length. -/
def inclusionRoot (id : Bytes) (j : Nat) (steps : List InclusionStep) : Option Bytes :=
  if id.length ≠ 32 ∨ 2 ^ 32 ≤ j ∨ steps = [] ∨ maxInclusionSteps < steps.length ∨ j >>> steps.length ≠ 0 ∨
      steps.any (fun step => step.any (·.length ≠ 32)) then none
  else LoneTree.recompute loneFrame pairFrame blake2b j 0 (blake2b (leafFrame id)) steps

/-- A section's transactions as its leaves read them. -/
def committed (transactions : List ErgoTransactionView) : List CommittedTransaction :=
  transactions.map fun t => ⟨blake2b t.unsigned, t.witnessId⟩

/-- The first of some leaf lists whose path at `j` gives `root`. -/
def pathUnder (id root : Bytes) (j : Nat) : List (List Bytes) → Except Failure (Option (List InclusionStep))
  | [] => .ok none
  | leaves :: rest => do
    let path ← inclusionPath leaves j
    if inclusionRoot id j path = some root then return some path
    else pathUnder id root j rest

/-- The inclusion path of a section's transaction at `j` under whichever rule reproduces `root`, or none where neither does. -/
def sectionInclusionPath (transactions : List ErgoTransactionView) (root : Bytes) (j : Nat) :
    Except Failure (Option (List InclusionStep)) := do
  let read := committed transactions
  if !(← sectionMatchesRoot read root) then return none
  else
    let ids := read.map (·.id)
    let id := ((read[j]?).map (·.id)).getD []
    pathUnder id root j [ids, ids ++ read.map (·.witnessId)]

end

end Moe
