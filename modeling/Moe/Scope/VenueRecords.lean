import Moe.Pool.Field
import Moe.Reading

namespace Moe

/-- An operator's signed root at its own sequence. -/
structure Commitment where
  sequence : Nat
  root : Bytes
  operator : Bytes
  signature : Bytes
  deriving DecidableEq

structure Replacement where
  role : Nat
  successor : Bytes
  predecessor : Bytes
  effective : Nat
  signature : Bytes
  successorSignature : Bytes
  deriving DecidableEq

structure Revocation where
  obligor : Bytes
  signature : Bytes
  deriving DecidableEq

def roleOperator : Nat := 1

def commitmentMessage (sequence : Nat) (root : Bytes) : Bytes := tag "moe/commitment/v2" ++ (toBytes 8 sequence ++ root)

/-- The bytes the replacement rule's key signs. -/
def replacementMessage (backingName : Bytes) (r : Replacement) : Bytes :=
  tag "moe/replacement/v1" ++ (backingName ++ (toBytes 1 r.role ++ (r.successor ++ (r.predecessor ++ toBytes 8 r.effective))))

def revocationMessage (obligor : Bytes) : Bytes := tag "moe/revocation/v1" ++ obligor

def encodeCommitment (c : Commitment) : Bytes := toBytes 8 c.sequence ++ (c.root ++ (c.operator ++ c.signature))

def encodeReplacement (backingName : Bytes) (r : Replacement) : Bytes :=
  backingName ++ (toBytes 1 r.role ++ (r.successor ++ (r.predecessor ++ (toBytes 8 r.effective ++ (r.signature ++ r.successorSignature)))))

def encodeRevocation (r : Revocation) : Bytes := r.obligor ++ r.signature

def decodeCommitment (bytes : Bytes) : Except Failure Commitment := Reader.run (do
  let sequence ← Reader.u64
  let root ← Reader.raw 32
  let operator ← Reader.raw 32
  let signature ← Reader.raw 64
  Reader.expectEnd
  return ⟨sequence, root, operator, signature⟩) bytes

/-- A replacement with the backing it names. -/
def decodeReplacement (bytes : Bytes) : Except Failure (Bytes × Replacement) := Reader.run (do
  let backingName ← Reader.raw 32
  let role ← Reader.u8
  let successor ← Reader.raw 32
  let predecessor ← Reader.raw 32
  let effective ← Reader.u64
  let signature ← Reader.raw 64
  let successorSignature ← Reader.raw 64
  Reader.expectEnd
  return (backingName, ⟨role, successor, predecessor, effective, signature, successorSignature⟩)) bytes

def decodeRevocation (bytes : Bytes) : Except Failure Revocation := Reader.run (do
  let obligor ← Reader.raw 32
  let signature ← Reader.raw 64
  Reader.expectEnd
  return ⟨obligor, signature⟩) bytes

section

variable [Crypto]

/-- A replacement's identity, and the value its successor names as predecessor. -/
def replacementHash (backingName : Bytes) (r : Replacement) : Bytes := sha256 (replacementMessage backingName r)

/-- Valid iff the operator signed exactly (sequence, root). -/
def verifyCommitment (c : Commitment) : Bool := verifySignatureStrict c.signature (commitmentMessage c.sequence c.root) c.operator

/-- Signed by the rule's key and by the successor over one message, and of the operator's role. -/
def verifyReplacement (backingName : Bytes) (r : Replacement) (ruleKey : Bytes) : Bool :=
  r.role = roleOperator && verifySignatureStrict r.signature (replacementMessage backingName r) ruleKey &&
    verifySignatureStrict r.successorSignature (replacementMessage backingName r) r.successor

/-- Whether this is the key's own signature over itself. -/
def isSignedRevocation (r : Revocation) : Bool := verifySignatureStrict r.signature (revocationMessage r.obligor) r.obligor

end

/-- A replacement's fields at the widths its message writes. -/
structure Replacement.Written (r : Replacement) : Prop where
  role : r.role < 256
  successor : r.successor.length = 32
  predecessor : r.predecessor.length = 32
  effective : r.effective < 2 ^ 64

/-- Two replacements with one message have one successor, one predecessor and one effective index. -/
theorem replacementMessage_inj {backingName : Bytes} {r s : Replacement} (first : r.Written) (second : s.Written)
    (same : replacementMessage backingName r = replacementMessage backingName s) :
    r.successor = s.successor ∧ r.predecessor = s.predecessor ∧ r.effective = s.effective := by
  have named := List.append_cancel_left (List.append_cancel_left same)
  obtain ⟨-, rest⟩ := List.append_inj named (by simp)
  obtain ⟨successor, rest⟩ := List.append_inj rest (by rw [first.successor, second.successor])
  obtain ⟨predecessor, rest⟩ := List.append_inj rest (by rw [first.predecessor, second.predecessor])
  exact ⟨successor, predecessor, toBytes_inj first.effective second.effective rest⟩

end Moe
