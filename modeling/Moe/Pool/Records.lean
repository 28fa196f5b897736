import Moe.Pool.Field

namespace Moe

variable [Crypto]

/-- A statement: its domain, its kind and its public inputs. -/
structure Statement where
  domain : Bytes
  kind : Nat
  publicInputs : List Nat
  deriving DecidableEq

/-- A statement with its authorization, its capsules and its proof. -/
structure RecordBody extends Statement where
  proof : Bytes
  authorization : Bytes
  capsules : List Bytes
  deriving DecidableEq

def inputCount (kind : Nat) : Nat := [0, 11, 15, 15, 16, 7, 17, 7].getD kind 0
def authLength (kind : Nat) : Nat := [0, 64, 0, 0, 0, 64, 136, 0].getD kind 0
def capsuleCount (kind : Nat) : Nat := [0, 1, 4, 1, 0, 0, 0, 0].getD kind 0

/-- The bound on a proof field. -/
def maxProof : Nat := 131072
def capsuleLength : Nat := 89

def input (p : List Nat) (i : Nat) : Nat := p.getD i 0

/-- The identifier two adjacent public inputs hold the limbs of. -/
def pair (p : List Nat) (i : Nat) : Bytes := toBytes 16 (input p i) ++ toBytes 16 (input p (i + 1))

def requirePair (p : List Nat) (i : Nat) : Except Failure Unit :=
  require (input p i < limbBound && input p (i + 1) < limbBound) (.encoding "identifier limb out of range")

def requireKind (kind : Nat) : Except Failure Unit :=
  require (1 ≤ kind && kind ≤ 7) (.encoding "unknown statement kind")

def requireBytes (bytes : Bytes) (length : Nat) : Except Failure Unit :=
  require (bytes.length = length) (.encoding "wrong byte type or length")

def requireSame (a b : Bytes) : Except Failure Unit :=
  require (a = b) (.encoding "inconsistent domain, backing or digest")

/-- Ranges are checked on a proofless withdrawal too. -/
def requireStatement (s : Statement) : Except Failure Unit := do
  requireBytes s.domain 32
  requireKind s.kind
  let p := s.publicInputs
  require (p.length = inputCount s.kind) (.encoding "wrong public-input count")
  require (p.all isField) (.encoding "noncanonical public input")
  requirePair p 0
  requireSame s.domain (pair p 0)
  requirePair p 2
  if s.kind = 7 then require (isValue (input p 6)) (.encoding "refresh outside u64")
  else if s.kind = 5 then requirePair p 5
  else do
    if s.kind ≠ 2 then
      requirePair p 5
      require (isValue (input p 7) && input p 7 ≠ 0) (.encoding "quantity outside positive u64")
    if s.kind ≤ 3 then requirePair p (p.length - 2)
    if s.kind = 4 then
      requirePair p 12
      require (isValue (input p 14) && isValue (input p 15)) (.encoding "time outside u64")
    if s.kind = 6 then requirePair p 15

def statementContext : Bytes := tag "moe/pool/v3/statement"

def statementBytes (s : Statement) : Bytes :=
  statementContext ++ s.domain ++ toBytes 1 s.kind ++ toBytes 4 s.publicInputs.length ++
    s.publicInputs.flatMap fieldToBytes

def statementHash (s : Statement) : Bytes := sha256 (statementBytes s)

/-- The delivery digest's preimage names the public commitments with their capsules. -/
def deliveryHash (domain : Bytes) (outputs : List Nat) (capsules : List Bytes) : Bytes :=
  sha256 (tag "moe/pool/v3/delivery" ++ domain ++ toBytes 4 outputs.length ++
    (outputs.zip capsules).flatMap fun (cm, capsule) => fieldToBytes cm ++ capsule)

def proofLengthHolds (kind length : Nat) : Bool :=
  if kind = 5 then length = 0 else 0 < length && length ≤ maxProof && length % 32 = 0

def deliveredOutputs (s : Statement) : List Nat :=
  let p := s.publicInputs
  if s.kind = 1 then [input p 8] else if s.kind = 2 then (p.drop 9).take 4 else [input p 12]

def requireAuthorizationAndCapsules (s : RecordBody) : Except Failure Unit := do
  requireBytes s.authorization (authLength s.kind)
  require (s.capsules.length = capsuleCount s.kind) (.encoding "wrong capsule count")
  if s.capsules.length ≠ 0 then
    require (s.capsules.all (·.length = capsuleLength)) (.encoding "wrong byte type or length")
    require (s.capsules.all (·.head? = some 1)) (.encoding "unsupported capsule profile")
    requireSame (pair s.publicInputs (s.publicInputs.length - 2))
      (deliveryHash s.domain (deliveredOutputs s.toStatement) s.capsules)

def requireRecord (s : RecordBody) : Except Failure Unit := do
  requireStatement s.toStatement
  require (proofLengthHolds s.kind s.proof.length) (.encoding "wrong proof length")
  requireAuthorizationAndCapsules s

/-- A record that passed every check of the codec. -/
structure Record extends RecordBody where
  valid : requireRecord toRecordBody = .ok ()

theorem Record.requirements (record : Record) :
    record.publicInputs.length = inputCount record.kind ∧ ∀ value ∈ record.publicInputs, isField value = true := by
  have valid := record.valid
  simp only [requireRecord, requireStatement, bind_eq_ok, require_eq_ok] at valid
  obtain ⟨-, ⟨-, -, -, -, -, count, -, canonical, -⟩, -⟩ := valid
  exact ⟨of_decide_eq_true count, List.all_eq_true.mp canonical⟩

def readContext (context : Bytes) : Reader Unit := do
  requireSame (← Reader.raw context.length) context

def readField : Reader Nat := do bytesToField (← Reader.raw 32)

def readStatement : Reader Statement := do
  readContext statementContext
  let domain ← Reader.raw 32
  let kind ← Reader.u8
  requireKind kind
  let count ← Reader.u32
  require (count = inputCount kind) (.encoding "wrong public-input count")
  let publicInputs ← Reader.times readField count
  requireStatement ⟨domain, kind, publicInputs⟩
  return ⟨domain, kind, publicInputs⟩

def readRecord : Reader RecordBody := do
  let s ← readStatement
  let proof ← Reader.lengthPrefixed (if s.kind = 5 then 0 else maxProof)
  let authorization ← Reader.lengthPrefixed (authLength s.kind)
  let count ← Reader.u32
  require (count = capsuleCount s.kind) (.encoding "wrong capsule count")
  let capsules ← Reader.times (Reader.raw capsuleLength) count
  Reader.expectEnd
  return { s with proof, authorization, capsules }

/-- Strict canonical inverse of `encodeRecord`. -/
def decodeRecord (bytes : Bytes) : Except Failure Record := do
  let body ← readRecord.run bytes
  match checked : requireRecord body with
  | .ok () => return ⟨body, checked⟩
  | .error failure => .error failure

def encodeRecord (s : RecordBody) : Bytes :=
  statementBytes s.toStatement ++ lengthPrefixed s.proof ++ lengthPrefixed s.authorization ++
    toBytes 4 s.capsules.length ++ s.capsules.flatten

/-- A record's evidence triple. -/
structure EvidenceDigests where
  statementHash : Bytes
  proofHash : Bytes
  signatureHash : Bytes
  deriving DecidableEq

/-- The digest of the field actually supplied, the zero sentinel exactly where it is empty. -/
def hashEvidenceField (field : Bytes) : Bytes :=
  if field.length ≠ 0 then sha256 field else List.replicate 32 0

def evidenceHashes (s : RecordBody) : EvidenceDigests :=
  ⟨statementHash s.toStatement, hashEvidenceField s.proof, hashEvidenceField s.authorization⟩

structure Acceptance where
  domain : Bytes
  demand : Bytes
  owner : Nat
  deadline : Nat

/-- A zero acceptance owner is refused where the acceptance is framed, not where the record decodes. -/
def acceptanceBytes (a : Acceptance) : Except Failure Bytes := do
  require (isField a.owner && a.owner ≠ 0 && isValue a.deadline) (.encoding "invalid acceptance owner or deadline")
  requireBytes a.domain 32
  requireBytes a.demand 32
  return tag "moe/pool/v3/acceptance" ++ a.domain ++ a.demand ++ fieldToBytes a.owner ++ toBytes 8 a.deadline

def releaseBytes (domain demand acceptance settlement : Bytes) : Bytes :=
  tag "moe/pool/v3/release" ++ domain ++ demand ++ acceptance ++ settlement

def withdrawalBytes (s : Statement) : Bytes :=
  tag "moe/pool/v3/withdrawal" ++ s.domain ++ statementHash s

/-- A settlement's two signing messages with their signatures; the caller verifies both. -/
structure SettlementAuthorization where
  acceptance : Acceptance
  signature : Bytes
  acceptanceMessage : Bytes
  releaseMessage : Bytes
  releaseSignature : Bytes

def settlementAuthorization (s : RecordBody) : Except Failure SettlementAuthorization := do
  require (s.kind = 6) (.encoding "not a settlement")
  let acceptance : Acceptance :=
    ⟨s.domain, pair s.publicInputs 15, input s.publicInputs 8, ofBytes (s.authorization.take 8)⟩
  let acceptanceMessage ← acceptanceBytes acceptance
  return ⟨acceptance, (s.authorization.drop 8).take 64, acceptanceMessage,
    releaseBytes s.domain acceptance.demand (sha256 acceptanceMessage) (statementHash s.toStatement),
    s.authorization.drop 72⟩

end Moe
