import Moe.Pool.Audit
import Moe.Pool.RecordCodec

namespace Moe

section Forms

variable [Crypto] {s t : Bytes}

/-- A record with the digest of its proof in the proof's place. -/
structure ProofFreeRecord extends Statement where
  proofHash : Bytes
  authorization : Bytes
  capsules : List Bytes
  deriving DecidableEq

/-- The checks on authorization and capsules read no proof. -/
def ProofFreeRecord.body (s : ProofFreeRecord) : RecordBody :=
  { s.toStatement with proof := [], authorization := s.authorization, capsules := s.capsules }

/-- The digest a proof-free form carries where its record has no proof. -/
def zeroDigest : Bytes := List.replicate 32 0

def requireProofFree (s : ProofFreeRecord) : Except Failure Unit := do
  requireStatement s.toStatement
  requireBytes s.proofHash 32
  require (decide (s.kind = 5) == s.proofHash.all (· = 0)) (.encoding "wrong proof digest sentinel")
  requireAuthorizationAndCapsules s.body

def frameProofFree (s : ProofFreeRecord) : Bytes :=
  statementBytes s.toStatement ++ s.proofHash ++ lengthPrefixed s.authorization ++ toBytes 4 s.capsules.length ++ s.capsules.flatten

def encodeProofFree (s : ProofFreeRecord) : Except Failure Bytes := do
  requireProofFree s
  return frameProofFree s

def readProofFree : Reader ProofFreeRecord := do
  let s ← readStatement
  let proofHash ← Reader.raw 32
  let authorization ← Reader.lengthPrefixed (authLength s.kind)
  let count ← Reader.u32
  require (count = capsuleCount s.kind) (.encoding "wrong capsule count")
  let capsules ← Reader.times (Reader.raw capsuleLength) count
  Reader.expectEnd
  return { s with proofHash, authorization, capsules }

/-- Strict inverse of `encodeProofFree`. -/
def decodeProofFree (bytes : Bytes) : Except Failure ProofFreeRecord := do
  let s ← readProofFree.run bytes
  requireProofFree s
  return s

def proofFreeOf (s : RecordBody) : Except Failure ProofFreeRecord := do
  requireRecord s
  return { s.toStatement with proofHash := hashEvidenceField s.proof, authorization := s.authorization, capsules := s.capsules }

/-- The triple read from a proof-free form, `proofHash` as carried. -/
def proofFreeDigests (s : ProofFreeRecord) : Except Failure EvidenceDigests := do
  requireProofFree s
  return ⟨statementHash s.toStatement, s.proofHash, hashEvidenceField s.authorization⟩

/-- The form of a record's bytes. -/
def proofFreeBytes (bytes : Bytes) : Except Failure Bytes := do
  let record ← decodeRecord bytes
  encodeProofFree (← proofFreeOf record.toRecordBody)

/-- The evidence triple of a record's bytes. -/
def recordDigests (bytes : Bytes) : Except Failure EvidenceDigests := do
  let record ← decodeRecord bytes
  return evidenceHashes record.toRecordBody

/-- The evidence triple of a proof-free form's bytes. -/
def formDigests (bytes : Bytes) : Except Failure EvidenceDigests := do
  proofFreeDigests (← decodeProofFree bytes)

/-- The evidence chain over each entry's triple, from `previous` at `position`. -/
def extendEvidence (digests : Bytes → Except Failure EvidenceDigests) (previous : Bytes) (position : Nat) : List Bytes → Except Failure Bytes
  | [] => return previous
  | bytes :: rest => do extendEvidence digests (nextEvidenceHash previous (← digests bytes) (position + 1)) (position + 1) rest

/-- Encoding a record: its checks, then its bytes. -/
def frameRecord (s : RecordBody) : Except Failure Bytes := do
  requireRecord s
  return encodeRecord s

structure SignedAcceptance extends Acceptance where
  signature : Bytes

/-- What a publication of a kind carries: kind 2 a signed acceptance, the others a record. -/
inductive PublicationBody
  | acceptance (acceptance : SignedAcceptance)
  | record (kind : Nat) (record : RecordBody)

def PublicationBody.kind : PublicationBody → Nat
  | acceptance _ => 2
  | record kind _ => kind

/-- A publication as its codec frames it. -/
structure PublicationFrame where
  domain : Bytes
  backing : Bytes
  body : PublicationBody

/-- The statement kind of the record a publication kind carries. -/
def publicationStatement (kind : Nat) : Nat := [0, 4, 0, 6, 5, 7].getD kind 0

def requirePublicationKind (kind : Nat) : Except Failure Unit :=
  require (1 ≤ kind && kind ≤ 5) (.encoding "unknown publication kind")

def bodyBound (kind proofBytes : Nat) : Nat :=
  if kind = 2 then 190
  else
    let k := publicationStatement kind
    58 + 32 * inputCount k + 12 + (if k = 5 then 0 else proofBytes) + authLength k + 89 * capsuleCount k

/-- Kinds 2 and 4 need their demand to check the backing. -/
def requireRouting (p : PublicationFrame) : Except Failure Unit := do
  requirePublicationKind p.body.kind
  requireBytes p.domain 32
  requireBytes p.backing 32
  match p.body with
  | .acceptance a => do
    requireBytes a.domain 32
    requireSame p.domain a.domain
  | .record kind record => do
    require (kind ≠ 2) (.encoding "not an object")
    requireRecord record
    require (record.kind = publicationStatement kind) (.encoding "wrong publication body kind")
    requireSame p.domain record.domain
    if kind ≠ 4 then requireSame p.backing (pair record.publicInputs (if kind = 5 then 2 else 5))

def signedAcceptanceBytes (a : SignedAcceptance) : Except Failure Bytes := do
  let message ← acceptanceBytes a.toAcceptance
  requireBytes a.signature 64
  return message ++ a.signature

def publicationContext : Bytes := tag "moe/pool/v3/publication"

def acceptanceContext : Bytes := tag "moe/pool/v3/acceptance"

def PublicationBody.encode : PublicationBody → Except Failure Bytes
  | acceptance a => signedAcceptanceBytes a
  | record _ body => frameRecord body

def encodePublication (p : PublicationFrame) : Except Failure Bytes := do
  requireRouting p
  let body ← p.body.encode
  return publicationContext ++ p.domain ++ p.backing ++ toBytes 1 p.body.kind ++ lengthPrefixed body

/-- A publication's routing and its body's bytes. -/
def readPublication : Reader (Bytes × Bytes × Nat × Bytes) := do
  readContext publicationContext
  let domain ← Reader.raw 32
  let backing ← Reader.raw 32
  let kind ← Reader.u8
  requirePublicationKind kind
  let body ← Reader.lengthPrefixed (bodyBound kind maxProof)
  Reader.expectEnd
  return (domain, backing, kind, body)

def readAcceptance : Reader SignedAcceptance := do
  readContext acceptanceContext
  let domain ← Reader.raw 32
  let demand ← Reader.raw 32
  let owner ← readField
  let deadline ← Reader.u64
  let signature ← Reader.raw 64
  Reader.expectEnd
  return { domain, demand, owner, deadline, signature }

def decodeBody (kind : Nat) (body : Bytes) : Except Failure PublicationBody :=
  if kind = 2 then do
    let a ← readAcceptance.run body
    let _ ← acceptanceBytes a.toAcceptance
    return .acceptance a
  else do
    let record ← decodeRecord body
    return .record kind record.toRecordBody

def decodePublication (bytes : Bytes) : Except Failure PublicationFrame := do
  let (domain, backing, kind, body) ← readPublication.run bytes
  let p : PublicationFrame := ⟨domain, backing, ← decodeBody kind body⟩
  requireRouting p
  return p

theorem requireProofFree_shape {form : ProofFreeRecord} (valid : requireProofFree form = .ok ()) :
    requireStatement form.toStatement = .ok () ∧ form.proofHash.length = 32 ∧ requireAuthorizationAndCapsules form.body = .ok () := by
  simp only [requireProofFree, requireBytes, bind_eq_ok, require_eq_ok, decide_eq_true_eq] at valid
  obtain ⟨_, statement, _, width, _, _, rest⟩ := valid
  exact ⟨statement, width, rest⟩

theorem readProofFree_eq_ok {form : ProofFreeRecord} (valid : requireProofFree form = .ok ()) :
    readProofFree s = .ok (form, t) ↔ t = [] ∧ s = frameProofFree form := by
  obtain ⟨statement, digest, rest⟩ := requireProofFree_shape valid
  obtain ⟨width, count, each⟩ := requireAuthorizationAndCapsules_shape rest
  have narrow := authLength_le form.kind
  have capped := capsuleCount_le form.kind
  have wide : form.authorization.length = authLength form.kind := width
  have many : form.capsules.length = capsuleCount form.kind := count
  simp only [readProofFree, read_bind_eq_ok, read_lift_eq_ok, read_pure_eq_ok, readStatement_inverts _ _ _, Reader.raw_inverts _ _ _ _,
    Reader.lengthPrefixed_inverts _ _ _ _, Reader.u32_inverts _ _ _, capsules_inverts _ _ _ _, Reader.expectEnd_eq_ok, require_eq_ok,
    decide_eq_true_eq]
  constructor
  · rintro ⟨st, _, ⟨_, rfl⟩, proofHash, _, ⟨_, rfl⟩, authorization, _, ⟨_, rfl⟩, many, _, ⟨_, rfl⟩, _, _, ⟨same, rfl⟩, capsules, _,
      ⟨⟨length, _⟩, rfl⟩, _, _, ⟨rfl, rfl⟩, rfl, rfl⟩
    refine ⟨rfl, ?_⟩
    simp only [frameProofFree, length, id_eq, List.append_assoc, List.append_nil]
  · rintro ⟨rfl, rfl⟩
    refine ⟨form.toStatement, _, ⟨statement, ?_⟩, form.proofHash, _, ⟨digest, rfl⟩, form.authorization, _,
      ⟨⟨Nat.le_of_eq wide, by omega⟩, rfl⟩, form.capsules.length, _, ⟨by omega, rfl⟩, (), _, ⟨many, rfl⟩, form.capsules, [],
      ⟨⟨rfl, each⟩, rfl⟩, (), [], ⟨rfl, rfl⟩, rfl, rfl⟩
    simp only [frameProofFree, id_eq, List.append_assoc, List.append_nil]

theorem decodeProofFree_eq_ok {bytes : Bytes} {form : ProofFreeRecord} :
    decodeProofFree bytes = .ok form ↔ requireProofFree form = .ok () ∧ bytes = frameProofFree form := by
  simp only [decodeProofFree, bind_eq_ok, Reader.run_eq_ok, pure_eq_ok]
  constructor
  · rintro ⟨_, ⟨t, read⟩, _, valid, rfl⟩
    exact ⟨valid, ((readProofFree_eq_ok valid).mp read).2⟩
  · rintro ⟨valid, same⟩
    exact ⟨form, ⟨[], (readProofFree_eq_ok valid).mpr ⟨rfl, same⟩⟩, (), valid, rfl⟩

theorem encodeProofFree_eq_ok {bytes : Bytes} {form : ProofFreeRecord} :
    encodeProofFree form = .ok bytes ↔ requireProofFree form = .ok () ∧ bytes = frameProofFree form := by
  simp only [encodeProofFree, bind_eq_ok, pure_eq_ok]
  constructor
  · rintro ⟨_, valid, rfl⟩
    exact ⟨valid, rfl⟩
  · rintro ⟨valid, rfl⟩
    exact ⟨(), valid, rfl⟩

theorem frameRecord_eq_ok {bytes : Bytes} {body : RecordBody} :
    frameRecord body = .ok bytes ↔ ∃ record, decodeRecord bytes = .ok record ∧ record.toRecordBody = body := by
  simp only [frameRecord, bind_eq_ok, pure_eq_ok]
  constructor
  · rintro ⟨_, valid, rfl⟩
    exact ⟨⟨body, valid⟩, decodeRecord_eq_ok.mpr rfl, rfl⟩
  · rintro ⟨record, decoded, rfl⟩
    exact ⟨(), record.valid, (decodeRecord_eq_ok.mp decoded).symm⟩

/-- A record's form carries the digest of its proof, the zero digest exactly where there is none. -/
theorem proofFreeOf_eq_ok {body : RecordBody} {form : ProofFreeRecord} :
    proofFreeOf body = .ok form ↔ requireRecord body = .ok () ∧
      form = { body.toStatement with
        proofHash := hashEvidenceField body.proof, authorization := body.authorization, capsules := body.capsules } := by
  simp only [proofFreeOf, bind_eq_ok, pure_eq_ok]
  constructor
  · rintro ⟨_, valid, rfl⟩
    exact ⟨valid, rfl⟩
  · rintro ⟨valid, rfl⟩
    exact ⟨(), valid, rfl⟩

theorem hashEvidenceField_length (field : Bytes) : (hashEvidenceField field).length = 32 := by
  unfold hashEvidenceField
  split
  · exact Crypto.sha256_length field
  · exact List.length_replicate

omit [Crypto] in
theorem all_zero_iff {digest : Bytes} (width : digest.length = 32) : digest.all (· = 0) = true ↔ digest = zeroDigest := by
  rw [List.all_eq_true, zeroDigest, List.eq_replicate_iff]
  simp [width]

/-- A record's form is refused only where a proof hashes to the sentinel of no proof. -/
theorem requireProofFree_of_record {body : RecordBody} {form : ProofFreeRecord} (made : proofFreeOf body = .ok form) :
    requireProofFree form = .ok () ↔ (body.kind ≠ 5 → sha256 body.proof ≠ zeroDigest) := by
  obtain ⟨valid, rfl⟩ := proofFreeOf_eq_ok.mp made
  obtain ⟨statement, length, rest⟩ := requireRecord_shape valid
  have digest := hashEvidenceField_length body.proof
  have authorized : requireAuthorizationAndCapsules { body with proof := [] } = .ok () := rest
  simp only [requireProofFree, requireBytes, ProofFreeRecord.body, bind_eq_ok, require_eq_ok, decide_eq_true_eq, beq_iff_eq, statement,
    authorized, digest]
  by_cases withdrawal : body.kind = 5
  · have none_ : body.proof.length = 0 := by simpa [proofLengthHolds, withdrawal] using length
    have sentinel : (hashEvidenceField body.proof).all (· = 0) = true := by
      rw [all_zero_iff digest, hashEvidenceField, if_neg (not_not.mpr none_)]
      rfl
    simp [withdrawal, sentinel]
  · have some_ : body.proof.length ≠ 0 := by
      simp only [proofLengthHolds, withdrawal, if_false, Bool.and_eq_true, decide_eq_true_eq] at length
      omega
    have same : (hashEvidenceField body.proof).all (· = 0) = true ↔ sha256 body.proof = zeroDigest := by
      rw [all_zero_iff digest, hashEvidenceField, if_pos some_]
    cases told : (hashEvidenceField body.proof).all (· = 0) with
    | false =>
      have other : sha256 body.proof ≠ zeroDigest := fun zero => by
        rw [same.mpr zero] at told
        cases told
      simp [withdrawal, other]
    | true => simp [withdrawal, same.mp told]

theorem proofFreeDigests_of_record {body : RecordBody} {form : ProofFreeRecord} {digests : EvidenceDigests} (made : proofFreeOf body = .ok form) :
    proofFreeDigests form = .ok digests ↔ (body.kind ≠ 5 → sha256 body.proof ≠ zeroDigest) ∧ digests = evidenceHashes body := by
  rw [← requireProofFree_of_record made]
  simp only [proofFreeDigests, bind_eq_ok, pure_eq_ok]
  obtain ⟨-, rfl⟩ := proofFreeOf_eq_ok.mp made
  constructor
  · rintro ⟨_, valid, rfl⟩
    exact ⟨valid, rfl⟩
  · rintro ⟨valid, rfl⟩
    exact ⟨(), valid, rfl⟩

/-- A record whose form is written has the triple its form has. -/
theorem formDigests_eq {bytes form : Bytes} (made : proofFreeBytes bytes = .ok form) : formDigests form = recordDigests bytes := by
  obtain ⟨record, decoded, made⟩ := bind_eq_ok.mp made
  obtain ⟨free, taken, written⟩ := bind_eq_ok.mp made
  obtain ⟨valid, rfl⟩ := encodeProofFree_eq_ok.mp written
  have read : decodeProofFree (frameProofFree free) = .ok free := decodeProofFree_eq_ok.mpr ⟨valid, rfl⟩
  have digests : proofFreeDigests free = .ok (evidenceHashes record.toRecordBody) :=
    (proofFreeDigests_of_record taken).mpr ⟨(requireProofFree_of_record taken).mp valid, rfl⟩
  rw [formDigests, recordDigests, read, decoded]
  exact digests

theorem extendEvidence_forms {records forms : List Bytes} (made : records.mapM proofFreeBytes = .ok forms) (previous : Bytes) (position : Nat) :
    extendEvidence formDigests previous position forms = extendEvidence recordDigests previous position records := by
  induction mapM_eq_ok.mp made generalizing previous position with
  | nil => rfl
  | @cons bytes form records forms first rest ih =>
    rw [extendEvidence, extendEvidence, formDigests_eq first]
    exact bind_congr fun digests => ih (mapM_eq_ok.mpr rest) _ _

section Publications

attribute [local irreducible] fieldToBytes

omit [Crypto] in
theorem requirePublicationKind_range {kind : Nat} (known : requirePublicationKind kind = .ok ()) : 1 ≤ kind ∧ kind ≤ 5 := by
  simpa [requirePublicationKind] using known

omit [Crypto] in
theorem readPublication_eq_ok {domain backing body : Bytes} {kind : Nat} :
    readPublication s = .ok ((domain, backing, kind, body), t) ↔
      (domain.length = 32 ∧ backing.length = 32 ∧ requirePublicationKind kind = .ok () ∧ body.length ≤ bodyBound kind maxProof ∧
        body.length < 2 ^ 32) ∧ t = [] ∧ s = publicationContext ++ domain ++ backing ++ toBytes 1 kind ++ lengthPrefixed body := by
  simp only [readPublication, read_bind_eq_ok, read_lift_eq_ok, read_pure_eq_ok, readContext_eq_ok, Reader.raw_inverts _ _ _ _,
    Reader.u8_inverts _ _ _, Reader.lengthPrefixed_inverts _ _ _ _, Reader.expectEnd_eq_ok]
  constructor
  · rintro ⟨_, _, rfl, _, _, ⟨wide, rfl⟩, _, _, ⟨named, rfl⟩, _, _, ⟨_, rfl⟩, _, _, ⟨known, rfl⟩, _, _, ⟨⟨fits, short⟩, rfl⟩, _, _,
      ⟨rfl, rfl⟩, same, rfl⟩
    obtain ⟨rfl, rfl, rfl, rfl⟩ := by simpa only [Prod.mk.injEq] using same
    refine ⟨⟨wide, named, known, fits, short⟩, rfl, ?_⟩
    simp only [id_eq, List.append_assoc, List.append_nil]
  · rintro ⟨⟨wide, named, known, fits, short⟩, rfl, rfl⟩
    have range := requirePublicationKind_range known
    refine ⟨(), _, ?_, domain, _, ⟨wide, rfl⟩, backing, _, ⟨named, rfl⟩, kind, _, ⟨by omega, rfl⟩, (), _, ⟨known, rfl⟩, body, [],
      ⟨⟨fits, short⟩, rfl⟩, (), [], ⟨rfl, rfl⟩, rfl, rfl⟩
    simp only [id_eq, List.append_assoc, List.append_nil]

omit [Crypto] in
theorem readAcceptance_eq_ok {a : SignedAcceptance} :
    readAcceptance s = .ok (a, t) ↔
      (a.domain.length = 32 ∧ a.demand.length = 32 ∧ isField a.owner = true ∧ a.deadline < 2 ^ 64 ∧ a.signature.length = 64) ∧ t = [] ∧
        s = acceptanceContext ++ a.domain ++ a.demand ++ fieldToBytes a.owner ++ toBytes 8 a.deadline ++ a.signature := by
  simp only [readAcceptance, read_bind_eq_ok, read_pure_eq_ok, readContext_eq_ok, Reader.raw_inverts _ _ _ _, readField_inverts _ _ _,
    Reader.u64_inverts _ _ _, Reader.expectEnd_eq_ok]
  constructor
  · rintro ⟨_, _, rfl, _, _, ⟨wide, rfl⟩, _, _, ⟨named, rfl⟩, _, _, ⟨owner, rfl⟩, _, _, ⟨deadline, rfl⟩, _, _, ⟨signature, rfl⟩, _, _,
      ⟨rfl, rfl⟩, rfl, rfl⟩
    refine ⟨⟨wide, named, owner, deadline, signature⟩, rfl, ?_⟩
    simp only [id_eq, List.append_assoc, List.append_nil]
  · rintro ⟨⟨wide, named, owner, deadline, signature⟩, rfl, rfl⟩
    refine ⟨(), _, ?_, a.domain, _, ⟨wide, rfl⟩, a.demand, _, ⟨named, rfl⟩, a.owner, _, ⟨owner, rfl⟩, a.deadline, _, ⟨deadline, rfl⟩,
      a.signature, [], ⟨signature, rfl⟩, (), [], ⟨rfl, rfl⟩, rfl, rfl⟩
    simp only [id_eq, List.append_assoc, List.append_nil]

omit [Crypto] in
theorem acceptanceBytes_eq_ok {a : Acceptance} {message : Bytes} :
    acceptanceBytes a = .ok message ↔
      (isField a.owner = true ∧ a.owner ≠ 0 ∧ isValue a.deadline = true ∧ a.domain.length = 32 ∧ a.demand.length = 32) ∧
        message = acceptanceContext ++ a.domain ++ a.demand ++ fieldToBytes a.owner ++ toBytes 8 a.deadline := by
  simp only [acceptanceBytes, requireBytes, bind_eq_ok, require_eq_ok, pure_eq_ok, Bool.and_eq_true, decide_eq_true_eq]
  constructor
  · rintro ⟨_, ⟨⟨owner, some_⟩, deadline⟩, _, wide, _, named, rfl⟩
    exact ⟨⟨owner, some_, deadline, wide, named⟩, rfl⟩
  · rintro ⟨⟨owner, some_, deadline, wide, named⟩, rfl⟩
    exact ⟨(), ⟨⟨owner, some_⟩, deadline⟩, (), wide, (), named, rfl⟩

omit [Crypto] in
theorem fieldToBytes_length (value : Nat) : (fieldToBytes value).length = 32 := by
  unfold fieldToBytes
  exact toBytes_length 32 value

/-- A record that meets the checks fits the publication that carries its kind. -/
theorem encodeRecord_le {kind : Nat} {body : RecordBody} (valid : requireRecord body = .ok ()) (carried : body.kind = publicationStatement kind)
    (other : kind ≠ 2) : (encodeRecord body).length ≤ bodyBound kind maxProof := by
  obtain ⟨statement, proof, rest⟩ := requireRecord_shape valid
  obtain ⟨width, count, each⟩ := requireAuthorizationAndCapsules_shape rest
  obtain ⟨wide, -, inputs, -⟩ := requireStatement_shape statement
  have short := proofLengthHolds_le proof
  have statementLength : (statementBytes body.toStatement).length = 58 + 32 * body.publicInputs.length := by
    have context : statementContext.length = 21 := by decide
    simp only [statementBytes, List.length_append, context, toBytes_length, flatMap_length fun value _ => fieldToBytes_length value, wide]
  have capsules : body.capsules.flatten.length = 89 * body.capsules.length := flatten_length each
  rw [bodyBound, if_neg other, ← carried]
  simp only [encodeRecord, lengthPrefixed, List.length_append, toBytes_length, statementLength, capsules, width, count, inputs]
  omega

omit [Crypto] in
theorem bodyBound_lt (kind : Nat) : bodyBound kind maxProof < 2 ^ 32 := by
  have inputs := inputCount_le (publicationStatement kind)
  have narrow := authLength_le (publicationStatement kind)
  have capped := capsuleCount_le (publicationStatement kind)
  have proof : maxProof = 131072 := rfl
  unfold bodyBound
  split
  · omega
  · simp only
    split <;> omega

omit [Crypto] in
theorem signedAcceptanceBytes_eq_ok {a : SignedAcceptance} {bytes : Bytes} :
    signedAcceptanceBytes a = .ok bytes ↔ (∃ message, acceptanceBytes a.toAcceptance = .ok message) ∧ readAcceptance.run bytes = .ok a := by
  simp only [signedAcceptanceBytes, requireBytes, bind_eq_ok, require_eq_ok, pure_eq_ok, decide_eq_true_eq, Reader.run_eq_ok,
    readAcceptance_eq_ok, acceptanceBytes_eq_ok]
  constructor
  · rintro ⟨_, ⟨⟨owner, some_, deadline, wide, named⟩, rfl⟩, _, signature, rfl⟩
    exact ⟨⟨_, ⟨owner, some_, deadline, wide, named⟩, rfl⟩, [], ⟨wide, named, owner, of_decide_eq_true deadline, signature⟩, rfl, rfl⟩
  · rintro ⟨⟨_, checks, rfl⟩, _, ⟨wide, named, owner, deadline, signature⟩, -, rfl⟩
    exact ⟨_, ⟨checks, rfl⟩, (), signature, rfl⟩

/-- A body's bytes are those its own kind decodes to it. -/
theorem decodeBody_eq_ok {body : PublicationBody} {bytes : Bytes} {kind : Nat} (other : ∀ record, body ≠ .record 2 record) :
    decodeBody kind bytes = .ok body ↔ kind = body.kind ∧ body.encode = .ok bytes := by
  unfold decodeBody
  cases body with
  | acceptance a =>
    simp only [PublicationBody.kind, PublicationBody.encode, signedAcceptanceBytes_eq_ok]
    split
    · rename_i accepts
      simp only [bind_eq_ok, pure_eq_ok]
      constructor
      · rintro ⟨_, read, message, checked, same⟩
        obtain rfl := PublicationBody.acceptance.inj same
        exact ⟨accepts, ⟨message, checked⟩, read⟩
      · rintro ⟨-, ⟨message, checked⟩, read⟩
        exact ⟨a, read, message, checked, rfl⟩
    · rename_i records
      constructor
      · intro read
        obtain ⟨_, -, same⟩ := bind_eq_ok.mp read
        cases same
      · rintro ⟨accepts, -⟩
        exact absurd accepts records
  | record named body =>
    simp only [PublicationBody.kind, PublicationBody.encode, frameRecord_eq_ok]
    split
    · rename_i accepts
      constructor
      · intro read
        obtain ⟨_, -, read⟩ := bind_eq_ok.mp read
        obtain ⟨_, -, same⟩ := bind_eq_ok.mp read
        cases same
      · rintro ⟨rfl, -⟩
        exact absurd (congrArg (PublicationBody.record · body) accepts) (other body)
    · simp only [bind_eq_ok, pure_eq_ok, PublicationBody.record.injEq]
      constructor
      · rintro ⟨record, decoded, named, same⟩
        exact ⟨named, record, decoded, same⟩
      · rintro ⟨named, record, decoded, same⟩
        exact ⟨record, decoded, named, same⟩

/-- What the routing checks say of a publication's frame. -/
theorem requireRouting_shape {p : PublicationFrame} (routed : requireRouting p = .ok ()) :
    requirePublicationKind p.body.kind = .ok () ∧ p.domain.length = 32 ∧ p.backing.length = 32 ∧ (∀ record, p.body ≠ .record 2 record) ∧
      ∀ bytes, p.body.encode = .ok bytes → bytes.length ≤ bodyBound p.body.kind maxProof := by
  simp only [requireRouting, requireBytes, bind_eq_ok, require_eq_ok, decide_eq_true_eq] at routed
  obtain ⟨_, known, _, wide, _, named, routed⟩ := routed
  refine ⟨known, wide, named, ?_, ?_⟩
  · intro record same
    simp only [same, bind_eq_ok, require_eq_ok] at routed
    obtain ⟨_, told, -⟩ := routed
    simp at told
  · intro bytes encoded
    cases same : p.body with
    | acceptance a =>
      rw [same] at encoded
      obtain ⟨_, read⟩ := signedAcceptanceBytes_eq_ok.mp encoded
      obtain ⟨_, read⟩ := Reader.run_eq_ok.mp read
      obtain ⟨⟨wide, named, -, -, signature⟩, -, rfl⟩ := readAcceptance_eq_ok.mp read
      have context : acceptanceContext.length = 22 := by decide
      simp only [List.length_append, context, wide, named, fieldToBytes_length, toBytes_length, signature]
      exact Nat.le_refl 190
    | record kind record =>
      rw [same] at encoded
      simp only [same, bind_eq_ok, require_eq_ok, decide_eq_true_eq] at routed
      obtain ⟨_, other, _, valid, _, carried, -⟩ := routed
      obtain ⟨_, _, encoded⟩ := bind_eq_ok.mp encoded
      obtain rfl := pure_eq_ok.mp encoded
      exact encodeRecord_le valid carried other

theorem encodePublication_eq_ok {p : PublicationFrame} {bytes : Bytes} : encodePublication p = .ok bytes ↔ decodePublication bytes = .ok p := by
  simp only [encodePublication, decodePublication, bind_eq_ok, pure_eq_ok, Reader.run_eq_ok]
  constructor
  · rintro ⟨_, routed, body, encoded, rfl⟩
    obtain ⟨known, wide, named, other, fits⟩ := requireRouting_shape routed
    have short := fits body encoded
    have bound := bodyBound_lt p.body.kind
    exact ⟨(p.domain, p.backing, p.body.kind, body), ⟨[], readPublication_eq_ok.mpr ⟨⟨wide, named, known, short, by omega⟩, rfl, rfl⟩⟩, p.body,
      (decodeBody_eq_ok other).mpr ⟨rfl, encoded⟩, (), routed, rfl⟩
  · rintro ⟨⟨domain, backing, kind, body⟩, ⟨_, read⟩, form, decoded, _, routed, rfl⟩
    obtain ⟨-, -, -, other, -⟩ := requireRouting_shape routed
    obtain ⟨-, -, rfl⟩ := readPublication_eq_ok.mp read
    obtain ⟨same, encoded⟩ := (decodeBody_eq_ok other).mp decoded
    obtain rfl : kind = form.kind := same
    exact ⟨(), routed, body, encoded, rfl⟩

end Publications

/-- Records, their proof-free forms and publications are each written one way, read back as they were and never
otherwise; a form's digests are its record's, and a chain over forms is the chain over their records. -/
theorem record_forms_agree :
    (∀ record : Record, frameRecord record.toRecordBody = .ok (encodeRecord record.toRecordBody) ∧
      decodeRecord (encodeRecord record.toRecordBody) = .ok record) ∧
    (∀ bytes record, decodeRecord bytes = .ok record → encodeRecord record.toRecordBody = bytes) ∧
    (∀ form bytes, encodeProofFree form = .ok bytes ↔ decodeProofFree bytes = .ok form) ∧
    (∀ p bytes, encodePublication p = .ok bytes ↔ decodePublication bytes = .ok p) ∧
    (∀ record : Record, ∃ form, proofFreeOf record.toRecordBody = .ok form ∧
      ((record.kind ≠ 5 → sha256 record.proof ≠ zeroDigest) → proofFreeDigests form = .ok (evidenceHashes record.toRecordBody))) ∧
    ∀ records forms, records.mapM proofFreeBytes = .ok forms → ∀ previous position,
      extendEvidence formDigests previous position forms = extendEvidence recordDigests previous position records := by
  refine ⟨fun record => ⟨?_, decodeRecord_eq_ok.mpr rfl⟩, fun bytes record decoded => (decodeRecord_eq_ok.mp decoded).symm, ?_, ?_, ?_, ?_⟩
  · exact frameRecord_eq_ok.mpr ⟨record, decodeRecord_eq_ok.mpr rfl, rfl⟩
  · intro form bytes
    rw [encodeProofFree_eq_ok, decodeProofFree_eq_ok]
  · exact fun p bytes => encodePublication_eq_ok
  · intro record
    have made := proofFreeOf_eq_ok.mpr ⟨record.valid, rfl⟩
    exact ⟨_, made, fun hashed => (proofFreeDigests_of_record made).mpr ⟨hashed, rfl⟩⟩
  · exact fun records forms made previous position => extendEvidence_forms made previous position

end Forms

section Sample

local instance formsCrypto : Crypto := sampleCrypto

theorem sampleIssue_valid : requireRecord sampleIssue = .ok () := by
  decide +kernel

/-- The sample issue's form has its record's digests. -/
theorem record_forms_agree_sample : ∃ form, proofFreeOf sampleIssue = .ok form ∧ proofFreeDigests form = .ok (evidenceHashes sampleIssue) := by
  obtain ⟨form, made, same⟩ := record_forms_agree.2.2.2.2.1 ⟨sampleIssue, sampleIssue_valid⟩
  exact ⟨form, made, same fun _ => by decide +kernel⟩

end Sample

end Moe
