import Moe.Lit.Arithmetic
import Moe.Pool.Construction

namespace Moe

namespace Lit

variable [Crypto] [PublicKeys]

/-- A record its codec takes. -/
structure DecodedRecord extends LitRecord where
  sound : toLitRecord.Sound

def keyOf (bytes : Bytes) : Nat := ofBytes bytes

def bytesOf (key : Nat) : Bytes := toBytes 32 key

/-- The digests of the actual fields, whatever their validity or length; a lit record has no proof. -/
def hashEvidenceFields (statement authorization : Bytes) : EvidenceDigests := ⟨sha256 statement, [], sha256 authorization⟩

def Body.segment : Body → Bytes
  | .issue segment .. | .spend segment .. | .burn segment .. | .demand segment .. | .withdraw segment _ | .settle segment .. => segment
  | .request .. => []

/-- Whose signatures authorize a statement its inputs' owners sign. -/
def Body.owners : Body → Option (List Bytes)
  | .spend _ ins _ | .burn _ _ ins _ | .demand _ ins _ _ _ => some (ins.map (·.owner))
  | .request input _ => some [input.owner]
  | _ => none

/-- The owner signature of every input, each over the statement bytes in input order. -/
def ownerSignaturesVerify (record : LitRecord) : Bool :=
  match ownRecord record with
  | .error _ => false
  | .ok r =>
    match r.statement.body.owners with
    | none => false
    | some owners => owners.zipIdx.all fun (owner, i) =>
        verifySignatureStrict ((r.authorization.drop (64 * i)).take 64) (writeStatement r.statement) owner

/-- A one-signature authorization under a key the caller resolves. -/
def statementSignatureVerifies (record : LitRecord) (key : Bytes) : Bool :=
  match ownRecord record with
  | .error _ => false
  | .ok r => (r.statement.body.kind = 1 || r.statement.body.kind = 5) &&
      verifySignatureStrict r.authorization (writeStatement r.statement) key

def acceptanceId (acceptance : Acceptance) : Except Failure Bytes := do return sha256 (← acceptanceBytes acceptance)

def releaseBytes (domain demand acceptance settlement : Bytes) : Except Failure Bytes := do
  return tag "moe/lit/v1/release" ++ (← field32 domain "domain") ++ (← field32 demand "demand") ++ (← field32 acceptance "acceptance") ++
    (← field32 settlement "settlement")

/-- The exact messages a settlement's three signatures are over; this grants no authority. -/
structure SettlementAuthorization where
  acceptance : SignedAcceptance
  acceptanceMessage : Bytes
  releaseMessage : Bytes
  releaseSignature : Bytes

def readAuthorization : Reader (Nat × Bytes × Bytes × Bytes) := do
  let deadline ← Reader.u64
  let signature ← Reader.raw 64
  let ownerSignature ← Reader.raw 64
  let releaseSignature ← Reader.raw 64
  Reader.expectEnd
  return (deadline, signature, ownerSignature, releaseSignature)

def settlementAuthorization (record : LitRecord) : Except Failure SettlementAuthorization := do
  let r ← ownRecord record
  match r.statement.body with
  | .settle _ demand owner => do
    let (deadline, signature, ownerSignature, releaseSignature) ← readAuthorization.run r.authorization
    let acceptance : SignedAcceptance := { domain := r.statement.domain, demand, owner, deadline, signature, ownerSignature }
    let acceptanceMessage ← acceptanceBytes acceptance.toAcceptance
    let id ← acceptanceId acceptance.toAcceptance
    let releaseMessage ← releaseBytes r.statement.domain demand id (← statementHash r.statement)
    return { acceptance, acceptanceMessage, releaseMessage, releaseSignature }
  | _ => .error (.encoding "not a settlement")

/-- A decoded record's outputs, a settlement's from its demand as the store keeps it: none where its demand does not stand. -/
def litOutputs (record : LitRecord) (demand : Option Demand) : Except Failure (List Opening) :=
  match record.statement.body, demand.bind fun stood => stood.nullifiers.map fun nfs => (stood, nfs) with
  | .settle .., none => .ok []
  | .settle .., some (stood, nfs) => createdOutputs record.statement (some ⟨stood.backing, stood.quantity, nfs.map bytesOf⟩)
  | _, _ => createdOutputs record.statement none

/-- The commitment of a note, as the store keys it. -/
def commitmentKey (domain : Bytes) (opening : Opening) : Nat := keyOf (noteCommitment domain opening)

/-- The nullifier of a commitment, as the store keys it. -/
def nullifierKey (domain : Bytes) (opening : Opening) : Nat := keyOf (noteNullifier (noteCommitment domain opening))

/-- A view's commitments of the outputs its record creates. -/
def created (record : LitRecord) (demand : Option Demand) : List Nat :=
  match litOutputs record demand with
  | .ok outputs => outputs.map (commitmentKey record.statement.domain)
  | .error _ => []

def tagsOf (domain : Bytes) (ins : List Opening) : List Nat :=
  ins.map fun input => keyOf (noteTag (noteNullifier (noteCommitment domain input)))

/-- The statement check of kinds 2 to 4: its own arithmetic, then each input's owner signature, in input order. -/
def owned (record : LitRecord) : Except Failure Unit := do
  requireReplay (arithmeticHolds record.statement) .arithmetic
  requireReplay (ownerSignaturesVerify record) .signature

/-- What every lit view says of its record, and nothing of its effects. -/
def baseView (record : LitRecord) : StatementView :=
  { kind := record.statement.body.kind, identity := sha256 (writeStatement record.statement), domain := record.statement.domain
    segment := record.statement.body.segment, scope := none
    digests := hashEvidenceFields (writeStatement record.statement) record.authorization
    backings := [], ended := none, needsDemand := false, quantity := none, nfs := [], tags := [], outputs := [], capsules := []
    roots := [], inputs := [], demand := none, check := fun _ => .ok ()
    issuerSigned := fun issuer => record.statement.body.kind = 1 && statementSignatureVerifies record issuer
    withdrawalSigned := fun presenter => record.statement.body.kind = 5 && statementSignatureVerifies record presenter
    settlement := .error (.typeError "not a settlement"), aligned := rfl }

/-- The demand a kind-4 record stands, with its nullifiers. -/
def standing (domain : Bytes) (ins : List Opening) (presenter : Bytes) (instant deadline : Nat) : Demand :=
  { backing := (ins.map (·.backing)).headD [], quantity := (ins.map (·.value)).sum
    tags := [(tagsOf domain ins).getD 0 0, (tagsOf domain ins).getD 1 0], presenter, instant, deadline
    nullifiers := some (ins.map (nullifierKey domain)) }

/-- The acceptance verifies under the issuer and under the owner it names, the release under the presenter. -/
def settlementOf (record : LitRecord) : Except Failure Settlement := do
  let auth ← settlementAuthorization record
  return { deadline := auth.acceptance.deadline, signed := fun issuer presenter =>
    verifySignatureStrict auth.acceptance.signature auth.acceptanceMessage issuer &&
      verifySignatureStrict auth.acceptance.ownerSignature auth.acceptanceMessage auth.acceptance.owner &&
      verifySignatureStrict auth.releaseSignature auth.releaseMessage presenter }

/-- The view of a decoded record; a request is refused by its kind before any view is read. -/
def litView (record : LitRecord) (demandOf : Bytes → Option Demand) : StatementView :=
  let base := baseView record
  let domain := record.statement.domain
  match record.statement.body with
  | .issue _ backing quantity _ _ => { base with backings := [backing], quantity := some quantity, outputs := created record none }
  | .spend _ ins outs =>
    { base with
      backings := (ins.map (·.backing) ++ outs.map (·.backing)).eraseDups, nfs := ins.map (nullifierKey domain), tags := tagsOf domain ins
      inputs := ins.map (commitmentKey domain), check := fun _ => owned record, outputs := created record none, aligned := by simp [tagsOf] }
  | .burn _ quantity ins outs =>
    { base with
      backings := (ins.map (·.backing) ++ outs.map (·.backing)).eraseDups, quantity := some quantity, nfs := ins.map (nullifierKey domain)
      tags := tagsOf domain ins, inputs := ins.map (commitmentKey domain), check := fun _ => owned record, outputs := created record none
      aligned := by simp [tagsOf] }
  | .demand _ ins presenter instant deadline =>
    { base with
      backings := (ins.map (·.backing)).eraseDups, inputs := ins.map (commitmentKey domain), check := fun _ => owned record
      demand := some (base.identity, standing domain ins presenter instant deadline) }
  | .withdraw _ named => { base with ended := some named, needsDemand := true }
  | .settle _ named _ =>
    let base := { base with ended := some named, needsDemand := true, settlement := settlementOf record }
    match demandOf named with
    | none => base
    | some demand =>
      match demand.nullifiers with
      | none => base
      | some nfs =>
        -- A tag for each nullifier: a standing demand's tags are no fewer.
        { base with
          quantity := some demand.quantity, nfs := nfs, tags := (List.range nfs.length).map (demand.tags.getD · 0)
          outputs := created record (some demand), aligned := by simp }
  | .request .. => base

def nextHistoryHash (previous statement spentRoot : Bytes) (position : Nat) : Bytes :=
  sha256 (tag "moe/lit/v1/history" ++ previous ++ statement ++ spentRoot ++ toBytes 8 position)

def nextEvidenceHash (previous : Bytes) (digests : EvidenceDigests) (position : Nat) : Bytes :=
  sha256 (tag "moe/lit/v1/evidence-link" ++ previous ++ digests.statementHash ++ digests.signatureHash ++ toBytes 8 position)

/-- The acceptance a settlement's output is read with. -/
def scannedAcceptance (record : LitRecord) : Option (Bytes × Nat) :=
  match record.statement.body, settlementAuthorization record with
  | .settle _ named _, .ok auth => some (named, auth.acceptance.deadline)
  | _, _ => none

/-- Output `i` as a wallet reads it: its opening, rebuilt from the statement, and a settlement's acceptance. -/
def litScanOutput (record : LitRecord) (cm i : Nat) (demand : Option Demand) : ScanOutput :=
  match litOutputs record demand with
  | .ok outputs => ⟨cm, none, none, outputs[i]?.map fun o => ⟨o.backing, o.value, o.owner, o.rho, scannedAcceptance record⟩⟩
  | .error _ => ⟨cm, none, none, none⟩

def decodeOwned (bytes : Bytes) : Except Failure DecodedRecord :=
  match decoded : decodeRecord bytes with
  | .ok record => .ok ⟨record, (decodeRecord_eq_ok.mp decoded).1⟩
  | .error failure => .error failure

/-- The demand a settlement's bytes end. -/
def settledDemand (bytes : Bytes) : Option Bytes :=
  match decodeRecord bytes with
  | .ok ⟨⟨_, .settle _ named _⟩, _⟩ => some named
  | _ => none

omit [Crypto] in
theorem decodeOwned_eq_ok {bytes : Bytes} {record : DecodedRecord} : decodeOwned bytes = .ok record ↔ decodeRecord bytes = .ok record.toLitRecord := by
  unfold decodeOwned
  split
  · rename_i own decoded
    refine ⟨fun same => ?_, fun same => ?_⟩
    · cases Except.ok.inj same
      exact decoded
    · obtain rfl := Except.ok.inj (decoded.symm.trans same)
      rfl
  · rename_i failure decoded
    rw [decoded]
    simp

omit [PublicKeys] in
theorem keyOf_lt (bytes : Bytes) : keyOf (sha256 bytes) < keyBound := by
  have bound := ofBytes_lt (sha256 bytes)
  rw [Crypto.sha256_length] at bound
  exact Nat.lt_of_lt_of_le bound (by decide)

omit [PublicKeys] in
theorem nullifierKey_lt (domain : Bytes) (o : Opening) : nullifierKey domain o < keyBound := keyOf_lt _

theorem created_lt {record : LitRecord} {demand : Option Demand} {cm : Nat} (member : cm ∈ created record demand) : cm < keyBound := by
  unfold created at member
  split at member
  · obtain ⟨opening, -, rfl⟩ := List.mem_map.mp member
    exact keyOf_lt _
  · cases member

omit [PublicKeys] in
theorem tagsOf_lt {domain : Bytes} {ins : List Opening} {tag : Nat} (member : tag ∈ tagsOf domain ins) : tag < keyBound := by
  obtain ⟨input, -, rfl⟩ := List.mem_map.mp member
  exact keyOf_lt _

omit [PublicKeys] in
/-- A demand its record stands. -/
theorem standing_standable {domain : Bytes} {ins : List Opening} (some_ : 1 ≤ ins.length) (presenter : Bytes)
    (instant deadline : Nat) : (standing domain ins presenter instant deadline).Standable := by
  have tagAt : ∀ i, (tagsOf domain ins).getD i 0 < keyBound := by
    intro i
    rw [List.getD_eq_getElem?_getD]
    cases read : (tagsOf domain ins)[i]? with
    | none => decide
    | some tag => exact tagsOf_lt (List.mem_of_getElem? read)
  refine ⟨rfl, fun tag member => ?_, fun empty => ?_, fun nf member => ?_, fun nfs named i tag read present => ?_⟩
  · simp only [standing, List.mem_cons, List.not_mem_nil, or_false] at member
    rcases member with rfl | rfl
    · exact tagAt 0
    · exact tagAt 1
  · have none_ : ins.map (nullifierKey domain) = [] := Option.some.inj empty
    rw [List.map_eq_nil_iff.mp none_] at some_
    exact absurd some_ (by decide)
  · obtain ⟨input, -, rfl⟩ := List.mem_map.mp (show nf ∈ ins.map (nullifierKey domain) from member)
    exact nullifierKey_lt domain input
  · obtain rfl : ins.map (nullifierKey domain) = nfs := Option.some.inj named
    rw [List.length_map]
    have inside : i < 2 := (List.getElem?_eq_some_iff.mp read).1
    by_contra past
    have one : ins.length = 1 := by omega
    have second : i = 1 := by omega
    subst second
    have value : tag = (tagsOf domain ins).getD 1 0 := (Option.some.inj read).symm
    rw [value, List.getD_eq_getElem?_getD, List.getElem?_eq_none (by simp [tagsOf, one])] at present
    exact present rfl

theorem litView_kind (record : LitRecord) (demandOf : Bytes → Option Demand) : (litView record demandOf).kind = record.statement.body.kind := by
  unfold litView
  split
  case h_6 =>
    dsimp only
    split
    · rfl
    · split <;> rfl
  all_goals rfl

/-- The note a settlement creates of the demand it settles. -/
def settledNote (demand : Demand) (nfs : List Nat) (owner : Bytes) : Opening :=
  { backing := demand.backing, value := demand.quantity, owner, rho := spendRho (nfs.map bytesOf) 0 }

theorem created_settle {record : LitRecord} {segment named owner : Bytes} {demand : Demand} {nfs : List Nat}
    (sound : record.statement.Sound) (body : record.statement.body = .settle segment named owner) (known_ : demand.nullifiers = some nfs) :
    created record (some demand) = [commitmentKey record.statement.domain (settledNote demand nfs owner)] := by
  have own : ownStatement record.statement = .ok record.statement := ownStatement_eq_ok.mpr ⟨sound, rfl⟩
  have outputs : litOutputs record (some demand) = .ok [settledNote demand nfs owner] := by
    simp only [litOutputs, body, Option.bind_some, known_, Option.map_some, createdOutputs, own]
    simp only [bind, Except.bind, body]
    rfl
  rw [created, outputs]
  rfl

/-- A lit view meets what its kind's view is. -/
theorem litView_regular (record : DecodedRecord) (demandOf : Bytes → Option Demand)
    (standable : ∀ id demand, demandOf id = some demand → demand.Standable) : (litView record.toLitRecord demandOf).Regular false demandOf := by
  obtain ⟨⟨⟨domain, body⟩, authorization⟩, ⟨⟨width, sound⟩, -⟩⟩ := record
  cases body with
  | issue segment backing quantity owner nonce =>
    constructor <;> simp [litView, baseView, Body.kind]
    exact fun cm member => created_lt member
  | spend segment ins outs =>
    constructor <;> simp [litView, baseView, Body.kind]
    · exact fun input _ => nullifierKey_lt domain input
    · exact fun tag member => tagsOf_lt member
    · exact fun cm member => created_lt member
  | burn segment quantity ins outs =>
    constructor <;> simp [litView, baseView, Body.kind]
    · exact fun input _ => nullifierKey_lt domain input
    · exact fun tag member => tagsOf_lt member
    · exact fun cm member => created_lt member
  | demand segment ins presenter instant deadline =>
    obtain ⟨-, ⟨⟨some_, -⟩, -⟩, -⟩ := sound
    constructor <;> simp [litView, baseView, Body.kind]
    exact standing_standable some_ presenter instant deadline
  | withdraw segment named => constructor <;> simp [litView, baseView, Body.kind]
  | request input refresh => constructor <;> simp [litView, baseView, Body.kind]
  | settle segment named owner =>
    cases read : demandOf named with
    | none => constructor <;> simp [litView, baseView, Body.kind, read]
    | some demand =>
      have stood := standable named demand read
      cases nullifiers : demand.nullifiers with
      | none => constructor <;> simp [litView, baseView, Body.kind, read, nullifiers]
      | some nfs =>
        have outputs := @created_settle _ _ ⟨⟨domain, .settle segment named owner⟩, authorization⟩ _ _ _ demand nfs ⟨width, sound⟩ rfl nullifiers
        constructor <;> simp [litView, baseView, Body.kind, read, nullifiers, outputs]
        · intro id other same found i tag seen present
          subst same
          obtain rfl : demand = other := Option.some.inj (read.symm.trans found)
          exact stood.slots nfs nullifiers i tag seen present
        · intro nf member
          exact stood.nullifierKeys nf (by rw [nullifiers]; exact member)
        · intro i _
          cases seen : demand.tags[i]? with
          | none => decide
          | some tag => exact stood.tagKeys tag (List.mem_of_getElem? seen)
        · exact keyOf_lt _

theorem settledDemand_ended {bytes : Bytes} {record : DecodedRecord} (demandOf : Bytes → Option Demand)
    (decoded : decodeOwned bytes = .ok record) (six : record.statement.body.kind = 6) :
    settledDemand bytes = (litView record.toLitRecord demandOf).ended := by
  have decoded := decodeOwned_eq_ok.mp decoded
  obtain ⟨⟨⟨domain, body⟩, authorization⟩, sound⟩ := record
  cases body with
  | settle segment named owner =>
    have ended : (litView ⟨⟨domain, .settle segment named owner⟩, authorization⟩ demandOf).ended = some named := by
      simp only [litView]
      split
      · rfl
      · split <;> rfl
    rw [ended, settledDemand, decoded]
  | _ => simp [Body.kind] at six

/-- Lit: derived outputs, the chains with the evidence pair and no note root, no note tree. -/
def lit : Construction DecodedRecord where
  keeps := ⟨"moe/lit/v1", false⟩
  decode := decodeOwned
  kind := fun record => record.statement.body.kind
  view := fun record demandOf => litView record.toLitRecord demandOf
  genesisHistory := segmentSeed (tag "moe/lit/v1/genesis")
  genesisEvidence := segmentSeed (tag "moe/lit/v1/evidence-seed")
  nextHistory := fun previous identity _ spentRoot position => nextHistoryHash previous identity spentRoot position
  nextEvidence := nextEvidenceHash
  settledDemand := settledDemand
  scanOutput := fun record _ cm i demand => litScanOutput record.toLitRecord cm i demand
  view_kind := fun record demandOf => litView_kind record.toLitRecord demandOf
  view_regular := litView_regular
  settled_ended := fun _ _ demandOf decoded six => settledDemand_ended demandOf decoded six

end Lit

end Moe
