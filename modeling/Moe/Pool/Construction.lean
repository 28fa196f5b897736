import Moe.Pool.Records

namespace Moe

/-- A record's note effect: nullifiers spent, outputs created, anchors read. -/
structure Effect where
  nfs : List Nat
  outputs : List Nat
  roots : List Nat

def slice (p : List Nat) (start stop : Nat) : List Nat := (p.drop start).take (stop - start)

def effectOf (record : Statement) : Effect :=
  let p := record.publicInputs
  match record.kind with
  | 1 => ⟨[], [input p 8], []⟩
  | 2 => ⟨slice p 7 9, slice p 9 13, slice p 5 7⟩
  | 3 => ⟨slice p 10 12, [input p 12], slice p 8 10⟩
  | 4 => ⟨[], [], ((slice p 8 10).zip (slice p 10 12)).filterMap fun (root, nf) => if nf ≠ 0 then some root else none⟩
  | 6 => ⟨slice p 12 14, [input p 14], slice p 10 12⟩
  | _ => ⟨[], [], []⟩

theorem mem_slice {p : List Nat} {start stop value : Nat} (member : value ∈ slice p start stop) : value ∈ p :=
  List.mem_of_mem_drop (List.mem_of_mem_take member)

theorem input_isField {p : List Nat} (canonical : ∀ value ∈ p, isField value = true) (i : Nat) : isField (input p i) = true := by
  rw [input, List.getD_eq_getElem?_getD]
  cases found : p[i]? with
  | none => rfl
  | some value => exact canonical value (List.mem_of_getElem? found)

theorem effectOf_isField {record : Statement} (canonical : ∀ value ∈ record.publicInputs, isField value = true) :
    (∀ nf ∈ (effectOf record).nfs, isField nf = true) ∧ ∀ cm ∈ (effectOf record).outputs, isField cm = true := by
  have slices : ∀ start stop, ∀ value ∈ slice record.publicInputs start stop, isField value = true :=
    fun start stop value member => canonical value (mem_slice member)
  have inputs : ∀ i, ∀ value ∈ [input record.publicInputs i], isField value = true := by
    intro i value member
    rw [List.mem_singleton.mp member]
    exact input_isField canonical i
  have none : ∀ value ∈ ([] : List Nat), isField value = true := fun _ member => absurd member List.not_mem_nil
  unfold effectOf
  split
  · exact ⟨none, inputs 8⟩
  · exact ⟨slices 7 9, slices 9 13⟩
  · exact ⟨slices 10 12, inputs 12⟩
  · exact ⟨none, none⟩
  · exact ⟨slices 12 14, inputs 14⟩
  · exact ⟨none, none⟩

variable [Crypto]

/-- A standing kind-4 demand, by its statement identity. -/
structure Demand where
  backing : Bytes
  quantity : Nat
  tags : List Nat
  presenter : Bytes
  instant : Nat
  deadline : Nat
  /-- The input nullifiers, where the settlement consumes them without naming them. -/
  nullifiers : Option (List Nat)
  deriving DecidableEq

/-- What a standing demand is: two tags, stored as keys, and the nullifiers it names, at least one where it
names any, with one for each slot that has a tag. -/
structure Demand.Standable (demand : Demand) : Prop where
  tags : demand.tags.length = 2
  tagKeys : ∀ tag ∈ demand.tags, tag < keyBound
  nullifiers : demand.nullifiers ≠ some []
  nullifierKeys : ∀ nf ∈ demand.nullifiers.getD [], nf < keyBound
  slots : ∀ nfs, demand.nullifiers = some nfs → ∀ (i tag : Nat), demand.tags[i]? = some tag → tag ≠ 0 → i < nfs.length

/-- A construction's name, and whether its namespaces keep a note tree with anchors. -/
structure NamespaceConstruction where
  name : String
  tree : Bool
  deriving DecidableEq

def poolV3Namespace : NamespaceConstruction := ⟨"moe/pool/v3", true⟩

/-- A transition's proof verifier; its own failures propagate. -/
structure ProofCheck where
  verify : Nat → List Nat → Bytes → Except Failure Bool

/-- A lit output as a wallet reads it: its opening and, for a settlement's output, the demand and
acceptance deadline its secret derives from. -/
structure LitScan where
  backing : Bytes
  value : Nat
  owner : Bytes
  rho : Bytes
  acceptance : Option (Bytes × Nat)

/-- What a settlement's output scan reads of its record. -/
structure SettlementScan extends Statement where
  authorization : Bytes

/-- An output a receiver may scan: its capsule, its settlement, or its opening. -/
structure ScanOutput where
  cm : Nat
  capsule : Option Bytes
  settlement : Option SettlementScan
  lit : Option LitScan

/-- The nullifier that spends a witnessed output, and the predicate's own bytes. -/
structure WitnessMark where
  nf : Nat
  note : Bytes
  deriving DecidableEq

/-- Which outputs a replay keeps witnesses for, and the mark kept with each. -/
abbrev WitnessPredicate := ScanOutput → Except Failure (Option WitnessMark)

/-- A settlement's acceptance deadline and its two signatures, under the issuer and the presenter. -/
structure Settlement where
  deadline : Nat
  signed : Bytes → Bytes → Bool

/-- One record as the state machine reads it. -/
structure StatementView where
  kind : Nat
  identity : Bytes
  domain : Bytes
  segment : Bytes
  scope : Option Nat
  digests : EvidenceDigests
  /-- The backings the record names; one that reads its backing from the demand it ends names none. -/
  backings : List Bytes
  ended : Option Bytes
  needsDemand : Bool
  quantity : Option Nat
  nfs : List Nat
  tags : List Nat
  outputs : List Nat
  capsules : List (Option Bytes)
  roots : List Nat
  inputs : List Nat
  demand : Option (Bytes × Demand)
  check : ProofCheck → Except Failure Unit
  issuerSigned : Bytes → Bool
  withdrawalSigned : Bytes → Bool
  settlement : Except Failure Settlement
  aligned : tags.length = nfs.length

/-- What a view is in every construction, by its record's kind: a kind 4 stands its own demand up, a kind 5
or 6 ends one, neither an issue, a demand nor a withdrawal spends, and a settlement whose demand is read
creates one output and has a nullifier for each of the demand's tags. -/
structure StatementView.Regular (view : StatementView) (tree : Bool) (demandOf : Bytes → Option Demand) : Prop where
  stands : view.kind = 4 → ∃ demand, view.demand = some (view.identity, demand) ∧ demand.Standable
  others : view.kind ≠ 4 → view.demand = none
  ends : view.ended.isSome = true ↔ view.kind = 5 ∨ view.kind = 6
  quiet : view.kind = 1 ∨ view.kind = 4 ∨ view.kind = 5 → view.nfs = []
  barren : view.kind = 4 ∨ view.kind = 5 → view.outputs = []
  needs : view.needsDemand = true → view.kind = 5 ∨ view.kind = 6
  withdraws : view.kind = 5 → view.needsDemand = true ∧ view.backings = []
  settles : view.kind = 6 → view.quantity.isSome = true → ∃ cm, view.outputs = [cm]
  slots : view.kind = 6 → view.quantity.isSome = true → ∀ id demand, view.ended = some id → demandOf id = some demand →
    ∀ (i tag : Nat), demand.tags[i]? = some tag → tag ≠ 0 → i < view.nfs.length
  nfKeys : ∀ nf ∈ view.nfs, nf < keyBound
  tagKeys : ∀ tag ∈ view.tags, tag < keyBound
  outputKeys : ∀ cm ∈ view.outputs, if tree then isField cm = true else cm < keyBound

/-- A construction's record codec, view and chains, as the state machine and its store read them. -/
structure Construction (R : Type) where
  keeps : NamespaceConstruction
  decode : Bytes → Except Failure R
  kind : R → Nat
  view : R → (Bytes → Option Demand) → StatementView
  genesisHistory : Bytes → Except Failure Bytes
  genesisEvidence : Bytes → Except Failure Bytes
  nextHistory : Bytes → Bytes → Nat → Bytes → Nat → Bytes
  nextEvidence : Bytes → EvidenceDigests → Nat → Bytes
  settledDemand : Bytes → Option Bytes
  scanOutput : R → StatementView → Nat → Nat → Option Demand → ScanOutput
  view_kind : ∀ record demandOf, (view record demandOf).kind = kind record
  view_regular : ∀ record demandOf, (∀ id demand, demandOf id = some demand → demand.Standable) →
    (view record demandOf).Regular keeps.tree demandOf
  settled_ended : ∀ bytes record demandOf, decode bytes = .ok record → kind record = 6 →
    settledDemand bytes = (view record demandOf).ended

/-- The demand a kind-4 record stands up, or the one a kind-5 or 6 record ends. -/
structure RecoveryEffect where
  demand : Option (Bytes × Demand)
  ended : Option Bytes

def recoveryEffect (record : Statement) : RecoveryEffect :=
  let p := record.publicInputs
  if record.kind = 4 then
    ⟨some (statementHash record,
      { backing := pair p 5, quantity := input p 7, tags := slice p 10 12, presenter := pair p 12,
        instant := input p 14, deadline := input p 15, nullifiers := none }), none⟩
  else if record.kind = 5 ∨ record.kind = 6 then ⟨none, some (pair p (if record.kind = 5 then 5 else 15))⟩
  else ⟨none, none⟩

def v3View (record : Record) (digests : EvidenceDigests) (check : ProofCheck → Except Failure Unit) : StatementView :=
  let p := record.publicInputs
  let kind := record.kind
  let effect := effectOf record.toStatement
  let recovery := recoveryEffect record.toStatement
  { kind, identity := statementHash record.toStatement, domain := record.domain, segment := pair p 2,
    scope := some (input p 4), digests
    backings := if kind = 2 ∨ kind = 5 then [] else [pair p 5]
    ended := recovery.ended, needsDemand := kind = 5
    quantity := if kind = 1 ∨ kind = 3 ∨ kind = 6 then some (input p 7) else none
    nfs := effect.nfs, tags := effect.nfs.map tagOf, outputs := effect.outputs
    capsules := (List.range effect.outputs.length).map fun i => if kind = 6 then none else record.capsules[i]?
    roots := effect.roots, inputs := [], demand := recovery.demand
    check := fun verifier => if kind ≠ 5 then check verifier else .ok ()
    issuerSigned := fun issuer => kind = 1 &&
      verifySignatureStrict record.authorization (statementBytes record.toStatement) issuer
    withdrawalSigned := fun presenter => kind = 5 &&
      verifySignatureStrict record.authorization (withdrawalBytes record.toStatement) presenter
    settlement := do
      let auth ← settlementAuthorization record.toRecordBody
      return { deadline := auth.acceptance.deadline, signed := fun issuer presenter =>
        verifySignatureStrict auth.signature auth.acceptanceMessage issuer &&
          verifySignatureStrict auth.releaseSignature auth.releaseMessage presenter }
    aligned := by simp }

/-- `H(context || segment)`: a chain's genesis value. -/
def segmentSeed (context segment : Bytes) : Except Failure Bytes := do
  require (segment.length = 32) (.encoding "segment must be 32 bytes")
  return sha256 (context ++ segment)

def nextHistoryHash (previous statement : Bytes) (noteRoot : Nat) (spentRoot : Bytes) (position : Nat) : Bytes :=
  sha256 (tag "moe/pool/v3/history" ++ previous ++ statement ++ fieldToBytes noteRoot ++ spentRoot ++ toBytes 8 position)

def nextEvidenceHash (previous : Bytes) (digests : EvidenceDigests) (position : Nat) : Bytes :=
  sha256 (tag "moe/pool/v3/evidence-link" ++ previous ++ digests.statementHash ++ digests.proofHash ++
    digests.signatureHash ++ toBytes 8 position)

/-- A pool-v3 view meets what its kind's view is. -/
theorem v3View_regular (record : Record) (digests : EvidenceDigests) (check : ProofCheck → Except Failure Unit)
    (demandOf : Bytes → Option Demand) (standable : ∀ id demand, demandOf id = some demand → demand.Standable) :
    (v3View record digests check).Regular true demandOf := by
  obtain ⟨count, canonical⟩ := record.requirements
  obtain ⟨nfs, outputs⟩ := effectOf_isField canonical
  refine ⟨fun kind => ?_, fun kind => ?_, ?_, fun kinds => ?_, fun kinds => ?_, fun needs => ?_, fun kind => ?_,
    fun kind _ => ?_, fun kind _ id demand _ read i tag seen _ => ?_, fun nf member => ?_, fun tag member => ?_,
    fun cm member => outputs cm member⟩
  · have kind : record.kind = 4 := kind
    have stood : (v3View record digests check).demand = (recoveryEffect record.toStatement).demand := rfl
    simp only [recoveryEffect, kind, if_true] at stood
    refine ⟨_, stood, ?_, fun tag member => isField_lt_keyBound (canonical tag (mem_slice member)), nofun, by simp, nofun⟩
    simp [slice, count, kind, inputCount]
  · have kind : record.kind ≠ 4 := kind
    simp only [v3View, recoveryEffect, kind, if_false]
    split <;> rfl
  · show (recoveryEffect record.toStatement).ended.isSome = true ↔ record.kind = 5 ∨ record.kind = 6
    unfold recoveryEffect
    split
    · next kind => simp [kind]
    · split <;> simp [*]
  · rcases kinds with kind | kind | kind <;>
      (have kind : record.kind = _ := kind; simp only [v3View, effectOf, kind])
  · rcases kinds with kind | kind <;> (have kind : record.kind = _ := kind; simp only [v3View, effectOf, kind])
  · exact .inl (of_decide_eq_true needs)
  · have kind : record.kind = 5 := kind
    simp [v3View, kind]
  · have kind : record.kind = 6 := kind
    have made : (v3View record digests check).outputs = (effectOf record.toStatement).outputs := rfl
    simp only [effectOf, kind] at made
    exact ⟨_, made⟩
  · have kind : record.kind = 6 := kind
    have two := (standable id demand read).tags
    have width : (v3View record digests check).nfs.length = 2 := by
      simp [v3View, effectOf, kind, slice, count, inputCount]
    have inside := (List.getElem?_eq_some_iff.mp seen).1
    omega
  · exact isField_lt_keyBound (nfs nf member)
  · obtain ⟨nf, -, rfl⟩ := List.mem_map.mp member
    exact isField_lt_keyBound (tagOf_isField nf)

/-- Pool-v3: proofs, anchors in the note tree, the evidence triple and the history over the note root. -/
def poolV3 : Construction Record where
  keeps := poolV3Namespace
  decode := decodeRecord
  kind := (·.kind)
  view := fun record _ => v3View record (evidenceHashes record.toRecordBody) fun verifier => do
    let holds ← verifier.verify record.kind record.publicInputs record.proof
    requireReplay holds .proof
  genesisHistory := segmentSeed (tag "moe/pool/v3/genesis")
  genesisEvidence := segmentSeed (tag "moe/pool/v3/evidence-seed")
  nextHistory := nextHistoryHash
  nextEvidence := nextEvidenceHash
  settledDemand := fun bytes =>
    match decodeRecord bytes with
    | .ok record => (recoveryEffect record.toStatement).ended
    | .error _ => none
  scanOutput := fun record view cm i _ =>
    if record.kind = 6 then ⟨cm, none, some ⟨record.toStatement, record.authorization⟩, none⟩
    else ⟨cm, view.capsules[i]?.join, none, none⟩
  view_kind := fun _ _ => rfl
  view_regular := fun record demandOf standable => v3View_regular record _ _ demandOf standable
  settled_ended := fun bytes record demandOf decoded _ => by rw [decoded]; rfl

end Moe

namespace Moe

/-- What the guards read of a state: note membership and recovery state. -/
structure StateView where
  hasNullifier : Nat → Bool
  hasOutput : Nat → Bool
  hasAnchor : Nat → Bool
  isInput : Nat → Bool
  settledFor : Nat → Option Bytes
  presentedWithTag : Nat → List (Bytes × Demand)
  demand : Bytes → Option Demand
  demandsWithTag : Nat → List (Bytes × Demand)
  isEffective : Bytes → Bool
  hasSpentTag : Nat → Bool

/-- Whether a standing demand other than `except` locks `tag` at index `at`. -/
def locked (state : StateView) (tag atIndex : Nat) (except : Option Bytes) : Bool :=
  (state.demandsWithTag tag).any fun (id, demand) => some id ≠ except && atIndex ≤ demand.deadline

/-- What a recovery guard is judged under: the backing, its issuer, the index, and the venue's lag
where the door's deadlines apply. -/
structure RecoveryCheck where
  backing : Bytes
  issuer : Bytes
  atIndex : Nat
  lag : Option Nat
  door : Bool

def doorHolds (instant deadline atIndex lag : Nat) : Bool :=
  (atIndex : Int) - 2 * lag ≤ instant && (instant : Int) ≤ atIndex - lag && atIndex < deadline

def standingTags (demand : Demand) : List Nat := demand.tags.filter (· ≠ 0)

/-- A demand's notes are unspent through their tags: a spent tag refuses as `LOCKED`. -/
def checkStanding (view : StatementView) (state : StateView) (c : RecoveryCheck) : Except Failure Unit := do
  let (_, stood) ← known view.demand
  let tags := standingTags stood
  requireReplay (0 < tags.length ∧ tags.Nodup) .tags
  requireReplay (tags.all fun tag => !state.hasSpentTag tag && !locked state tag c.atIndex none) .locked
  if c.door then do
    let lag ← known c.lag
    requireReplay (doorHolds stood.instant stood.deadline c.atIndex lag) .deadline

/-- Each slot the demand names is spent by the nullifier in that slot. -/
def slotsHold (view : StatementView) (demand : Demand) : Bool :=
  (List.range view.nfs.length).all fun i => demand.tags[i]? = some 0 || demand.tags[i]? = view.tags[i]?

def checkSettlement (view : StatementView) (state : StateView) (c : RecoveryCheck) (id : Bytes) (demand : Demand) :
    Except Failure Unit := do
  requireReplay (view.quantity = some demand.quantity) .quantity
  let settlement ← view.settlement
  requireReplay (settlement.deadline ≤ demand.deadline) .deadline
  requireReplay (settlement.signed c.issuer demand.presenter) .signature
  if c.door then requireReplay (c.atIndex ≤ settlement.deadline) .deadline
  requireReplay (slotsHold view demand) .tags
  requireReplay (view.tags.all fun tag => !locked state tag c.atIndex (some id)) .locked

/-- A withdrawal or a settlement ends a standing demand of its backing. -/
def checkEnding (view : StatementView) (state : StateView) (c : RecoveryCheck) : Except Failure Unit := do
  let id ← known view.ended
  match state.demand id with
  | none => .error (.replay .demand)
  | some demand =>
    requireReplay (demand.backing = c.backing) .demand
    if view.kind = 5 then requireReplay (view.withdrawalSigned demand.presenter) .signature
    else checkSettlement view state c id demand

/-- Pure guards, before any mutation. Door deadlines are checked at admission and force, never in replay. -/
def checkRecovery (view : StatementView) (state : StateView) (c : RecoveryCheck) : Except Failure Unit := do
  require (!c.door || c.lag.isSome) (.typeError "a door is judged at an index under the venue's lag")
  requireReplay (view.kind < 4 || !state.isEffective view.identity) .repeatedStatement
  if view.kind = 4 then checkStanding view state c
  else if view.kind = 5 ∨ view.kind = 6 then checkEnding view state c
  else if view.kind = 2 ∨ view.kind = 3 then
    requireReplay (view.tags.all fun tag => !locked state tag c.atIndex none) .locked

end Moe
