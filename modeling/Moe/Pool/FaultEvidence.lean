import Moe.Lit.Construction
import Moe.Pool.EvidenceOpenings

namespace Moe

/-- Fault evidence: an opening carrying the target's raw fields in place of its digests. -/
structure FaultEvidence where
  snapshot : Snapshot
  position : Nat
  length : Nat
  previous : Bytes
  fields : List Bytes
  suffix : List Digests
  deriving DecidableEq

/-- Established from the expected commitment's signed directory and the authenticated header, never from the record. -/
structure ExpectedSnapshot where
  backing : Bytes
  segment : Bytes
  digest : Bytes

/-- As many bytes, or a refusal by what was being read. -/
def Reader.rawOr (what : String) (length : Nat) : Reader Bytes := fun bytes =>
  if length ≤ bytes.length then .ok (bytes.take length, bytes.drop length) else .error (.encoding what)

theorem Reader.rawOr_inverts (what : String) (length : Nat) : Inverts (rawOr what length) id fun bytes => bytes.length = length := by
  intro s bytes t
  rw [← raw_inverts length s bytes t]
  unfold rawOr raw
  split
  · exact Iff.rfl
  · constructor <;> intro thrown <;> cases thrown

theorem Reader.get_eq_ok {s read t : Bytes} : (get : Reader Bytes) s = .ok (read, t) ↔ read = s ∧ t = s := by
  change (Except.ok (s, s) : Except Failure (Bytes × Bytes)) = .ok (read, t) ↔ _
  rw [Except.ok.injEq, Prod.mk.injEq]
  exact ⟨fun same => ⟨same.1.symm, same.2.symm⟩, fun same => ⟨same.1.symm, same.2.symm⟩⟩

namespace ChainProfile

variable [Crypto] (profile : ChainProfile)

def snapshotLength : Nat := profile.contexts.snapshot.length + 144

def entryBytes : Nat := 32 * profile.digests.length

def fixedBytes : Nat :=
  profile.contexts.faultEvidence.length + profile.snapshotLength + 16 + 32 + 4 * profile.fields.length

/-- The entries after the target, within the reader's budget. -/
def suffixCount (position length maximum : Nat) : Except Failure Nat := do
  require (isValue maximum) (.encoding "invalid suffix budget")
  require (isValue position && position ≠ 0 && isValue length && position ≤ length) (.encoding "invalid evidence positions")
  require (length - position ≤ maximum) (.error "suffix exceeds reader budget")
  return length - position

def targetField (value : Bytes) : Except Failure Bytes := do
  require (value.length ≤ profile.maxTargetFieldBytes) (.encoding "target field too long")
  return value

/-- Each caller field read once into the owned evidence returned, with its snapshot's bytes. -/
def requireEvidence (e : FaultEvidence) (maximum : Nat) : Except Failure (Bytes × FaultEvidence) := do
  let count ← suffixCount e.position e.length maximum
  require (e.suffix.length = count) (.encoding "wrong evidence suffix length")
  require (e.fields.length = profile.fields.length) (.encoding "not a byte array")
  let own ← e.fields.mapM profile.targetField
  requireBytes e.previous 32
  let snapshot ← profile.snapshotBytes e.snapshot
  let entries ← e.suffix.mapM profile.ownEntry
  return (snapshot, ⟨← profile.decodeSnapshot snapshot, e.position, e.length, e.previous, own, entries⟩)

/-- Context, snapshot, both positions, the previous hash, each target field behind its length, then the suffix's entries. -/
def encodeFaultEvidence (input : FaultEvidence) (maxSuffixEntries : Nat) : Except Failure Bytes := do
  let (snapshot, e) ← profile.requireEvidence input maxSuffixEntries
  return profile.contexts.faultEvidence ++ snapshot ++ toBytes 8 e.position ++ toBytes 8 e.length ++ e.previous ++
    e.fields.flatMap lengthPrefixed ++ e.suffix.flatMap List.flatten

def targetReader : Reader Bytes := do
  let length ← (do return ofBytes (← Reader.rawOr "truncated target length" 4))
  liftM (require (length ≤ profile.maxTargetFieldBytes) (.encoding "target field too long"))
  Reader.rawOr "truncated target field" length

def contextReader (context : Bytes) : Reader Unit := do
  let read ← Reader.raw context.length
  liftM (require (read = context) (.encoding "wrong evidence context"))

/-- Every boundary is scanned before target or suffix data is copied; the suffix count is judged against the budget before its
bytes, and against the exact remaining length after. -/
def faultEvidenceReader (maxSuffixEntries : Nat) : Reader FaultEvidence := do
  contextReader profile.contexts.faultEvidence
  contextReader profile.contexts.snapshot
  let body ← Reader.raw 144
  let position ← Reader.u64
  let length ← Reader.u64
  let count ← liftM (suffixCount position length maxSuffixEntries)
  let previous ← Reader.raw 32
  let fields ← Reader.times profile.targetReader profile.fields.length
  liftM (require ((← get).length = profile.entryBytes * count) (.encoding "wrong suffix byte length"))
  let suffix ← Reader.times (Reader.times (Reader.raw 32) profile.digests.length) count
  return ⟨← liftM (profile.decodeSnapshot (profile.contexts.snapshot ++ body)), position, length, previous, fields, suffix⟩

def decodeFaultEvidence (bytes : Bytes) (maxSuffixEntries : Nat) : Except Failure FaultEvidence := do
  require (isValue maxSuffixEntries) (.encoding "invalid suffix budget")
  require (!(profile.boundBeforeCopy &&
    profile.fixedBytes + profile.fields.length * profile.maxTargetFieldBytes + profile.entryBytes * maxSuffixEntries < bytes.length))
    (.error "evidence exceeds reader budget")
  require (profile.fixedBytes ≤ bytes.length) (.encoding "truncated evidence")
  (profile.faultEvidenceReader maxSuffixEntries).run bytes

/-- True authenticates the exact target bytes only. False means malformed or unauthenticated data, never exclusion. -/
def verifyFaultEvidence (expected : ExpectedSnapshot) (input : FaultEvidence) (maxSuffixEntries : Nat) : Except Failure Bool :=
  falseOnEncoding do
    requireBytes expected.backing 32
    requireBytes expected.segment 32
    requireBytes expected.digest 32
    let (_, e) ← profile.requireEvidence input maxSuffixEntries
    if e.snapshot.backing ≠ expected.backing || e.snapshot.segment ≠ expected.segment then return false
    profile.verifyEvidenceOpening expected.digest e.snapshot ⟨e.position, e.length, e.previous, profile.target e.fields, e.suffix⟩

/-- Evidence whose fields fit their frame, its suffix within the budget. -/
structure FitsFrame (e : FaultEvidence) (maximum : Nat) : Prop where
  budget : maximum < valueBound
  positive : e.position ≠ 0
  bound : e.length < valueBound
  below : e.position ≤ e.length
  within : e.length - e.position ≤ maximum
  many : e.suffix.length = e.length - e.position
  named : e.fields.length = profile.fields.length
  narrow : ∀ field ∈ e.fields, field.length ≤ profile.maxTargetFieldBytes
  previous : e.previous.length = 32
  snapshot : e.snapshot.Framed
  owned : ∀ entry ∈ e.suffix, entry.Owned profile.digests

def writeFaultEvidence (e : FaultEvidence) : Bytes :=
  profile.contexts.faultEvidence ++ (profile.contexts.snapshot ++ e.snapshot.body) ++ toBytes 8 e.position ++ toBytes 8 e.length ++ e.previous ++
    e.fields.flatMap lengthPrefixed ++ e.suffix.flatMap List.flatten

section

variable {profile : ChainProfile} {e : FaultEvidence} {maximum : Nat} {bytes : Bytes}

omit [Crypto] in
theorem suffixCount_eq_ok {position length count : Nat} : suffixCount position length maximum = .ok count ↔
    (maximum < valueBound ∧ position ≠ 0 ∧ length < valueBound ∧ position ≤ length ∧ length - position ≤ maximum) ∧ length - position = count := by
  simp only [suffixCount, bind_eq_ok, require_eq_ok, pure_eq_ok, isValue, Bool.and_eq_true, decide_eq_true_eq, exists_const]
  constructor
  · rintro ⟨budget, ⟨⟨⟨-, positive⟩, bound⟩, below⟩, within, same⟩
    exact ⟨⟨budget, positive, bound, below, within⟩, same⟩
  · rintro ⟨⟨budget, positive, bound, below, within⟩, same⟩
    exact ⟨budget, ⟨⟨⟨by omega, positive⟩, bound⟩, below⟩, within, same⟩

omit [Crypto] in
theorem targetFields_eq_ok {fields own : List Bytes} : fields.mapM profile.targetField = .ok own ↔
    (∀ field ∈ fields, field.length ≤ profile.maxTargetFieldBytes) ∧ fields = own := by
  refine mapM_own fun field own => ?_
  simp only [targetField, bind_eq_ok, require_eq_ok, pure_eq_ok, decide_eq_true_eq, exists_const]

omit [Crypto] in
/-- The owned evidence is the evidence, and it fits its frame. -/
theorem requireEvidence_eq_ok {own : Bytes × FaultEvidence} : profile.requireEvidence e maximum = .ok own ↔
    profile.FitsFrame e maximum ∧ (profile.contexts.snapshot ++ e.snapshot.body, e) = own := by
  simp only [requireEvidence, bind_eq_ok, suffixCount_eq_ok, require_eq_ok, decide_eq_true_eq, targetFields_eq_ok, requireBytes,
    snapshotBytes_eq_ok, ownEntries_eq_ok, decodeSnapshot_eq_ok, pure_eq_ok, exists_const]
  constructor
  · rintro ⟨_, ⟨⟨budget, positive, bound, below, within⟩, rfl⟩, many, named, _, ⟨narrow, rfl⟩, previous, _, ⟨framed, rfl⟩, _, ⟨owned, rfl⟩,
      snapshot, ⟨framed', same⟩, rfl⟩
    obtain rfl : snapshot = e.snapshot := by
      have back := decodeSnapshot_eq_ok.mpr (snapshotBytes_eq_ok.mpr ⟨framed', same⟩)
      rw [decodeSnapshot_eq_ok.mpr (snapshotBytes_eq_ok.mpr ⟨framed, rfl⟩)] at back
      exact (Except.ok.inj back).symm
    exact ⟨⟨budget, positive, bound, below, within, many, named, narrow, previous, framed, owned⟩, rfl⟩
  · rintro ⟨⟨budget, positive, bound, below, within, many, named, narrow, previous, framed, owned⟩, rfl⟩
    exact ⟨_, ⟨⟨budget, positive, bound, below, within⟩, rfl⟩, many, named, _, ⟨narrow, rfl⟩, previous, _, ⟨framed, rfl⟩, _, ⟨owned, rfl⟩,
      e.snapshot, ⟨framed, rfl⟩, rfl⟩

omit [Crypto] in
theorem encodeFaultEvidence_eq_ok : profile.encodeFaultEvidence e maximum = .ok bytes ↔
    profile.FitsFrame e maximum ∧ profile.writeFaultEvidence e = bytes := by
  simp only [encodeFaultEvidence, bind_eq_ok, requireEvidence_eq_ok, pure_eq_ok]
  constructor
  · rintro ⟨_, ⟨fits, rfl⟩, same⟩
    exact ⟨fits, same⟩
  · rintro ⟨fits, same⟩
    exact ⟨_, ⟨fits, rfl⟩, same⟩

omit [Crypto] in
theorem targetReader_inverts : Inverts profile.targetReader lengthPrefixed fun field => field.length ≤ profile.maxTargetFieldBytes := by
  intro s field t
  have narrow := profile.narrow
  simp only [targetReader, read_bind_eq_ok, read_pure_eq_ok, read_lift_eq_ok, require_eq_ok, decide_eq_true_eq,
    Reader.rawOr_inverts _ _ _ _ _, id_eq]
  constructor
  · rintro ⟨length, m, ⟨digits, m', ⟨wide, rfl⟩, rfl, rfl⟩, -, _, ⟨fits, rfl⟩, same, rfl⟩
    rw [← same] at fits
    refine ⟨fits, ?_⟩
    have back := toBytes_ofBytes digits
    rw [wide] at back
    rw [lengthPrefixed, same, back, List.append_assoc]
  · rintro ⟨fits, rfl⟩
    refine ⟨field.length, field ++ t, ⟨toBytes 4 field.length, _, ⟨toBytes_length _ _, ?_⟩, ?_, rfl⟩, (), _, ⟨fits, rfl⟩, rfl, rfl⟩
    · rw [lengthPrefixed, List.append_assoc]
    · exact (ofBytes_toBytes (by omega)).symm

omit [Crypto] in
theorem contextReader_eq_ok {context s t : Bytes} {done : Unit} : contextReader context s = .ok (done, t) ↔ s = context ++ t := by
  simp only [contextReader, read_bind_eq_ok, read_lift_eq_ok, Reader.raw_inverts _ _ _ _, require_eq_ok, decide_eq_true_eq, id_eq]
  constructor
  · rintro ⟨read, m, ⟨-, rfl⟩, rfl, rfl⟩
    rfl
  · rintro rfl
    exact ⟨context, t, ⟨rfl, rfl⟩, rfl, rfl⟩

omit [Crypto] in
theorem flatMap_id_eq : List.flatMap (id : Bytes → Bytes) = List.flatten := funext fun _ => List.flatMap_id

omit [Crypto] in
theorem entries_length {suffix : List Digests} (owned : ∀ entry ∈ suffix, entry.Owned profile.digests) :
    (suffix.flatMap List.flatten).length = profile.entryBytes * suffix.length := by
  refine flatMap_length fun entry member => ?_
  obtain ⟨many, wide⟩ := owned entry member
  rw [flatten_length wide, many, entryBytes]

omit [Crypto] in
/-- The reader takes back what was written of evidence that fits, to its last byte. -/
theorem faultEvidenceReader_eq_ok (budget : maximum < valueBound) {s t : Bytes} : profile.faultEvidenceReader maximum s = .ok (e, t) ↔
    profile.FitsFrame e maximum ∧ s = profile.writeFaultEvidence e ∧ t = [] := by
  simp only [faultEvidenceReader, read_bind_eq_ok, read_lift_eq_ok, read_pure_eq_ok, contextReader_eq_ok, Reader.raw_inverts _ _ _ _,
    Reader.u64_inverts _ _ _, suffixCount_eq_ok, Reader.times_inverts targetReader_inverts _ _ _ _,
    Reader.times_inverts (Reader.times_inverts (Reader.raw_inverts 32) _) _ _ _ _, require_eq_ok, decide_eq_true_eq, decodeSnapshot_eq_ok,
    snapshotBytes_eq_ok, Reader.get_eq_ok, flatMap_id_eq, id_eq]
  constructor
  · rintro ⟨-, m1, rfl, -, m2, rfl, body, m3, ⟨-, rfl⟩, position, m4, ⟨boundP, rfl⟩, length, m5, ⟨bound, rfl⟩, count, m6,
      ⟨⟨⟨-, positive, -, below, within⟩, rfl⟩, rfl⟩, previous, m7, ⟨wide, rfl⟩, fields, m8, ⟨⟨named, narrow⟩, rfl⟩, _, _, ⟨rfl, rfl⟩, -, _,
      ⟨exact_, rfl⟩, suffix, m9, ⟨⟨many, owned⟩, rfl⟩, snapshot, _, ⟨⟨framed, same⟩, rfl⟩, rfl, rfl⟩
    have ends : t = [] := by
      rw [List.length_append, entries_length owned, many] at exact_
      exact List.length_eq_zero_iff.mp (by omega)
    obtain rfl := List.append_cancel_left same
    subst ends
    refine ⟨⟨budget, positive, bound, below, within, many, named, narrow, wide, framed, owned⟩, ?_, rfl⟩
    simp only [writeFaultEvidence, List.append_assoc, List.append_nil]
  · rintro ⟨⟨-, positive, bound, below, within, many, named, narrow, wide, framed, owned⟩, rfl, rfl⟩
    refine ⟨(), _, ?_, (), _, rfl, e.snapshot.body, _, ⟨Snapshot.body_length framed, rfl⟩, e.position, _, ⟨Nat.lt_of_le_of_lt below bound, rfl⟩, e.length, _,
      ⟨bound, rfl⟩, _, _, ⟨⟨⟨budget, positive, bound, below, within⟩, rfl⟩, rfl⟩, e.previous, _, ⟨wide, rfl⟩, e.fields,
      e.suffix.flatMap List.flatten, ⟨⟨named, narrow⟩, rfl⟩, _, _, ⟨rfl, rfl⟩, (), _, ⟨?_, rfl⟩, e.suffix, [], ⟨⟨many, owned⟩, ?_⟩,
      e.snapshot, [], ⟨⟨framed, rfl⟩, rfl⟩, rfl, rfl⟩
    · simp only [writeFaultEvidence, List.append_assoc]
    · rw [entries_length owned, many]
    · rw [List.append_nil]

omit [Crypto] in
theorem fields_length {fields : List Bytes} (narrow : ∀ field ∈ fields, field.length ≤ profile.maxTargetFieldBytes) :
    4 * fields.length ≤ (fields.flatMap lengthPrefixed).length ∧
      (fields.flatMap lengthPrefixed).length ≤ 4 * fields.length + fields.length * profile.maxTargetFieldBytes := by
  induction fields with
  | nil => simp
  | cons field rest ih =>
    obtain ⟨first, others⟩ := List.forall_mem_cons.mp narrow
    obtain ⟨low, high⟩ := ih others
    rw [List.flatMap_cons, List.length_append, lengthPrefixed, List.length_append, toBytes_length, List.length_cons,
      Nat.add_mul rest.length 1]
    omega

omit [Crypto] in
/-- What is written of evidence that fits is within the reader's bounds. -/
theorem writeFaultEvidence_length (fits : profile.FitsFrame e maximum) : profile.fixedBytes ≤ (profile.writeFaultEvidence e).length ∧
    (profile.writeFaultEvidence e).length ≤
      profile.fixedBytes + profile.fields.length * profile.maxTargetFieldBytes + profile.entryBytes * maximum := by
  obtain ⟨low, high⟩ := fields_length fits.narrow
  have entries := entries_length fits.owned
  have few : profile.entryBytes * e.suffix.length ≤ profile.entryBytes * maximum := Nat.mul_le_mul_left _ (fits.many ▸ fits.within)
  rw [fits.named] at low high
  simp only [writeFaultEvidence, List.length_append, toBytes_length, Snapshot.body_length fits.snapshot, fits.previous, entries, fixedBytes,
    snapshotLength]
  omega

omit [Crypto] in
/-- Bytes are read as the one evidence they are written of. -/
theorem decodeFaultEvidence_eq_ok : profile.decodeFaultEvidence bytes maximum = .ok e ↔
    profile.FitsFrame e maximum ∧ profile.writeFaultEvidence e = bytes := by
  simp only [decodeFaultEvidence, bind_eq_ok, require_eq_ok, Reader.run_eq_ok, isValue, decide_eq_true_eq, exists_const,
    Bool.not_eq_true', Bool.and_eq_false_iff, decide_eq_false_iff_not, Nat.not_lt]
  constructor
  · rintro ⟨budget, -, -, t, read⟩
    obtain ⟨fits, same, -⟩ := (faultEvidenceReader_eq_ok budget).mp read
    exact ⟨fits, same.symm⟩
  · rintro ⟨fits, rfl⟩
    obtain ⟨low, high⟩ := writeFaultEvidence_length fits
    exact ⟨fits.budget, .inr high, low, [], (faultEvidenceReader_eq_ok fits.budget).mpr ⟨fits, rfl, rfl⟩⟩

/-- Accepted evidence fits its frame, is of the expected backing and segment, and opens the expected snapshot at its target. -/
theorem verifyFaultEvidence_eq_true {expected : ExpectedSnapshot} : profile.verifyFaultEvidence expected e maximum = .ok true ↔
    profile.FitsFrame e maximum ∧ e.snapshot.backing = expected.backing ∧ e.snapshot.segment = expected.segment ∧
      profile.verifyEvidenceOpening expected.digest e.snapshot ⟨e.position, e.length, e.previous, profile.target e.fields, e.suffix⟩ =
        .ok true := by
  rw [verifyFaultEvidence, falseOnEncoding_eq_true]
  simp only [bind_eq_ok, requireBytes, require_eq_ok, decide_eq_true_eq, requireEvidence_eq_ok, guarded_eq_true, exists_const,
    Bool.or_eq_true, not_or, ne_eq, not_not]
  constructor
  · rintro ⟨-, -, -, _, ⟨fits, rfl⟩, ⟨backing, segment⟩, opened⟩
    exact ⟨fits, backing, segment, opened⟩
  · rintro ⟨fits, backing, segment, opened⟩
    obtain ⟨digest, -⟩ := verifyEvidenceOpening_eq_true.mp opened
    obtain ⟨⟨wide, wide', -⟩, hashed⟩ := snapshotDigest_eq_ok.mp digest
    refine ⟨backing ▸ wide, segment ▸ wide', ?_, _, ⟨fits, rfl⟩, ⟨backing, segment⟩, opened⟩
    rw [← hashed]
    exact Crypto.sha256_length _

end

/-- Accepted openings are authentic, and every entry of a chain has one: where no two of the frames hashed collide, an evidence hash
is of one chain, an opening accepted of it is of its length and of its entry at the position, and fault evidence gives one verdict
as a value and as the bytes it is read from. -/
theorem fault_openings_authentic (profile : ChainProfile) :
    (∀ segment segment' value entries entries', profile.evidenceHash segment entries = .ok value →
      profile.evidenceHash segment' entries' = .ok value → HashesApart (profile.chainFrames segment entries) (profile.chainFrames segment' entries') →
        segment = segment' ∧ entries = entries') ∧
    (∀ expected snapshot opening entries, profile.verifyEvidenceOpening expected snapshot opening = .ok true →
      profile.evidenceHash snapshot.segment entries = .ok snapshot.evidenceHash →
      HashesApart (profile.chainFrames snapshot.segment entries) (profile.openingFrames opening) →
        opening.length = entries.length ∧ entries[opening.position - 1]? = some opening.target ∧ entries.drop opening.position = opening.suffix) ∧
    (∀ expected snapshot entries position, profile.snapshotDigest snapshot = .ok expected →
      profile.evidenceHash snapshot.segment entries = .ok snapshot.evidenceHash → 0 < position → position ≤ entries.length →
        ∃ opening : EvidenceOpening, opening.position = position ∧ opening.length = entries.length ∧
          entries[position - 1]? = some opening.target ∧ profile.verifyEvidenceOpening expected snapshot opening = .ok true) ∧
    (∀ e maximum bytes, profile.encodeFaultEvidence e maximum = .ok bytes ↔ profile.decodeFaultEvidence bytes maximum = .ok e) ∧
    (∀ expected e maximum entries, profile.verifyFaultEvidence expected e maximum = .ok true →
      profile.evidenceHash e.snapshot.segment entries = .ok e.snapshot.evidenceHash →
      HashesApart (profile.chainFrames e.snapshot.segment entries)
        (profile.openingFrames ⟨e.position, e.length, e.previous, profile.target e.fields, e.suffix⟩) →
        e.length = entries.length ∧ entries[e.position - 1]? = some (profile.target e.fields)) ∧
    ∀ expected e maximum bytes, profile.encodeFaultEvidence e maximum = .ok bytes →
      (do profile.verifyFaultEvidence expected (← profile.decodeFaultEvidence bytes maximum) maximum) =
        profile.verifyFaultEvidence expected e maximum := by
  have codec : ∀ e maximum bytes, profile.encodeFaultEvidence e maximum = .ok bytes ↔ profile.decodeFaultEvidence bytes maximum = .ok e :=
    fun _ _ _ => encodeFaultEvidence_eq_ok.trans decodeFaultEvidence_eq_ok.symm
  refine ⟨fun _ _ _ _ _ => evidenceHash_unique, fun _ _ _ _ => opening_authentic, ?_, codec, ?_, ?_⟩
  · intro expected snapshot entries position digest chain positive inside
    refine ⟨profile.openingAt snapshot.segment entries position, rfl, rfl, ?_, openingAt_accepted digest chain positive inside⟩
    rw [openingAt, List.getD_eq_getElem _ _ (by omega : position - 1 < entries.length)]
    exact List.getElem?_eq_getElem _
  · intro expected e maximum entries accepted chain apart
    obtain ⟨-, -, -, opened⟩ := verifyFaultEvidence_eq_true.mp accepted
    obtain ⟨length, target, -⟩ := opening_authentic opened chain apart
    exact ⟨length, target⟩
  · intro expected e maximum bytes encoded
    rw [(codec e maximum bytes).mp encoded]
    rfl

end ChainProfile

section

variable [Crypto]

/-- v3's evidence chain; its fault evidence bounds a frame by its own checks only. -/
def v3Chain : ChainProfile where
  contexts := ⟨tag "moe/pool/v3/evidence-seed", tag "moe/pool/v3/evidence-link", tag "moe/pool/v3/snapshot", tag "moe/pool/v3/fault-evidence"⟩
  digests := ["statementHash", "proofHash", "signatureHash"]
  fields := ["statement", "proof", "authorization"]
  maxTargetFieldBytes := 131072
  boundBeforeCopy := false
  target fields := [sha256 (fields.getD 0 []), hashEvidenceField (fields.getD 1 []), hashEvidenceField (fields.getD 2 [])]
  apart := by decide
  narrow := by decide

/-- lit's evidence chain; its fault evidence refuses a frame longer than the budget admits before copying it. -/
def litChain : ChainProfile where
  contexts := ⟨tag "moe/lit/v1/evidence-seed", tag "moe/lit/v1/evidence-link", tag "moe/lit/v1/snapshot", tag "moe/lit/v1/fault-evidence"⟩
  digests := ["statementHash", "signatureHash"]
  fields := ["statement", "authorization"]
  maxTargetFieldBytes := 4096
  boundBeforeCopy := true
  target fields := [sha256 (fields.getD 0 []), sha256 (fields.getD 1 [])]
  apart := by decide
  narrow := by decide

variable {previous : Bytes} {digests : EvidenceDigests} {position : Nat}

/-- The chain v3 replays is v3's evidence chain. -/
theorem v3Chain_next (wide : previous.length = 32) (positive : position ≠ 0) (bound : position < valueBound)
    (owned : Digests.Owned v3Chain.digests [digests.statementHash, digests.proofHash, digests.signatureHash]) :
    v3Chain.nextEvidenceHash previous [digests.statementHash, digests.proofHash, digests.signatureHash] position =
      .ok (poolV3.nextEvidence previous digests position) := by
  refine ChainProfile.nextEvidenceHash_eq_ok.mpr ⟨⟨owned, wide, bound, positive⟩, congrArg sha256 ?_⟩
  simp [ChainProfile.linkFrame, v3Chain]

/-- The chain lit replays is lit's evidence chain. -/
theorem litChain_next [PublicKeys] (wide : previous.length = 32) (positive : position ≠ 0) (bound : position < valueBound)
    (owned : Digests.Owned litChain.digests [digests.statementHash, digests.signatureHash]) :
    litChain.nextEvidenceHash previous [digests.statementHash, digests.signatureHash] position =
      .ok (Lit.lit.nextEvidence previous digests position) := by
  refine ChainProfile.nextEvidenceHash_eq_ok.mpr ⟨⟨owned, wide, bound, positive⟩, congrArg sha256 ?_⟩
  simp [ChainProfile.linkFrame, litChain]

end

section Samples

local instance faultCrypto : Crypto := sampleCrypto

/-- A chain of two entries, the first of the given raw fields. -/
def sampleEntries : List Digests := [v3Chain.target [[1], [2], [3]], [toBytes 32 4, toBytes 32 5, toBytes 32 6]]

def sampleEnded : Snapshot :=
  ⟨toBytes 32 1, toBytes 32 3, toBytes 32 7, (v3Chain.evidenceHash (toBytes 32 1) sampleEntries).toOption.getD [], ⟨5, 0⟩⟩

def sampleFault : FaultEvidence :=
  ⟨sampleEnded, 1, 2, sha256 (v3Chain.contexts.seed ++ toBytes 32 1), [[1], [2], [3]], [[toBytes 32 4, toBytes 32 5, toBytes 32 6]]⟩

def sampleExpected : ExpectedSnapshot := ⟨toBytes 32 3, toBytes 32 1, sha256 (v3Chain.contexts.snapshot ++ sampleEnded.body)⟩

def sampleOpens : EvidenceOpening :=
  ⟨1, 2, sha256 (v3Chain.contexts.seed ++ toBytes 32 1), v3Chain.target [[1], [2], [3]], [[toBytes 32 4, toBytes 32 5, toBytes 32 6]]⟩

def sampleFaultFrame : Bytes := (v3Chain.encodeFaultEvidence sampleFault 1).toOption.getD []

theorem sampleFault_authentic :
    (∃ opening : EvidenceOpening, opening.position = 2 ∧ v3Chain.verifyEvidenceOpening sampleExpected.digest sampleEnded opening = .ok true) ∧
    (sampleOpens.length = sampleEntries.length ∧ sampleEntries.drop 1 = sampleOpens.suffix) ∧
    (sampleFault.length = sampleEntries.length ∧ sampleEntries[0]? = some (v3Chain.target [[1], [2], [3]])) ∧
    ((do v3Chain.verifyFaultEvidence sampleExpected (← v3Chain.decodeFaultEvidence sampleFaultFrame 1) 1) = .ok true) ∧
    sampleEntries = sampleOpens.target :: sampleOpens.suffix := by
  obtain ⟨unique, sound, opens, codec, authentic, same⟩ := ChainProfile.fault_openings_authentic v3Chain
  have digest : v3Chain.snapshotDigest sampleEnded = .ok sampleExpected.digest := by decide +kernel
  have chain : v3Chain.evidenceHash sampleEnded.segment sampleEntries = .ok sampleEnded.evidenceHash := by decide +kernel
  have opened : v3Chain.verifyEvidenceOpening sampleExpected.digest sampleEnded sampleOpens = .ok true := by decide +kernel
  have accepted : v3Chain.verifyFaultEvidence sampleExpected sampleFault 1 = .ok true := by decide +kernel
  have encoded : v3Chain.encodeFaultEvidence sampleFault 1 = .ok sampleFaultFrame := by decide +kernel
  have apart : HashesApart (v3Chain.chainFrames sampleEnded.segment sampleEntries) (v3Chain.openingFrames sampleOpens) := by
    unfold HashesApart
    decide +kernel
  have again : v3Chain.evidenceHash sampleEnded.segment (sampleOpens.target :: sampleOpens.suffix) = .ok sampleEnded.evidenceHash := by
    decide +kernel
  have apart' : HashesApart (v3Chain.chainFrames sampleEnded.segment sampleEntries)
      (v3Chain.chainFrames sampleEnded.segment (sampleOpens.target :: sampleOpens.suffix)) := by
    unfold HashesApart
    decide +kernel
  obtain ⟨opening, placed, -, -, opening_⟩ := opens sampleExpected.digest sampleEnded sampleEntries 2 digest chain (by decide) (by decide)
  obtain ⟨length, -, rest⟩ := sound sampleExpected.digest sampleEnded sampleOpens sampleEntries opened chain apart
  refine ⟨⟨opening, placed, opening_⟩, ⟨length, rest⟩, authentic sampleExpected sampleFault 1 sampleEntries accepted chain apart, ?_, ?_⟩
  · rw [same sampleExpected sampleFault 1 sampleFaultFrame encoded, accepted]
  · exact (unique _ _ _ _ _ chain again apart').2

end Samples

end Moe
