import Moe.Lib.HashChain
import Moe.Pool.Construction
import Moe.Pool.Rows
import Moe.Reading

namespace Moe

/-- A checkpoint's snapshot of one backing in its segment. -/
structure Snapshot where
  segment : Bytes
  backing : Bytes
  historyHash : Bytes
  evidenceHash : Bytes
  totals : Totals
  deriving DecidableEq

/-- One evidence entry: its digests, in the construction's order. -/
abbrev Digests := List Bytes

structure ChainContexts where
  seed : Bytes
  link : Bytes
  snapshot : Bytes
  faultEvidence : Bytes

/-- What a construction's evidence chain is made with. -/
structure ChainProfile where
  contexts : ChainContexts
  /-- The digests of one evidence entry, in link and frame order. -/
  digests : List String
  /-- The fault evidence's target fields, in frame order. -/
  fields : List String
  maxTargetFieldBytes : Nat
  /-- A frame longer than the budget admits is refused before it is copied. -/
  boundBeforeCopy : Bool
  /-- The target's entry from its raw fields. -/
  target : List Bytes → Digests
  /-- Contexts are prefix-free. -/
  apart : ¬contexts.seed <+: contexts.link ∧ ¬contexts.link <+: contexts.seed
  narrow : maxTargetFieldBytes < 2 ^ 32

/-- A hash opening of the evidence chain at `position` of a snapshot `length` long. -/
structure EvidenceOpening where
  position : Nat
  length : Nat
  previous : Bytes
  target : Digests
  suffix : List Digests

/-- Malformed data is unauthenticated; any other failure propagates. -/
def falseOnEncoding : Except Failure Bool → Except Failure Bool
  | .error (.encoding _) => .ok false
  | run => run

theorem falseOnEncoding_eq_true {run : Except Failure Bool} : falseOnEncoding run = .ok true ↔ run = .ok true := by
  cases run with
  | ok value => rfl
  | error failure => cases failure <;> simp [falseOnEncoding]

theorem guarded_eq_true {c : Prop} [Decidable c] {rest : Except Failure Bool} :
    (if c then pure false else rest) = .ok true ↔ ¬c ∧ rest = .ok true := by
  by_cases stops : c
  · simp [stops, pure, Except.pure]
  · simp [stops]

theorem seeded_eq_true {c : Prop} [Decidable c] {seed : Except Failure Bytes} {previous : Bytes} {rest : Except Failure Bool} :
    (if c then (do if previous ≠ (← seed) then pure false else rest) else rest) = .ok true ↔ (c → seed = .ok previous) ∧ rest = .ok true := by
  by_cases first : c
  · simp only [first, if_true, bind_eq_ok, guarded_eq_true, ne_eq, not_not, forall_const]
    constructor
    · rintro ⟨value, ran, rfl, run⟩
      exact ⟨ran, run⟩
    · rintro ⟨ran, run⟩
      exact ⟨previous, ran, rfl, run⟩
  · simp [first]

/-- Values each taken as they are where they hold are taken together. -/
theorem mapM_own {α : Type} {own : α → Except Failure α} {holds : α → Prop} (each : ∀ a b, own a = .ok b ↔ holds a ∧ a = b)
    {values result : List α} : values.mapM own = .ok result ↔ (∀ a ∈ values, holds a) ∧ values = result := by
  simp only [mapM_eq_ok, each]
  constructor
  · intro pairs
    induction pairs with
    | nil => simp
    | cons first _ ih => exact ⟨List.forall_mem_cons.mpr ⟨first.1, ih.1⟩, by rw [first.2, ih.2]⟩
  · rintro ⟨all, rfl⟩
    induction values with
    | nil => exact .nil
    | cons a rest ih =>
      obtain ⟨first, others⟩ := List.forall_mem_cons.mp all
      exact .cons ⟨first, rfl⟩ (ih others)

/-- Every digest is a digest wide, one for each name. -/
def Digests.Owned (names : List String) (entry : Digests) : Prop := entry.length = names.length ∧ ∀ digest ∈ entry, digest.length = 32

namespace Snapshot

/-- Each field fits its frame. -/
def Framed (s : Snapshot) : Prop :=
  s.backing.length = 32 ∧ s.segment.length = 32 ∧ s.historyHash.length = 32 ∧ s.evidenceHash.length = 32 ∧
    s.totals.issued < valueBound ∧ s.totals.burned < valueBound

def body (s : Snapshot) : Bytes :=
  s.backing ++ s.segment ++ s.historyHash ++ s.evidenceHash ++ toBytes 8 s.totals.issued ++ toBytes 8 s.totals.burned

theorem body_length {s : Snapshot} (framed : s.Framed) : s.body.length = 144 := by
  obtain ⟨backing, segment, history, evidence, -, -⟩ := framed
  simp [body, backing, segment, history, evidence]

end Snapshot

namespace ChainProfile

variable [Crypto] (profile : ChainProfile)

/-- An owned entry, each digest at its width. -/
def ownEntry (value : Digests) : Except Failure Digests := do
  require (value.length = profile.digests.length && value.all (·.length = 32)) (.encoding "invalid bytes")
  return value

def linkFrame (link : Link Bytes Digests) : Bytes :=
  profile.contexts.link ++ link.previous ++ link.entry.flatten ++ toBytes 8 link.position

/-- The chain value at a position; failing committed evidence hashes too, so nothing is validated here. -/
def nextEvidenceHash (previous : Bytes) (evidence : Digests) (position : Nat) : Except Failure Bytes := do
  let entry ← profile.ownEntry evidence
  requireBytes previous 32
  require (isValue position && position ≠ 0) (.encoding "invalid u64")
  return sha256 (profile.linkFrame ⟨previous, entry, position⟩)

def genesisEvidenceHash (segment : Bytes) : Except Failure Bytes := segmentSeed profile.contexts.seed segment

/-- The snapshot's bytes; authenticates even an invalid supply assertion, which replay judges. -/
def snapshotBytes (snapshot : Snapshot) : Except Failure Bytes := do
  requireBytes snapshot.backing 32
  requireBytes snapshot.segment 32
  requireBytes snapshot.historyHash 32
  requireBytes snapshot.evidenceHash 32
  require (isValue snapshot.totals.issued) (.encoding "invalid u64")
  require (isValue snapshot.totals.burned) (.encoding "invalid u64")
  return profile.contexts.snapshot ++ snapshot.body

def snapshotDigest (snapshot : Snapshot) : Except Failure Bytes := do return sha256 (← profile.snapshotBytes snapshot)

def snapshotReader : Reader Snapshot := do
  let context ← Reader.raw profile.contexts.snapshot.length
  liftM (require (context = profile.contexts.snapshot) (.encoding "wrong context"))
  let backing ← Reader.raw 32
  let segment ← Reader.raw 32
  let historyHash ← Reader.raw 32
  let evidenceHash ← Reader.raw 32
  let issued ← Reader.u64
  let burned ← Reader.u64
  Reader.expectEnd
  return ⟨segment, backing, historyHash, evidenceHash, ⟨issued, burned⟩⟩

def decodeSnapshot (input : Bytes) : Except Failure Snapshot := profile.snapshotReader.run input

/-- The chain value after further entries. -/
def extendEvidence (previous : Bytes) (position : Nat) : List Digests → Except Failure Bytes
  | [] => .ok previous
  | entry :: rest => do extendEvidence (← profile.nextEvidenceHash previous entry (position + 1)) (position + 1) rest

/-- The evidence chain of a segment through its entries. -/
def evidenceHash (segment : Bytes) (entries : List Digests) : Except Failure Bytes := do
  profile.extendEvidence (← profile.genesisEvidenceHash segment) 0 entries

/-- Preimage and suffix authentication only, never validity, finality or exclusion. -/
def verifyEvidenceOpening (expected : Bytes) (snapshotIn : Snapshot) (opening : EvidenceOpening) : Except Failure Bool :=
  falseOnEncoding do
    requireBytes expected 32
    let snapshot ← profile.decodeSnapshot (← profile.snapshotBytes snapshotIn)
    if (← profile.snapshotDigest snapshot) ≠ expected then return false
    let ⟨position, length, previous, targetIn, suffixIn⟩ := opening
    if !(isValue position && position ≠ 0 && isValue length && position ≤ length && length - position = suffixIn.length) then
      return false
    requireBytes previous 32
    let entry ← profile.ownEntry targetIn
    let suffix ← suffixIn.mapM profile.ownEntry
    if position = 1 then
      if previous ≠ (← profile.genesisEvidenceHash snapshot.segment) then return false
    let result ← profile.nextEvidenceHash previous entry position
    return (← profile.extendEvidence result position suffix) = snapshot.evidenceHash

section

variable {profile : ChainProfile} {previous segment expected : Bytes} {entry : Digests} {position : Nat} {entries entries' : List Digests}
  {snapshot : Snapshot} {opening : EvidenceOpening}

omit [Crypto] in
theorem ownEntry_eq_ok {own : Digests} : profile.ownEntry entry = .ok own ↔ entry.Owned profile.digests ∧ entry = own := by
  simp only [ownEntry, bind_eq_ok, require_eq_ok, pure_eq_ok, Bool.and_eq_true, decide_eq_true_eq, List.all_eq_true, exists_const]
  exact Iff.rfl

omit [Crypto] in
theorem ownEntries_eq_ok {own : List Digests} :
    entries.mapM profile.ownEntry = .ok own ↔ (∀ entry ∈ entries, entry.Owned profile.digests) ∧ entries = own :=
  mapM_own fun _ _ => ownEntry_eq_ok

theorem nextEvidenceHash_eq_ok {value : Bytes} : profile.nextEvidenceHash previous entry position = .ok value ↔
    (entry.Owned profile.digests ∧ previous.length = 32 ∧ position < valueBound ∧ position ≠ 0) ∧
      sha256 (profile.linkFrame ⟨previous, entry, position⟩) = value := by
  simp only [nextEvidenceHash, bind_eq_ok, ownEntry_eq_ok, requireBytes, require_eq_ok, pure_eq_ok, decide_eq_true_eq, isValue,
    Bool.and_eq_true, exists_const]
  constructor
  · rintro ⟨own, ⟨owned, rfl⟩, wide, bound, rfl⟩
    exact ⟨⟨owned, wide, bound⟩, rfl⟩
  · rintro ⟨⟨owned, wide, bound⟩, rfl⟩
    exact ⟨entry, ⟨owned, rfl⟩, wide, bound, rfl⟩

/-- From a digest, the chain runs over owned entries while their positions are values. -/
theorem extendEvidence_eq_ok {value : Bytes} (wide : previous.length = 32) (within : position < valueBound) :
    profile.extendEvidence previous position entries = .ok value ↔
      ((∀ entry ∈ entries, entry.Owned profile.digests) ∧ position + entries.length < valueBound) ∧
        HashChain.extend sha256 profile.linkFrame previous position entries = value := by
  induction entries generalizing previous position with
  | nil => simp [extendEvidence, HashChain.extend, within]
  | cons entry rest ih =>
    simp only [extendEvidence, bind_eq_ok, nextEvidenceHash_eq_ok, HashChain.extend, List.length_cons, List.forall_mem_cons]
    constructor
    · rintro ⟨next, ⟨⟨owned, -, bound, -⟩, rfl⟩, run⟩
      obtain ⟨⟨others, long⟩, same⟩ := (ih (Crypto.sha256_length _) bound).mp run
      exact ⟨⟨⟨owned, others⟩, by omega⟩, same⟩
    · rintro ⟨⟨⟨owned, others⟩, long⟩, same⟩
      refine ⟨_, ⟨⟨owned, wide, by omega, by omega⟩, rfl⟩, ?_⟩
      exact (ih (Crypto.sha256_length _) (by omega)).mpr ⟨⟨others, by omega⟩, same⟩

theorem genesisEvidenceHash_eq_ok {value : Bytes} : profile.genesisEvidenceHash segment = .ok value ↔
    segment.length = 32 ∧ sha256 (profile.contexts.seed ++ segment) = value := by
  simp only [genesisEvidenceHash, segmentSeed, bind_eq_ok, require_eq_ok, pure_eq_ok, decide_eq_true_eq, exists_const]

theorem evidenceHash_eq_ok {value : Bytes} : profile.evidenceHash segment entries = .ok value ↔
    (segment.length = 32 ∧ (∀ entry ∈ entries, entry.Owned profile.digests) ∧ entries.length < valueBound) ∧
      HashChain.extend sha256 profile.linkFrame (sha256 (profile.contexts.seed ++ segment)) 0 entries = value := by
  simp only [evidenceHash, bind_eq_ok, genesisEvidenceHash_eq_ok]
  have runs {value} := @extendEvidence_eq_ok _ profile (sha256 (profile.contexts.seed ++ segment)) 0 entries value
    (Crypto.sha256_length _) (by decide)
  rw [Nat.zero_add] at runs
  constructor
  · rintro ⟨genesis, ⟨wide, rfl⟩, run⟩
    obtain ⟨owned, same⟩ := runs.mp run
    exact ⟨⟨wide, owned⟩, same⟩
  · rintro ⟨⟨wide, owned⟩, same⟩
    exact ⟨_, ⟨wide, rfl⟩, runs.mpr ⟨owned, same⟩⟩

omit [Crypto] in
theorem snapshotBytes_eq_ok {bytes : Bytes} : profile.snapshotBytes snapshot = .ok bytes ↔
    snapshot.Framed ∧ profile.contexts.snapshot ++ snapshot.body = bytes := by
  simp only [snapshotBytes, bind_eq_ok, requireBytes, require_eq_ok, pure_eq_ok, decide_eq_true_eq, isValue, exists_const,
    Snapshot.Framed, and_assoc]

omit [Crypto] in
/-- A snapshot's bytes are read back, and nothing else reads as it. -/
theorem decodeSnapshot_eq_ok {bytes : Bytes} : profile.decodeSnapshot bytes = .ok snapshot ↔ profile.snapshotBytes snapshot = .ok bytes := by
  rw [snapshotBytes_eq_ok, decodeSnapshot, Reader.run_eq_ok]
  simp only [snapshotReader, read_bind_eq_ok, read_lift_eq_ok, read_pure_eq_ok, Reader.raw_inverts _ _ _ _, Reader.u64_inverts _ _ _,
    Reader.expectEnd_eq_ok, require_eq_ok, decide_eq_true_eq, id_eq]
  constructor
  · rintro ⟨t, context, m, ⟨_, rfl⟩, -, _, ⟨rfl, rfl⟩, backing, m1, ⟨wide1, rfl⟩, segment, m2, ⟨wide2, rfl⟩, history, m3, ⟨wide3, rfl⟩,
      evidence, m4, ⟨wide4, rfl⟩, issued, m5, ⟨bound5, rfl⟩, burned, m6, ⟨bound6, rfl⟩, -, m7, ⟨rfl, rfl⟩, rfl, -⟩
    refine ⟨⟨wide1, wide2, wide3, wide4, bound5, bound6⟩, ?_⟩
    simp only [Snapshot.body, List.append_assoc, List.append_nil]
  · rintro ⟨⟨wide1, wide2, wide3, wide4, bound5, bound6⟩, rfl⟩
    refine ⟨[], profile.contexts.snapshot, snapshot.body, ⟨rfl, rfl⟩, (), _, ⟨rfl, rfl⟩, snapshot.backing, _, ⟨wide1, ?_⟩, snapshot.segment, _,
      ⟨wide2, rfl⟩, snapshot.historyHash, _, ⟨wide3, rfl⟩, snapshot.evidenceHash, _, ⟨wide4, rfl⟩, snapshot.totals.issued, _, ⟨bound5, rfl⟩,
      snapshot.totals.burned, [], ⟨bound6, rfl⟩, (), [], ⟨rfl, rfl⟩, rfl, rfl⟩
    simp only [Snapshot.body, List.append_assoc, List.append_nil]

theorem snapshotDigest_eq_ok {digest : Bytes} : profile.snapshotDigest snapshot = .ok digest ↔
    snapshot.Framed ∧ sha256 (profile.contexts.snapshot ++ snapshot.body) = digest := by
  simp only [snapshotDigest, bind_eq_ok, snapshotBytes_eq_ok, pure_eq_ok]
  constructor
  · rintro ⟨bytes, ⟨framed, rfl⟩, same⟩
    exact ⟨framed, same⟩
  · rintro ⟨framed, same⟩
    exact ⟨_, ⟨framed, rfl⟩, same⟩

end

/-- An opening whose fields fit: its positions are values of a chain so long, its entries owned. -/
structure Opens (opening : EvidenceOpening) : Prop where
  positive : opening.position ≠ 0
  below : opening.position ≤ opening.length
  bound : opening.length < valueBound
  many : opening.length - opening.position = opening.suffix.length
  previous : opening.previous.length = 32
  entries : ∀ entry ∈ opening.target :: opening.suffix, entry.Owned profile.digests

section

variable {profile : ChainProfile} {segment expected : Bytes} {entries entries' : List Digests} {snapshot : Snapshot} {opening : EvidenceOpening}

/-- The target and the suffix after it are links of one chain. -/
theorem reaches_eq_true {position : Nat} {previous : Bytes} {target : Digests} {suffix : List Digests} {evidence : Bytes} :
    (do return (← profile.extendEvidence (← profile.nextEvidenceHash previous target position) position suffix) = evidence) =
        Except.ok true ↔
      ((∀ entry ∈ target :: suffix, entry.Owned profile.digests) ∧ previous.length = 32 ∧ position ≠ 0 ∧
        position + suffix.length < valueBound) ∧
        HashChain.extend sha256 profile.linkFrame previous (position - 1) (target :: suffix) = evidence := by
  simp only [bind_eq_ok, nextEvidenceHash_eq_ok, pure_eq_ok, decide_eq_true_eq, HashChain.extend, List.forall_mem_cons]
  constructor
  · rintro ⟨next, ⟨⟨owned, wide, bound, positive⟩, rfl⟩, value, run, rfl⟩
    obtain ⟨⟨others, long⟩, same⟩ := (extendEvidence_eq_ok (Crypto.sha256_length _) bound).mp run
    rw [Nat.sub_add_cancel (Nat.pos_of_ne_zero positive)]
    exact ⟨⟨⟨owned, others⟩, wide, positive, long⟩, same⟩
  · rintro ⟨⟨⟨owned, others⟩, wide, positive, long⟩, same⟩
    rw [Nat.sub_add_cancel (Nat.pos_of_ne_zero positive)] at same
    have bound : position < valueBound := by omega
    exact ⟨_, ⟨⟨owned, wide, bound, positive⟩, rfl⟩, evidence,
      (extendEvidence_eq_ok (Crypto.sha256_length _) bound).mpr ⟨⟨others, long⟩, same⟩, rfl⟩

/-- What an accepted opening says: the expected snapshot's chain value is reached from its target through its suffix. -/
theorem verifyEvidenceOpening_eq_true : profile.verifyEvidenceOpening expected snapshot opening = .ok true ↔
    profile.snapshotDigest snapshot = .ok expected ∧ profile.Opens opening ∧
      (opening.position = 1 → opening.previous = sha256 (profile.contexts.seed ++ snapshot.segment)) ∧
      HashChain.extend sha256 profile.linkFrame opening.previous (opening.position - 1) (opening.target :: opening.suffix) =
        snapshot.evidenceHash := by
  obtain ⟨position, length, previous, target, suffix⟩ := opening
  rw [verifyEvidenceOpening, falseOnEncoding_eq_true]
  simp only [bind_eq_ok, guarded_eq_true, ne_eq, not_not, Bool.not_eq_true, Bool.not_eq_false', Bool.and_eq_true, decide_eq_true_eq,
    isValue, requireBytes, require_eq_ok, ownEntry_eq_ok, ownEntries_eq_ok, exists_const]
  constructor
  · rintro ⟨-, bytes, written, own, read, digest, hashed, rfl, ⟨⟨⟨⟨-, positive⟩, bound⟩, below⟩, many⟩, wide, _, ⟨owned, rfl⟩, _,
      ⟨others, rfl⟩, run⟩
    obtain rfl : snapshot = own := by
      have back := decodeSnapshot_eq_ok.mpr written
      rw [read] at back
      exact (Except.ok.inj back).symm
    obtain ⟨seeded, reached⟩ := seeded_eq_true.mp run
    obtain ⟨-, same⟩ := reaches_eq_true.mp reached
    exact ⟨hashed, ⟨positive, below, bound, many, wide, List.forall_mem_cons.mpr ⟨owned, others⟩⟩,
      fun first => (genesisEvidenceHash_eq_ok.mp (seeded first)).2.symm, same⟩
  · rintro ⟨hashed, ⟨positive, below, bound, many, wide, owned⟩, seeded, same⟩
    simp only at positive below bound many wide owned
    obtain ⟨framed, digest⟩ := snapshotDigest_eq_ok.mp hashed
    have written : profile.snapshotBytes snapshot = .ok _ := snapshotBytes_eq_ok.mpr ⟨framed, rfl⟩
    refine ⟨?_, _, written, snapshot, decodeSnapshot_eq_ok.mpr written, _, hashed, rfl, ⟨⟨⟨⟨by omega, positive⟩, bound⟩, below⟩, many⟩, wide,
      target, ⟨(List.forall_mem_cons.mp owned).1, rfl⟩, suffix, ⟨(List.forall_mem_cons.mp owned).2, rfl⟩, ?_⟩
    · rw [← digest]
      exact Crypto.sha256_length _
    · refine seeded_eq_true.mpr ⟨fun first => genesisEvidenceHash_eq_ok.mpr ⟨framed.2.1, (seeded first).symm⟩, ?_⟩
      exact reaches_eq_true.mpr ⟨⟨owned, wide, positive, by omega⟩, same⟩

end

end ChainProfile

end Moe
