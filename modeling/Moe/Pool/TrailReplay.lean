import Moe.Pool.AheadReplay
import Moe.Pool.EvidenceChain
import Moe.Pool.Sessions

namespace Moe

variable {K R : Type}

/-- A served trail: its records are read from storage one at a time, and one that is not its link's throws. -/
structure ServedTrail where
  segment : Bytes
  length : Nat
  evidence : Nat → Option Bytes
  records : Nat → List (Except Failure Bytes)

/-- The checks a construction without proof bytes makes of a trail before its records replay. -/
structure TrailChecks where
  served : ServedTrail → List Adopted → ProofCheck → Except Failure Unit
  establish : ServedTrail → Nat → Nat → List Adopted → ProofCheck → Bytes → Except Failure ProofCheck

/-- What a trail's replay reads besides its records. -/
structure ReplayContext (R : Type) where
  construction : Construction R
  /-- The construction's reader's domain, and the scope root of the segment's header. -/
  readerDomain : Bytes
  scopeRoot : Option Nat
  trailChecks : Option TrailChecks
  domain : Bytes
  backing : Bytes
  terms : RootTerms
  scopedTerms : Option (Bytes → Option RootTerms)
  /-- The backings of the header's entries. -/
  entries : List Bytes
  verifier : ProofCheck
  witness : Option WitnessPredicate

/-- A predecessor's state or merged prefixes, as a new segment imports it. -/
structure ImportedFrontier where
  frontier : Imports
  adoptionIndices : OrderedMap Bytes Nat

/-- A replayed checkpoint's state at its position. -/
structure ReplayResult where
  ns : Nat
  position : Nat
  totals : Totals
  adoptionIndices : OrderedMap Bytes Nat
  identity : Bytes

structure ValidCheckpoint extends LastValid where
  state : Option ReplayResult

structure TrailOptions where
  index : Nat
  revokedAt : Option Nat
  revocations : Option (Bytes → Option Nat)
  lastValid : Option ValidCheckpoint
  imported : Option ImportedFrontier
  block : List Adopted
  openingIndex : Option Nat
  isOpening : Bool
  scopedSnapshots : List Snapshot

/-- The namespaces holding replays under `identity`, oldest first. -/
def Store.identified (s : Store) (identity : Bytes) : List Nat :=
  (List.range s.next).filter fun ns => (s.namespaces ns).any (·.identity = identity)

/-- How many of a namespace's own records through position `p` carry a proof check. -/
def Store.provedCount (s : Store) (ns p : Nat) : Nat := ((s.rows ns).through p).events.countP fun event => provedKind event.row.kind

namespace Session

variable [Crypto]

/-- The first namespace whose tip is the last valid checkpoint, where the trail extends it. One whose tip is not its
checkpoint's snapshot is kept state to discard. -/
def resumeFrom (holds : Tables K → Nat → Except Failure Bool) (t : Tables K) (identity : Bytes) (trail : ServedTrail)
    (last : ValidCheckpoint) (construction : Construction R) : List Nat → Except Failure (Option (SegmentState R))
  | [] => .ok none
  | ns :: others => do
    let tip ← t.store.find ns
    if tip.identity ≠ identity || tip.position ≠ last.position || tip.history ≠ last.historyHash || tip.evidence ≠ last.evidenceHash then
      resumeFrom holds t identity trail last construction others
    else
      require (← holds t ns) (.keptState "a resumed tip is not its checkpoint's snapshot")
      if trail.evidence tip.position = some last.evidenceHash then
        let _ ← StateHandle.make t.store ns none construction
        return some ⟨ns, construction⟩
      else return none

def resumable (holds : Tables K → Nat → Except Failure Bool) (t : Tables K) (identity segment : Bytes) (trail : ServedTrail)
    (lastValid : Option ValidCheckpoint) (construction : Construction R) : Except Failure (Option (SegmentState R)) :=
  match lastValid with
  | none => .ok none
  | some last =>
    if trail.length < last.position || trail.segment ≠ segment then .ok none
    else
      let own := last.state.map (·.ns)
      resumeFrom holds t identity trail last construction
        (own.toList ++ (t.store.identified identity).filter fun ns => own ≠ some ns)

/-- Where the trail does not extend the last valid prefix, none of its records is replayed. -/
def checkExtends (context : ReplayContext R) (trail : ServedTrail) (options : TrailOptions) : Except Failure Unit :=
  match options.lastValid with
  | none => .ok ()
  | some last => do
    let extending := last.position ≤ trail.length && trail.evidence last.position = some last.evidenceHash
    if !extending then
      if let some checks := context.trailChecks then
        checks.served trail (if options.isOpening then [] else options.block) context.verifier
    requireReplay extending .continuity

/-- What stays fixed while the trail replays, the records checked by the given verifier. -/
def ReplayContext.segmentReplay (context : ReplayContext R) (snapshot : Snapshot) (options : TrailOptions) (verifier : ProofCheck) :
    SegmentReplay :=
  { domain := context.domain, backing := context.backing, segment := snapshot.segment, scope := context.scopeRoot, terms := context.terms
    scopedTerms := context.scopedTerms, verifier, index := options.index, admission := false, lag := none
    revokedAt := options.revokedAt, revocations := options.revocations, lastValid := options.lastValid.map (·.toLastValid)
    block := options.block, witness := context.witness }

/-- The backings' adoption indices: an opening's are its import's, a later checkpoint's are its opening's index. -/
def adoptionIndices (context : ReplayContext R) (options : TrailOptions) : OrderedMap Bytes Nat :=
  context.entries.foldl (fun indices backing => OrderedMap.set indices backing
    (if options.isOpening then (options.imported.bind fun imported => OrderedMap.get? imported.adoptionIndices backing).getD 0
      else options.openingIndex.getD 0)) ((options.imported.map (·.adoptionIndices)).getD [])

section

variable (digest : Tables K → Option Failure) (holds : Tables K → Nat → Except Failure Bool) (identity : Tables K → Bytes)

/-- The records after the position replay began at, then the totals the snapshots state. -/
def replayRecords (context : ReplayContext R) (snapshot : Snapshot) (trail : ServedTrail) (options : TrailOptions) (named : Bytes)
    (state : SegmentState R) : Call K ReplayResult := do
  let block := if options.isOpening then [] else options.block
  let t ← tables
  let n ← find state.ns
  let checked ← match context.trailChecks with
    | none => pure context.verifier
    | some checks => attempt (checks.establish trail n.position (t.store.provedCount state.ns n.position) block context.verifier n.evidence)
  attempt (requireReplay (options.isOpening || options.block.length ≤ trail.length) .adoption)
  (trail.records n.position).forM fun served => do
    applyRecord digest state (← attempt served) (ReplayContext.segmentReplay context snapshot options checked)
  let after ← find state.ns
  let totals := after.total after.position snapshot.backing
  attempt (requireReplay (after.history = snapshot.historyHash && totals = snapshot.totals) .snapshot)
  options.scopedSnapshots.forM fun other =>
    attempt (requireReplay (other.totals = after.total after.position other.backing) .snapshot)
  return ⟨state.ns, after.position, totals, adoptionIndices context options, named⟩

/-- One checkpoint's trail under the segment's scope and terms. The replay runs in one savepoint of the store. -/
def replayTrail (context : ReplayContext R) (snapshot : Snapshot) (trail : ServedTrail) (options : TrailOptions) :
    Call K ReplayResult := do
  attempt (requireReplay (context.domain = context.readerDomain) .configuration)
  attempt (checkExtends context trail options)
  let named := identity (← tables)
  replay digest do
    let resumed ← if options.isOpening then pure none
      else attempt (resumable holds (← tables) named snapshot.segment trail options.lastValid context.construction)
    let state ← match resumed with
      | some state => pure state
      | none => openSegmentState digest snapshot.segment named (options.imported.map (·.frontier)) context.construction
    replayRecords digest context snapshot trail options named state

end

end Session

end Moe
