import Moe.Pool.Forced
import Moe.Pool.TrailReplay

namespace Moe

variable {K R α β : Type}

/-- What the call itself refuses by, its writes undone; what recording a commit's digest throws comes after they stand. -/
def Thrown.refused : Thrown → Prop
  | .call _ => True
  | .vouch _ => False

namespace Session

/-- A store's call writes rows only: the savepoints open, and what the store holds beside its rows, are left as they were. -/
abbrev Steady (call : Call K α) : Prop := call.Keeps Connection.outside

open Work (Keeps Undoes)

theorem attempt_steady {value : Except Failure α} : Steady (K := K) (attempt value) := Keeps.lift

theorem write_steady {f : Tables K → Tables K} : Steady (write f) := Keeps.modify fun _ => rfl

theorem tables_steady : Steady (tables (K := K)) := Keeps.bind Keeps.get fun _ => Keeps.pure

theorem find_steady {ns : Nat} : Steady (K := K) (find ns) := Keeps.bind tables_steady fun _ => attempt_steady

theorem attempt_keeps {value : Except Failure α} : (attempt (K := K) value).Keeps id := Keeps.lift

theorem tables_keeps : (tables (K := K)).Keeps id := Keeps.bind Keeps.get fun _ => Keeps.pure

theorem find_keeps {ns : Nat} : (find (K := K) ns).Keeps id := Keeps.bind tables_keeps fun _ => attempt_keeps

theorem writeNamespace_steady {ns : Nat} {f : Namespace → Namespace} : Steady (K := K) (writeNamespace ns f) := write_steady

theorem writeNodes_steady {ns : Nat} {f : SpentTable → SpentTable} : Steady (K := K) (writeNodes ns f) := write_steady

theorem addFact_steady {ns position : Nat} {fact : Fact} : Steady (K := K) (addFact ns position fact) := writeNamespace_steady

section

variable {digest : Tables K → Option Failure} {body : Call K α} {c later : Session K}

theorem vouch_steady : Steady (vouch digest) := by
  refine Keeps.bind tables_steady fun t => ?_
  cases digest t with
  | none => exact Keeps.pure
  | some failure => exact Keeps.throw

theorem atomic_steady (steady : Steady body) : Steady (atomic digest body) := by
  refine Keeps.bind Keeps.get fun c => Keeps.bind (Connection.savepoint_keeps steady) fun result => ?_
  refine Keeps.bind Keeps.get fun after => ?_
  by_cases own : (!c.isTransaction && after.aside.file) = true
  · rw [if_pos own]
    exact Keeps.bind vouch_steady fun _ => Keeps.pure
  · rw [if_neg own]
    exact Keeps.pure

/-- Recording a commit's digest throws what is its own, never a refusal of the call. -/
theorem vouch_throws {thrown : Thrown} (refused : thrown.refused) : ((vouch digest).runs c).1 ≠ .error thrown := by
  intro run
  unfold vouch at run
  rw [Work.runs_bind] at run
  change (Work.andThen _ (.ok c.rows, c)).1 = _ at run
  simp only [Work.andThen] at run
  cases told : digest c.rows with
  | none =>
    rw [told] at run
    cases run
  | some failure =>
    rw [told] at run
    rw [← Except.error.inj run] at refused
    exact refused

/-- Writes whose call refuses are undone: the store is as it was, every row and all it holds beside them. -/
theorem atomic_undoes (steady : Steady body) : (atomic digest body).Undoes Thrown.refused := by
  refine Undoes.bind Keeps.get fun c => Undoes.before (Connection.savepoint_undoes steady) fun result left thrown refused run => ?_
  rw [Work.runs_bind] at run
  simp only [Work.runs_get, Work.andThen] at run
  split at run
  · rw [Work.runs_bind] at run
    cases told : (vouch digest).runs left with
    | mk recorded after =>
      rw [told] at run
      cases recorded with
      | ok done => cases run
      | error failure => 
        have same : (.error failure : Except Thrown PUnit) = .error thrown := congrArg Except.error (Except.error.inj run)
        exact absurd ((congrArg Prod.fst told).trans same) (vouch_throws refused)
  · cases run

end

section

variable {ns position : Nat}

theorem insertOutput_steady {leaf : Nat} {output : AppendOutput} : Steady (K := K) (insertOutput ns position leaf output) :=
  Keeps.bind find_steady fun _ => Keeps.bind attempt_steady fun _ => Keeps.bind attempt_steady fun _ => addFact_steady

theorem insertOutputs_steady {n : Namespace} {outputs : List AppendOutput} {notes : NoteAppend} :
    Steady (K := K) (insertOutputs ns position n outputs notes) := by
  unfold insertOutputs
  simp only
  split
  · refine Keeps.bind (Keeps.forM fun row _ => insertOutput_steady) fun _ => ?_
    refine Keeps.bind (Keeps.forM fun row _ => Keeps.ofOption fun mark => writeNamespace_steady) fun _ => ?_
    exact Keeps.forM fun completed _ => writeNamespace_steady
  · refine Keeps.forM fun row _ => Keeps.bind insertOutput_steady fun _ => ?_
    exact Keeps.ofOption fun mark => writeNamespace_steady

theorem insertDemand_steady {demand : Bytes × Demand} : Steady (K := K) (insertDemand ns position demand) := by
  refine Keeps.bind find_steady fun n => Keeps.bind attempt_steady fun _ => ?_
  refine Keeps.bind attempt_steady fun tag0 => Keeps.bind attempt_steady fun _ => ?_
  refine Keeps.bind attempt_steady fun tag1 => Keeps.bind attempt_steady fun _ => ?_
  refine Keeps.bind attempt_steady fun _ => Keeps.bind addFact_steady fun _ => ?_
  refine Keeps.bind (Keeps.forM fun row _ => Keeps.bind attempt_steady fun _ => writeNamespace_steady) fun _ => ?_
  exact Keeps.forM fun row _ => Keeps.bind attempt_steady fun _ => writeNamespace_steady

theorem insertDemandEnd_steady {id : Bytes} : Steady (K := K) (insertDemandEnd ns position id) :=
  Keeps.bind find_steady fun _ => Keeps.bind attempt_steady fun _ => addFact_steady

variable [Crypto]

theorem insertSpent_steady {spent : SpentTable} {nf : Nat} : Steady (K := K) (insertSpent ns spent nf) :=
  Keeps.bind writeNodes_steady fun _ => Keeps.bind attempt_steady fun _ => Keeps.pure

theorem insertNullifier_steady {tree : Bool} {spent : SpentTable} {row : StoredNullifier} :
    Steady (K := K) (insertNullifier ns position tree spent row) := by
  refine Keeps.bind attempt_steady fun _ => Keeps.bind insertSpent_steady fun grown => ?_
  refine Keeps.bind attempt_steady fun _ => Keeps.bind find_steady fun n => ?_
  refine Keeps.bind attempt_steady fun _ => Keeps.bind addFact_steady fun _ => ?_
  cases tree with
  | true => exact Keeps.bind writeNamespace_steady fun _ => Keeps.pure
  | false => exact Keeps.pure

theorem saveSpent_steady {spent : SpentTable} {keys : List Nat} : Steady (K := K) (saveSpent ns spent keys) :=
  Keeps.bind writeNodes_steady fun _ => writeNamespace_steady

variable {digest : Tables K → Option Failure}

theorem append_steady {record : Append} : Steady (append digest ns record) := by
  unfold append
  refine atomic_steady ?_
  refine Keeps.bind find_steady fun n => Keeps.bind insertOutputs_steady fun _ => Keeps.bind tables_steady fun t => ?_
  refine Keeps.bind (Keeps.foldlM fun spent row _ => insertNullifier_steady) fun spent => ?_
  refine Keeps.bind saveSpent_steady fun _ => Keeps.bind attempt_steady fun spentRoot => ?_
  refine Keeps.guarded (Keeps.forM fun root _ => addFact_steady) fun _ => ?_
  refine Keeps.bind (Keeps.ofOption fun demand => insertDemand_steady) fun _ => ?_
  refine Keeps.bind (Keeps.ofOption fun id => insertDemandEnd_steady) fun _ => ?_
  refine Keeps.bind (Keeps.ofOption fun supply => writeNamespace_steady) fun _ => Keeps.bind addFact_steady fun _ => ?_
  refine Keeps.bind (Keeps.forM fun key _ => addFact_steady) fun _ => ?_
  exact Keeps.bind writeNamespace_steady fun _ => find_steady

theorem open_steady {segment identity history evidence : Bytes} {imported : Option Imports} {keeps : NamespaceConstruction} :
    Steady (K := K) («open» digest segment identity imported history evidence keeps) := by
  refine Keeps.bind tables_steady fun t => Keeps.bind attempt_steady fun _ => atomic_steady ?_
  refine Keeps.bind tables_steady fun t => Keeps.bind write_steady fun _ => ?_
  refine Keeps.bind (Keeps.forM fun entry _ => ?_) fun _ => ?_
  · exact Keeps.bind find_steady fun _ => Keeps.bind attempt_steady fun _ => writeNamespace_steady
  refine Keeps.guarded addFact_steady fun _ => ?_
  refine Keeps.bind (Keeps.forM fun total _ => writeNamespace_steady) fun _ => Keeps.bind tables_steady fun grown => ?_
  refine Keeps.bind (Keeps.foldlM fun spent nf _ => insertSpent_steady) fun spent => Keeps.bind saveSpent_steady fun _ => ?_
  exact Keeps.bind attempt_steady fun base => Keeps.bind writeNamespace_steady fun _ => Keeps.pure

variable {R : Type} {state : SegmentState R} {segmentReplay : SegmentReplay}

theorem applyJudged_undoes {judged : Judged R} :
    (applyJudged digest state judged segmentReplay).Undoes Thrown.refused := by
  refine Undoes.bind tables_keeps fun t => Undoes.bind attempt_keeps fun _ => Undoes.bind find_keeps fun n => ?_
  exact atomic_undoes (Keeps.bind attempt_steady fun effects => Keeps.bind append_steady fun tip => attempt_steady)

/-- A record refused by any check leaves the store as it was, though `CONTINUITY` is found only after its rows are written. -/
theorem applyRecord_undoes {bytes : Bytes} : (applyRecord digest state bytes segmentReplay).Undoes Thrown.refused :=
  Undoes.bind tables_keeps fun _ => Undoes.bind attempt_keeps fun _ => applyJudged_undoes

theorem applyRecord_steady {bytes : Bytes} : Steady (applyRecord digest state bytes segmentReplay) := by
  refine Keeps.bind tables_steady fun t => Keeps.bind attempt_steady fun judged => ?_
  refine Keeps.bind tables_steady fun t => Keeps.bind attempt_steady fun _ => Keeps.bind find_steady fun n => ?_
  exact atomic_steady (Keeps.bind attempt_steady fun effects => Keeps.bind append_steady fun tip => attempt_steady)

theorem openSegmentState_steady {segment identity : Bytes} {imported : Option Imports} {construction : Construction R} :
    Steady (openSegmentState digest segment identity imported construction) :=
  Keeps.bind attempt_steady fun _ => Keeps.bind attempt_steady fun _ => Keeps.bind open_steady fun _ => Keeps.pure

omit [Crypto] in
/-- One checkpoint's replay that refuses leaves nothing behind, the mark that it is open included. -/
theorem replay_undoes {body : Call K α} (steady : Steady body) : (replay digest body).Undoes Thrown.refused := by
  intro c thrown later refused run
  unfold replay at run
  rw [Work.runs_bind] at run
  simp only [Work.runs_get, Work.andThen] at run
  cases open_ : c.aside.replaying with
  | true =>
    simp only [open_, if_true] at run
    exact (Prod.mk.inj run).2.symm
  | false =>
    simp only [open_, Bool.false_eq_true, if_false] at run
    rw [Work.runs_bind] at run
    simp only [Work.runs_modify, Work.andThen, Work.lastly_runs] at run
    generalize ended : (atomic digest body).runs _ = ran at run
    obtain ⟨result, left⟩ := ran
    obtain ⟨rfl, rfl⟩ := Prod.mk.inj run
    have undone := atomic_undoes steady _ _ _ refused ended
    subst undone
    cases c with
    | mk rows saves begun depth aside =>
      cases aside
      simp only at open_
      rw [open_]

variable {holds : Tables K → Nat → Except Failure Bool} {identity : Tables K → Bytes} {context : ReplayContext R}
  {snapshot : Snapshot} {trail : ServedTrail} {options : TrailOptions}

theorem replayRecords_steady {named : Bytes} :
    Steady (replayRecords digest context snapshot trail options named state) := by
  refine Keeps.bind tables_steady fun t => Keeps.bind find_steady fun n => ?_
  cases context.trailChecks <;> refine Keeps.bind ?_ fun checked => ?_
  case none.refine_1 => exact Keeps.pure
  case some.refine_1 => exact attempt_steady
  all_goals
    refine Keeps.bind attempt_steady fun _ => Keeps.bind (Keeps.forM fun served _ => ?_) fun _ => ?_
    · exact Keeps.bind attempt_steady fun bytes => applyRecord_steady
    · refine Keeps.bind find_steady fun after => Keeps.bind attempt_steady fun _ => ?_
      exact Keeps.bind (Keeps.forM fun other _ => attempt_steady) fun _ => Keeps.pure

/-- A trail refused at any record leaves the store as it was: the namespaces that stood answer as they did, and one the
replay opened is gone. -/
theorem replayTrail_undoes : (replayTrail digest holds identity context snapshot trail options).Undoes Thrown.refused := by
  refine Undoes.bind attempt_keeps fun _ => Undoes.bind attempt_keeps fun _ => Undoes.bind tables_keeps fun t => ?_
  have opens : Steady (openSegmentState digest snapshot.segment (identity t) (options.imported.map (·.frontier)) context.construction >>=
      fun state => replayRecords digest context snapshot trail options (identity t) state) :=
    Keeps.bind openSegmentState_steady fun state => replayRecords_steady
  refine replay_undoes ?_
  cases options.isOpening with
  | true => exact opens
  | false =>
    refine Keeps.bind tables_steady fun _ => Keeps.bind attempt_steady fun resumed => ?_
    cases resumed with
    | some state => exact replayRecords_steady
    | none => exact opens

end

end Session

section

variable [Crypto] {R : Type}

namespace ForceState

/-- Forced effects written over the state where it stands, one map at a time. -/
def write (view : StatementView) : Work ForceState Failure PUnit := do
  view.demand.forM fun entry => do
    modify fun state => { state with added := OrderedMap.set state.added entry.1 entry.2 }
    modify fun state => { state with forced := OrderedMap.set state.forced entry.1 entry.2 }
  view.ended.forM fun id => do
    modify fun state => { state with ended := id :: state.ended }
    modify fun state => { state with added := OrderedMap.erase state.added id }
  modify fun state => { state with effective := view.identity :: state.effective }
  modify fun state => { state with nullifiers := view.nfs ++ state.nullifiers, spentTags := view.tags ++ state.spentTags }
  modify fun state => { state with outputs := view.outputs ++ state.outputs }
  if view.kind = 6 then
    modify fun state => { state with settled := match view.outputs.head?, view.ended with
      | some cm, some ended => OrderedMap.set state.settled cm ended
      | _, _ => state.settled }

/-- `applyForceRecord` on the state it is given, written over in place. -/
def applyRecord (bytes : Bytes) (context : ForceContext) (construction : Construction R) : Work ForceState Failure PUnit := do
  let state ← get
  let record ← liftM (construction.decode bytes)
  let kind := construction.kind record
  liftM (require (recoveryKind kind) (.evidence "unsupported-scope"))
  let view := construction.view record state.demand
  liftM (checkForceView state.view view kind context)
  write view

variable {bytes : Bytes} {context : ForceContext} {construction : Construction R} {state later : ForceState}

omit [Crypto] in
/-- Writing the effects ends as the state they make, and throws nothing. -/
theorem write_runs {view : StatementView} : (write view).runs state = (.ok ⟨⟩, applyForceView state view) := by
  unfold write applyForceView
  cases view.demand <;> cases view.ended <;> by_cases six : view.kind = 6
  all_goals
    simp only [six, if_true, if_false, Option.forM]
    rfl

omit [Crypto] in
/-- The application in place ends with what the record makes of the state, or refuses and leaves it. -/
theorem applyRecord_runs : (applyRecord bytes context construction).runs state =
    ((applyForceRecord state bytes context construction).map fun _ => ⟨⟩,
      (applyForceRecord state bytes context construction).toOption.getD state) := by
  unfold applyRecord applyForceRecord
  rw [Work.runs_bind, Work.runs_get]
  simp only [Work.andThen]
  rw [Work.runs_bind, Work.runs_lift]
  cases construction.decode bytes with
  | error failure => rfl
  | ok record =>
    simp only [Work.andThen]
    rw [Work.runs_bind, Work.runs_lift]
    cases recovery : require (recoveryKind (construction.kind record)) (.evidence "unsupported-scope") with
    | error failure =>
      simp only [Work.andThen, bind, Except.bind, recovery]
      rfl
    | ok done =>
      simp only [Work.andThen]
      rw [Work.runs_bind, Work.runs_lift]
      cases checked : checkForceView state.view (construction.view record state.demand) (construction.kind record) context with
      | error failure =>
        simp only [Work.andThen, bind, Except.bind, recovery, checked]
        rfl
      | ok done =>
        simp only [Work.andThen, write_runs, bind, Except.bind, recovery, checked]
        rfl

omit [Crypto] in
/-- Every check precedes mutation: a record refused leaves every field as it was. -/
theorem applyRecord_undoes : (applyRecord bytes context construction).Undoes fun _ => True := by
  intro state failure later _ run
  rw [applyRecord_runs] at run
  cases judged : applyForceRecord state bytes context construction with
  | ok after =>
    rw [judged] at run
    cases run
  | error thrown =>
    rw [judged] at run
    exact (Prod.mk.inj run).2.symm

end ForceState

variable {digest : Tables K → Option Failure} {holds : Tables K → Nat → Except Failure Bool} {identity : Tables K → Bytes}
  {context : ReplayContext R} {snapshot : Snapshot} {trail : ServedTrail} {options : TrailOptions} {state : SegmentState R}
  {bytes : Bytes} {segmentReplay : SegmentReplay} {forceContext : ForceContext} {construction : Construction R}

/-- A record refused by any check, a trail refused at any of its records and a publication that has no force leave what
they were applied to exactly as it was: the rows, with every read of them, and what is held beside them. -/
theorem refusals_atomic {c later : Session K} {failure : Failure} {force after : ForceState} :
    ((Session.applyRecord digest state bytes segmentReplay).runs c = (.error (.call failure), later) → later = c) ∧
    ((Session.replayTrail digest holds identity context snapshot trail options).runs c = (.error (.call failure), later) → later = c) ∧
    ((ForceState.applyRecord bytes forceContext construction).runs force = (.error failure, after) → after = force) :=
  ⟨Session.applyRecord_undoes _ _ _ ⟨⟩, Session.replayTrail_undoes _ _ _ ⟨⟩, ForceState.applyRecord_undoes _ _ _ ⟨⟩⟩

end

section Samples

theorem ended_of_threw {σ ε : Type} {ended : Except ε α × σ} {failure : ε} (threw : ended.1 = .error failure) :
    ended = (.error failure, ended.2) := by
  obtain ⟨result, later⟩ := ended
  rw [← threw]

local instance atomicCrypto : Crypto := sampleCrypto

def sampleOpening : Session Unit := ⟨⟨Store.empty, fun _ => {}, ()⟩, [], false, 0, ⟨0, false, false⟩⟩

def sampleOpened : Except Thrown (SegmentState Record) × Session Unit :=
  (Session.openSegmentState (fun _ => none) (sampleName 1) (sampleName 9) none poolV3).runs sampleOpening

/-- The evidence the issue leaves. -/
def sampleEvidence : Except Failure Bytes := do
  let (first, opened) ← openSegmentState Store.empty (sampleName 1) (sampleName 9) none poolV3
  let issued ← applyRecord opened first (encodeRecord sampleIssue) sampleReplay
  return (← issued.find first.ns).evidence

/-- Replay reaching a last valid checkpoint of another history than the issue's. -/
def sampleDiverged : SegmentReplay := { sampleReplay with lastValid := some ⟨1, [], sampleEvidence.toOption.getD [], none⟩ }

def sampleContinuity : Except Thrown PUnit × Session Unit :=
  (Session.applyRecord (fun _ => none) ⟨1, poolV3⟩ (encodeRecord sampleIssue) sampleDiverged).runs sampleOpened.2

def sampleContext : ReplayContext Record where
  construction := poolV3
  readerDomain := sampleName 0
  scopeRoot := some 5
  trailChecks := none
  domain := sampleName 0
  backing := sampleName 3
  terms := ⟨sampleName 4⟩
  scopedTerms := none
  entries := [sampleName 3]
  verifier := sampleReplay.verifier
  witness := none

/-- A trail of the issue and of a record that does not decode. -/
def sampleServed : ServedTrail := ⟨sampleName 1, 2, fun _ => none, fun position => [.ok (encodeRecord sampleIssue), .ok []].drop position⟩

def sampleSnapshot : Snapshot := ⟨sampleName 1, sampleName 3, [], [], ⟨5, 0⟩⟩

def sampleOptions : TrailOptions := ⟨10, none, none, none, none, [], none, true, []⟩

def sampleMalformed : Except Thrown ReplayResult × Session Unit :=
  (Session.replayTrail (fun _ => none) (fun _ _ => .ok true) (fun _ => sampleName 9) sampleContext sampleSnapshot sampleServed
    sampleOptions).runs sampleOpening

def sampleForcedAt : ForceContext :=
  ⟨sampleName 0, sampleName 3, sampleName 1, some 5, sampleName 4, 10, 3, sampleReplay.verifier⟩

def sampleUnforced : ForceState := openForceState ((⟨1, none, poolV3⟩ : StateHandle Record).view sampleOpened.2.rows.store)

/-- An issue is not forced. -/
def sampleUnsupported : Except Failure PUnit × ForceState :=
  (ForceState.applyRecord (encodeRecord sampleIssue) sampleForcedAt poolV3).runs sampleUnforced

/-- An issue refused by the history it reaches and a trail refused at its second record leave the store as it was, and an issue
published leaves the forced state. -/
theorem sampleRefusals_atomic :
    sampleContinuity = (.error (.call (.replay .continuity)), sampleOpened.2) ∧
    sampleMalformed = (.error (.call (.replay .malformed)), sampleOpening) ∧
    sampleUnsupported = (.error (.evidence "unsupported-scope"), sampleUnforced) := by
  have continuity : sampleContinuity.1 = .error (.call (.replay .continuity)) := by decide +kernel
  have malformed : (sampleMalformed.1.map fun _ => ()) = .error (.call (.replay .malformed)) := by decide +kernel
  have threw : sampleMalformed.1 = .error (.call (.replay .malformed)) := by
    cases ended : sampleMalformed.1 with
    | ok result =>
      rw [ended] at malformed
      cases malformed
    | error failure =>
      rw [ended] at malformed
      exact congrArg Except.error (Except.error.inj malformed)
  have unsupported : sampleUnsupported.1 = .error (.evidence "unsupported-scope") := by decide +kernel
  have refusals := fun c later failure failing => @refusals_atomic Unit atomicCrypto Record (fun _ => none) (fun _ _ => .ok true)
    (fun _ => sampleName 9) sampleContext sampleSnapshot sampleServed sampleOptions ⟨1, poolV3⟩ (encodeRecord sampleIssue) sampleDiverged
    sampleForcedAt poolV3 c later failure sampleUnforced failing
  have first : sampleContinuity = (.error (.call (.replay .continuity)), sampleContinuity.2) := ended_of_threw continuity
  have second : sampleMalformed = (.error (.call (.replay .malformed)), sampleMalformed.2) := ended_of_threw threw
  have third : sampleUnsupported = (.error (.evidence "unsupported-scope"), sampleUnsupported.2) := ended_of_threw unsupported
  refine ⟨Prod.ext continuity ?_, Prod.ext threw ?_, Prod.ext unsupported ?_⟩
  · exact (refusals sampleOpened.2 sampleContinuity.2 (.replay .continuity) sampleUnforced).1 first
  · exact (refusals sampleOpening sampleMalformed.2 (.replay .malformed) sampleUnforced).2.1 second
  · exact (refusals sampleOpening sampleOpening (.evidence "unsupported-scope") sampleUnsupported.2).2.2 third

end Samples

end Moe
