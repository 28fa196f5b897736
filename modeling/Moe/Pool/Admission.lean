import Moe.Pool.Locks
import Moe.Pool.Unindexed

namespace Moe

variable {R : Type}

/-- A replay at a witnessed index of what was admitted at a horizon: one domain, segment, scope and terms,
one verifier, the same adopted record where there is one, no revocation at or below the index, and a
stored index no lower than the horizon where a last valid checkpoint covers the position. -/
structure SegmentReplay.Reads (reader operator : SegmentReplay) (construction : Construction R) (position : Nat) : Prop where
  domain : reader.domain = operator.domain
  backing : reader.backing = operator.backing
  segment : reader.segment = operator.segment
  scope : reader.scope = operator.scope
  terms : reader.terms = operator.terms
  scopedTerms : reader.scopedTerms = operator.scopedTerms
  verifier : reader.verifier = operator.verifier
  block : reader.block[position]? = operator.block[position]?
  admitting : operator.admission = true ∧ operator.lastValid = none
  replaying : reader.admission = false
  horizon : operator.index ≤ reader.index
  stored : ∀ last index, reader.lastValid = some last → position < last.position →
    last.judgedIndex.bind (· (position + 1)) = some index → operator.judgedAt position ≤ index
  unrevoked : ∀ backing cutoff, reader.cutoff backing = some cutoff → reader.index < cutoff
  marks : ∀ output, ∃ mark, reader.markFor construction output = .ok mark

theorem SegmentReplay.Reads.later {reader operator : SegmentReplay} {construction : Construction R} {position : Nat}
    (reads : reader.Reads operator construction position) : operator.judgedAt position ≤ reader.judgedAt position := by
  have stored := reads.stored
  simp only [SegmentReplay.judgedAt, reads.block, reads.admitting.2] at stored ⊢
  cases adopted : operator.block[position]? with
  | some adopted => exact le_rfl
  | none =>
    simp only [adopted, Option.bind_none, Option.getD_none] at stored ⊢
    cases lastValid : reader.lastValid with
    | none => exact reads.horizon
    | some last =>
      simp only [Option.bind_some]
      by_cases covered : position < last.position
      · simp only [covered, if_true]
        cases found : last.judgedIndex.bind (· (position + 1)) with
        | none => exact reads.horizon
        | some index => simpa only [Option.getD_some] using stored last index lastValid covered found
      · simpa only [covered, if_false, Option.getD_none] using reads.horizon

/-- The reader's position is in the adopted block exactly where the operator's is, and is never admitted. -/
theorem SegmentReplay.Reads.mode {reader operator : SegmentReplay} {construction : Construction R} {position : Nat}
    (reads : reader.Reads operator construction position) :
    (reader.modeAt position = .adoption ↔ operator.modeAt position = .adoption) ∧ reader.modeAt position ≠ .admission := by
  simp only [SegmentReplay.modeAt, reads.block, reads.admitting.1, reads.replaying]
  cases (operator.block[position]?).isSome <;> simp

/-- A tag free at an index is free at every later one. -/
theorem locked_mono {state : StateView} {tag early late : Nat} {except : Option Bytes} (order : early ≤ late)
    (free : locked state tag early except = false) : locked state tag late except = false := by
  simp only [locked, List.any_eq_false, Bool.and_eq_true, decide_eq_true_eq, not_and, not_le] at free ⊢
  exact fun entry member other => (free entry member other).trans_le order

/-- A record the recovery guards let through at a horizon passes them at every later index, out of the door. -/
theorem checkRecovery_mono {view : StatementView} {state : StateView} {backing issuer : Bytes} {early late : Nat}
    {lag lag' : Option Nat} {door : Bool} (order : early ≤ late)
    (passed : checkRecovery view state ⟨backing, issuer, early, lag, door⟩ = .ok ()) :
    checkRecovery view state ⟨backing, issuer, late, lag', false⟩ = .ok () := by
  obtain ⟨-, effective, standing, ending, spending⟩ := checkRecovery_eq_ok.mp passed
  refine checkRecovery_eq_ok.mpr ⟨nofun, effective, fun kind => ?_, fun kinds => ?_, fun kinds tag member =>
    locked_mono order (spending kinds tag member)⟩
  · obtain ⟨id, demand, named, tags, free, -⟩ := checkStanding_eq_ok.mp (standing kind)
    exact checkStanding_eq_ok.mpr ⟨id, demand, named, tags,
      fun tag member => ⟨(free tag member).1, locked_mono order (free tag member).2⟩, nofun⟩
  · obtain ⟨id, demand, ended, read, same, withdrawn, settled⟩ := checkEnding_eq_ok.mp (ending kinds)
    refine checkEnding_eq_ok.mpr ⟨id, demand, ended, read, same, withdrawn, fun other => ?_⟩
    obtain ⟨quantity, settlement, ran, within, signed, -, slots, free⟩ := checkSettlement_eq_ok.mp (settled other)
    exact checkSettlement_eq_ok.mpr ⟨quantity, settlement, ran, within, signed, nofun, slots,
      fun tag member => locked_mono order (free tag member)⟩

/-- An output as it is stored, without its mark. -/
theorem Judged.outputOf_bare {construction : Construction R} {judged : Judged R} {replay : SegmentReplay} {entry : Nat × Nat}
    {output : AppendOutput} (run : judged.outputOf construction replay entry = .ok output) :
    ({ output with witness := none } : AppendOutput) =
      ⟨entry.1, (judged.view.capsules[entry.2]?).join, judged.view.kind = 6, none⟩ := by
  obtain ⟨witness, -, made⟩ := bind_eq_ok.mp run
  obtain rfl := pure_eq_ok.mp made
  rfl

/-- A record judged at another index, under a replay whose witnesses never fail, writes the same but for
the index and the witnesses. -/
theorem Judged.effects_reindexed {construction : Construction R} {judged : Judged R} {operator reader : SegmentReplay}
    {previous : Bytes} {effects : Append} (marks : ∀ output, ∃ mark, reader.markFor construction output = .ok mark)
    (atIndex : Nat) (run : judged.effects construction operator previous = .ok effects) :
    ∃ effects', Judged.effects construction { judged with atIndex } reader previous = .ok effects' ∧
      effects.unindexed = effects'.unindexed := by
  obtain ⟨tags, touched, run⟩ := bind_eq_ok.mp run
  obtain ⟨outputs, scanned, wrote⟩ := bind_eq_ok.mp run
  obtain rfl := pure_eq_ok.mp wrote
  have total : ∀ entry, ∃ output, Judged.outputOf construction { judged with atIndex } reader entry = .ok output := by
    intro entry
    obtain ⟨mark, marked⟩ := marks (construction.scanOutput judged.record judged.view entry.1 entry.2 judged.demand)
    exact ⟨_, bind_eq_ok.mpr ⟨mark, marked, rfl⟩⟩
  obtain ⟨outputs', scanned'⟩ := mapM_total total judged.view.outputs.zipIdx
  refine ⟨_, bind_eq_ok.mpr ⟨tags, touched, bind_eq_ok.mpr ⟨outputs', scanned', rfl⟩⟩, ?_⟩
  have bare := map_eq_of_forall₂ (mapM_eq_ok.mp scanned) fun _ _ ran => Judged.outputOf_bare ran
  have bare' := map_eq_of_forall₂ (mapM_eq_ok.mp scanned') fun _ _ ran => Judged.outputOf_bare ran
  simp only [Append.unindexed, bare, bare']

section Step

variable {s s' later : Store} {state : SegmentState R} {reader operator : SegmentReplay} {bytes : Bytes} {record : R}
  {n n' : Namespace} {effects : Append} {spent : SpentSet} {demand : Option StoredDemand}

theorem Store.Alike.judgedView (alike : s.Alike s') (state : SegmentState R) (record : R) :
    judgedView s' state record = judgedView s state record := by
  simp only [Moe.judgedView, alike.view]

theorem Store.Alike.endedDemand (alike : s.Alike s') (state : SegmentState R) (record : R) :
    endedDemand s' state record = endedDemand s state record := by
  simp only [Moe.endedDemand, alike.view, alike.judgedView]

theorem SegmentReplay.Reads.backingOf {position : Nat} (reads : reader.Reads operator state.construction position)
    (alike : s.Alike s') : backingOf s' state record reader = backingOf s state record operator := by
  simp only [Moe.backingOf, alike.judgedView, alike.endedDemand, judgedBacking, reads.backing]

theorem SegmentReplay.Reads.termsOf {position : Nat} (reads : reader.Reads operator state.construction position) :
    reader.termsOf = operator.termsOf := by
  funext name
  simp only [SegmentReplay.termsOf, reads.scopedTerms, reads.terms]

theorem SegmentReplay.Reads.issuerOf {position : Nat} (reads : reader.Reads operator state.construction position)
    (alike : s.Alike s') : issuerOf s' state record reader = issuerOf s state record operator := by
  simp only [Moe.issuerOf, reads.backingOf alike, reads.termsOf, reads.terms]

/-- What an admission judged, a replay that reads it judges, with its own index. -/
theorem SegmentReplay.Reads.judgeable (reads : reader.Reads operator state.construction (state.handle.position s))
    (alike : s.Alike s') (same : n.Alike n') (judgeable : Judgeable s state bytes operator record n)
    (evidence : ∀ last, reader.lastValid = some last → state.handle.position s + 1 = last.position →
      (judgmentFor s state record operator bytes n).evidence = last.evidenceHash) :
    Judgeable s' state bytes reader record n' := by
  have position : state.handle.position s' = state.handle.position s := (alike.position _).symm
  have erased : n.unindexed = n'.unindexed := same
  have chain : n.evidence = n'.evidence := (congrArg Namespace.evidence erased :)
  refine ⟨judgeable.kind, position ▸ judgeable.capacity, fun admitted => ?_, ?_, ?_, fun needs => ?_, ?_, fun last named reached => ?_,
    fun _ _ => reads.unrevoked _⟩
  · rw [position] at admitted
    exact absurd admitted reads.mode.2
  · have frame := judgeable.frame
    simp only [checkFrame, position, reads.block, alike.judgedView, reads.domain, reads.segment, reads.scope] at frame ⊢
    exact frame
  · rw [alike.judgedView, reads.backingOf alike, reads.termsOf]
    exact judgeable.backing
  · rw [alike.judgedView] at needs
    rw [alike.endedDemand, reads.backingOf alike, reads.scopedTerms, reads.backing]
    exact judgeable.demand needs
  · rw [position, alike.judgedView, ← alike.hasStatement]
    exact judgeable.fresh
  · rw [position] at reached
    have was := evidence last named reached
    simp only [judgmentFor, chain] at was
    simp only [judgmentFor, alike.judgedView, position]
    exact was

theorem SegmentReplay.Reads.finishable (reads : reader.Reads operator state.construction (state.handle.position s))
    (alike : s.Alike s') (same : n.Alike n')
    (finishable : Finishable s state operator (judgmentFor s state record operator bytes n) n) :
    Finishable s' state reader (judgmentFor s' state record reader bytes n') n' := by
  have position : state.handle.position s' = state.handle.position s := (alike.position _).symm
  have erased : n.unindexed = n'.unindexed := same
  have leaves : n.leaves = n'.leaves := (congrArg Namespace.leaves erased :)
  have total : state.handle.total s' = state.handle.total s := by
    funext backing
    rw [StateHandle.total, StateHandle.total, position, ← alike.total]
  refine ⟨fun name member => ?_, ?_, ?_, ?_, fun tree => ?_⟩
  · rw [reads.scopedTerms, reads.backing]
    exact finishable.backing name (by simpa only [judgmentFor, alike.judgedView] using member)
  · have supply := finishable.supply
    simp only [judgmentFor] at supply ⊢
    rw [alike.judgedView, reads.backingOf alike, reads.issuerOf alike, total]
    exact supply
  · have guards := finishable.guards
    obtain ⟨adopting, outside⟩ := reads.mode
    simp only [checkGuards, judgmentFor, position, alike.judgedView, reads.backingOf alike, reads.issuerOf alike,
      ← alike.view] at guards ⊢
    by_cases adopted : operator.modeAt (state.handle.position s) = .adoption
    · simp [adopting.mpr adopted]
    · have replayed : reader.modeAt (state.handle.position s) ≠ .adoption := fun mode => adopted (adopting.mp mode)
      simp only [adopted, replayed, outside, ne_eq, not_false_eq_true, decide_true, decide_false, if_true, Bool.false_and,
        bind_unit_eq_ok] at guards ⊢
      exact ⟨guards.1, checkRecovery_mono reads.later guards.2⟩
  · have unique := finishable.unique
    simp only [judgmentFor] at unique ⊢
    rw [alike.judgedView, ← alike.view]
    exact unique
  · have room := finishable.room tree
    simp only [judgmentFor] at room ⊢
    rw [alike.judgedView, ← leaves]
    exact room

theorem SegmentReplay.Reads.checked (reads : reader.Reads operator state.construction (state.handle.position s))
    (alike : s.Alike s') (checked : (judgmentFor s state record operator bytes n).checkStatement operator.verifier = .ok ()) :
    (judgmentFor s' state record reader bytes n').checkStatement reader.verifier = .ok () := by
  have position : state.handle.position s' = state.handle.position s := (alike.position _).symm
  simp only [Judgment.checkStatement, judgmentFor, position, alike.judgedView, reads.verifier] at checked ⊢
  by_cases adopted : operator.modeAt (state.handle.position s) = .adoption
  · simp [reads.mode.1.mpr adopted]
  · have replayed : reader.modeAt (state.handle.position s) ≠ .adoption := fun mode => adopted (reads.mode.1.mp mode)
    simpa [adopted, replayed] using checked

/-- The replay's judgment is the admission's, at the replay's own index. -/
theorem SegmentReplay.Reads.judged (reads : reader.Reads operator state.construction (state.handle.position s))
    (alike : s.Alike s') (same : n.Alike n') : (judgmentFor s' state record reader bytes n').toJudged =
      { (judgmentFor s state record operator bytes n).toJudged with atIndex := reader.judgedAt (state.handle.position s) } := by
  have position : state.handle.position s' = state.handle.position s := (alike.position _).symm
  have erased : n.unindexed = n'.unindexed := same
  have evidence : n.evidence = n'.evidence := (congrArg Namespace.evidence erased :)
  simp only [judgmentFor, position, alike.judgedView, alike.endedDemand, reads.backingOf alike, evidence]

/-- The hashes of a last valid checkpoint are those its segment's records lead to. -/
def SegmentReplay.Meets (replay : SegmentReplay) (ns : Nat) (s : Store) : Prop :=
  ∀ last n, replay.lastValid = some last → s.namespaces ns = some n → n.position = last.position →
    n.history = last.historyHash ∧ n.evidence = last.evidenceHash

variable [Crypto]

/-- A record admitted at its horizon is accepted in replay, with the same effect. -/
theorem SegmentReplay.Reads.applied (reads : reader.Reads operator state.construction (state.handle.position s))
    (alike : s.Alike s') (run : applyRecord s state bytes operator = .ok later) (meets : reader.Meets state.ns later) :
    ∃ later', applyRecord s' state bytes reader = .ok later' ∧ later.Alike later' := by
  obtain ⟨record, n, effects, spent, demand, applied⟩ := applyRecord_applied.mp run
  obtain ⟨n', found', same⟩ := alike.found applied.found
  have position : state.handle.position s' = state.handle.position s := (alike.position _).symm
  have tip := SegmentState.position applied.found
  obtain ⟨effects', ran', erased⟩ := Judged.effects_reindexed reads.marks (reader.judgedAt (state.handle.position s)) applied.ran
  obtain ⟨ended, ends⟩ := applied.ended
  obtain ⟨m', appended', alikeM⟩ := @Namespace.Alike.append _ _ _ _ same state.ns _ _ erased
    (Namespace.append_eq_ok.mpr ⟨applied.outputs, spent, demand, ended, applied.spend, applied.stand, ends, rfl⟩)
  have hashes : ∀ last, reader.lastValid = some last → n.position + 1 = last.position →
      (n.written state.ns effects spent demand).history = last.historyHash ∧ effects.evidence = last.evidenceHash := by
    intro last named reached
    have written : later.namespaces state.ns = some (n.written state.ns effects spent demand) := by
      rw [applied.later]
      exact s.put_self _ _
    exact meets last _ named written reached
  have judged : (judgmentFor s' state record reader bytes n').toJudged = _ := reads.judged alike same
  have history : n.history = n'.history := (congrArg Namespace.history (show n.unindexed = n'.unindexed from same) :)
  have after : (n.written state.ns effects spent demand).history = m'.history :=
    (congrArg Namespace.history (show Namespace.unindexed _ = m'.unindexed from alikeM) :)
  refine ⟨s'.put state.ns m', applyRecord_eq_ok.mpr ⟨_, judgeRecord_eq_ok.mpr ⟨record, n', applied.decoded, found',
    reads.judgeable alike same applied.judgeable fun last named reached => ?_, reads.checked alike applied.checked,
    reads.finishable alike same applied.finishable, rfl⟩, applyJudged_eq_ok.mpr ⟨rfl, n', effects', m', found', ?_, appended',
    fun last named reached => ?_, rfl⟩⟩, ?_⟩
  · rw [← (hashes last named (by rw [← tip]; exact reached)).2, applied.carries.evidence]
  · rw [judged, ← history]
    exact ran'
  · rw [← after]
    refine (hashes last named ?_).1
    rw [← tip, ← position]
    exact reached
  · rw [applied.later]
    exact alike.put alikeM

end Step

section Run

variable {state : SegmentState R} {reader : SegmentReplay} {first s : Store} {records : List Bytes}

/-- What a replay's end shares with an admission's: the position, the chains, the roots, the totals, every
answer of the state, and every row but for the indices events were judged at. -/
structure SameEnd (state : SegmentState R) (s t : Store) : Prop where
  position : state.handle.position t = state.handle.position s
  totals : state.handle.total t = state.handle.total s
  view : state.handle.view t = state.handle.view s
  tip : ∀ n, s.namespaces state.ns = some n → ∃ n', t.namespaces state.ns = some n' ∧ n'.history = n.history ∧
    n'.evidence = n.evidence ∧ n'.noteRoot = n.noteRoot ∧ n'.leaves = n.leaves ∧ n'.spent = n.spent ∧
    n'.totals = n.totals ∧ n'.rows.unindexed = n.rows.unindexed

theorem Store.Alike.sameEnd {t : Store} (alike : s.Alike t) (state : SegmentState R) : SameEnd state s t where
  position := (alike.position _).symm
  totals := by
    funext backing
    rw [StateHandle.total, StateHandle.total, ← alike.position, ← alike.total]
  view := (alike.view _).symm
  tip n found := by
    obtain ⟨n', found', same⟩ := alike.found found
    have erased : n'.unindexed = n.unindexed := Eq.symm same
    exact ⟨n', found', (congrArg Namespace.history erased :), (congrArg Namespace.evidence erased :),
      (congrArg Namespace.noteRoot erased :), (congrArg Namespace.leaves erased :), (congrArg Namespace.spent erased :),
      (congrArg Namespace.totals erased :), (congrArg Namespace.rows erased :)⟩

variable [Crypto]

/-- Records applied one after another under one replay. -/
def applyRecords (s : Store) (state : SegmentState R) (replay : SegmentReplay) (records : List Bytes) : Except Failure Store :=
  records.foldlM (fun s bytes => applyRecord s state bytes replay) s

/-- Records an operator applied one after another, an adopted block's and then those it admitted at its
horizons, each of which `reader` reads at its own index. -/
inductive AdmissionRun (state : SegmentState R) (reader : SegmentReplay) (first : Store) : List Bytes → Store → Prop
  | nil : AdmissionRun state reader first [] first
  | snoc {records : List Bytes} {s later : Store} {bytes : Bytes} {operator : SegmentReplay} :
      AdmissionRun state reader first records s →
      reader.Reads operator state.construction (state.handle.position s) →
      applyRecord s state bytes operator = .ok later → reader.Meets state.ns later →
      AdmissionRun state reader first (records ++ [bytes]) later

theorem AdmissionRun.alike (run : AdmissionRun state reader first records s) :
    ∃ t, applyRecords first state reader records = .ok t ∧ s.Alike t := by
  induction run with
  | nil => exact ⟨first, rfl, rfl⟩
  | snoc _ reads applied meets ih =>
    obtain ⟨t, replayed, alike⟩ := ih
    obtain ⟨t', accepted, alike'⟩ := reads.applied alike applied meets
    refine ⟨t', ?_, alike'⟩
    rw [applyRecords, List.foldlM_append]
    exact bind_eq_ok.mpr ⟨t, replayed, bind_eq_ok.mpr ⟨t', accepted, rfl⟩⟩

/-- What an operator admits, a reader accepts: replayed at a witnessed index no lower than any horizon,
every record is accepted, none refused as locked, and the replay ends where the admission did. -/
theorem AdmissionRun.accepted (run : AdmissionRun state reader first records s) :
    (∃ t, applyRecords first state reader records = .ok t ∧ SameEnd state s t) ∧
      ∀ before bytes after t, records = before ++ bytes :: after → applyRecords first state reader before = .ok t →
        applyRecord t state bytes reader ≠ .error (.replay .locked) := by
  obtain ⟨t, replayed, alike⟩ := run.alike
  refine ⟨⟨t, replayed, alike.sameEnd state⟩, fun before bytes after middle split reached refused => ?_⟩
  rw [split, applyRecords, List.foldlM_append] at replayed
  obtain ⟨middle', reached', replayed⟩ := bind_eq_ok.mp replayed
  obtain rfl : middle = middle' := Except.ok.inj (reached.symm.trans reached')
  obtain ⟨next, accepted, -⟩ := bind_eq_ok.mp replayed
  exact absurd (refused.symm.trans accepted) nofun

end Run

section Sample

local instance : Crypto := sampleCrypto

/-- The sample segment's operator, admitting at a horizon under a lag of three. -/
def sampleOperator (horizon : Nat) : SegmentReplay := { sampleReplay with index := horizon, admission := true, lag := some 3 }

/-- A reader of the sample segment at an index past the sample demand's deadline. -/
def sampleReader : SegmentReplay := { sampleReplay with index := 50 }

theorem sampleOperator_reads {horizon : Nat} (bound : horizon ≤ 50) (position : Nat) :
    sampleReader.Reads (sampleOperator horizon) poolV3 position where
  domain := rfl
  backing := rfl
  segment := rfl
  scope := rfl
  terms := rfl
  scopedTerms := rfl
  verifier := rfl
  block := rfl
  admitting := ⟨rfl, rfl⟩
  replaying := rfl
  horizon := bound
  stored := nofun
  unrevoked := nofun
  marks _ := ⟨none, rfl⟩

/-- The sample demand admitted at 5, and its withdrawal at 6. -/
def sampleAdmission : Except Failure (SegmentState Record × Store) := do
  let (state, opened) ← openSegmentState Store.empty (sampleName 1) (sampleName 9) none poolV3
  let stood ← applyRecord opened state (encodeRecord sampleDemand) (sampleOperator 5)
  let withdrawn ← applyRecord stood state (encodeRecord sampleWithdrawal) (sampleOperator 6)
  return (state, withdrawn)

theorem sampleAdmission_accepted : ∃ (state : SegmentState Record) (opened admitted replayed : Store),
    sampleAdmission = .ok (state, admitted) ∧
    applyRecords opened state sampleReader [encodeRecord sampleDemand, encodeRecord sampleWithdrawal] = .ok replayed ∧
    SameEnd state admitted replayed := by
  have runs : sampleAdmission.toOption.any (fun _ => true) = true := by decide +kernel
  obtain ⟨result, ran, -⟩ := ok_of_any runs
  obtain ⟨⟨state, opened⟩, opening, rest⟩ := bind_eq_ok.mp ran
  obtain ⟨stood, admitting, rest⟩ := bind_eq_ok.mp rest
  obtain ⟨withdrawn, withdrawing, rest⟩ := bind_eq_ok.mp rest
  obtain rfl := pure_eq_ok.mp rest
  have made : state.construction = poolV3 := by
    obtain ⟨-, -, -, -, -, -, -, -, rfl, -⟩ := openSegmentState_eq_ok.mp opening
    rfl
  have reads : ∀ {horizon : Nat}, horizon ≤ 50 → ∀ position,
      sampleReader.Reads (sampleOperator horizon) state.construction position := by
    rw [made]
    exact sampleOperator_reads
  have meets : ∀ s, sampleReader.Meets state.ns s := fun s last n named => by cases named
  have first : AdmissionRun state sampleReader opened [encodeRecord sampleDemand] stood :=
    .snoc .nil (reads (by decide) _) admitting (meets stood)
  have second : AdmissionRun state sampleReader opened [encodeRecord sampleDemand, encodeRecord sampleWithdrawal] withdrawn :=
    .snoc first (reads (by decide) _) withdrawing (meets withdrawn)
  obtain ⟨⟨replayed, accepted, same⟩, -⟩ := AdmissionRun.accepted second
  exact ⟨state, opened, withdrawn, replayed, ran, accepted, same⟩

end Sample

end Moe
