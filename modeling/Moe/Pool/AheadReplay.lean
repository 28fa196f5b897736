import Moe.Pool.AheadRuns
import Moe.Pool.Applied
import Moe.Pool.Audit

namespace Moe

/-- Whether records of a kind carry a proof replay verifies: every kind but the withdrawal and the request. -/
def provedKind (kind : Nat) : Bool := kind = 1 || kind = 2 || kind = 3 || kind = 4 || kind = 6

/-- Records started ahead per verification the verifier runs at once: one running and one waiting on each. -/
def perLane : Nat := 2
/-- The widest window, whatever a verifier declares. -/
def maxWindow : Nat := 128

def windowOf (parallel : Nat) : Nat := min (parallel * perLane) maxWindow

section

variable [Crypto]

def Record.question (record : Record) : Question := ⟨record.kind, record.publicInputs, record.proof⟩

/-- The proof started for the record at a position: none in the adopted block, none of a kind without a proof check, none where it
does not decode. -/
def startedAt (block : List Adopted) (position : Nat) (bytes : Bytes) : Option Question :=
  if (block[position]?).isSome then none
  else match decodeRecord bytes with
    | .error _ => none
    | .ok record => if provedKind record.kind then some record.question else none

/-- A proof check under its verdict. -/
def proofHolds (outcome : Except Failure Bool) : Except Failure Unit := do
  let holds ← outcome
  requireReplay holds .proof

/-- A record judged and applied at a namespace's tip, up to the verdict its proof check asks for. -/
def judging (ns : Nat) (replay : SegmentReplay) (s : Store) (bytes : Bytes) : Judging Store :=
  match judgmentOf s ⟨ns, poolV3⟩ bytes replay with
  | .error failure => .done (.error failure)
  | .ok judgment =>
    let finish : Except Failure Store := do
      let judged ← judgment.finish s ⟨ns, poolV3⟩ replay
      applyJudged s ⟨ns, poolV3⟩ judged replay
    if judgment.check && judgment.record.kind ≠ 5 then
      .asks judgment.record.question fun outcome => do
        proofHolds outcome
        finish
    else .done finish

/-- A trail's replay with its proofs started ahead, under a verifier that declares how many it runs at once. -/
def aheadReplay {V : Type} (verify : V → Question → V × Reply) (parallel ns : Nat) (replay : SegmentReplay) (fails : Option Failure) :
    AheadReplay V Store :=
  ⟨verify, judging ns replay, startedAt replay.block, fails, windowOf parallel⟩

end

/-- What a judgment comes to under the verdicts a verifier gives. -/
def Judging.under {S : Type} (verdict : Question → Except Failure Bool) : Judging S → Except Failure S
  | .done result => result
  | .asks question result => result (verdict question)

/-- A verifier as it stands, asked at a proof check. -/
def checkAt {V : Type} (verify : V → Question → V × Reply) (v : V) : ProofCheck :=
  ⟨fun kind inputs proof => (verify v ⟨kind, inputs, proof⟩).2.outcome⟩

section

variable [Crypto] {V : Type} {verify : V → Question → V × Reply} {ns : Nat} {replay : SegmentReplay} {s : Store} {bytes : Bytes}

theorem judgmentOf_verifier (verifier : ProofCheck) :
    judgmentOf s (⟨ns, poolV3⟩ : SegmentState Record) bytes { replay with verifier } = judgmentOf s ⟨ns, poolV3⟩ bytes replay := rfl

/-- A judgment whose record passed every check before its statement's asks for that record's proof, unless it is a withdrawal. -/
theorem judgmentOf_check {judgment : Judgment Record} (judged : judgmentOf s ⟨ns, poolV3⟩ bytes replay = .ok judgment) (v : V) :
    judgment.view.check (checkAt verify v) =
      if judgment.record.kind ≠ 5 then proofHolds (verify v judgment.record.question).2.outcome else .ok () := by
  obtain ⟨record, n, -, -, -, rfl⟩ := judgmentOf_eq_ok.mp judged
  rfl

/-- A judgment under a verifier's verdicts is the record judged and applied with that verifier. -/
theorem judging_under (v : V) : (judging ns replay s bytes).under (fun question => (verify v question).2.outcome) =
    applyRecord s ⟨ns, poolV3⟩ bytes { replay with verifier := checkAt verify v } := by
  rw [applyRecord, judgeRecord, judgmentOf_verifier, judging]
  cases judged : judgmentOf s ⟨ns, poolV3⟩ bytes replay with
  | error failure => rfl
  | ok judgment =>
    have view := @judgmentOf_check _ V verify ns replay s bytes judgment judged v
    have rest : judgment.finish s ⟨ns, poolV3⟩ { replay with verifier := checkAt verify v } = judgment.finish s ⟨ns, poolV3⟩ replay := rfl
    simp only [bind, Except.bind, Judgment.checkStatement, view, rest]
    by_cases asks : (judgment.check && judgment.record.kind ≠ 5) = true
    · obtain ⟨checked, proved⟩ := (Bool.and_eq_true _ _).mp asks
      rw [if_pos asks, if_pos checked, if_pos (of_decide_eq_true proved), Judging.under]
      cases proofHolds (verify v judgment.record.question).2.outcome <;> rfl
    · rw [if_neg asks]
      have passes : (if judgment.check = true then
          if judgment.record.kind ≠ 5 then proofHolds (verify v judgment.record.question).2.outcome else .ok () else .ok ()) = .ok () := by
        rw [Bool.and_eq_true, decide_eq_true_eq, not_and_or] at asks
        rcases asks with unchecked | withdrawal
        · rw [if_neg unchecked]
        · rw [if_neg withdrawal, ite_self]
      rw [passes]
      rfl

theorem applyJudged_position {judged : Judged Record} {later : Store} (applied : applyJudged s ⟨ns, poolV3⟩ judged replay = .ok later) :
    (⟨ns, poolV3⟩ : SegmentState Record).handle.position later = (⟨ns, poolV3⟩ : SegmentState Record).handle.position s + 1 := by
  obtain ⟨-, n, effects, n', found, -, appended, -, rfl⟩ := applyJudged_eq_ok.mp applied
  obtain ⟨-, spent, demand, ended, -, -, -, rfl⟩ := Namespace.append_eq_ok.mp appended
  rw [SegmentState.position found, SegmentState.position (s.put_self _ _)]
  rfl

/-- A judgment asks for the proof that is started for its record, if one is. -/
theorem judging_asked {judgment : Judgment Record} (judged : judgmentOf s ⟨ns, poolV3⟩ bytes replay = .ok judgment) :
    startedAt replay.block ((⟨ns, poolV3⟩ : SegmentState Record).handle.position s) bytes =
      if judgment.check && judgment.record.kind ≠ 5 then some judgment.record.question else none := by
  obtain ⟨record, n, decoded, -, judgeable, rfl⟩ := judgmentOf_eq_ok.mp judged
  have check : (judgmentFor s ⟨ns, poolV3⟩ record replay bytes n).check =
      !(replay.block[(⟨ns, poolV3⟩ : SegmentState Record).handle.position s]?).isSome := by
    have mode : (judgmentFor s ⟨ns, poolV3⟩ record replay bytes n).check =
        decide (replay.modeAt ((⟨ns, poolV3⟩ : SegmentState Record).handle.position s) ≠ .adoption) := rfl
    rw [mode, SegmentReplay.modeAt]
    split
    · rename_i inside
      simp [inside]
    · rename_i outside
      split <;> simp [outside]
  have decoded : decodeRecord bytes = .ok record := decodeJudged_eq_ok.mp decoded
  have kinds : 1 ≤ record.kind ∧ record.kind ≤ 6 := judgeable.kind
  have proved : provedKind record.kind = decide (record.kind ≠ 5) := by
    have six : record.kind = 1 ∨ record.kind = 2 ∨ record.kind = 3 ∨ record.kind = 4 ∨ record.kind = 5 ∨ record.kind = 6 := by omega
    rw [provedKind]
    rcases six with kind | kind | kind | kind | kind | kind <;> rw [kind] <;> rfl
  have own : (judgmentFor s ⟨ns, poolV3⟩ record replay bytes n).record = record := rfl
  rw [startedAt, check, decoded, own]
  simp only [proved]
  cases (replay.block[(⟨ns, poolV3⟩ : SegmentState Record).handle.position s]?).isSome with
  | true => rfl
  | false => rfl

/-- The replay of a trail that verifies ahead follows its records' positions. -/
theorem aheadReplay_follows {parallel : Nat} {fails : Option Failure} (positive : 0 < parallel) :
    (aheadReplay verify parallel ns replay fails).Follows (⟨ns, poolV3⟩ : SegmentState Record).handle.position where
  quiet s bytes s' ended := by
    have ended : judging ns replay s bytes = .done (.ok s') := ended
    rw [judging] at ended
    split at ended
    · cases ended
    · rename_i judgment judged
      simp only at ended
      have asked := judging_asked judged
      split at ended
      · cases ended
      · rename_i none_
        rw [if_neg none_] at asked
        obtain ⟨_, -, applied⟩ := bind_eq_ok.mp (Judging.done.inj ended)
        exact ⟨asked, applyJudged_position applied⟩
  asks s bytes question result asks := by
    have asks : judging ns replay s bytes = .asks question result := asks
    rw [judging] at asks
    split at asks
    · cases asks
    · rename_i judgment judged
      simp only at asks
      have asked := judging_asked judged
      split at asks
      · rename_i some_
        rw [if_pos some_] at asked
        obtain ⟨same, results⟩ := Judging.asks.inj asks
        refine ⟨asked.trans (congrArg some same), fun outcome s' ended => ?_⟩
        rw [← results] at ended
        obtain ⟨_, -, finished⟩ := bind_eq_ok.mp ended
        obtain ⟨_, -, applied⟩ := bind_eq_ok.mp finished
        exact applyJudged_position applied
      · cases asks
  wide := by
    show 0 < min (parallel * perLane) maxWindow
    rw [perLane, maxWindow]
    omega

/-- Under a verifier that remembers nothing, judgments in turn come to the records applied one after another. -/
theorem inTurn_applyRecord {parallel : Nat} {fails : Option Failure} {reply : Question → Reply} (same : ∀ v question, (verify v question).2 = reply question)
    (records : List Bytes) (v : V) (s : Store) : ((aheadReplay verify parallel ns replay fails).inTurn v s records).2 =
      records.foldlM (fun s bytes => applyRecord s ⟨ns, poolV3⟩ bytes
        { replay with verifier := ⟨fun kind inputs proof => (reply ⟨kind, inputs, proof⟩).outcome⟩ }) s >>= (aheadReplay verify parallel ns replay fails).ends := by
  induction records generalizing v s with
  | nil => rfl
  | cons bytes rest ih =>
    have check : checkAt verify v = ⟨fun kind inputs proof => (reply ⟨kind, inputs, proof⟩).outcome⟩ := by
      rw [checkAt]
      simp only [same]
    have applied := @judging_under _ V verify ns replay s bytes v
    rw [check] at applied
    rw [List.foldlM_cons, ← applied]
    cases judged : judging ns replay s bytes with
    | done result =>
      rw [AheadReplay.inTurn_done judged, Judging.under, Passage.before]
      cases result with
      | error failure => rfl
      | ok later => exact ih v later
    | asks question result =>
      rw [AheadReplay.inTurn_asks judged, Judging.under, Passage.before]
      simp only [aheadReplay]
      cases outcome : result (verify v question).2.outcome with
      | error failure => rfl
      | ok later => exact ih (verify v question).1 later

/-- A trail's replay that verifies ahead, whatever its verifier does and in whatever order its verifications settle, judges the records it
would judge verifying each in its turn, hands each the same verdict and ends in the same state or failure; it never holds more
unsettled verifications than its window, each is started ahead, and so absorbed, or awaited, and nothing that settles after its end
changes what it came to. -/
theorem verifyAhead_inTurn (verify : V → Question → V × Reply) (parallel ns : Nat) (positive : 0 < parallel) (replay : SegmentReplay)
    (fails : Option Failure) (v : V) (s : Store) (records : List Bytes) :
    (∀ run, ((aheadReplay verify parallel ns replay fails).verifyAhead v s ((⟨ns, poolV3⟩ : SegmentState Record).handle.position s) records).Reach run →
      run.passages <+: ((aheadReplay verify parallel ns replay fails).inTurn v s records).1 ∧
      (∀ result, run.phase = .finished result → (aheadReplay verify parallel ns replay fails).inTurn v s records = (run.passages, result)) ∧
      run.bench.unsettled (fun _ => true) ≤ windowOf parallel ∧
      run.bench.unsettled (·.ahead) ≤ run.bench.held ∧ run.bench.held ≤ windowOf parallel ∧
      (∀ (place : Nat) check, run.bench.checks[place]? = some check → check.settled = false →
        check.ahead = true ∨ ∃ bytes result, run.phase = .waiting bytes place result) ∧
      (∀ result action later, run.phase = .finished result → AheadStep (aheadReplay verify parallel ns replay fails) run action later →
        later.phase = .finished result ∧ later.passages = run.passages) ∧
      ∃ actions later result,
        ((aheadReplay verify parallel ns replay fails).verifyAhead v s ((⟨ns, poolV3⟩ : SegmentState Record).handle.position s) records).Run run actions later ∧
          later.phase = .finished result) ∧
    ∀ reply : Question → Reply, (∀ v question, (verify v question).2 = reply question) →
      ((aheadReplay verify parallel ns replay fails).inTurn v s records).2 = records.foldlM (fun s bytes => applyRecord s ⟨ns, poolV3⟩ bytes
        { replay with verifier := ⟨fun kind inputs proof => (reply ⟨kind, inputs, proof⟩).outcome⟩ }) s >>=
          (aheadReplay verify parallel ns replay fails).ends := by
  have follows := @aheadReplay_follows _ V verify ns replay parallel fails positive
  refine ⟨fun run reach => ?_, fun reply same => inTurn_applyRecord same records v s⟩
  obtain ⟨kept, bounded⟩ := (AheadReplay.verifyAhead_bounded follows).reach reach
  refine ⟨kept.prefixed, fun result ended => ?_, bounded.unsettled_le follows.wide, bounded.counted.counted, bounded.counted.within,
    fun place check there open_ => ?_, fun result action later ended step => step.ended ended, AheadReplay.verifyAhead_ends follows reach⟩
  · unfold AheadReplay.Kept at kept
    rw [ended] at kept
    exact kept
  · by_cases waiting : ∃ bytes result, run.phase = .waiting bytes place result
    · exact .inr waiting
    · refine .inl ?_
      cases phase : run.phase with
      | waiting bytes at_ result =>
        have apart : place ≠ at_ := fun same => waiting ⟨bytes, result, same ▸ phase⟩
        exact (bounded.awaited bytes at_ result phase place check apart there open_).1
      | filling => exact (bounded.listed (fun _ _ _ other => by rw [phase] at other; cases other) place check there open_).1
      | judging bytes => exact (bounded.listed (fun _ _ _ other => by rw [phase] at other; cases other) place check there open_).1
      | finished result => exact (bounded.listed (fun _ _ _ other => by rw [phase] at other; cases other) place check there open_).1

end

section Samples

/-- A verifier that counts what it has been asked, and promises that each proof holds. -/
def samplePromises (asked : Nat) (_ : Question) : Nat × Reply := (asked + 1, .promises (.ok true))

local instance instCryptoAhead : Crypto := sampleCrypto

/-- The judgments in turn of an issue and of a record that does not decode. -/
def sampleTurn : Except Failure (List (Passage Store) × Except Failure Store) := do
  let (state, opened) ← openSegmentState Store.empty (sampleName 1) (sampleName 9) none poolV3
  return (aheadReplay samplePromises 1 state.ns sampleReplay none).inTurn 0 opened [encodeRecord sampleIssue, []]

/-- The sample, with the issue's proof started ahead where it can be. -/
theorem samplePromises_inTurn : ∃ state opened run result,
    openSegmentState Store.empty (sampleName 1) (sampleName 9) none poolV3 = .ok (state, opened) ∧
    ((aheadReplay samplePromises 1 state.ns sampleReplay none).verifyAhead 0 opened
      ((⟨state.ns, poolV3⟩ : SegmentState Record).handle.position opened) [encodeRecord sampleIssue, []]).Reach run ∧
    run.phase = .finished result ∧ run.passages.map (·.verdict) = [some (.ok true), none] := by
  have runs : sampleTurn.toOption.any (fun turn => turn.1.map (·.verdict) = [some (.ok true), none]) = true := by decide +kernel
  rw [sampleTurn] at runs
  cases opening : openSegmentState Store.empty (sampleName 1) (sampleName 9) none poolV3 with
  | error failure =>
    rw [opening] at runs
    cases runs
  | ok pair =>
    obtain ⟨state, opened⟩ := pair
    rw [opening] at runs
    have turn : ((aheadReplay samplePromises 1 state.ns sampleReplay none).inTurn 0 opened [encodeRecord sampleIssue, []]).1.map (·.verdict) =
        [some (.ok true), none] := by
      simpa only [bind, Except.bind, pure, Except.pure, Except.toOption, Option.any_some, decide_eq_true_eq] using runs
    obtain ⟨each, -⟩ := verifyAhead_inTurn samplePromises 1 state.ns (by decide) sampleReplay none 0 opened [encodeRecord sampleIssue, []]
    have start : ((aheadReplay samplePromises 1 state.ns sampleReplay none).verifyAhead 0 opened
        ((⟨state.ns, poolV3⟩ : SegmentState Record).handle.position opened) [encodeRecord sampleIssue, []]).Reach (AheadRun.start 0 opened
          ((⟨state.ns, poolV3⟩ : SegmentState Record).handle.position opened) [encodeRecord sampleIssue, []] 0) := .start ⟨0, Nat.zero_le _, rfl⟩
    obtain ⟨-, -, -, -, -, -, -, actions, later, result, ran, ended⟩ := each _ start
    obtain ⟨-, turned, -⟩ := each later (start.run ran)
    rw [turned result ended] at turn
    exact ⟨state, opened, later, result, rfl, start.run ran, ended, turn⟩

end Samples

end Moe
