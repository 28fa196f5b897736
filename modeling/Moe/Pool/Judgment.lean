import Moe.Pool.State
import Moe.Pool.StoreGrowth

namespace Moe

variable {R : Type}

theorem StateHandle.make_eq_ok {s : Store} {ns : Nat} {fixed : Option Nat} {construction : Construction R}
    {state : StateHandle R} : StateHandle.make s ns fixed construction = .ok state ↔
      ∃ n, s.namespaces ns = some n ∧ n.keeps.name = construction.keeps.name ∧ fixed.all (· ≤ n.position) = true ∧
        state = ⟨ns, fixed, construction⟩ := by
  simp only [StateHandle.make, bind_eq_ok, pure_eq_ok, require_eq_ok, decide_eq_true_eq, Store.find_eq_ok]
  constructor
  · rintro ⟨n, found, -, name, -, within, rfl⟩
    exact ⟨n, found, name, within, rfl⟩
  · rintro ⟨n, found, name, within, rfl⟩
    exact ⟨n, found, (), name, (), within, rfl⟩

theorem decodeJudged_eq_ok {construction : Construction R} {bytes : Bytes} {record : R} :
    decodeJudged construction bytes = .ok record ↔ construction.decode bytes = .ok record := by
  unfold decodeJudged
  split <;> simp [*]

/-- What a record meets before its statement check, in every mode. -/
structure Judgeable (s : Store) (state : SegmentState R) (bytes : Bytes) (replay : SegmentReplay) (record : R)
    (n : Namespace) : Prop where
  kind : 1 ≤ state.construction.kind record ∧ state.construction.kind record ≤ 6
  capacity : state.handle.position s + 1 < valueBound
  lag : replay.modeAt (state.handle.position s) = .admission → 4 ≤ state.construction.kind record →
    replay.lag.isSome = true
  frame : checkFrame replay (state.handle.position s) bytes (judgedView s state record) = .ok ()
  backing : ∀ name ∈ termedBackings (judgedView s state record) (backingOf s state record replay),
    (replay.termsOf name).isSome = true
  demand : (judgedView s state record).needsDemand = true → (endedDemand s state record).isSome = true ∧
    (replay.scopedTerms.isSome = true ∨ backingOf s state record replay = replay.backing)
  fresh : s.hasStatement state.ns (state.handle.position s) (judgedView s state record).identity = false
  evidence : ∀ last, replay.lastValid = some last → state.handle.position s + 1 = last.position →
    (judgmentFor s state record replay bytes n).evidence = last.evidenceHash
  unrevoked : state.construction.kind record = 1 →
    (∀ last, replay.lastValid = some last → last.position < state.handle.position s + 1) →
    ∀ cutoff, replay.cutoff (backingOf s state record replay) = some cutoff → replay.index < cutoff

theorem judgmentOf_eq_ok {s : Store} {state : SegmentState R} {bytes : Bytes} {replay : SegmentReplay} {j : Judgment R} :
    judgmentOf s state bytes replay = .ok j ↔
      ∃ record n, decodeJudged state.construction bytes = .ok record ∧ s.namespaces state.ns = some n ∧
        Judgeable s state bytes replay record n ∧ j = judgmentFor s state record replay bytes n := by
  simp only [judgmentOf, bind_eq_ok, pure_eq_ok, requireReplay_eq_ok, require_eq_ok, Store.find_eq_ok]
  constructor
  · rintro ⟨record, decoded, -, kind, -, capacity, -, lag, ⟨⟩, frame, -, backing, -, demand, -, fresh, n, found, -,
      evidence, -, unrevoked, rfl⟩
    refine ⟨record, n, decoded, found, ⟨by simpa using kind, by simpa using capacity, ?_, frame, by simpa using backing,
      ?_, by simpa using fresh, ?_, ?_⟩, rfl⟩
    · intro mode recovery
      simpa [mode, recovery] using lag
    · intro needs
      simpa [needs] using demand
    · intro last seen reached
      simpa [seen, reached] using evidence
    · intro issue after cutoff seen
      have past : (replay.lastValid.any fun last => state.handle.position s + 1 ≤ last.position) = false := by
        cases lastValid : replay.lastValid with
        | none => rfl
        | some last => exact decide_eq_false (Nat.not_le_of_lt (after last lastValid))
      rw [past, seen, issue] at unrevoked
      simpa using unrevoked
  · rintro ⟨record, n, decoded, found, judgeable, rfl⟩
    refine ⟨record, decoded, (), by simpa using judgeable.kind, (), by simpa using judgeable.capacity, (), ?_, (),
      judgeable.frame, (), by simpa using judgeable.backing, (), ?_, (), by simpa using judgeable.fresh, n, found, (), ?_,
      (), ?_, rfl⟩
    · have lag := judgeable.lag
      by_cases mode : replay.modeAt (state.handle.position s) = .admission <;>
        by_cases recovery : 4 ≤ state.construction.kind record <;> simp [mode, recovery]
      exact lag mode recovery
    · have demand := judgeable.demand
      by_cases needs : (judgedView s state record).needsDemand = true
      · simpa [needs] using demand needs
      · simp [needs]
    · cases lastValid : replay.lastValid with
      | none => rfl
      | some last =>
        by_cases reached : state.handle.position s + 1 = last.position
        · simp [reached, judgeable.evidence last lastValid reached]
        · simp [reached]
    · by_cases issue : state.construction.kind record = 1
      · cases lastValid : replay.lastValid with
        | none =>
          cases cutoff : replay.cutoff (backingOf s state record replay) with
          | none => simp
          | some bound => simpa using .inr (judgeable.unrevoked issue (by simp [lastValid]) bound cutoff)
        | some last =>
          by_cases finalized : state.handle.position s + 1 ≤ last.position
          · rw [Option.any_some, decide_eq_true finalized, Bool.or_true, Bool.true_or]
          · cases cutoff : replay.cutoff (backingOf s state record replay) with
            | none => simp
            | some bound =>
              have below := judgeable.unrevoked issue (by simp [lastValid]; omega) bound cutoff
              simp [below]
      · simp [issue]

/-- What a record meets after its statement check. -/
structure Finishable (s : Store) (state : SegmentState R) (replay : SegmentReplay) (j : Judgment R) (n : Namespace) :
    Prop where
  backing : ∀ name ∈ j.view.backings, replay.scopedTerms.isSome = true ∨ name = replay.backing
  supply : checkSupply j.view (state.construction.kind j.record) (state.handle.total s j.backing) j.issuer = .ok ()
  guards : checkGuards j (state.construction.kind j.record) (state.handle.view s) replay = .ok ()
  unique : checkUniqueEffects j.view.nfs j.view.outputs (state.handle.view s) = .ok ()
  room : state.construction.keeps.tree = true → n.leaves + j.view.outputs.length ≤ noteTreeCapacity

theorem finish_eq_ok {s : Store} {state : SegmentState R} {replay : SegmentReplay} {j : Judgment R} {judged : Judged R} :
    j.finish s state replay = .ok judged ↔
      ∃ n, s.namespaces state.ns = some n ∧ Finishable s state replay j n ∧ judged = j.toJudged := by
  simp only [Judgment.finish, bind_eq_ok, pure_eq_ok, requireReplay_eq_ok, Store.find_eq_ok]
  constructor
  · rintro ⟨-, backing, ⟨⟩, supply, ⟨⟩, guards, ⟨⟩, unique, n, found, -, room, rfl⟩
    refine ⟨n, found, ⟨by simpa using backing, supply, guards, unique, fun tree => ?_⟩, rfl⟩
    simpa [tree] using room
  · rintro ⟨n, found, finishable, rfl⟩
    refine ⟨(), by simpa using finishable.backing, (), finishable.supply, (), finishable.guards, (), finishable.unique,
      n, found, (), ?_, rfl⟩
    have room := finishable.room
    cases tree : state.construction.keeps.tree with
    | true => simpa using room tree
    | false => rfl

/-- A record is judged where it is judgeable, its statement check passes and it is finishable. -/
theorem judgeRecord_eq_ok {s : Store} {state : SegmentState R} {bytes : Bytes} {replay : SegmentReplay} {judged : Judged R} :
    judgeRecord s state bytes replay = .ok judged ↔
      ∃ record n, decodeJudged state.construction bytes = .ok record ∧ s.namespaces state.ns = some n ∧
        Judgeable s state bytes replay record n ∧
        (judgmentFor s state record replay bytes n).checkStatement replay.verifier = .ok () ∧
        Finishable s state replay (judgmentFor s state record replay bytes n) n ∧
        judged = (judgmentFor s state record replay bytes n).toJudged := by
  simp only [judgeRecord, bind_eq_ok, judgmentOf_eq_ok, finish_eq_ok]
  constructor
  · rintro ⟨_, ⟨record, n, decoded, found, judgeable, rfl⟩, ⟨⟩, checked, n', found', finishable, rfl⟩
    obtain rfl : n = n' := Option.some.inj (found.symm.trans found')
    exact ⟨record, n, decoded, found, judgeable, checked, finishable, rfl⟩
  · rintro ⟨record, n, decoded, found, judgeable, checked, finishable, rfl⟩
    exact ⟨_, ⟨record, n, decoded, found, judgeable, rfl⟩, (), checked, n, found, finishable, rfl⟩

/-- Adopted bytes are judged inside the block by the same checks, without their statement's. -/
theorem judgeAdopted_eq_ok {s : Store} {state : SegmentState R} {bytes : Bytes} {replay : SegmentReplay}
    {judged : Judged R} : judgeAdopted s state bytes replay = .ok judged ↔
      replay.modeAt (state.handle.position s) = .adoption ∧ judgeRecord s state bytes replay = .ok judged := by
  simp only [judgeAdopted, judgeRecord, bind_eq_ok, require_eq_ok, decide_eq_true_eq]
  constructor
  · rintro ⟨-, mode, j, judgment, run⟩
    obtain ⟨record, n, -, -, -, rfl⟩ := judgmentOf_eq_ok.mp judgment
    exact ⟨mode, _, judgment, (), by simp [Judgment.checkStatement, judgmentFor, mode], run⟩
  · rintro ⟨mode, j, judgment, -, -, run⟩
    exact ⟨(), mode, j, judgment, run⟩

section

variable [Crypto]

theorem applyJudged_eq_ok {s later : Store} {state : SegmentState R} {judged : Judged R} {replay : SegmentReplay} :
    applyJudged s state judged replay = .ok later ↔
      state.handle.position s = judged.position ∧ ∃ n effects n', s.namespaces state.ns = some n ∧
        judged.effects state.construction replay n.history = .ok effects ∧ n.append state.ns effects = .ok n' ∧
        (∀ last, replay.lastValid = some last → judged.position + 1 = last.position → n'.history = last.historyHash) ∧
        later = s.put state.ns n' := by
  simp only [applyJudged, bind_eq_ok, pure_eq_ok, require_eq_ok, requireReplay_eq_ok, decide_eq_true_eq, Store.find_eq_ok,
    Store.append_eq_ok]
  have held : ∀ n' : Namespace, replay.lastValid.all (fun last => judged.position + 1 ≠ last.position ||
      n'.history = last.historyHash) = true ↔
      ∀ last, replay.lastValid = some last → judged.position + 1 = last.position → n'.history = last.historyHash := by
    intro n'
    cases replay.lastValid with
    | none => simp
    | some last => simp [or_iff_not_imp_left]
  constructor
  · rintro ⟨-, same, n, found, effects, wrote, _, ⟨n₁, n', found₁, appended, rfl⟩, tip, foundTip, -, continuity, rfl⟩
    obtain rfl : n = n₁ := Option.some.inj (found.symm.trans found₁)
    obtain rfl : n' = tip := Option.some.inj ((s.put_self state.ns n').symm.trans foundTip)
    exact ⟨same, n, effects, n', found, wrote, appended, (held _).mp continuity, rfl⟩
  · rintro ⟨same, n, effects, n', found, wrote, appended, continuity, rfl⟩
    exact ⟨(), same, n, found, effects, wrote, _, ⟨n, n', found, appended, rfl⟩, n', s.put_self state.ns n', (),
      (held _).mpr continuity, rfl⟩

theorem applyRecord_eq_ok {s later : Store} {state : SegmentState R} {bytes : Bytes} {replay : SegmentReplay} :
    applyRecord s state bytes replay = .ok later ↔
      ∃ judged, judgeRecord s state bytes replay = .ok judged ∧ applyJudged s state judged replay = .ok later := by
  simp only [applyRecord, bind_eq_ok]

theorem applyRecord_grows {s later : Store} {state : SegmentState R} {bytes : Bytes} {replay : SegmentReplay}
    (run : applyRecord s state bytes replay = .ok later) : s.Grows later := by
  obtain ⟨judged, -, applied⟩ := applyRecord_eq_ok.mp run
  obtain ⟨-, n, effects, n', found, -, appended, -, rfl⟩ := applyJudged_eq_ok.mp applied
  obtain ⟨-, spent, demand, ended, -, -, -, rfl⟩ := Namespace.append_eq_ok.mp appended
  exact Store.put_grows found (n.written_grown _ _ _ _)

end

/-- What a judged record's effects carry of its view. -/
structure Judged.Carries (judged : Judged R) (effects : Append) : Prop where
  identity : effects.identity = judged.view.identity
  kind : effects.kind = judged.view.kind
  index : effects.index = some judged.atIndex
  record : effects.record = judged.bytes
  proofHash : effects.proofHash = judged.view.digests.proofHash
  signatureHash : effects.signatureHash = judged.view.digests.signatureHash
  evidence : effects.evidence = judged.evidence
  supply : effects.supply = if judged.view.kind = 1 then some ⟨judged.backing, judged.view.quantity.getD 0, 0⟩
    else if judged.view.kind = 3 then some ⟨judged.backing, 0, judged.view.quantity.getD 0⟩ else none
  nullifiers : effects.nullifiers = (judged.view.nfs.zip judged.view.tags).map fun (nf, tag) => ⟨nf, tag⟩
  outputs : effects.outputs.map (·.cm) = judged.view.outputs
  settlements : ∀ output ∈ effects.outputs, output.settlement = decide (judged.view.kind = 6)
  demand : effects.demand = judged.view.demand
  ended : effects.ended = judged.view.ended

theorem Judged.effects_carries {construction : Construction R} {judged : Judged R} {replay : SegmentReplay} {previous : Bytes}
    {effects : Append} (run : judged.effects construction replay previous = .ok effects) : judged.Carries effects := by
  obtain ⟨tags, -, run⟩ := bind_eq_ok.mp run
  obtain ⟨outputs, scanned, done⟩ := bind_eq_ok.mp run
  have scans := mapM_eq_ok.mp scanned
  have cms : outputs.map (·.cm) = judged.view.outputs.zipIdx.map Prod.fst :=
    map_eq_of_forall₂ scans fun entry output ran => by
      obtain ⟨witness, -, made⟩ := bind_eq_ok.mp ran
      cases made
      rfl
  have settled : ∀ output ∈ outputs, output.settlement = decide (judged.view.kind = 6) :=
    forall_of_forall₂ scans fun entry output ran => by
      obtain ⟨witness, -, made⟩ := bind_eq_ok.mp ran
      cases made
      rfl
  cases done
  exact ⟨rfl, rfl, rfl, rfl, rfl, rfl, rfl, rfl, rfl, by simpa using cms, settled, rfl, rfl⟩

theorem Judged.Carries.nfs {judged : Judged R} {effects : Append} (carries : judged.Carries effects) :
    effects.nullifiers.map (·.nf) = judged.view.nfs := by
  have aligned := judged.view.aligned
  simp only [carries.nullifiers, List.map_map, Function.comp_def]
  exact List.map_fst_zip (by omega)

theorem Judged.Carries.tags {judged : Judged R} {effects : Append} (carries : judged.Carries effects) :
    effects.nullifiers.map (·.tag) = judged.view.tags := by
  have aligned := judged.view.aligned
  simp only [carries.nullifiers, List.map_map, Function.comp_def]
  exact List.map_snd_zip (by omega)

/-- What unique effects are: distinct, nonzero and new. -/
theorem checkUniqueEffects_eq_ok {nfs outputs : List Nat} {state : StateView} :
    checkUniqueEffects nfs outputs state = .ok () ↔
      (nfs.Nodup ∧ ∀ nf ∈ nfs, nf ≠ 0 ∧ state.hasNullifier nf = false) ∧
      (outputs.Nodup ∧ ∀ cm ∈ outputs, cm ≠ 0 ∧ state.hasOutput cm = false) := by
  simp [checkUniqueEffects, bind_unit_eq_ok]

end Moe
