import Moe.Pool.Replays

namespace Moe

variable {R : Type}

theorem mapM_none_eq_ok {α β : Type} {run : α → Except Failure β} {result : Option β} :
    (none : Option α).mapM run = .ok result ↔ result = none := by
  exact pure_eq_ok.trans eq_comm

theorem mapM_some_eq_ok {α β : Type} {run : α → Except Failure β} {value : α} {result : Option β} :
    (some value).mapM run = .ok result ↔ ∃ done, run value = .ok done ∧ result = some done := by
  have same : (some value).mapM run = some <$> run value := rfl
  cases ran : run value <;> simp [same, ran, Functor.map, Except.map, eq_comm]

/-- A state at its segment's tip is at the namespace's position. -/
theorem SegmentState.position {s : Store} {state : SegmentState R} {n : Namespace} (found : s.namespaces state.ns = some n) :
    state.handle.position s = n.position := by
  simp [StateHandle.position, SegmentState.handle, found]

theorem SegmentState.rows {s : Store} {state : SegmentState R} {n : Namespace} (found : s.namespaces state.ns = some n) :
    state.handle.rows s = s.visible state.ns n.position := by
  rw [StateHandle.rows, SegmentState.position found]
  rfl

/-- The view a record is judged by in a well-placed store is regular. -/
theorem judgedView_regular {s : Store} (placed : s.WellPlaced) (stood : s.Stood) {state : SegmentState R} {n : Namespace}
    (found : s.namespaces state.ns = some n) (record : R) :
    (judgedView s state record).Regular state.construction.keeps.tree (state.handle.view s).demand := by
  refine state.construction.view_regular record _ fun id demand read => ?_
  have read : (state.handle.rows s).demand id = some demand := read
  rw [SegmentState.rows found] at read
  exact stood.demand placed ⟨n, found, le_rfl⟩ read

variable [Crypto]

/-- One record applied at a segment's tip: how it was judged, and what it wrote. -/
structure Applied (s : Store) (state : SegmentState R) (bytes : Bytes) (replay : SegmentReplay) (record : R) (n : Namespace)
    (effects : Append) (spent : SpentSet) (demand : Option StoredDemand) (later : Store) : Prop where
  decoded : decodeJudged state.construction bytes = .ok record
  found : s.namespaces state.ns = some n
  judgeable : Judgeable s state bytes replay record n
  checked : (judgmentFor s state record replay bytes n).checkStatement replay.verifier = .ok ()
  finishable : Finishable s state replay (judgmentFor s state record replay bytes n) n
  ran : (judgmentFor s state record replay bytes n).toJudged.effects state.construction replay n.history = .ok effects
  outputs : n.checkOutputs effects.outputs = .ok ()
  spend : n.spend effects.nullifiers = .ok spent
  stand : effects.demand.mapM n.stand = .ok demand
  ended : ∃ ended, effects.ended.mapM n.endDemand = .ok ended
  continuity : ∀ last, replay.lastValid = some last → n.position + 1 = last.position →
    (n.written state.ns effects spent demand).history = last.historyHash
  later : later = s.put state.ns (n.written state.ns effects spent demand)

/-- A record judged and then applied is applied as it was judged. -/
theorem judged_applied {s later : Store} {state : SegmentState R} {bytes : Bytes} {replay : SegmentReplay} {judged : Judged R}
    (judging : judgeRecord s state bytes replay = .ok judged) (applying : applyJudged s state judged replay = .ok later) :
    ∃ record n effects spent demand, Applied s state bytes replay record n effects spent demand later ∧
      judged = (judgmentFor s state record replay bytes n).toJudged := by
  obtain ⟨record, n, decoded, found, judgeable, checked, finishable, rfl⟩ := judgeRecord_eq_ok.mp judging
  obtain ⟨-, m, effects, n', foundM, ran, appended, continuity, rfl⟩ := applyJudged_eq_ok.mp applying
  obtain rfl : n = m := Option.some.inj (found.symm.trans foundM)
  obtain ⟨outputs, spent, demand, ended, spend, stand, ends, rfl⟩ := Namespace.append_eq_ok.mp appended
  refine ⟨record, n, effects, spent, demand, ⟨decoded, found, judgeable, checked, finishable, ran, outputs, spend, stand,
    ⟨ended, ends⟩, fun last named reached => continuity last named ?_, rfl⟩, rfl⟩
  exact (congrArg (· + 1) (SegmentState.position found)).trans reached

theorem Applied.judging {s later : Store} {state : SegmentState R} {bytes : Bytes} {replay : SegmentReplay} {record : R}
    {n : Namespace} {effects : Append} {spent : SpentSet} {demand : Option StoredDemand}
    (applied : Applied s state bytes replay record n effects spent demand later) :
    judgeRecord s state bytes replay = .ok (judgmentFor s state record replay bytes n).toJudged :=
  judgeRecord_eq_ok.mpr ⟨record, n, applied.decoded, applied.found, applied.judgeable, applied.checked, applied.finishable, rfl⟩

theorem applyRecord_applied {s later : Store} {state : SegmentState R} {bytes : Bytes} {replay : SegmentReplay} :
    applyRecord s state bytes replay = .ok later ↔
      ∃ record n effects spent demand, Applied s state bytes replay record n effects spent demand later := by
  rw [applyRecord_eq_ok]
  constructor
  · rintro ⟨judged, judging, applying⟩
    obtain ⟨record, n, effects, spent, demand, applied, -⟩ := judged_applied judging applying
    exact ⟨record, n, effects, spent, demand, applied⟩
  · rintro ⟨record, n, effects, spent, demand, applied⟩
    obtain ⟨ended, ends⟩ := applied.ended
    refine ⟨_, applied.judging, applyJudged_eq_ok.mpr ⟨rfl, n, effects, _, applied.found, applied.ran,
      Namespace.append_eq_ok.mpr ⟨applied.outputs, spent, demand, ended, applied.spend, applied.stand, ends, rfl⟩,
      fun last named reached => applied.continuity last named ?_, applied.later⟩⟩
    exact (congrArg (· + 1) (SegmentState.position applied.found)).symm.trans reached

section

variable {s later : Store} {state : SegmentState R} {bytes : Bytes} {replay : SegmentReplay} {record : R} {n : Namespace}
  {effects : Append} {spent : SpentSet} {demand : Option StoredDemand}

theorem Applied.carries (applied : Applied s state bytes replay record n effects spent demand later) :
    (judgmentFor s state record replay bytes n).toJudged.Carries effects := Judged.effects_carries applied.ran

theorem Applied.kind (_ : Applied s state bytes replay record n effects spent demand later) :
    (judgedView s state record).kind = state.construction.kind record := state.construction.view_kind ..

theorem Applied.nfs (applied : Applied s state bytes replay record n effects spent demand later) :
    effects.nullifiers.map (·.nf) = (judgedView s state record).nfs := applied.carries.nfs

theorem Applied.tags (applied : Applied s state bytes replay record n effects spent demand later) :
    effects.nullifiers.map (·.tag) = (judgedView s state record).tags := applied.carries.tags

/-- What is visible after a record is its rows over what was visible before it. -/
theorem Applied.rows (applied : Applied s state bytes replay record n effects spent demand later) (placed : s.WellPlaced) :
    state.handle.rows later = n.added state.ns effects spent demand ++ state.handle.rows s := by
  obtain rfl := applied.later
  rw [SegmentState.rows (s.put_self _ _), SegmentState.rows applied.found]
  exact Store.visible_written placed applied.found

theorem Applied.grows (applied : Applied s state bytes replay record n effects spent demand later) : s.Grows later := by
  obtain rfl := applied.later
  exact Store.put_grows applied.found (n.written_grown _ _ _ _)

theorem Applied.placed (applied : Applied s state bytes replay record n effects spent demand later) (placed : s.WellPlaced) :
    later.WellPlaced := by
  obtain rfl := applied.later
  exact placed.written applied.found

/-- The demand row a record adds stores the demand its view stands. -/
theorem Applied.stored (applied : Applied s state bytes replay record n effects spent demand later) (placed : s.WellPlaced)
    (stood : s.Stood) : demand = (judgedView s state record).demand.map fun stands => StoredDemand.of stands.1 stands.2 := by
  have regular := judgedView_regular placed stood applied.found record
  have stands := applied.stand
  rw [applied.carries.demand] at stands
  change (judgedView s state record).demand.mapM n.stand = .ok demand at stands
  by_cases kind : (judgedView s state record).kind = 4
  · obtain ⟨value, named, standable⟩ := regular.stands kind
    rw [named] at stands ⊢
    obtain ⟨row, ran, rfl⟩ := mapM_some_eq_ok.mp stands
    obtain ⟨-, -, rfl⟩ := (Namespace.stand_eq_ok standable).mp ran
    rfl
  · rw [regular.others kind] at stands ⊢
    exact mapM_none_eq_ok.mp stands

/-- A record keeps every namespace's demands stood by their own records. -/
theorem Applied.stood (applied : Applied s state bytes replay record n effects spent demand later) (placed : s.WellPlaced)
    (stood : s.Stood) : later.Stood := by
  have regular := judgedView_regular placed stood applied.found record
  have stored := applied.stored placed stood
  have carries := applied.carries
  obtain rfl := applied.later
  intro other m seen
  rcases Store.written_found seen with ⟨-, rfl⟩ | ⟨-, same⟩
  · have own := stood _ n applied.found
    have rowsOf : ∀ held ∈ Rows.demands (n.written state.ns effects spent demand).rows, held ∈ n.rows.demands ∨
        ∃ stands, (judgedView s state record).demand = some stands ∧
          held = ⟨state.ns, n.position + 1, StoredDemand.of stands.1 stands.2⟩ := by
      intro held member
      simp only [Namespace.written, Rows.demands_append, Namespace.added_demands, List.mem_append, stored] at member
      rcases member with new | old
      · obtain ⟨row, listed, rfl⟩ := List.mem_map.mp new
        obtain ⟨stands, named, rfl⟩ := Option.map_eq_some_iff.mp (Option.mem_toList.mp listed)
        exact .inr ⟨stands, named, rfl⟩
      · exact .inl old
    have four : ∀ stands, (judgedView s state record).demand = some stands → (judgedView s state record).kind = 4 ∧
        stands.1 = (judgedView s state record).identity ∧ stands.2.Standable := by
      intro stands named
      have kind : (judgedView s state record).kind = 4 := by
        by_contra other
        rw [regular.others other] at named
        cases named
      obtain ⟨value, was, standable⟩ := regular.stands kind
      obtain rfl := Option.some.inj (named.symm.trans was)
      exact ⟨kind, rfl, standable⟩
    refine ⟨fun held member => ?_, fun held member => ?_⟩
    · rcases rowsOf held member with old | ⟨stands, named, rfl⟩
      · exact own.kept held old
      · exact StoredDemand.of_kept (four stands named).2.2
    · simp only [Namespace.written, Rows.events_append, Namespace.added_events, List.mem_append, List.mem_singleton]
      rcases rowsOf held member with old | ⟨stands, named, rfl⟩
      · obtain ⟨event, recorded, same⟩ := own.event held old
        exact ⟨event, .inr recorded, same⟩
      · obtain ⟨kind, identity, -⟩ := four stands named
        exact ⟨_, .inl rfl, rfl, carries.identity.trans identity.symm, carries.kind.trans kind⟩
  · exact stood other m same

end

/-- Every call that did not refuse leaves each demand stood by its own record. -/
theorem replays_stood : replays.Invariant fun r => r.WellPlaced ∧ r.store.Stood where
  start r first := by
    refine ⟨replays_placed.start r first, ?_⟩
    obtain rfl : r = _ := first
    exact fun _ _ found => nomatch found
  step := by
    rintro r action later ⟨placed, stood⟩ step
    refine ⟨replays_placed.step r action later placed step, ?_⟩
    cases step with
    | opened source run =>
      obtain ⟨history, evidence, spent, -, -, -, -, -, -, rfl⟩ := openSegmentState_eq_ok.mp run
      intro other m seen
      rcases Store.opened_found seen with ⟨-, rfl⟩ | ⟨-, same⟩
      · exact Store.fresh_stood
      · exact stood other m same
    | merged held run => exact stood
    | applied found keeps run =>
      obtain ⟨record, n, effects, spent, demand, applied⟩ := applyRecord_applied.mp run
      exact applied.stood placed.store stood

end Moe
