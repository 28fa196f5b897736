import Moe.Pool.Adopted

namespace Moe

variable {R : Type}

/-- A replay that adopts a backing's publications: nothing finalized, its terms at hand, a mark for every output. -/
structure SegmentReplay.Adopts (replay : SegmentReplay) (construction : Construction R) (backing : Bytes) : Prop where
  unfinalized : replay.lastValid = none
  termed : (replay.termsOf backing).isSome = true
  selected : replay.scopedTerms.isSome = true ∨ replay.backing = backing
  marks : ∀ output, ∃ mark, replay.markFor construction output = .ok mark

/-- A namespace's own rows are visible at its tip. -/
theorem Store.WellPlaced.own_visible {s : Store} (placed : s.WellPlaced) {ns : Nat} {n : Namespace}
    (found : s.namespaces ns = some n) {α : Type} {pick : Fact → Option α} {row : Placed α} (member : row ∈ Rows.table pick n.rows) :
    row ∈ Rows.table pick (s.visible ns n.position) := by
  obtain ⟨fact, picked, source⟩ := Rows.mem_table.mp member
  refine Rows.mem_table.mpr ⟨fact, picked, ?_⟩
  have place := placed.rows ns n found _ source
  rw [Store.visible, Store.union_cons, Store.rows_of_found found]
  exact List.mem_append_left _ (Rows.mem_through.mpr ⟨source, place.2⟩)

/-- What a namespace that only adopted recovery statements holds: their events, and in its spent set keys that are
spent. -/
structure Namespace.Adopting (n : Namespace) (rows : Rows) : Prop where
  own : ∀ event ∈ n.rows.events, 4 ≤ event.row.kind
  spent : ∀ nf ∈ n.spent.keys, nf < keyBound ∧ rows.hasNullifier nf = true

/-- A recovery statement of a backing, as force judged it in a state. -/
structure StatementView.ForcedIn (view : StatementView) (state : StateView) (backing : Bytes) : Prop where
  recovery : recoveryKind view.kind = true
  fits : view.Fits state
  backings : view.kind = 5 ∨ ∀ name ∈ view.backings, name = backing
  ended : ∀ id demand, view.ended = some id → state.demand id = some demand → demand.backing = backing
  unique : checkUniqueEffects view.nfs view.outputs state = .ok ()

section Step

variable {s : Store} {state : SegmentState R} {n : Namespace} {bytes backing : Bytes} {replay : SegmentReplay} {record : R} {index : Nat}

theorem StatementView.ForcedIn.kinds {view : StatementView} {state : StateView} (forced : view.ForcedIn state backing) :
    4 ≤ view.kind ∧ view.kind ≤ 6 := by
  have recovery := forced.recovery
  simp only [recoveryKind, Bool.or_eq_true, decide_eq_true_eq] at recovery
  omega

/-- The backing a forced statement is judged under is the one it was forced for. -/
theorem StatementView.ForcedIn.backingOf (forced : (judgedView s state record).ForcedIn (state.handle.view s) backing)
    (regular : (judgedView s state record).Regular state.construction.keeps.tree (state.handle.view s).demand)
    (needs : (judgedView s state record).needsDemand = true) :
    (endedDemand s state record).isSome = true ∧ Moe.backingOf s state record replay = backing := by
  obtain ⟨id, demand, ends, read⟩ : ∃ id demand, (judgedView s state record).ended = some id ∧
      (state.handle.view s).demand id = some demand := by
    rcases forced.fits.cases with ⟨_, four, -⟩ | ⟨id, demand, -, ends, read, -⟩
    · have ending := regular.needs needs
      omega
    · exact ⟨id, demand, ends, read⟩
  have ended : endedDemand s state record = some demand := by
    rw [endedDemand, ends, Option.bind_some, read]
  refine ⟨by rw [ended]; rfl, ?_⟩
  simp [Moe.backingOf, judgedBacking, needs, ended, forced.ended id demand ends read]

/-- A forced statement is judgeable where its bytes were adopted. -/
theorem StatementView.ForcedIn.judgeable (forced : (judgedView s state record).ForcedIn (state.handle.view s) backing)
    (placed : s.WellPlaced) (stood : s.Stood) (found : s.namespaces state.ns = some n) (own : n.Adopting (state.handle.rows s))
    (adopts : replay.Adopts state.construction backing) (block : replay.block[n.position]? = some ⟨bytes, index⟩)
    (capacity : n.position + 1 < valueBound) : Judgeable s state bytes replay record n := by
  have regular := judgedView_regular placed stood found record
  have kinds := forced.kinds
  have kind : (judgedView s state record).kind = state.construction.kind record := state.construction.view_kind ..
  have tip := SegmentState.position found
  have mode : replay.modeAt (state.handle.position s) = .adoption := by
    simp [SegmentReplay.modeAt, tip, block]
  refine ⟨by omega, by rwa [tip], fun admission => ?_, ?_, fun name member => ?_, fun needs => ?_, ?_, fun last named => ?_,
    fun issue => by omega⟩
  · rw [mode] at admission
    cases admission
  · simp [checkFrame, tip, block]
  · have same : name = backing := by
      by_cases needs : (judgedView s state record).needsDemand = true
      · rw [termedBackings, if_pos needs] at member
        exact (List.mem_singleton.mp member).trans (forced.backingOf regular needs).2
      · rw [termedBackings, if_neg needs] at member
        exact forced.backings.elim (fun five => absurd (regular.withdraws five).1 needs) fun all => all name member
    rw [same]
    exact adopts.termed
  · obtain ⟨ended, same⟩ := @StatementView.ForcedIn.backingOf _ _ _ _ replay _ forced regular needs
    exact ⟨ended, adopts.selected.imp_right fun selected => same.trans selected.symm⟩
  · rw [tip, Store.hasStatement, Store.rows_of_found found, Rows.through_all fun row member => (placed.rows _ n found row member).2,
      List.any_eq_false]
    intro event member same
    have visible := placed.own_visible found member
    rw [← SegmentState.rows found] at visible
    have effective : (state.handle.rows s).isEffective (judgedView s state record).identity = true :=
      List.any_eq_true.mpr ⟨event, visible, by simp [of_decide_eq_true same, own.own event member]⟩
    exact Bool.noConfusion (effective.symm.trans forced.fits.fresh)
  · rw [adopts.unfinalized] at named
    cases named

/-- A forced statement meets what follows its statement check. -/
theorem StatementView.ForcedIn.finishable (forced : (judgedView s state record).ForcedIn (state.handle.view s) backing)
    (placed : s.WellPlaced) (stood : s.Stood) (found : s.namespaces state.ns = some n)
    (adopts : replay.Adopts state.construction backing) (block : replay.block[n.position]? = some ⟨bytes, index⟩)
    (room : state.construction.keeps.tree = true → n.leaves + (judgedView s state record).outputs.length ≤ noteTreeCapacity) :
    Finishable s state replay (judgmentFor s state record replay bytes n) n := by
  have regular := judgedView_regular placed stood found record
  have kinds := forced.kinds
  have kind : (judgedView s state record).kind = state.construction.kind record := state.construction.view_kind ..
  have adopted : (judgmentFor s state record replay bytes n).check = false := by
    simp [judgmentFor, SegmentReplay.modeAt, SegmentState.position found, block]
  refine ⟨fun name member => ?_, ?_, ?_, forced.unique, room⟩
  · have member : name ∈ (judgedView s state record).backings := member
    rcases forced.backings with five | all
    · rw [(regular.withdraws five).2] at member
      cases member
    · rw [all name member]
      exact adopts.selected.imp_right Eq.symm
  · have other : state.construction.kind (judgmentFor s state record replay bytes n).record = state.construction.kind record := rfl
    rw [checkSupply, other, if_neg (by omega), if_neg (by omega)]
    rfl
  · simp [checkGuards, adopted]

theorem StatementView.ForcedIn.effects (forced : (judgedView s state record).ForcedIn (state.handle.view s) backing)
    (adopts : replay.Adopts state.construction backing) :
    ∃ effects, (judgmentFor s state record replay bytes n).toJudged.effects state.construction replay n.history = .ok effects := by
  have tags : ∃ tags, touchedTags (judgedView s state record).kind (judgedView s state record) (endedDemand s state record) =
      .ok tags := by
    simp only [touchedTags]
    split
    · next four =>
      rcases forced.fits.cases with ⟨demand, -, stands, -⟩ | ⟨_, _, -, -, -, ⟨five, -⟩ | ⟨six, -⟩⟩
      · rw [stands]
        exact ⟨_, rfl⟩
      · omega
      · omega
    · split <;> exact ⟨_, rfl⟩
  obtain ⟨tags, touched⟩ := tags
  have total : ∀ entry : Nat × Nat, ∃ output,
      (judgmentFor s state record replay bytes n).toJudged.outputOf state.construction replay entry = .ok output := by
    intro entry
    obtain ⟨mark, marked⟩ := adopts.marks (state.construction.scanOutput record (judgedView s state record) entry.1 entry.2
      (endedDemand s state record))
    exact ⟨_, bind_eq_ok.mpr ⟨mark, marked, rfl⟩⟩
  obtain ⟨outputs, scanned⟩ := mapM_total total (judgedView s state record).outputs.zipIdx
  exact ⟨_, bind_eq_ok.mpr ⟨tags, touched, bind_eq_ok.mpr ⟨outputs, scanned, rfl⟩⟩⟩

/-- The output table takes what no visible output holds. -/
theorem Namespace.checkOutputs_total {outputs : List AppendOutput} {rows : Rows}
    (visible : ∀ held ∈ n.rows.outputs, held ∈ rows.outputs) (distinct : (outputs.map (·.cm)).Nodup)
    (fresh : ∀ cm ∈ outputs.map (·.cm), rows.hasOutput cm = false)
    (keys : ∀ cm ∈ outputs.map (·.cm), if n.keeps.tree then isField cm = true else cm < keyBound) :
    n.checkOutputs outputs = .ok () := by
  refine Namespace.checkOutputs_eq_ok.mpr ⟨keys, distinct, fun cm listed held inside same => ?_⟩
  have seen := fresh cm listed
  rw [Rows.hasOutput_eq, decide_eq_false_iff_not] at seen
  exact seen (List.mem_map.mpr ⟨held, visible held inside, same⟩)

variable [Crypto]

/-- A namespace that spends inserts each nullifier in its spent set. -/
theorem Namespace.spend_inserted {nullifiers : List StoredNullifier} {spent : SpentSet} (run : n.spend nullifiers = .ok spent) :
    n.spent.insertAll (nullifiers.map (·.nf)) = .ok spent := by
  obtain ⟨result, inserted, rest⟩ := bind_eq_ok.mp run
  obtain ⟨-, -, rest⟩ := bind_eq_ok.mp rest
  obtain ⟨-, done⟩ := bind_unit_eq_ok.mp rest
  rwa [pure_eq_ok.mp done] at inserted

/-- The spent set takes what no visible nullifier spends. -/
theorem Namespace.Adopting.spend {rows : Rows} (own : n.Adopting rows) (visible : ∀ held ∈ n.rows.nullifiers, held ∈ rows.nullifiers)
    {nullifiers : List StoredNullifier} (distinct : (nullifiers.map (·.nf)).Nodup)
    (fresh : ∀ nf ∈ nullifiers.map (·.nf), rows.hasNullifier nf = false) (keys : ∀ nf ∈ nullifiers.map (·.nf), nf < keyBound)
    (tagKeys : ∀ tag ∈ nullifiers.map (·.tag), tag < keyBound) : ∃ spent, n.spend nullifiers = .ok spent := by
  have absent : ∀ nf ∈ nullifiers.map (·.nf), nf ∉ n.spent.keys := by
    intro nf listed held
    exact Bool.noConfusion ((own.spent nf held).2.symm.trans (fresh nf listed))
  obtain ⟨spent, inserted⟩ := SpentSet.insertAll_total keys (fun nf held => (own.spent nf held).1) distinct absent
  have tags : nullifiers.forM (fun spend => requireKey spend.tag) = .ok () := by
    refine forM_eq_ok.mpr fun spend listed => ?_
    simpa [requireKey] using tagKeys _ (List.mem_map_of_mem listed)
  refine ⟨spent, bind_eq_ok.mpr ⟨spent, inserted, bind_eq_ok.mpr ⟨(), tags, bind_eq_ok.mpr ⟨(), ?_, rfl⟩⟩⟩⟩
  refine require_eq_ok.mpr (decide_eq_true ⟨distinct, fun spend listed held inside same => ?_⟩)
  have seen := fresh spend.nf (List.mem_map_of_mem listed)
  rw [Rows.hasNullifier_eq, decide_eq_false_iff_not] at seen
  exact seen (List.mem_map.mpr ⟨held, visible held inside, same⟩)

/-- A statement force took is applied where its bytes were adopted. -/
theorem StatementView.ForcedIn.applied (forced : (judgedView s state record).ForcedIn (state.handle.view s) backing)
    (placed : s.WellPlaced) (stood : s.Stood) (found : s.namespaces state.ns = some n)
    (keeps : n.keeps = state.construction.keeps) (own : n.Adopting (state.handle.rows s))
    (presented : ∀ id, (state.handle.rows s).isEnded id = true → (state.handle.rows s).isEffective id = true)
    (decoded : state.construction.decode bytes = .ok record) (adopts : replay.Adopts state.construction backing)
    (block : replay.block[n.position]? = some ⟨bytes, index⟩) (capacity : n.position + 1 < valueBound)
    (room : state.construction.keeps.tree = true → n.leaves + (judgedView s state record).outputs.length ≤ noteTreeCapacity) :
    ∃ effects spent demand later, Applied s state bytes replay record n effects spent demand later := by
  have regular := judgedView_regular placed stood found record
  have rows := @SegmentState.rows _ s state n found
  obtain ⟨effects, ran⟩ := @StatementView.ForcedIn.effects _ _ _ n bytes _ _ _ forced adopts
  have carries := Judged.effects_carries ran
  have created : effects.outputs.map (·.cm) = (judgedView s state record).outputs := carries.outputs
  have spends : effects.nullifiers.map (·.nf) = (judgedView s state record).nfs := carries.nfs
  have tags : effects.nullifiers.map (·.tag) = (judgedView s state record).tags := carries.tags
  obtain ⟨⟨nfsOnce, nfsNew⟩, outputsOnce, outputsNew⟩ := checkUniqueEffects_eq_ok.mp forced.unique
  have outputs : n.checkOutputs effects.outputs = .ok () := by
    refine @Namespace.checkOutputs_total _ _ (state.handle.rows s) (fun held inside => ?_) ?_ ?_ ?_
    · rw [rows]
      exact placed.own_visible found inside
    all_goals rw [created]
    · exact outputsOnce
    · exact fun cm member => (outputsNew cm member).2
    · rw [keeps]
      exact regular.outputKeys
  have spending : ∃ spent, n.spend effects.nullifiers = .ok spent := by
    refine own.spend (fun held inside => ?_) ?_ ?_ ?_ ?_
    · rw [rows]
      exact placed.own_visible found inside
    · rwa [spends]
    · rw [spends]
      exact fun nf member => (nfsNew nf member).2
    · rw [spends]
      exact regular.nfKeys
    · rw [tags]
      exact regular.tagKeys
  obtain ⟨spent, spend⟩ := spending
  have standing : ∃ demand, effects.demand.mapM n.stand = .ok demand := by
    have named : effects.demand = (judgedView s state record).demand := carries.demand
    rw [named]
    rcases forced.fits.cases with ⟨demand, -, stands, -, -, -, standable⟩ | ⟨_, _, none, -⟩
    · rw [stands]
      have unused : ∀ id, (state.handle.rows s).isEffective id = true → id ≠ (judgedView s state record).identity := by
        rintro id was rfl
        exact Bool.noConfusion (was.symm.trans forced.fits.fresh)
      refine ⟨_, mapM_some_eq_ok.mpr ⟨_, (Namespace.stand_eq_ok standable).mpr ⟨fun held inside => ?_, fun ended inside => ?_, rfl⟩, rfl⟩⟩
      · obtain ⟨event, recorded, -, identity, kind⟩ := (stood _ n found).event held inside
        refine unused _ (List.any_eq_true.mpr ⟨event, ?_, by simp [identity, kind]⟩)
        rw [rows]
        exact placed.own_visible found recorded
      · refine unused _ (presented _ (List.any_eq_true.mpr ⟨ended, ?_, by simp⟩))
        rw [rows]
        exact placed.own_visible found inside
    · rw [none]
      exact ⟨_, mapM_none_eq_ok.mpr rfl⟩
  obtain ⟨demand, stand⟩ := standing
  have ending : ∃ ended, effects.ended.mapM n.endDemand = .ok ended := by
    have named : effects.ended = (judgedView s state record).ended := carries.ended
    rw [named]
    rcases forced.fits.cases with ⟨_, -, -, none, -⟩ | ⟨id, value, -, ends, read, -⟩
    · rw [none]
      exact ⟨_, mapM_none_eq_ok.mpr rfl⟩
    · rw [ends]
      refine ⟨_, mapM_some_eq_ok.mpr ⟨id, bind_unit_eq_ok.mpr ⟨require_eq_ok.mpr (List.all_eq_true.mpr fun ended inside => ?_), rfl⟩, rfl⟩⟩
      have live := (@Rows.demand_eq_some (state.handle.rows s) _ _ read).choose_spec.2.2.2
      refine decide_eq_true fun same => Rows.isEnded_eq_false.mp live (List.mem_map.mpr ⟨ended, ?_, same⟩)
      rw [rows]
      exact placed.own_visible found inside
  have statement : (judgmentFor s state record replay bytes n).checkStatement replay.verifier = .ok () := by
    simp [Judgment.checkStatement, judgmentFor, SegmentReplay.modeAt, SegmentState.position found, block]
  refine ⟨effects, spent, demand, _, decodeJudged_eq_ok.mpr decoded, found,
    forced.judgeable placed stood found own adopts block capacity, statement,
    forced.finishable placed stood found adopts block room, ran, outputs, spend, stand, ending,
    fun last named => ?_, rfl⟩
  rw [adopts.unfinalized] at named
  cases named

end Step

end Moe
