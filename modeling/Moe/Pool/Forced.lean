import Moe.Pool.Force
import Moe.Pool.Locks

namespace Moe

/-- What a recovery statement does to the answers of the state it takes effect in. -/
structure StateView.Moved (before after : StateView) (view : StatementView) : Prop where
  hasNullifier : ∀ nf, after.hasNullifier nf = (decide (nf ∈ view.nfs) || before.hasNullifier nf)
  hasOutput : ∀ cm, after.hasOutput cm = (decide (cm ∈ view.outputs) || before.hasOutput cm)
  hasSpentTag : ∀ tag, after.hasSpentTag tag = (decide (tag ∈ view.tags) || before.hasSpentTag tag)
  isEffective : ∀ id, after.isEffective id = (decide (id = view.identity) || before.isEffective id)
  demand : ∀ id, after.demand id = if view.ended = some id then none
    else ((view.demand.filter (·.1 = id)).map (·.2)).or (before.demand id)
  demandsWithTag : ∀ tag entry, entry ∈ after.demandsWithTag tag ↔
    (entry ∈ before.demandsWithTag tag ∨ view.demand = some entry ∧ tag ∈ entry.2.tags) ∧ view.ended ≠ some entry.1
  presentedWithTag : ∀ tag entry, entry ∈ after.presentedWithTag tag ↔
    entry ∈ before.presentedWithTag tag ∨ view.demand = some entry ∧ tag ∈ entry.2.tags
  settledFor : ∀ cm, after.settledFor cm = if view.kind = 6 ∧ cm ∈ view.outputs then view.ended else before.settledFor cm

/-- Two states that answer alike: the demands a tag names as sets, every other question the same. -/
structure SameAnswers (segment force : StateView) : Prop where
  hasNullifier : ∀ nf, segment.hasNullifier nf = force.hasNullifier nf
  hasOutput : ∀ cm, segment.hasOutput cm = force.hasOutput cm
  demand : ∀ id, segment.demand id = force.demand id
  demandsWithTag : ∀ tag entry, entry ∈ segment.demandsWithTag tag ↔ entry ∈ force.demandsWithTag tag
  presentedWithTag : ∀ tag entry, entry ∈ segment.presentedWithTag tag ↔ entry ∈ force.presentedWithTag tag
  isEffective : ∀ id, segment.isEffective id = force.isEffective id
  hasSpentTag : ∀ tag, segment.hasSpentTag tag = force.hasSpentTag tag
  settledFor : ∀ cm, segment.settledFor cm = force.settledFor cm

/-- One statement moves states that answer alike to states that answer alike. -/
theorem SameAnswers.moved {segment force segment' force' : StateView} {view : StatementView}
    (same : SameAnswers segment force) (first : segment.Moved segment' view) (second : force.Moved force' view) :
    SameAnswers segment' force' where
  hasNullifier nf := by rw [first.hasNullifier, second.hasNullifier, same.hasNullifier]
  hasOutput cm := by rw [first.hasOutput, second.hasOutput, same.hasOutput]
  demand id := by rw [first.demand, second.demand, same.demand]
  demandsWithTag tag entry := by rw [first.demandsWithTag, second.demandsWithTag, same.demandsWithTag]
  presentedWithTag tag entry := by rw [first.presentedWithTag, second.presentedWithTag, same.presentedWithTag]
  isEffective id := by rw [first.isEffective, second.isEffective, same.isEffective]
  hasSpentTag tag := by rw [first.hasSpentTag, second.hasSpentTag, same.hasSpentTag]
  settledFor cm := by rw [first.settledFor, second.settledFor, same.settledFor]

/-- A statement that may take effect in a state: it is not effective there, and it stands its own demand up or ends
a standing one, creating one output where it settles it. -/
structure StatementView.Fits (view : StatementView) (state : StateView) : Prop where
  fresh : state.isEffective view.identity = false
  cases : (∃ demand, view.kind = 4 ∧ view.demand = some (view.identity, demand) ∧ view.ended = none ∧ view.nfs = [] ∧
      view.outputs = [] ∧ demand.Standable) ∨
    ∃ id demand, view.demand = none ∧ view.ended = some id ∧ state.demand id = some demand ∧
      ((view.kind = 5 ∧ view.nfs = [] ∧ view.outputs = []) ∨ (view.kind = 6 ∧ ∃ cm, view.outputs = [cm]))

/-- A recovery statement that met its guards fits the state it met them in. -/
theorem checkRecovery_fits {view : StatementView} {tree : Bool} {state : StateView} {c : RecoveryCheck}
    (regular : view.Regular tree state.demand) (kind : recoveryKind view.kind = true)
    (checked : checkRecovery view state c = .ok ()) : view.Fits state := by
  obtain ⟨-, effective, -, ending, -⟩ := checkRecovery_eq_ok.mp checked
  simp only [recoveryKind, Bool.or_eq_true, decide_eq_true_eq] at kind
  refine ⟨effective (by omega), ?_⟩
  rcases kind with (four | five) | six
  · obtain ⟨demand, stood, standable⟩ := regular.stands four
    have none : view.ended = none := by
      rw [← Option.not_isSome_iff_eq_none, regular.ends]
      omega
    exact .inl ⟨demand, four, stood, none, regular.quiet (.inr (.inl four)), regular.barren (.inl four), standable⟩
  · obtain ⟨id, demand, ends, read, -, -, -⟩ := checkEnding_eq_ok.mp (ending (.inl five))
    exact .inr ⟨id, demand, regular.others (by omega), ends, read,
      .inl ⟨five, regular.quiet (.inr (.inr five)), regular.barren (.inr five)⟩⟩
  · obtain ⟨id, demand, ends, read, -, -, settles⟩ := checkEnding_eq_ok.mp (ending (.inr six))
    obtain ⟨quantity, -⟩ := checkSettlement_eq_ok.mp (settles (by omega))
    exact .inr ⟨id, demand, regular.others (by omega), ends, read, .inr ⟨six, regular.settles six (by simp [quantity])⟩⟩

/-- What the force judgment checks of what adoption writes. -/
theorem checkForceView_eq_ok {state : StateView} {view : StatementView} {kind : Nat} {context : ForceContext}
    (checked : checkForceView state view kind context = .ok ()) :
    (kind = 5 ∨ ∀ name ∈ view.backings, name = context.backing) ∧
      checkRecovery view state ⟨context.backing, context.issuer, context.index, some context.lag, true⟩ = .ok () ∧
      checkUniqueEffects view.nfs view.outputs state = .ok () := by
  simp only [checkForceView, bind_unit_eq_ok, requireReplay_eq_ok, Bool.or_eq_true, decide_eq_true_eq, List.all_eq_true,
    checkUniqueEffects_eq_ok] at checked
  obtain ⟨-, backings, -, -, recovery, ⟨spent, -⟩, -, -, outputs⟩ := checked
  exact ⟨backings, recovery, checkUniqueEffects_eq_ok.mpr ⟨spent, outputs⟩⟩

/-- What forcing keeps of its overlay: each demand it holds once, and no demand, ended or not, of a statement that
is not effective. -/
structure ForceState.Kept (state : ForceState) : Prop where
  added : (state.added.map (·.1)).Nodup
  forced : (state.forced.map (·.1)).Nodup
  standing : ∀ entry ∈ state.added, state.view.isEffective entry.1 = true
  presented : ∀ entry ∈ state.forced, state.view.isEffective entry.1 = true
  ended : ∀ id ∈ state.ended, state.view.isEffective id = true
  base : ∀ id demand, state.base.demand id = some demand → state.base.isEffective id = true

theorem openForceState_kept {source : StateView}
    (base : ∀ id demand, source.demand id = some demand → source.isEffective id = true) : (openForceState source).Kept where
  added := List.nodup_nil
  forced := List.nodup_nil
  standing _ member := absurd member List.not_mem_nil
  presented _ member := absurd member List.not_mem_nil
  ended _ member := absurd member List.not_mem_nil
  base := base

/-- A demand the overlay reads is of an effective statement. -/
theorem ForceState.Kept.demand {state : ForceState} (kept : state.Kept) {id : Bytes} {demand : Demand}
    (read : state.demand id = some demand) : state.view.isEffective id = true := by
  simp only [ForceState.demand] at read
  split at read
  · cases read
  · rcases Option.or_eq_some_iff.mp read with own | ⟨-, based⟩
    · exact kept.standing _ (OrderedMap.mem_of_get? own)
    · simp [ForceState.view, kept.base id demand based]

theorem ForceState.mem_naming {map : OrderedMap Bytes Demand} {tag : Nat} {entry : Bytes × Demand} :
    entry ∈ ForceState.naming map tag ↔ entry ∈ map ∧ tag ∈ entry.2.tags := by
  simp [ForceState.naming]

theorem ForceState.mem_demandsWithTag {state : ForceState} {tag : Nat} {entry : Bytes × Demand} :
    entry ∈ state.view.demandsWithTag tag ↔
      (entry ∈ state.base.demandsWithTag tag ∨ entry ∈ state.added ∧ tag ∈ entry.2.tags) ∧ entry.1 ∉ state.ended := by
  simp only [ForceState.view, List.mem_filter, List.mem_append, ForceState.mem_naming, decide_eq_true_eq]

theorem ForceState.mem_presentedWithTag {state : ForceState} {tag : Nat} {entry : Bytes × Demand} :
    entry ∈ state.view.presentedWithTag tag ↔
      entry ∈ state.base.presentedWithTag tag ∨ entry ∈ state.forced ∧ tag ∈ entry.2.tags := by
  simp [ForceState.view, ForceState.mem_naming]

variable {R : Type}

theorem applyForceRecord_eq_ok {state later : ForceState} {bytes : Bytes} {context : ForceContext} {construction : Construction R} :
    applyForceRecord state bytes context construction = .ok later ↔ ∃ record, construction.decode bytes = .ok record ∧
      recoveryKind (construction.kind record) = true ∧
      checkForceView state.view (construction.view record state.demand) (construction.kind record) context = .ok () ∧
      later = applyForceView state (construction.view record state.demand) := by
  simp only [applyForceRecord, bind_eq_ok, pure_eq_ok, require_eq_ok]
  constructor
  · rintro ⟨record, decoded, -, kind, ⟨⟩, checked, rfl⟩
    exact ⟨record, decoded, kind, checked, rfl⟩
  · rintro ⟨record, decoded, kind, checked, rfl⟩
    exact ⟨record, decoded, (), kind, (), checked, rfl⟩

section Moves

variable {state : ForceState} {view : StatementView}

/-! What force does to the sets it only adds to. -/

theorem applyForceView_nullifier (nf : Nat) : (applyForceView state view).view.hasNullifier nf =
    (decide (nf ∈ view.nfs) || state.view.hasNullifier nf) := by
  simp [applyForceView, ForceState.view, Bool.or_assoc]

theorem applyForceView_output (cm : Nat) : (applyForceView state view).view.hasOutput cm =
    (decide (cm ∈ view.outputs) || state.view.hasOutput cm) := by
  simp [applyForceView, ForceState.view, Bool.or_assoc]

theorem applyForceView_spentTag (tag : Nat) : (applyForceView state view).view.hasSpentTag tag =
    (decide (tag ∈ view.tags) || state.view.hasSpentTag tag) := by
  simp [applyForceView, ForceState.view, Bool.or_assoc]

theorem applyForceView_effective (id : Bytes) : (applyForceView state view).view.isEffective id =
    (decide (id = view.identity) || state.view.isEffective id) := by
  simp [applyForceView, ForceState.view, Bool.or_assoc]

/-- What is effective stays effective. -/
theorem applyForceView_stays {id : Bytes} (was : state.view.isEffective id = true) :
    (applyForceView state view).view.isEffective id = true := by
  rw [applyForceView_effective, was, Bool.or_true]

/-- A demand stood by force moves the answers as its statement does. -/
theorem applyForceView_stands {demand : Demand} (kept : state.Kept) (fresh : state.view.isEffective view.identity = false)
    (four : view.kind = 4) (stood : view.demand = some (view.identity, demand)) (none : view.ended = none) :
    (applyForceView state view).Kept ∧ state.view.Moved (applyForceView state view).view view := by
  have distinct : ∀ id, state.view.isEffective id = true → id ≠ view.identity := by
    rintro id was rfl
    rw [fresh] at was
    cases was
  have added : (applyForceView state view).added = OrderedMap.set state.added view.identity demand := by
    simp [applyForceView, stood, none]
  have forced : (applyForceView state view).forced = OrderedMap.set state.forced view.identity demand := by
    simp [applyForceView, stood]
  have ended : (applyForceView state view).ended = state.ended := by
    simp [applyForceView, none]
  have settled : (applyForceView state view).settled = state.settled := by
    simp [applyForceView, four]
  have base : (applyForceView state view).base = state.base := rfl
  have unended : view.identity ∉ state.ended := fun member => distinct _ (kept.ended _ member) rfl
  have inAdded : ∀ entry, entry ∈ (applyForceView state view).added ↔ entry = (view.identity, demand) ∨ entry ∈ state.added := by
    intro entry
    rw [added, OrderedMap.mem_set kept.added]
    exact or_congr_right (and_iff_left_of_imp fun member => distinct _ (kept.standing entry member))
  have inForced : ∀ entry, entry ∈ (applyForceView state view).forced ↔
      entry = (view.identity, demand) ∨ entry ∈ state.forced := by
    intro entry
    rw [forced, OrderedMap.mem_set kept.forced]
    exact or_congr_right (and_iff_left_of_imp fun member => distinct _ (kept.presented entry member))
  refine ⟨⟨?_, ?_, fun entry member => ?_, fun entry member => ?_, fun id member => ?_, kept.base⟩,
    ⟨applyForceView_nullifier, applyForceView_output, applyForceView_spentTag, applyForceView_effective,
      fun id => ?_, fun tag entry => ?_, fun tag entry => ?_, fun cm => ?_⟩⟩
  · rw [added]
    exact OrderedMap.set_keys_nodup kept.added _ _
  · rw [forced]
    exact OrderedMap.set_keys_nodup kept.forced _ _
  · rcases (inAdded entry).mp member with rfl | old
    · simp [applyForceView_effective]
    · exact applyForceView_stays (kept.standing entry old)
  · rcases (inForced entry).mp member with rfl | old
    · simp [applyForceView_effective]
    · exact applyForceView_stays (kept.presented entry old)
  · rw [ended] at member
    exact applyForceView_stays (kept.ended id member)
  · show (applyForceView state view).demand id = _
    simp only [ForceState.demand, ForceState.view, ended, added, base, OrderedMap.get?_set, none, stood]
    by_cases own : view.identity = id
    · subst own
      simp [unended, Option.filter_some]
    · simp [own, Option.filter_some]
  · rw [ForceState.mem_demandsWithTag, ForceState.mem_demandsWithTag, inAdded, ended, base, stood, none]
    constructor
    · rintro ⟨based | ⟨rfl | own, named⟩, live⟩
      · exact ⟨.inl ⟨.inl based, live⟩, (Option.some_ne_none _).symm⟩
      · exact ⟨.inr ⟨rfl, named⟩, (Option.some_ne_none _).symm⟩
      · exact ⟨.inl ⟨.inr ⟨own, named⟩, live⟩, (Option.some_ne_none _).symm⟩
    · rintro ⟨⟨based | own, live⟩ | ⟨same, named⟩, -⟩
      · exact ⟨.inl based, live⟩
      · exact ⟨.inr ⟨.inr own.1, own.2⟩, live⟩
      · cases same
        exact ⟨.inr ⟨.inl rfl, named⟩, unended⟩
  · rw [ForceState.mem_presentedWithTag, ForceState.mem_presentedWithTag, inForced, base, stood]
    constructor
    · rintro (based | ⟨rfl | own, named⟩)
      · exact .inl (.inl based)
      · exact .inr ⟨rfl, named⟩
      · exact .inl (.inr ⟨own, named⟩)
    · rintro ((based | own) | ⟨same, named⟩)
      · exact .inl based
      · exact .inr ⟨.inr own.1, own.2⟩
      · cases same
        exact .inr ⟨.inl rfl, named⟩
  · simp only [ForceState.view, settled, base, four]
    simp

/-- A demand ended by force moves the answers as its statement does. -/
theorem applyForceView_ends {id : Bytes} {demand : Demand} (kept : state.Kept) (none : view.demand = none)
    (ends : view.ended = some id) (read : state.view.demand id = some demand)
    (kinds : view.kind = 5 ∨ view.kind = 6 ∧ ∃ cm, view.outputs = [cm]) :
    (applyForceView state view).Kept ∧ state.view.Moved (applyForceView state view).view view := by
  have added : (applyForceView state view).added = OrderedMap.erase state.added id := by
    simp [applyForceView, ends, none]
  have forced : (applyForceView state view).forced = state.forced := by
    simp [applyForceView, none]
  have ended : (applyForceView state view).ended = id :: state.ended := by
    simp [applyForceView, ends]
  have base : (applyForceView state view).base = state.base := rfl
  have was : state.view.isEffective id = true := kept.demand read
  have inAdded : ∀ entry, entry ∈ (applyForceView state view).added ↔ entry ∈ state.added ∧ entry.1 ≠ id := by
    intro entry
    simp [added, OrderedMap.erase]
  refine ⟨⟨?_, ?_, fun entry member => ?_, fun entry member => ?_, fun other member => ?_, kept.base⟩,
    ⟨applyForceView_nullifier, applyForceView_output, applyForceView_spentTag, applyForceView_effective,
      fun other => ?_, fun tag entry => ?_, fun tag entry => ?_, fun cm => ?_⟩⟩
  · rw [added]
    exact (List.filter_sublist.map _).nodup kept.added
  · rw [forced]
    exact kept.forced
  · exact applyForceView_stays (kept.standing entry ((inAdded entry).mp member).1)
  · rw [forced] at member
    exact applyForceView_stays (kept.presented entry member)
  · rw [ended] at member
    rcases List.mem_cons.mp member with rfl | old
    · exact applyForceView_stays was
    · exact applyForceView_stays (kept.ended other old)
  · show (applyForceView state view).demand other = _
    simp only [ForceState.demand, ForceState.view, ended, added, base, OrderedMap.get?_erase, none, ends, List.mem_cons,
      Option.some.injEq]
    by_cases own : id = other
    · subst own
      simp
    · simp [own, Ne.symm own]
  · rw [ForceState.mem_demandsWithTag, ForceState.mem_demandsWithTag, inAdded, ended, base, ends, none]
    simp only [List.mem_cons, not_or, ne_eq, Option.some.injEq, reduceCtorEq, false_and, or_false]
    constructor
    · rintro ⟨based | ⟨own, named⟩, other, live⟩
      · exact ⟨⟨.inl based, live⟩, fun same => other same.symm⟩
      · exact ⟨⟨.inr ⟨own.1, named⟩, live⟩, fun same => other same.symm⟩
    · rintro ⟨⟨based | ⟨own, named⟩, live⟩, other⟩
      · exact ⟨.inl based, fun same => other same.symm, live⟩
      · exact ⟨.inr ⟨⟨own, fun same => other same.symm⟩, named⟩, fun same => other same.symm, live⟩
  · rw [ForceState.mem_presentedWithTag, ForceState.mem_presentedWithTag, forced, base, none]
    simp
  · rcases kinds with five | ⟨six, created, outputsEq⟩
    · have settled : (applyForceView state view).settled = state.settled := by
        simp [applyForceView, five]
      simp only [ForceState.view, settled, base, five]
      simp
    · have settled : (applyForceView state view).settled = OrderedMap.set state.settled created id := by
        simp [applyForceView, six, outputsEq, ends]
      simp only [ForceState.view, settled, base, six, outputsEq, ends, OrderedMap.get?_set, List.mem_singleton, true_and]
      by_cases own : created = cm
      · simp [own]
      · simp [own, Ne.symm own]

/-- Force keeps its overlay, and moves its answers as the statement does. -/
theorem applyForceView_moved (kept : state.Kept) (fits : view.Fits state.view) :
    (applyForceView state view).Kept ∧ state.view.Moved (applyForceView state view).view view := by
  rcases fits.cases with ⟨demand, four, stood, none, -, -, -⟩ | ⟨id, demand, none, ends, read, kinds⟩
  · exact applyForceView_stands kept fits.fresh four stood none
  · exact applyForceView_ends kept none ends read (kinds.imp And.left fun six => six)

end Moves

end Moe
