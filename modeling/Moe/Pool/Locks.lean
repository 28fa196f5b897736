import Moe.Pool.Applied
import Moe.Pool.Audit

namespace Moe

variable {R : Type}

/-- A stored demand stands in some rows: they hold it, and no end of it. -/
def Rows.Stands (rows : Rows) (row : StoredDemand) : Prop :=
  (∃ held ∈ rows.demands, held.row = row) ∧ rows.isEnded row.id = false

/-- A tag is free of locks where each standing demand that names it has lapsed or is the one excepted. -/
theorem locked_eq_false {s : Store} {state : StateHandle R} {tag atIndex : Nat} {except : Option Bytes} :
    locked (state.view s) tag atIndex except = false ↔ ∀ row, (state.rows s).Stands row → tag ∈ row.tags →
      atIndex ≤ row.deadline → some row.id = except := by
  simp only [locked, List.any_eq_false, StateHandle.view, Rows.demandsWithTag, List.mem_map, List.mem_filter,
    decide_eq_true_eq, Bool.and_eq_true, Bool.not_eq_true']
  constructor
  · rintro free row ⟨⟨held, member, rfl⟩, standing⟩ named bound
    by_contra other
    exact free _ ⟨held, ⟨member, named, standing⟩, rfl⟩ ⟨by simpa using other, by simpa [StoredDemand.demand] using bound⟩
  · rintro free _ ⟨held, ⟨member, named, standing⟩, rfl⟩ ⟨other, bound⟩
    exact absurd (free held.row ⟨⟨held, member, rfl⟩, standing⟩ named bound) (by simpa using other)

theorem Rows.isEnded_eq_false {rows : Rows} {id : Bytes} : rows.isEnded id = false ↔ id ∉ rows.demandEnds.map (·.row) := by
  simp [Rows.isEnded]

/-- A demand read by its identity stands. -/
theorem Rows.demand_stands {rows : Rows} {id : Bytes} {demand : Demand} (read : rows.demand id = some demand) :
    ∃ row, rows.Stands row ∧ row.id = id ∧ row.demand = demand := by
  obtain ⟨held, member, rfl, rfl, standing⟩ := Rows.demand_eq_some read
  exact ⟨held.row, ⟨⟨held, member, rfl⟩, standing⟩, rfl, rfl⟩

theorem checkStanding_eq_ok {view : StatementView} {state : StateView} {c : RecoveryCheck} :
    checkStanding view state c = .ok () ↔ ∃ id demand, view.demand = some (id, demand) ∧
      (0 < (standingTags demand).length ∧ (standingTags demand).Nodup) ∧
      (∀ tag ∈ standingTags demand, state.hasSpentTag tag = false ∧ locked state tag c.atIndex none = false) ∧
      (c.door = true → ∃ lag, c.lag = some lag ∧ doorHolds demand.instant demand.deadline c.atIndex lag = true) := by
  have door : ∀ demand : Demand, (if c.door = true then do
      let lag ← known c.lag
      requireReplay (doorHolds demand.instant demand.deadline c.atIndex lag) .deadline else pure ()) = .ok () ↔
      (c.door = true → ∃ lag, c.lag = some lag ∧ doorHolds demand.instant demand.deadline c.atIndex lag = true) := by
    intro demand
    cases c.door <;> simp [bind_eq_ok]
  simp only [checkStanding, bind_eq_ok, known_eq_ok, requireReplay_eq_ok, decide_eq_true_eq, List.all_eq_true,
    Bool.and_eq_true, Bool.not_eq_true', door, Prod.exists]
  constructor
  · rintro ⟨id, demand, named, -, tags, -, free, held⟩
    exact ⟨id, demand, named, tags, free, held⟩
  · rintro ⟨id, demand, named, tags, free, held⟩
    exact ⟨id, demand, named, (), tags, (), free, held⟩

theorem checkSettlement_eq_ok {view : StatementView} {state : StateView} {c : RecoveryCheck} {id : Bytes} {demand : Demand} :
    checkSettlement view state c id demand = .ok () ↔ view.quantity = some demand.quantity ∧
      ∃ settlement, view.settlement = .ok settlement ∧ settlement.deadline ≤ demand.deadline ∧
        settlement.signed c.issuer demand.presenter = true ∧ (c.door = true → c.atIndex ≤ settlement.deadline) ∧
        slotsHold view demand = true ∧ ∀ tag ∈ view.tags, locked state tag c.atIndex (some id) = false := by
  have slots : ∀ {settlement : Settlement}, (do
      if c.door then requireReplay (c.atIndex ≤ settlement.deadline) .deadline
      requireReplay (slotsHold view demand) .tags
      requireReplay (view.tags.all fun tag => !locked state tag c.atIndex (some id)) .locked) = Except.ok () ↔
      (c.door = true → c.atIndex ≤ settlement.deadline) ∧ slotsHold view demand = true ∧
        ∀ tag ∈ view.tags, locked state tag c.atIndex (some id) = false := by
    intro settlement
    cases c.door <;> simp [bind_eq_ok]
  simp only [checkSettlement, bind_eq_ok, requireReplay_eq_ok, decide_eq_true_eq] at slots ⊢
  simp only [slots]
  constructor
  · rintro ⟨-, quantity, settlement, read, -, within, -, signed, rest⟩
    exact ⟨quantity, settlement, read, within, signed, rest⟩
  · rintro ⟨quantity, settlement, read, within, signed, rest⟩
    exact ⟨(), quantity, settlement, read, (), within, (), signed, rest⟩

theorem checkEnding_eq_ok {view : StatementView} {state : StateView} {c : RecoveryCheck} :
    checkEnding view state c = .ok () ↔ ∃ id demand, view.ended = some id ∧ state.demand id = some demand ∧
      demand.backing = c.backing ∧ (view.kind = 5 → view.withdrawalSigned demand.presenter = true) ∧
      (view.kind ≠ 5 → checkSettlement view state c id demand = .ok ()) := by
  simp only [checkEnding, bind_eq_ok, known_eq_ok]
  refine exists_congr fun id => ?_
  cases read : state.demand id with
  | none => simp
  | some demand =>
    by_cases kind : view.kind = 5 <;> simp [kind, bind_eq_ok]

theorem checkRecovery_eq_ok {view : StatementView} {state : StateView} {c : RecoveryCheck} :
    checkRecovery view state c = .ok () ↔ (c.door = true → c.lag.isSome = true) ∧
      (4 ≤ view.kind → state.isEffective view.identity = false) ∧
      (view.kind = 4 → checkStanding view state c = .ok ()) ∧
      (view.kind = 5 ∨ view.kind = 6 → checkEnding view state c = .ok ()) ∧
      (view.kind = 2 ∨ view.kind = 3 → ∀ tag ∈ view.tags, locked state tag c.atIndex none = false) := by
  have effective : requireReplay (view.kind < 4 || !state.isEffective view.identity) .repeatedStatement = .ok () ↔
      (4 ≤ view.kind → state.isEffective view.identity = false) := by
    rw [requireReplay_eq_ok, Bool.or_eq_true, decide_eq_true_eq, Bool.not_eq_true', ← Nat.not_le, ← imp_iff_not_or]
  have door : require (!c.door || c.lag.isSome) (.typeError "a door is judged at an index under the venue's lag") = .ok () ↔
      (c.door = true → c.lag.isSome = true) := by
    cases c.door <;> simp
  simp only [checkRecovery, bind_unit_eq_ok, door, effective]
  refine and_congr_right fun _ => and_congr_right fun _ => ?_
  by_cases four : view.kind = 4
  · simp [four]
  by_cases ending : view.kind = 5 ∨ view.kind = 6
  · have spends : ¬(view.kind = 2 ∨ view.kind = 3) := by omega
    simp [four, ending, spends]
  by_cases spends : view.kind = 2 ∨ view.kind = 3
  · simp [four, ending, spends]
  · simp [four, ending, spends]

section Runs

/-- One record of a segment's run: the stores before and after it, and its judgment. -/
structure SegmentStep (R : Type) where
  before : Store
  judged : Judged R
  after : Store

/-- What one record does to the demands that stand before it. -/
structure LockSafe (before after : Rows) (judged : Judged R) : Prop where
  /-- It spends no tag a standing demand holds through its index, but those of the demand it settles. -/
  spends : ∀ tag ∈ judged.view.tags, ∀ row, before.Stands row → tag ∈ row.tags → judged.atIndex ≤ row.deadline →
    judged.view.kind = 6 ∧ judged.view.ended = some row.id
  /-- The tags it spends are those its nullifier rows record. -/
  spent : after.nullifiers.map (·.row.tag) = judged.view.tags ++ before.nullifiers.map (·.row.tag)
  /-- A demand names tags, distinct, unspent and free at its index. -/
  stands : judged.view.kind = 4 → ∃ demand, judged.view.demand = some (judged.view.identity, demand) ∧
    standingTags demand ≠ [] ∧ (standingTags demand).Nodup ∧ ∀ tag ∈ standingTags demand,
      before.hasSpentTag tag = false ∧ ∀ row, before.Stands row → tag ∈ row.tags → row.deadline < judged.atIndex
  /-- A settlement ends a standing demand of its quantity and backing, each of its tags spent in its slot. -/
  settles : judged.view.kind = 6 → ∃ row, before.Stands row ∧ judged.view.ended = some row.id ∧
    judged.view.quantity = some row.quantity ∧ row.backing = judged.backing ∧ ∀ (i tag : Nat), row.tags[i]? = some tag →
      tag ≠ 0 → judged.view.tags[i]? = some tag ∧ ∃ nf, judged.view.nfs[i]? = some nf
  /-- It ends exactly the demand it names, which had not ended. -/
  ends : after.demandEnds.map (·.row) = judged.view.ended.toList ++ before.demandEnds.map (·.row)
  standing : ∀ id, judged.view.ended = some id → before.isEnded id = false

/-- A demand a record of the run stood, judged at or before an index. -/
def StoodBy (trail : List (SegmentStep R)) (a : Nat) (row : StoredDemand) : Prop :=
  ∃ step ∈ trail, ∃ demand, step.judged.view.demand = some (row.id, demand) ∧ row = StoredDemand.of row.id demand ∧
    step.judged.atIndex ≤ a

theorem StoodBy.cons {step : SegmentStep R} {trail : List (SegmentStep R)} {a : Nat} {row : StoredDemand}
    (stood : StoodBy (step :: trail) a row) : (∃ demand, step.judged.view.demand = some (row.id, demand) ∧
      row = StoredDemand.of row.id demand ∧ step.judged.atIndex ≤ a) ∨ StoodBy trail a row := by
  obtain ⟨other, member, found⟩ := stood
  rcases List.mem_cons.mp member with rfl | old
  · exact .inl found
  · exact .inr ⟨other, old, found⟩

/-- A demand a record stands names no tag of an unlapsed one. -/
theorem LockSafe.new_apart {before after : Rows} {judged : Judged R} (safe : LockSafe before after judged)
    {tree : Bool} {demandOf : Bytes → Option Demand} (regular : judged.view.Regular tree demandOf) {row other : StoredDemand}
    {demand : Demand} {a : Nat} (named : judged.view.demand = some (row.id, demand)) (same : row = StoredDemand.of row.id demand)
    (bound : judged.atIndex ≤ a) (stands : before.Stands other) (unlapsed : a ≤ other.deadline) :
    ∀ tag ∈ row.tags, tag ≠ 0 → tag ∉ other.tags := by
  intro tag member nonzero shared
  have kind : judged.view.kind = 4 := by
    by_contra wrong
    rw [regular.others wrong] at named
    cases named
  obtain ⟨value, own, -, -, free⟩ := safe.stands kind
  obtain ⟨-, rfl⟩ := Prod.mk.inj (Option.some.inj (own.symm.trans named))
  rw [same] at member
  have lapsed := (free tag (List.mem_filter.mpr ⟨member, by simpa using nonzero⟩)).2 other stands shared
  omega

/-- What a run does to the demands of the history it reads. -/
structure RunLocked (opening : Rows) (state : SegmentState R) (trail : List (SegmentStep R)) (s : Store) : Prop where
  steps : ∀ step ∈ trail, LockSafe (state.handle.rows step.before) (state.handle.rows step.after) step.judged
  /-- The demands the run ended, the newest first, over those ended before it. -/
  ends : (state.handle.rows s).demandEnds.map (·.row) =
    trail.filterMap (·.judged.view.ended) ++ opening.demandEnds.map (·.row)
  once : (trail.filterMap (·.judged.view.ended)).Nodup
  fresh : ∀ step ∈ trail, ∀ id, step.judged.view.ended = some id → opening.isEnded id = false
  /-- Of two standing demands, one stood by the run and both unlapsed, neither names a tag of the other. -/
  apart : ∀ a first second, first ≠ second → (state.handle.rows s).Stands first → (state.handle.rows s).Stands second →
    StoodBy trail a first → (opening.Stands second ∨ StoodBy trail a second) → a ≤ first.deadline → a ≤ second.deadline →
    ∀ tag ∈ first.tags, tag ≠ 0 → tag ∉ second.tags

/-- A run's rows are the opening's under newer ones, and hold the demands its records stood. -/
structure RunRows (opening : Rows) (state : SegmentState R) (trail : List (SegmentStep R)) (s : Store) : Prop where
  placed : s.WellPlaced
  stood : s.Stood
  presented : ∀ held ∈ opening.demands, held ∈ (state.handle.rows s).demands
  ended : ∀ id, (state.handle.rows s).isEnded id = false → opening.isEnded id = false
  trail : ∀ a row, StoodBy trail a row → ∃ held ∈ (state.handle.rows s).demands, held.row = row

variable [Crypto]

/-- A run of one segment's records, each judged outside an adopted block, the newest first. -/
inductive SegmentRun (state : SegmentState R) (first : Store) : List (SegmentStep R) → Store → Prop
  | nil : SegmentRun state first [] first
  | snoc {trail : List (SegmentStep R)} {s later : Store} {bytes : Bytes} {replay : SegmentReplay} {judged : Judged R} :
      SegmentRun state first trail s → replay.modeAt (state.handle.position s) ≠ .adoption →
      judgeRecord s state bytes replay = .ok judged → applyJudged s state judged replay = .ok later →
      SegmentRun state first (⟨s, judged, later⟩ :: trail) later

theorem Applied.lockSafe {s later : Store} {state : SegmentState R} {bytes : Bytes} {replay : SegmentReplay} {record : R}
    {n : Namespace} {effects : Append} {spent : SpentSet} {demand : Option StoredDemand}
    (applied : Applied s state bytes replay record n effects spent demand later) (placed : s.WellPlaced) (stood : s.Stood)
    (outside : replay.modeAt (state.handle.position s) ≠ .adoption) :
    LockSafe (state.handle.rows s) (state.handle.rows later) (judgmentFor s state record replay bytes n).toJudged := by
  have regular := judgedView_regular placed stood applied.found record
  have kinds := applied.judgeable.kind
  rw [← applied.kind] at kinds
  have guards := applied.finishable.guards
  have check : (judgmentFor s state record replay bytes n).check = true := decide_eq_true outside
  simp only [checkGuards, check, if_true, bind_unit_eq_ok, checkRecovery_eq_ok] at guards
  obtain ⟨-, -, -, standing, ending, spending⟩ := guards
  have rows := applied.rows placed
  have visible : state.handle.rows s = s.visible state.ns n.position := SegmentState.rows applied.found
  have nullifiers := applied.tags
  have unlocked : ∀ {except : Option Bytes}, (∀ tag ∈ (judgedView s state record).tags,
      locked (state.handle.view s) tag (replay.judgedAt (state.handle.position s)) except = false) →
      ∀ tag ∈ (judgedView s state record).tags, ∀ row, (state.handle.rows s).Stands row → tag ∈ row.tags →
        replay.judgedAt (state.handle.position s) ≤ row.deadline → some row.id = except :=
    fun free tag member => locked_eq_false.mp (free tag member)
  refine ⟨fun tag member row stands named bound => ?_, ?_, fun kind => ?_, fun kind => ?_, ?_, fun id named => ?_⟩
  · -- Issues, demands and withdrawals spend nothing; the other kinds each met the lock check.
    by_cases spends : (judgedView s state record).kind = 2 ∨ (judgedView s state record).kind = 3
    · exact absurd (unlocked (spending spends) tag member row stands named bound) (by simp)
    by_cases settles : (judgedView s state record).kind = 6
    · obtain ⟨id, demand, ended, -, -, -, settled⟩ := checkEnding_eq_ok.mp (ending (.inr settles))
      obtain ⟨-, -, -, -, -, -, -, free⟩ := checkSettlement_eq_ok.mp (settled (by simp [judgmentFor, settles]))
      exact ⟨settles, ended.trans (unlocked free tag member row stands named bound).symm⟩
    · have quiet := regular.quiet (by omega)
      have aligned := (judgedView s state record).aligned
      have none : (judgedView s state record).tags = [] := List.eq_nil_of_length_eq_zero (by rw [aligned, quiet]; rfl)
      have member : tag ∈ (judgedView s state record).tags := member
      rw [none] at member
      cases member
  · rw [rows, Rows.nullifiers_append, List.map_append, Namespace.added_nullifiers, List.map_map]
    exact congrArg (· ++ _) nullifiers
  · obtain ⟨id, demand, named, ⟨some_tag, distinct⟩, free, -⟩ := checkStanding_eq_ok.mp (standing kind)
    obtain ⟨value, own, -⟩ := regular.stands kind
    obtain ⟨rfl, rfl⟩ := Prod.mk.inj (Option.some.inj (own.symm.trans named))
    refine ⟨value, own, List.length_pos_iff.mp some_tag, distinct, fun tag member => ⟨(free tag member).1, ?_⟩⟩
    intro row stands named
    by_contra bound
    exact absurd (locked_eq_false.mp (free tag member).2 row stands named (Nat.le_of_not_lt bound)) (by simp)
  · obtain ⟨id, demand, ended, read, backing, -, settled⟩ := checkEnding_eq_ok.mp (ending (.inr kind))
    have other : (judgedView s state record).kind ≠ 5 := by
      rw [show (judgedView s state record).kind = 6 from kind]
      decide
    obtain ⟨quantity, -, -, -, -, -, slots, -⟩ := checkSettlement_eq_ok.mp (settled other)
    have read' : (state.handle.rows s).demand id = some demand := read
    obtain ⟨row, stands, rfl, rfl⟩ := Rows.demand_stands read'
    obtain ⟨held, listed, rfl⟩ := stands.1
    rw [visible] at listed
    have kept := (stood.visible placed ⟨n, applied.found, le_rfl⟩ listed).1
    refine ⟨held.row, stands, ended, quantity, backing, fun i tag seen nonzero => ?_⟩
    rw [kept.tags] at seen
    have inside : i < (judgedView s state record).nfs.length :=
      regular.slots kind (by rw [show (judgedView s state record).quantity = _ from quantity]; rfl) _ _ ended read i tag seen nonzero
    have slot := List.all_eq_true.mp slots i (List.mem_range.mpr inside)
    simp only [seen, Option.some.injEq, nonzero, decide_false, Bool.false_or, decide_eq_true_eq] at slot
    exact ⟨slot.symm, _, List.getElem?_eq_getElem inside⟩
  · rw [rows, Rows.demandEnds_append, List.map_append, Namespace.added_demandEnds, List.map_map, applied.carries.ended]
    simp [Function.comp_def]
  · have kind := regular.ends.mp (by rw [show (judgedView s state record).ended = _ from named]; rfl)
    obtain ⟨id', demand, ended, read, -⟩ := checkEnding_eq_ok.mp (ending kind)
    obtain rfl := Option.some.inj (named.symm.trans ended)
    obtain ⟨-, -, -, -, standing⟩ := Rows.demand_eq_some read
    exact standing

theorem Applied.demandRows {s later : Store} {state : SegmentState R} {bytes : Bytes} {replay : SegmentReplay} {record : R}
    {n : Namespace} {effects : Append} {spent : SpentSet} {demand : Option StoredDemand}
    (applied : Applied s state bytes replay record n effects spent demand later) (placed : s.WellPlaced) :
    (state.handle.rows later).demands =
      demand.toList.map (⟨state.ns, n.position + 1, ·⟩) ++ (state.handle.rows s).demands := by
  rw [applied.rows placed, Rows.demands_append, Namespace.added_demands]

theorem SegmentRun.rows {first s : Store} {state : SegmentState R} {trail : List (SegmentStep R)}
    (run : SegmentRun state first trail s) (placed : first.WellPlaced) (stood : first.Stood) :
    RunRows (state.handle.rows first) state trail s := by
  induction run with
  | nil => exact ⟨placed, stood, fun _ member => member, fun _ standing => standing, fun _ _ ⟨_, member, _⟩ => nomatch member⟩
  | @snoc trail s later bytes replay judged _ outside judging applying ih =>
    obtain ⟨record, n, effects, spent, demand, applied, rfl⟩ := judged_applied judging applying
    have safe := applied.lockSafe ih.placed ih.stood outside
    have demands := applied.demandRows ih.placed
    refine ⟨applied.placed ih.placed, applied.stood ih.placed ih.stood, fun held member => ?_, fun id standing => ?_,
      fun a row ⟨step, member, value, named, same, bound⟩ => ?_⟩
    · rw [demands]
      exact List.mem_append_right _ (ih.presented held member)
    · refine ih.ended id (Rows.isEnded_eq_false.mpr fun old => Rows.isEnded_eq_false.mp standing ?_)
      rw [safe.ends]
      exact List.mem_append_right _ old
    · rcases List.mem_cons.mp member with rfl | old
      · refine ⟨⟨state.ns, n.position + 1, row⟩, ?_, rfl⟩
        have named : (judgedView s state record).demand = some (row.id, value) := named
        rw [demands, applied.stored ih.placed ih.stood, named, Option.map_some, ← same]
        simp
      · obtain ⟨held, listed, rfl⟩ := ih.trail a row ⟨step, old, value, named, same, bound⟩
        exact ⟨held, by rw [demands]; exact List.mem_append_right _ listed, rfl⟩

/-- Lock safety: in a run of one segment's records, each judged outside an adopted block, no lock is
spent through, no demand is ended twice, and demands that stand together share no tag. -/
theorem SegmentRun.locked {r : Replays} (reach : replays.Reach r) {state : SegmentState R} {trail : List (SegmentStep R)}
    {s : Store} (run : SegmentRun state r.store trail s) : RunLocked (state.handle.rows r.store) state trail s := by
  obtain ⟨placed, stood⟩ := replays_stood.reach reach
  induction run with
  | nil =>
    refine ⟨fun _ member => ?_, rfl, List.nodup_nil, fun _ member => ?_, fun _ _ _ _ _ _ ⟨_, member, _⟩ => ?_⟩ <;>
      cases member
  | @snoc trail s later bytes replay judged run outside judging applying ih =>
    have rows := run.rows placed.store stood
    obtain ⟨record, n, effects, spent, demand, applied, rfl⟩ := judged_applied judging applying
    have safe := applied.lockSafe rows.placed rows.stood outside
    have regular := judgedView_regular rows.placed rows.stood applied.found record
    have ends : (state.handle.rows later).demandEnds.map (·.row) =
        (⟨s, (judgmentFor s state record replay bytes n).toJudged, later⟩ :: trail : List (SegmentStep R)).filterMap
          (·.judged.view.ended) ++ (state.handle.rows r.store).demandEnds.map (·.row) := by
      rw [safe.ends, ih.ends, ← List.append_assoc]
      congr 1
      cases ended : (judgmentFor s state record replay bytes n).view.ended <;> simp [ended]
    refine ⟨fun step member => ?_, ends, ?_, fun step member id named => ?_, ?_⟩
    · rcases List.mem_cons.mp member with rfl | old
      · exact safe
      · exact ih.steps step old
    · cases ended : (judgmentFor s state record replay bytes n).view.ended with
      | none => simpa [List.filterMap_cons, ended] using ih.once
      | some id =>
        have standing := Rows.isEnded_eq_false.mp (safe.standing id ended)
        rw [ih.ends, List.mem_append, not_or] at standing
        simpa [List.filterMap_cons, ended] using ⟨by simpa using standing.1, ih.once⟩
    · rcases List.mem_cons.mp member with rfl | old
      · exact rows.ended id (safe.standing id named)
      · exact ih.fresh step old id named
    · intro a first second different firstStands secondStands firstStood secondStood firstBound secondBound
      have older : ∀ row, (state.handle.rows later).isEnded row.id = false →
          ((state.handle.rows r.store).Stands row ∨ StoodBy trail a row) → (state.handle.rows s).Stands row := by
        intro row standing origin
        refine ⟨?_, Rows.isEnded_eq_false.mpr fun old => Rows.isEnded_eq_false.mp standing ?_⟩
        · rcases origin with ⟨⟨held, listed, same⟩, -⟩ | stood
          · exact ⟨held, rows.presented held listed, same⟩
          · exact rows.trail a row stood
        · rw [safe.ends]
          exact List.mem_append_right _ old
      rcases StoodBy.cons firstStood with ⟨value, named, same, bound⟩ | firstOld
      · -- The new demand found every standing one's tags free at its index.
        have secondOld : (state.handle.rows s).Stands second := by
          rcases secondStood with opening | stood
          · exact older second secondStands.2 (.inl opening)
          · rcases StoodBy.cons stood with ⟨value', named', same', -⟩ | old
            · obtain ⟨sameId, rfl⟩ := Prod.mk.inj (Option.some.inj (named.symm.trans named'))
              exact absurd (same.trans ((congrArg (StoredDemand.of · value) sameId).trans same'.symm)) different
            · exact older second secondStands.2 (.inr old)
        exact fun tag inFirst nonzero inSecond =>
          safe.new_apart regular named same bound secondOld secondBound tag inFirst nonzero inSecond
      · have firstStands := older first firstStands.2 (.inr firstOld)
        rcases secondStood with opening | stood
        · exact ih.apart a first second different firstStands (older second secondStands.2 (.inl opening)) firstOld
            (.inl opening) firstBound secondBound
        · rcases StoodBy.cons stood with ⟨value, named, same, bound⟩ | secondOld
          · exact fun tag inFirst nonzero inSecond =>
              safe.new_apart regular named same bound firstStands firstBound tag inSecond nonzero inFirst
          · exact ih.apart a first second different firstStands (older second secondStands.2 (.inr secondOld)) firstOld
              (.inr secondOld) firstBound secondBound

end Runs

section Sample

local instance : Crypto := sampleCrypto

/-- A signature the sample verifier accepts under `key`. -/
def sampleSign (key message : Bytes) : Bytes := toBytes 64 (sampleDigest 13 ((key ++ message).map (·.toNat)))

/-- A demand of five of the sample backing, over one tag, until index 40. -/
def sampleDemand : RecordBody where
  domain := sampleName 0
  kind := 4
  publicInputs := sampleLimbs (sampleName 0) ++ sampleLimbs (sampleName 1) ++ [5] ++ sampleLimbs (sampleName 3) ++
    [5, emptyNoteRoot, 0, 77, 0] ++ sampleLimbs (sampleName 7) ++ [1, 40]
  proof := List.replicate 32 0
  authorization := []
  capsules := []

/-- The withdrawal of the sample demand by its presenter. -/
def sampleWithdrawal : RecordBody :=
  let statement : Statement := ⟨sampleName 0, 5, sampleLimbs (sampleName 0) ++ sampleLimbs (sampleName 1) ++ [5] ++
    sampleLimbs (statementHash sampleDemand.toStatement)⟩
  { statement with proof := [], capsules := [], authorization := sampleSign (sampleName 7) (withdrawalBytes statement) }

/-- The kinds judged where a segment is opened, the sample demand stood and then withdrawn. -/
def sampleRecovery : Except Failure (List Nat) := do
  let (state, opened) ← openSegmentState Store.empty (sampleName 1) (sampleName 9) none poolV3
  let stood ← judgeRecord opened state (encodeRecord sampleDemand) sampleReplay
  let standing ← applyJudged opened state stood sampleReplay
  let withdrawn ← judgeRecord standing state (encodeRecord sampleWithdrawal) sampleReplay
  let _ ← applyJudged standing state withdrawn sampleReplay
  return [withdrawn.view.kind, stood.view.kind]

theorem sampleRecovery_locked : ∃ (state : SegmentState Record) (opened s : Store) (trail : List (SegmentStep Record)),
    trail.map (·.judged.view.kind) = [5, 4] ∧ RunLocked (state.handle.rows opened) state trail s := by
  have runs : sampleRecovery = .ok [5, 4] := by decide +kernel
  obtain ⟨⟨state, opened⟩, opening, run⟩ := bind_eq_ok.mp runs
  obtain ⟨stood, judging, run⟩ := bind_eq_ok.mp run
  obtain ⟨standing, applying, run⟩ := bind_eq_ok.mp run
  obtain ⟨withdrawn, judging', run⟩ := bind_eq_ok.mp run
  obtain ⟨last, applying', kinds⟩ := bind_eq_ok.mp run
  have outside : ∀ position, sampleReplay.modeAt position ≠ .adoption := by simp [SegmentReplay.modeAt, sampleReplay]
  have reach : replays.Reach ⟨opened, []⟩ := .next (.start rfl) (.opened (r := ⟨Store.empty, []⟩) .none opening)
  have once : SegmentRun state opened _ standing := .snoc .nil (outside _) judging applying
  have twice : SegmentRun state opened _ last := .snoc once (outside _) judging' applying'
  refine ⟨state, opened, last, _, ?_, SegmentRun.locked reach twice⟩
  exact pure_eq_ok.mp kinds

end Sample

end Moe
