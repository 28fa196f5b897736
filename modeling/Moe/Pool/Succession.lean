import Moe.Pool.Mirror

namespace Moe

variable {R : Type}

/-- A snapshot forced publications may be adopted over: one identity shows one demand, and no demand is shown ended
that was not shown presented. -/
structure Rows.Recoverable (rows : Rows) : Prop where
  once : ∀ first ∈ rows.demands, ∀ second ∈ rows.demands, first.row.id = second.row.id → first.row.demand = second.row.demand
  presented : ∀ id, rows.isEnded id = true → rows.isEffective id = true

/-- A search among the same entries in another order finds the same, where all it may find are alike. -/
theorem find?_perm {α β : Type} {a b : List α} (perm : a.Perm b) (matched : α → Bool) (f : α → β)
    (alike : ∀ x ∈ a, ∀ y ∈ a, matched x = true → matched y = true → f x = f y) :
    (a.find? matched).map f = (b.find? matched).map f := by
  cases first : a.find? matched with
  | none =>
    have absent : b.find? matched = none := by
      rw [List.find?_eq_none] at first ⊢
      exact fun x member => first x (perm.mem_iff.mpr member)
    rw [absent]
  | some x =>
    obtain ⟨y, second⟩ : ∃ y, b.find? matched = some y :=
      Option.isSome_iff_exists.mp (List.find?_isSome.mpr
        ⟨x, perm.mem_iff.mp (List.mem_of_find?_eq_some first), List.find?_some first⟩)
    rw [second, Option.map_some, Option.map_some, alike x (List.mem_of_find?_eq_some first) y
      (perm.mem_iff.mpr (List.mem_of_find?_eq_some second)) (List.find?_some first) (List.find?_some second)]

/-- Rows of one history in two orders, but for their anchors. -/
structure Rows.Shuffled (a b : Rows) : Prop where
  events : a.events.Perm b.events
  nullifiers : a.nullifiers.Perm b.nullifiers
  outputs : a.outputs.Perm b.outputs
  demands : a.demands.Perm b.demands
  demandEnds : a.demandEnds.Perm b.demandEnds

section Shuffled

variable {a b : Rows}

theorem Rows.Shuffled.isEnded (shuffled : a.Shuffled b) (id : Bytes) : a.isEnded id = b.isEnded id := shuffled.demandEnds.any_eq

theorem Rows.Shuffled.isEffective (shuffled : a.Shuffled b) (id : Bytes) : a.isEffective id = b.isEffective id :=
  shuffled.events.any_eq

/-- One demand shown for one identity is read in either order. -/
theorem Rows.Shuffled.demand (shuffled : a.Shuffled b) (recoverable : b.Recoverable) (id : Bytes) : a.demand id = b.demand id := by
  rw [Rows.demand_eq, Rows.demand_eq, shuffled.isEnded]
  congr 1
  refine (find?_perm shuffled.demands.symm _ _ fun first member second member' named named' => ?_).symm
  exact recoverable.once first member second member' ((of_decide_eq_true named).trans (of_decide_eq_true named').symm)

/-- An output held once is read in either order. -/
theorem Rows.Shuffled.output (shuffled : a.Shuffled b) (once : (b.outputs.map (·.row.cm)).Nodup) (cm : Nat) :
    a.output cm = b.output cm := by
  have same := find?_perm shuffled.outputs.symm (fun held => decide (held.row.cm = cm)) id fun first member second member' named named' =>
    List.inj_on_of_nodup_map once member member' ((of_decide_eq_true named).trans (of_decide_eq_true named').symm)
  simpa only [Option.map_id, id_eq, Rows.output] using same.symm

theorem Rows.Shuffled.mem_demandsWithTag (shuffled : a.Shuffled b) (tag : Nat) (entry : Bytes × Demand) :
    entry ∈ a.demandsWithTag tag ↔ entry ∈ b.demandsWithTag tag := by
  simp only [Rows.mem_demandsWithTag, shuffled.isEnded, shuffled.demands.mem_iff]

theorem Rows.Shuffled.mem_presentedWithTag (shuffled : a.Shuffled b) (tag : Nat) (entry : Bytes × Demand) :
    entry ∈ a.presentedWithTag tag ↔ entry ∈ b.presentedWithTag tag := by
  simp only [Rows.mem_presentedWithTag, shuffled.demands.mem_iff]

end Shuffled

theorem SpentSet.insertAll_bound [Crypto] {set result : SpentSet} {keys : List Nat} (inserted : set.insertAll keys = .ok result) :
    ∀ x ∈ keys, x < keyBound := by
  induction keys generalizing set with
  | nil => exact fun _ member => absurd member List.not_mem_nil
  | cons key rest ih =>
    obtain ⟨middle, first, run⟩ := bind_eq_ok.mp inserted
    exact List.forall_mem_cons.mpr ⟨insert_bound first, ih run⟩

section Opened

variable [Crypto] {r : Replays} {h : StateHandle R} {segment identity : Bytes} {state : SegmentState R} {opened : Store}

/-- A segment opened over a snapshot reads the snapshot's history, its own empty anchor beside it. -/
theorem Store.Audited.opened_rows {s : Store} (audited : s.Audited)
    (made : StateHandle.make s h.ns h.fixed h.construction = .ok h)
    (opening : openSegmentState s segment identity (some (h.frontier s)) h.construction = .ok (state, opened)) :
    ∃ own, (∀ placed ∈ own, placed.row = .anchor emptyNoteRoot) ∧ opened.rows state.ns = own ∧
      (state.handle.rows opened).Perm (own ++ h.rows s) := by
  obtain ⟨history, evidence, spent, -, -, -, -, -, rfl, rfl⟩ := openSegmentState_eq_ok.mp opening
  have held := StateHandle.make_holds made
  have unused : s.namespaces s.next = none := audited.fresh _ le_rfl
  obtain ⟨n, found, -⟩ := id held
  have named := audited.toWellPlaced.frontier held
  refine ⟨_, fun placed member => by rw [Store.fresh_rows member], Store.rows_of_found Store.opened_self, ?_⟩
  rw [SegmentState.rows Store.opened_self]
  refine (Store.visible_opened unused named.2).trans (List.Perm.append_left _ ?_)
  exact Store.frontier_perm found (audited.apart _ n found)

/-- Rows with nothing but empty anchors over a history are that history shuffled. -/
theorem Rows.shuffled_of_perm {rows own base : Rows} (perm : rows.Perm (own ++ base))
    (anchors : ∀ placed ∈ own, placed.row = .anchor emptyNoteRoot) : rows.Shuffled base := by
  have table : ∀ {α : Type} (pick : Fact → Option α), pick (.anchor emptyNoteRoot) = none →
      (Rows.table pick rows).Perm (Rows.table pick base) := by
    intro α pick skips
    have none : Rows.table pick own = [] := by
      refine List.filterMap_eq_nil_iff.mpr fun placed member => ?_
      rw [anchors placed member, skips]
      rfl
    have tables := Rows.table_perm pick perm
    rwa [Rows.table_append, none, List.nil_append] at tables
  exact ⟨table _ rfl, table _ rfl, table _ rfl, table _ rfl, table _ rfl⟩

/-- Before anything is forced, the segment opened over a snapshot mirrors the overlay opened on it. -/
theorem Mirrors.start (audited : r.Audited) (placed : r.WellPlaced) (stood : r.store.Stood)
    (made : StateHandle.make r.store h.ns h.fixed h.construction = .ok h) (recoverable : (h.rows r.store).Recoverable)
    (opening : openSegmentState r.store segment identity (some (h.frontier r.store)) h.construction = .ok (state, opened)) :
    ∃ n, Mirrors state (openForceState (h.view r.store)) opened n ∧ n.position = 0 ∧ n.leaves = 0 ∧
      state.construction = h.construction := by
  obtain ⟨own, anchors, ownRows, perm⟩ := audited.store.opened_rows made opening
  have shuffled := Rows.shuffled_of_perm perm anchors
  have held := StateHandle.make_holds made
  have step : ReplayStep r (.opened segment (some (h.frontier r.store))) { r with store := opened } := .opened (.state made) opening
  obtain ⟨later, stoodLater⟩ := replays_stood.step _ _ _ ⟨placed, stood⟩ step
  obtain ⟨history, evidence, spent, -, -, -, -, inserted, rfl, rfl⟩ := openSegmentState_eq_ok.mp opening
  have ledger := audited.store.ledgers _ _ held
  have grows : r.store.Grows (r.store.opened segment identity (h.frontier r.store) history evidence h.construction.keeps spent) :=
    Store.opened_grows (audited.store.fresh _ le_rfl)
  have imported : ∀ nf, nf ∈ r.store.importedNullifiers (h.frontier r.store) → (h.rows r.store).hasNullifier nf = true := by
    obtain ⟨n, found, -⟩ := id held
    have same := Store.frontier_perm (p := h.position r.store) found (audited.store.apart _ n found)
    intro nf listed
    rw [Rows.hasNullifier_eq, decide_eq_true_eq]
    exact ((Rows.table_perm _ same).map _).mem_iff.mp listed
  refine ⟨_, ⟨later.store, stoodLater, Store.opened_self, rfl, ⟨fun event member => ?_, fun nf listed => ?_⟩, fun id ended => ?_,
    openForceState_kept fun id demand read => ?_, ⟨fun nf => ?_, fun cm => ?_, fun id => ?_, fun tag entry => ?_,
      fun tag entry => ?_, fun id => ?_, fun tag => ?_, fun cm => ?_⟩, fun root => ?_, fun cm => ?_⟩, rfl, rfl, rfl⟩
  · rw [Rows.events, Store.fresh_table rfl] at member
    cases member
  · have given : nf ∈ r.store.importedNullifiers (h.frontier r.store) := by
      simpa [SpentSet.keys] using (SpentSet.insertAll_keys inserted nf).mp listed
    refine ⟨SpentSet.insertAll_bound inserted nf given, ?_⟩
    exact shuffled.nullifiers.any_eq.trans (imported nf given)
  · rw [shuffled.isEnded] at ended
    rw [shuffled.isEffective]
    exact recoverable.presented id ended
  · exact stood.effective placed.store held read
  · exact shuffled.nullifiers.any_eq
  · exact shuffled.outputs.any_eq
  · show _ = (openForceState (h.view r.store)).demand id
    simp only [ForceState.demand, openForceState, List.not_mem_nil, if_false, OrderedMap.get?_nil, Option.none_or]
    exact shuffled.demand recoverable id
  · rw [ForceState.mem_demandsWithTag]
    simp only [openForceState, List.not_mem_nil, false_and, or_false, not_false_eq_true, and_true]
    exact shuffled.mem_demandsWithTag tag entry
  · rw [ForceState.mem_presentedWithTag]
    simp only [openForceState, List.not_mem_nil, false_and, or_false]
    exact shuffled.mem_presentedWithTag tag entry
  · exact shuffled.isEffective id
  · exact shuffled.nullifiers.any_eq
  · show _ = (OrderedMap.get? [] cm).or (h.settledFor r.store cm)
    rw [OrderedMap.get?_nil, Option.none_or]
    exact StateHandle.settledFor_congr grows placed.store held rfl (shuffled.output ledger.outputs cm)
  · rw [← Rows.hasAnchor_eq, ← Store.rows_of_found Store.opened_self, ownRows]
    exact (Rows.table_perm _ perm).any_eq.trans (Rows.hasAnchor_append ..)
  · rw [Rows.outputs, Store.fresh_table rfl]
    exact shuffled.outputs.any_eq

end Opened

section Run

variable [Crypto] {s : Store} {state : SegmentState R} {n : Namespace} {replay : SegmentReplay} {force last : ForceState}
  {context : ForceContext} {publications : List Publication}

/-- Publications force takes, the segment that mirrors it adopts in order. -/
theorem Mirrors.run (mirrors : Mirrors state force s n)
    (run : forceAll state.construction context force publications = .ok last)
    (adopts : replay.Adopts state.construction context.backing)
    (block : ∀ (i : Nat) publication, publications[i]? = some publication → replay.block[n.position + i]? = some publication.adopted)
    (capacity : n.position + publications.length < valueBound)
    (room : state.construction.keeps.tree = true →
      n.leaves + publications.countP (fun publication => state.construction.settles publication.bytes) ≤ noteTreeCapacity) :
    ∃ s' n', adoptAll s state replay (publications.map (·.bytes)) = .ok s' ∧ Mirrors state last s' n' ∧
      n'.position = n.position + publications.length := by
  induction publications generalizing force s n with
  | nil =>
    obtain rfl := pure_eq_ok.mp run
    exact ⟨s, n, rfl, mirrors, rfl⟩
  | cons publication rest ih =>
    obtain ⟨middle, first, run⟩ := bind_eq_ok.mp run
    rw [List.length_cons] at capacity
    obtain ⟨s₁, n₁, adopted, mirrors₁, position, leaves⟩ := @Mirrors.step _ _ _ _ _ _ _ _ _ (context.at publication) _ mirrors first adopts
      (block 0 publication rfl) (by omega) fun tree => by
        have room := room tree
        rw [List.countP_cons] at room
        omega
    obtain ⟨s', n', others, mirrors', position'⟩ := ih mirrors₁ run (fun i other seen => by
        rw [position, Nat.add_assoc, Nat.add_comm 1 i]
        exact block (i + 1) other seen) (by omega) fun tree => by
        have room := room tree
        rw [List.countP_cons] at room
        omega
    exact ⟨s', n', bind_eq_ok.mpr ⟨s₁, adopted, others⟩, mirrors', by rw [position', position, List.length_cons]; omega⟩

end Run

section Simulated

variable [Crypto]

/-- Publications force takes over a snapshot, and a segment opened over that snapshot to adopt them. -/
structure Succession (s : Store) (h : StateHandle R) (context : ForceContext) (publications : List Publication)
    (state : SegmentState R) (opened : Store) (replay : SegmentReplay) : Prop where
  made : StateHandle.make s h.ns h.fixed h.construction = .ok h
  taken : ∃ last, forceAll h.construction context (openForceState (h.view s)) publications = .ok last
  opening : ∃ segment identity, openSegmentState s segment identity (some (h.frontier s)) h.construction = .ok (state, opened)
  adopts : replay.Adopts h.construction context.backing
  block : replay.block = publications.map (·.adopted)
  capacity : publications.length < valueBound
  room : h.construction.keeps.tree = true →
    publications.countP (fun publication => h.construction.settles publication.bytes) ≤ noteTreeCapacity

/-- Some publications forced over the snapshot and adopted by the segment, which then answers as the overlay does, its
own roots and outputs apart. -/
structure Simulated (s : Store) (h : StateHandle R) (context : ForceContext) (before : List Publication)
    (state : SegmentState R) (opened : Store) (replay : SegmentReplay) (force : ForceState) (adopted : Store) : Prop where
  forced : forceAll h.construction context (openForceState (h.view s)) before = .ok force
  accepted : adoptAll opened state replay (before.map (·.bytes)) = .ok adopted
  position : state.handle.position adopted = before.length
  same : SameAnswers (state.handle.view adopted) force.view
  anchors : ∀ root, (state.handle.view adopted).hasAnchor root =
    ((adopted.rows state.ns).hasAnchor root || force.view.hasAnchor root)
  inputs : ∀ cm, (state.handle.view adopted).isInput cm = ((adopted.rows state.ns).hasOutput cm || force.view.isInput cm)

/-- Force is simulated by adoption: over a recoverable snapshot, the segment adopts record by record what force took,
and answers alike after each prefix. -/
theorem Succession.simulated {r : Replays} {h : StateHandle R} {context : ForceContext} {publications : List Publication}
    {state : SegmentState R} {opened : Store} {replay : SegmentReplay} (reach : apartReplays.Reach r)
    (succession : Succession r.store h context publications state opened replay) (recoverable : (h.rows r.store).Recoverable) :
    ∀ before after, publications = before ++ after →
      ∃ force adopted, Simulated r.store h context before state opened replay force adopted := by
  rintro before after rfl
  obtain ⟨made, ⟨last, run⟩, ⟨segment, identity, opening⟩, adopts, block, capacity, room⟩ := succession
  have audited := apartReplays_audited.reach reach
  obtain ⟨placed, stood⟩ := replays_stood.reach (apartReplays_reach reach)
  obtain ⟨n, mirrors, start, empty, construction⟩ := Mirrors.start audited placed stood made recoverable opening
  rw [forceAll, List.foldlM_append] at run
  obtain ⟨force, taken, -⟩ := bind_eq_ok.mp run
  rw [List.length_append] at capacity
  have adopting : ∀ (i : Nat) publication, before[i]? = some publication →
      replay.block[n.position + i]? = some publication.adopted := by
    intro i publication seen
    have inside := (List.getElem?_eq_some_iff.mp seen).1
    rw [block, start, Nat.zero_add, List.getElem?_map, List.getElem?_append_left inside, seen]
    rfl
  have below : state.construction.keeps.tree = true →
      n.leaves + before.countP (fun publication => state.construction.settles publication.bytes) ≤ noteTreeCapacity := by
    rw [empty, construction]
    intro tree
    have room := room tree
    rw [List.countP_append] at room
    omega
  rw [← construction] at taken adopts
  obtain ⟨adopted, n', accepted, mirrors', position⟩ := mirrors.run taken adopts adopting (by omega) below
  refine ⟨force, adopted, construction ▸ taken, accepted, ?_, mirrors'.same, ?_, ?_⟩
  · rw [SegmentState.position mirrors'.found, position, start, Nat.zero_add]
  · simp only [Store.rows_of_found mirrors'.found, Rows.hasAnchor_eq]
    exact mirrors'.anchors
  · simp only [Store.rows_of_found mirrors'.found, Rows.hasOutput_eq]
    exact mirrors'.inputs

end Simulated

section Sample

local instance forcedCrypto : Crypto := sampleCrypto

/-- The sample backing's force judgment. -/
def sampleForce : ForceContext where
  domain := sampleName 0
  backing := sampleName 3
  segment := sampleName 1
  scope := some 5
  issuer := sampleName 4
  index := 0
  lag := 0
  verifier := ⟨fun _ _ _ => .ok true⟩

/-- A replay of the segment named 2 that adopts some publications. -/
def sampleHeir (publications : List Publication) : SegmentReplay :=
  { sampleReplay with segment := sampleName 2, block := publications.map (·.adopted) }

theorem sampleHeir_adopts (publications : List Publication) : (sampleHeir publications).Adopts poolV3 sampleForce.backing where
  unfinalized := rfl
  termed := rfl
  selected := .inr rfl
  marks _ := ⟨none, rfl⟩

/-- A settlement of the sample demand, with no acceptance or release signed. -/
def sampleSettlement : RecordBody where
  domain := sampleName 0
  kind := 6
  publicInputs := sampleLimbs (sampleName 0) ++ sampleLimbs (sampleName 1) ++ [5] ++ sampleLimbs (sampleName 3) ++
    [5, 8, 9, 0, 0, 31, 32, 41] ++ sampleLimbs (statementHash sampleDemand.toStatement)
  proof := List.replicate 32 0
  authorization := List.replicate 136 0
  capsules := []

/-- The segment named 1 replays `first`; `publications` are forced over it and adopted by the segment named 2. -/
def sampleForcing (replay : SegmentReplay) (first : RecordBody) (publications : List Publication) :
    Except Failure ((StateHandle Record × Store) × ForceState × (SegmentState Record × Store) × Store) := do
  let (state, opened) ← openSegmentState Store.empty (sampleName 1) (sampleName 9) none poolV3
  let snapshot ← applyRecord opened state (encodeRecord first) replay
  let force ← forceAll poolV3 sampleForce (openForceState (state.handle.view snapshot)) publications
  let (heir, opened) ← openSegmentState snapshot (sampleName 2) (sampleName 9) (some (state.handle.frontier snapshot)) poolV3
  let adopted ← adoptAll opened heir (sampleHeir publications) (publications.map (·.bytes))
  return ((state.handle, snapshot), force, (heir, opened), adopted)

/-- A forcing is of a segment that imports nothing, and a succession from it. -/
theorem sampleForcing_succession {replay : SegmentReplay} {first : RecordBody} {publications : List Publication}
    {h : StateHandle Record} {snapshot opened adopted : Store} {force : ForceState} {heir : SegmentState Record}
    (small : publications.length ≤ 1)
    (run : sampleForcing replay first publications = .ok ((h, snapshot), force, (heir, opened), adopted)) :
    apartReplays.Reach ⟨snapshot, []⟩ ∧ Succession snapshot h sampleForce publications heir opened (sampleHeir publications) ∧
      forceAll h.construction sampleForce (openForceState (h.view snapshot)) publications = .ok force ∧
      adoptAll opened heir (sampleHeir publications) (publications.map (·.bytes)) = .ok adopted := by
  obtain ⟨⟨state, empty⟩, start, run⟩ := bind_eq_ok.mp run
  obtain ⟨snapshot', applying, run⟩ := bind_eq_ok.mp run
  obtain ⟨force', taken, run⟩ := bind_eq_ok.mp run
  obtain ⟨⟨heir', opened'⟩, opening, run⟩ := bind_eq_ok.mp run
  obtain ⟨adopted', adopting, run⟩ := bind_eq_ok.mp run
  cases pure_eq_ok.mp run
  obtain ⟨n, found, -, -, -, keeps⟩ := openSegmentState_opened start
  obtain ⟨n', found', grown⟩ := applyRecord_grows applying _ _ found
  have construction : state.construction = poolV3 := by
    obtain ⟨-, -, -, -, -, -, -, -, rfl, -⟩ := openSegmentState_eq_ok.mp start
    rfl
  have made : state.handle.construction = poolV3 := construction
  have settlements := List.countP_le_length (p := fun publication : Publication => poolV3.settles publication.bytes)
    (l := publications)
  refine ⟨.next (.next (.start rfl) ⟨.opened .none start, List.not_mem_nil⟩) ⟨.applied found keeps applying, True.intro⟩,
    ⟨?_, ⟨force, made ▸ taken⟩, ⟨sampleName 2, sampleName 9, made ▸ opening⟩, made ▸ sampleHeir_adopts publications, rfl, ?_,
      fun _ => ?_⟩, made ▸ taken, adopting⟩
  · exact StateHandle.make_eq_ok.mpr ⟨n', found', congrArg _ (grown.keeps.trans keeps), rfl, rfl⟩
  · exact lt_of_le_of_lt small (by decide)
  · rw [made]
    exact (settlements.trans small).trans (by decide)

/-- The sample demand's withdrawal, forced over the segment that stood the demand, is adopted by its successor. -/
theorem sampleForcing_simulated : ∃ (h : StateHandle Record) (snapshot opened : Store) (heir : SegmentState Record) (force : ForceState)
    (adopted : Store), (h.rows snapshot).demands.length = 1 ∧ Simulated snapshot h sampleForce [⟨encodeRecord sampleWithdrawal, 6, 3⟩]
      heir opened (sampleHeir [⟨encodeRecord sampleWithdrawal, 6, 3⟩]) force adopted := by
  have runs : (sampleForcing sampleReplay sampleDemand [⟨encodeRecord sampleWithdrawal, 6, 3⟩]).toOption.any (fun result =>
      (result.1.1.rows result.1.2).demands.length = 1 && (result.1.1.rows result.1.2).demandEnds.length = 0) = true := by
    decide +kernel
  obtain ⟨⟨⟨h, snapshot⟩, force, ⟨heir, opened⟩, adopted⟩, run, runs⟩ := ok_of_any runs
  simp only [Bool.and_eq_true, decide_eq_true_eq] at runs
  obtain ⟨one, none⟩ := runs
  obtain ⟨reach, succession, -⟩ := sampleForcing_succession le_rfl run
  have recoverable : (h.rows snapshot).Recoverable := by
    obtain ⟨held, only⟩ := List.length_eq_one_iff.mp one
    refine ⟨fun first member second member' _ => ?_, fun id ended => ?_⟩
    · rw [only, List.mem_singleton] at member member'
      rw [member, member']
    · rw [Rows.isEnded, List.length_eq_zero_iff.mp none] at ended
      cases ended
  obtain ⟨force', adopted', simulated⟩ := Succession.simulated reach succession recoverable _ [] (List.append_nil _).symm
  exact ⟨h, snapshot, opened, heir, force', adopted', one, simulated⟩

/-- A settlement adopted without its demand ends what was never presented: force then stands that demand, and the
segment that adopts it does not. -/
theorem sampleForcing_orphan : ∃ (h : StateHandle Record) (snapshot opened : Store) (heir : SegmentState Record)
    (publications : List Publication), apartReplays.Reach ⟨snapshot, []⟩ ∧
      Succession snapshot h sampleForce publications heir opened (sampleHeir publications) ∧
      ¬∃ force adopted, Simulated snapshot h sampleForce publications heir opened (sampleHeir publications) force adopted := by
  have runs : (sampleForcing { sampleReplay with block := [⟨encodeRecord sampleSettlement, 5⟩] } sampleSettlement
      [⟨encodeRecord sampleDemand, 6, 3⟩]).toOption.any (fun result =>
      (result.2.1.view.demand (statementHash sampleDemand.toStatement)).isSome &&
      ((result.2.2.1.1.handle.view result.2.2.2).demand (statementHash sampleDemand.toStatement)).isNone) = true := by
    decide +kernel
  obtain ⟨⟨⟨h, snapshot⟩, force, ⟨heir, opened⟩, adopted⟩, run, runs⟩ := ok_of_any runs
  simp only [Bool.and_eq_true] at runs
  obtain ⟨stands, absent⟩ := runs
  obtain ⟨reach, succession, taken, adopting⟩ := sampleForcing_succession le_rfl run
  refine ⟨h, snapshot, opened, heir, _, reach, succession, fun simulates => ?_⟩
  obtain ⟨force', adopted', simulated⟩ := simulates
  obtain rfl := Except.ok.inj (taken.symm.trans simulated.forced)
  obtain rfl := Except.ok.inj (adopting.symm.trans simulated.accepted)
  rw [← simulated.same.demand, Option.isNone_iff_eq_none.mp absent] at stands
  cases stands

/-- The segment named 1 issues and is opened again over its own state, which the segment named 2 imports. -/
def sampleHidden : Except Failure ((StateHandle Record × Store) × SegmentState Record × Store) := do
  let (first, opened) ← openSegmentState Store.empty (sampleName 1) (sampleName 9) none poolV3
  let issued ← applyRecord opened first (encodeRecord sampleIssue) sampleReplay
  let (again, snapshot) ← openSegmentState issued (sampleName 1) (sampleName 9) (some (first.handle.frontier issued)) poolV3
  let (heir, opened) ← openSegmentState snapshot (sampleName 2) (sampleName 9) (some (again.handle.frontier snapshot)) poolV3
  return ((again.handle, snapshot), heir, opened)

/-- A snapshot that imports its own segment shows an output which its successor does not import. -/
theorem sampleHidden_unsimulated : ∃ (h : StateHandle Record) (snapshot opened : Store) (heir : SegmentState Record),
    replays.Reach ⟨snapshot, []⟩ ∧ (h.rows snapshot).Recoverable ∧
      Succession snapshot h sampleForce [] heir opened (sampleHeir []) ∧
      ¬∃ force adopted, Simulated snapshot h sampleForce [] heir opened (sampleHeir []) force adopted := by
  have runs : sampleHidden.toOption.any (fun result => (result.1.1.view result.1.2).hasOutput 21 &&
      (result.1.1.rows result.1.2).demands.length = 0 && (result.1.1.rows result.1.2).demandEnds.length = 0 &&
      !(result.2.1.handle.view result.2.2).hasOutput 21) = true := by
    decide +kernel
  obtain ⟨⟨⟨h, snapshot⟩, heir, opened⟩, run, runs⟩ := ok_of_any runs
  simp only [Bool.and_eq_true, decide_eq_true_eq, Bool.not_eq_true'] at runs
  obtain ⟨⟨⟨shown, demands⟩, ends⟩, hidden⟩ := runs
  obtain ⟨⟨first, empty⟩, start, run⟩ := bind_eq_ok.mp run
  obtain ⟨issued, issuing, run⟩ := bind_eq_ok.mp run
  obtain ⟨⟨again, snapshot'⟩, importing, run⟩ := bind_eq_ok.mp run
  obtain ⟨⟨heir', opened'⟩, opening, run⟩ := bind_eq_ok.mp run
  cases pure_eq_ok.mp run
  obtain ⟨n, found, -, -, -, keeps⟩ := openSegmentState_opened start
  obtain ⟨n', found', grown⟩ := applyRecord_grows issuing _ _ found
  obtain ⟨m, foundM, -, -, -, keepsM⟩ := openSegmentState_opened importing
  have made : again.handle.construction = poolV3 := by
    obtain ⟨-, -, -, -, -, -, -, -, rfl, -⟩ := openSegmentState_eq_ok.mp importing
    rfl
  have opens : ReplayStep ⟨Store.empty, []⟩ _ ⟨empty, []⟩ := .opened .none start
  have applies : ReplayStep ⟨empty, []⟩ (.applied first.ns (encodeRecord sampleIssue)) ⟨issued, []⟩ := .applied found keeps issuing
  have imported : ReplayStep ⟨issued, []⟩ _ ⟨snapshot, []⟩ :=
    .opened (.tip (r := ⟨issued, []⟩) found' (grown.keeps.trans keeps)) importing
  refine ⟨again.handle, snapshot, opened, heir, .next (.next (.next (.start rfl) opens) applies) imported, ⟨?_, ?_⟩,
    ⟨?_, ⟨_, rfl⟩, ⟨sampleName 2, sampleName 9, made ▸ opening⟩, made ▸ sampleHeir_adopts [], rfl, by decide, fun _ => Nat.zero_le _⟩,
    fun simulates => ?_⟩
  · intro held member
    rw [List.length_eq_zero_iff.mp demands] at member
    cases member
  · intro id ended
    rw [Rows.isEnded, List.length_eq_zero_iff.mp ends] at ended
    cases ended
  · exact StateHandle.make_eq_ok.mpr ⟨m, foundM, congrArg _ keepsM, rfl, rfl⟩
  · obtain ⟨force, adopted, simulated⟩ := simulates
    obtain rfl := pure_eq_ok.mp simulated.forced
    obtain rfl := pure_eq_ok.mp simulated.accepted
    have same := simulated.same.hasOutput 21
    rw [hidden] at same
    simp [openForceState, ForceState.view, shown] at same

/-- Both conditions on the snapshot are needed. -/
theorem sampleForcing_unsimulated :
    (∃ (h : StateHandle Record) (snapshot opened : Store) (heir : SegmentState Record),
      replays.Reach ⟨snapshot, []⟩ ∧ (h.rows snapshot).Recoverable ∧
        Succession snapshot h sampleForce [] heir opened (sampleHeir []) ∧
        ¬∃ force adopted, Simulated snapshot h sampleForce [] heir opened (sampleHeir []) force adopted) ∧
      ∃ (h : StateHandle Record) (snapshot opened : Store) (heir : SegmentState Record) (publications : List Publication),
        apartReplays.Reach ⟨snapshot, []⟩ ∧
        Succession snapshot h sampleForce publications heir opened (sampleHeir publications) ∧
        ¬∃ force adopted, Simulated snapshot h sampleForce publications heir opened (sampleHeir publications) force adopted :=
  ⟨sampleHidden_unsimulated, sampleForcing_orphan⟩

end Sample

end Moe
