import Moe.Lib.Machine
import Moe.Pool.Placement

namespace Moe

/-- The replays one store carries, and the frontiers the merge accepted over it. -/
structure Replays where
  store : Store
  merged : List Imports

/-- What a caller does with a store: it opens a segment over some frontier, merges parents' frontiers, or
applies a record at a segment's tip. -/
inductive ReplayAction
  | opened (segment : Bytes) (imported : Option Imports)
  | merged (imports : Imports)
  | applied (ns : Nat) (bytes : Bytes)

/-- A frontier a segment may be opened over: none, a state's, or one the merge accepted. -/
inductive ImportSource (r : Replays) : Option Imports → Prop
  | none : ImportSource r none
  | state {R : Type} {state : StateHandle R} : StateHandle.make r.store state.ns state.fixed state.construction = .ok state →
      ImportSource r (some (state.frontier r.store))
  | merged {imports} : imports ∈ r.merged → ImportSource r (some imports)

/-- What every replay keeps of its places: the store's, and the merged frontiers' entries held. -/
structure Replays.WellPlaced (r : Replays) : Prop where
  store : r.store.WellPlaced
  merged : ∀ imports ∈ r.merged, NamedOnce r.store.Holds imports.segments

/-- A state that was made reads a held position. -/
theorem StateHandle.make_holds {R : Type} {s : Store} {state : StateHandle R}
    (made : StateHandle.make s state.ns state.fixed state.construction = .ok state) :
    s.Holds ⟨state.ns, state.position s⟩ := by
  obtain ⟨n, found, -, within, -⟩ := StateHandle.make_eq_ok.mp made
  refine ⟨n, found, ?_⟩
  cases fixed : state.fixed <;> simp [StateHandle.position, found, fixed] at within ⊢
  exact within

theorem Replays.WellPlaced.source {r : Replays} (placed : r.WellPlaced) {imported : Option Imports}
    (source : ImportSource r imported) : NamedOnce r.store.Holds (imported.getD .empty).segments := by
  cases source with
  | none => exact ⟨List.nodup_nil, by simp [Imports.empty]⟩
  | state made => exact placed.store.frontier (StateHandle.make_holds made)
  | merged accepted => exact placed.merged _ accepted

/-- A segment's tip may be imported. -/
theorem ImportSource.tip {R : Type} {r : Replays} {state : SegmentState R} {n : Namespace}
    (found : r.store.namespaces state.ns = some n) (keeps : n.keeps = state.construction.keeps) :
    ImportSource r (some (state.handle.frontier r.store)) :=
  .state (StateHandle.make_eq_ok.mpr ⟨n, found, congrArg _ keeps, rfl, rfl⟩)

variable [Crypto]

/-- One call that did not refuse. A namespace is replayed through the construction it was opened with. -/
inductive ReplayStep : Replays → ReplayAction → Replays → Prop
  | opened {r : Replays} {R : Type} {construction : Construction R} {segment identity : Bytes} {imported : Option Imports}
      {state : SegmentState R} {later : Store} : ImportSource r imported →
      openSegmentState r.store segment identity imported construction = .ok (state, later) →
      ReplayStep r (.opened segment imported) { r with store := later }
  | merged {r : Replays} {parents : List (Option ImportEntry)} {imports : Imports} :
      (∀ parent, some parent ∈ parents → r.store.Holds parent) →
      r.store.mergeFinalizedPrefixes parents = .ok imports →
      ReplayStep r (.merged imports) { r with merged := imports :: r.merged }
  | applied {r : Replays} {R : Type} {state : SegmentState R} {n : Namespace} {bytes : Bytes} {replay : SegmentReplay}
      {later : Store} : r.store.namespaces state.ns = some n → n.keeps = state.construction.keeps →
      applyRecord r.store state bytes replay = .ok later →
      ReplayStep r (.applied state.ns bytes) { r with store := later }

/-- The replays of one store, from the empty one. -/
def replays : Machine Replays ReplayAction := ⟨(· = ⟨Store.empty, []⟩), ReplayStep⟩

/-- Every call that did not refuse keeps each row and each import in its place. -/
theorem replays_placed : replays.Invariant Replays.WellPlaced where
  start := by
    rintro _ rfl
    exact ⟨Store.empty_placed, by simp⟩
  step := by
    rintro r action later placed step
    cases step with
    | opened source run =>
      obtain ⟨history, evidence, spent, -, -, kept, once, -, -, rfl⟩ := openSegmentState_eq_ok.mp run
      exact ⟨placed.store.opened (placed.source source) once kept, fun imports member =>
        (placed.merged imports member).grows (Store.opened_grows (placed.store.fresh _ le_rfl))⟩
    | merged held run =>
      refine ⟨placed.store, fun imports member => ?_⟩
      rcases List.mem_cons.mp member with rfl | old
      · exact placed.store.merge held run
      · exact placed.merged imports old
    | applied found keeps run =>
      have grows := applyRecord_grows run
      obtain ⟨judged, -, applied⟩ := applyRecord_eq_ok.mp run
      obtain ⟨-, m, effects, n', foundM, -, appended, -, rfl⟩ := applyJudged_eq_ok.mp applied
      obtain ⟨-, spent, demand, ended, -, -, -, rfl⟩ := Namespace.append_eq_ok.mp appended
      exact ⟨placed.store.written foundM, fun imports member => (placed.merged imports member).grows grows⟩

end Moe

namespace Moe

/-- The row a demand is stored as. -/
def StoredDemand.of (id : Bytes) (demand : Demand) : StoredDemand :=
  ⟨id, demand.backing, demand.quantity, demand.tags.getD 0 0, demand.tags.getD 1 0, demand.presenter, demand.instant,
    demand.deadline, demand.tags, demand.nullifiers.getD []⟩

/-- A demand a record may stand is read back as it was. -/
theorem StoredDemand.of_demand {id : Bytes} {demand : Demand} (standable : demand.Standable) :
    (StoredDemand.of id demand).demand = demand := by
  obtain ⟨backing, quantity, tags, presenter, instant, deadline, nullifiers⟩ := demand
  have two := standable.tags
  have some_one := standable.nullifiers
  have pair : ∀ {tags : List Nat}, tags.length = 2 → [tags.getD 0 0, tags.getD 1 0] = tags := by
    intro tags length
    match tags, length with
    | [a, b], _ => rfl
  simp only [StoredDemand.of, StoredDemand.demand, pair two]
  cases nullifiers with
  | none => rfl
  | some nfs =>
    have nonempty : nfs ≠ [] := fun empty => some_one (congrArg some empty)
    simp [nonempty]

/-- A row that stores a demand a record may stand, with the rows of all its tags. -/
structure StoredDemand.Kept (row : StoredDemand) : Prop where
  standable : row.demand.Standable
  tags : row.tags = row.demand.tags

theorem StoredDemand.of_kept {id : Bytes} {demand : Demand} (standable : demand.Standable) :
    (StoredDemand.of id demand).Kept := by
  refine ⟨?_, ?_⟩ <;> rw [StoredDemand.of_demand standable]
  · exact standable
  · rfl

/-- A demand stands where the namespace holds neither a demand nor an end of its identity. -/
theorem Namespace.stand_eq_ok {n : Namespace} {id : Bytes} {demand : Demand} {row : StoredDemand}
    (standable : demand.Standable) : n.stand (id, demand) = .ok row ↔
      (∀ held ∈ n.rows.demands, held.row.id ≠ id) ∧ (∀ ended ∈ n.rows.demandEnds, ended.row ≠ id) ∧
        row = StoredDemand.of id demand := by
  have tagKeys := standable.tagKeys
  have nullifierKeys := standable.nullifierKeys
  have two := standable.tags
  obtain ⟨backing, quantity, tags, presenter, instant, deadline, nullifiers⟩ := demand
  match tags, two with
  | [tag0, tag1], _ =>
    simp only [Namespace.stand, bind_eq_ok, pure_eq_ok, require_eq_ok, forM_eq_ok, requireKey, Bool.and_eq_true,
      List.all_eq_true, decide_eq_true_eq, Bool.or_eq_true, StoredDemand.of, List.getD_cons_zero, List.getD_cons_succ]
    constructor
    · rintro ⟨-, ⟨-, ends⟩, -, -, -, -, -, demands, rfl⟩
      exact ⟨demands, ends, rfl⟩
    · rintro ⟨demands, ends, rfl⟩
      exact ⟨(), ⟨fun held member => .inl (by simpa using demands held member), ends⟩, (), tagKeys, (),
        nullifierKeys, (), demands, rfl⟩

theorem Rows.demand_eq_some {rows : Rows} {id : Bytes} {demand : Demand} (read : rows.demand id = some demand) :
    ∃ held ∈ rows.demands, held.row.id = id ∧ held.row.demand = demand ∧ rows.isEnded id = false := by
  obtain ⟨held, seen, rfl⟩ := Option.map_eq_some_iff.mp read
  have matched := List.find?_some seen
  simp only [Bool.and_eq_true, decide_eq_true_eq, Bool.not_eq_true'] at matched
  obtain ⟨rfl, standing⟩ := matched
  exact ⟨held, List.mem_of_find?_eq_some seen, rfl, rfl, standing⟩

/-- What a namespace's demand rows meet: each stores a demand a record may stand, at the position of the
kind-4 event whose identity is its own. -/
structure Namespace.Stood (n : Namespace) : Prop where
  kept : ∀ held ∈ n.rows.demands, held.row.Kept
  event : ∀ held ∈ n.rows.demands, ∃ event ∈ n.rows.events,
    event.position = held.position ∧ event.row.identity = held.row.id ∧ event.row.kind = 4

/-- Every namespace's demands were stood by their own records. -/
def Store.Stood (s : Store) : Prop := ∀ ns n, s.namespaces ns = some n → n.Stood

theorem Store.WellPlaced.mem_visible {s : Store} (placed : s.WellPlaced) {ns p : Nat} (held : s.Holds ⟨ns, p⟩)
    {row : Placed Fact} : row ∈ s.visible ns p ↔ ∃ n, s.namespaces row.ns = some n ∧ row ∈ n.rows ∧
      ∃ entry ∈ (⟨ns, p⟩ :: (s.imports ns).map (·.2) : List ImportEntry), entry.ns = row.ns ∧ row.position ≤ entry.upto := by
  constructor
  · intro member
    obtain ⟨entry, listed, inside⟩ := List.mem_flatMap.mp member
    obtain ⟨n, found, -⟩ := placed.holds held entry listed
    obtain ⟨source, within⟩ := Rows.mem_through.mp inside
    rw [Store.rows_of_found found] at source
    have place := (placed.rows _ n found row source).1
    exact ⟨n, place ▸ found, source, entry, listed, place.symm, within⟩
  · rintro ⟨n, found, source, entry, listed, same, within⟩
    refine List.mem_flatMap.mpr ⟨entry, listed, Rows.mem_through.mpr ⟨?_, within⟩⟩
    rw [same, Store.rows_of_found found]
    exact source

/-- A visible demand is a kept row of some namespace, and the kind-4 event that stood it is visible too. -/
theorem Store.Stood.visible {s : Store} (stood : s.Stood) (placed : s.WellPlaced) {ns p : Nat} (held : s.Holds ⟨ns, p⟩)
    {row : Placed StoredDemand} (member : row ∈ (s.visible ns p).demands) :
    row.row.Kept ∧ ∃ event ∈ (s.visible ns p).events, event.row.identity = row.row.id ∧ event.row.kind = 4 := by
  obtain ⟨fact, picked, inside⟩ := Rows.mem_table.mp member
  obtain ⟨n, found, source, entry, listed, named, within⟩ := (placed.mem_visible held).mp inside
  have own : row ∈ n.rows.demands := Rows.mem_table.mpr ⟨fact, picked, source⟩
  obtain ⟨event, recorded, position, identity, kind⟩ := (stood _ n found).event row own
  refine ⟨(stood _ n found).kept row own, event, ?_, identity, kind⟩
  obtain ⟨eventFact, eventPicked, eventSource⟩ := Rows.mem_table.mp recorded
  have eventNs : event.ns = row.ns := (placed.rows _ n found _ eventSource).1
  refine Rows.mem_table.mpr ⟨eventFact, eventPicked, (placed.mem_visible held).mpr ⟨n, ?_, eventSource, entry, listed, ?_, ?_⟩⟩
  · rw [eventNs]
    exact found
  · exact named.trans eventNs.symm
  · exact position.trans_le within

/-- A state reads demands a record may stand. -/
theorem Store.Stood.demand {s : Store} (stood : s.Stood) (placed : s.WellPlaced) {ns p : Nat} (held : s.Holds ⟨ns, p⟩)
    {id : Bytes} {demand : Demand} (read : (s.visible ns p).demand id = some demand) : demand.Standable := by
  obtain ⟨row, member, -, rfl, -⟩ := Rows.demand_eq_some read
  exact (stood.visible placed held member).1.standable

/-- A fresh namespace has stood no demand yet. -/
theorem Store.fresh_stood [Crypto] {s : Store} {segment identity history evidence : Bytes} {imports : Imports}
    {keeps : NamespaceConstruction} {spent : SpentSet} :
    (s.fresh segment identity imports history evidence keeps spent).Stood where
  kept held member := by
    rw [Rows.demands, Store.fresh_table rfl] at member
    cases member
  event held member := by
    rw [Rows.demands, Store.fresh_table rfl] at member
    cases member

end Moe
