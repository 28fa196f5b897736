import Moe.Pool.Copies
import Moe.Pool.Locks

namespace Moe

namespace Store

variable (s : Store)

/-- An event before another: earlier in its segment, in a prefix that segment imports, or in what such a prefix imports. -/
inductive Before (segment : Bytes) (q : Nat) : Nat → Nat → Prop
  | own {ns p : Nat} : s.segment ns = segment → q < p → Before segment q ns p
  | imported {ns p : Nat} {entry : ImportEntry} : (segment, entry) ∈ s.imports ns → q ≤ entry.upto → Before segment q ns p
  | through {ns p : Nat} {name : Bytes} {entry : ImportEntry} : (name, entry) ∈ s.imports ns → Before segment q entry.ns entry.upto →
      Before segment q ns p

/-- Some entries' rows tell a fact at a position of a segment. -/
def Told (entries : List ImportEntry) (segment : Bytes) (q : Nat) (fact : Fact) : Prop :=
  ∃ entry ∈ entries, s.segment entry.ns = segment ∧ (q, fact) ∈ ((s.rows entry.ns).through entry.upto).told

/-- What the merge checks of a union's rows. -/
structure Mergeable (rows : Rows) : Prop where
  ordered : ∀ key, (s.sharedEvents rows key).Pairwise fun a b => s.precedes a b = true ∨ s.precedes b a = true
  nullifiers : (rows.nullifiers.map (·.row.nf)).Nodup
  outputs : (rows.outputs.map (·.row.cm)).Nodup
  recovery : ((rows.events.filter (4 ≤ ·.row.kind)).map (·.row.identity)).Nodup
  supply : ∀ backing total, OrderedMap.get? (rows.events.foldl addSupply []) backing = some total →
    total.burned ≤ total.issued ∧ total.issued < valueBound

variable {s}

theorem ordered_eq_true {events : List SharedEvent} :
    s.ordered events = true ↔ events.Pairwise fun a b => s.precedes a b = true ∨ s.precedes b a = true := by
  simp [Store.ordered]

theorem addSupply_keys {events : List (Placed StoredEvent)} {map : OrderedMap Bytes Totals} (keys : (map.map (·.1)).Nodup) :
    ((events.foldl addSupply map).map (·.1)).Nodup := by
  induction events generalizing map with
  | nil => exact keys
  | cons event rest ih =>
    rw [List.foldl_cons]
    refine ih ?_
    rw [addSupply]
    split
    · exact OrderedMap.set_keys_nodup keys _ _
    · exact keys

/-- The union's totals are within bounds exactly where each backing's is. -/
theorem addSupply_all {events : List (Placed StoredEvent)} :
    ((events.foldl addSupply []).all fun (_, total) => total.burned ≤ total.issued && total.issued < valueBound) = true ↔
      ∀ backing total, OrderedMap.get? (events.foldl addSupply []) backing = some total →
        total.burned ≤ total.issued ∧ total.issued < valueBound := by
  have keys : ((events.foldl addSupply []).map (·.1)).Nodup := addSupply_keys List.nodup_nil
  rw [List.all_eq_true]
  constructor
  · intro each backing total found
    simpa using each _ (OrderedMap.mem_of_get? found)
  · rintro each ⟨backing, total⟩ member
    simpa using each backing total (OrderedMap.get?_of_mem keys member)

/-- The shared tags and demands are ordered exactly where every one is. -/
theorem shared_all {rows : Rows} :
    ((((rows.eventKeys.map (·.row)).dedup.map fun key => (key, s.sharedEvents rows key)).filter (2 ≤ ·.2.length)).all
      fun (_, events) => s.ordered events) = true ↔
      ∀ key, (s.sharedEvents rows key).Pairwise fun a b => s.precedes a b = true ∨ s.precedes b a = true := by
  rw [List.all_eq_true]
  constructor
  · intro each key
    rcases Nat.lt_or_ge (s.sharedEvents rows key).length 2 with short | long
    · match found : s.sharedEvents rows key, short with
      | [], _ => exact List.Pairwise.nil
      | [_], _ => exact List.pairwise_singleton _ _
    · obtain ⟨event, member⟩ := List.exists_mem_of_length_pos (Nat.lt_of_lt_of_le Nat.zero_lt_two long)
      obtain ⟨placed, listed, -⟩ := List.mem_map.mp member
      obtain ⟨inside, same⟩ := List.mem_filter.mp listed
      have named : key ∈ (rows.eventKeys.map (·.row)).dedup := by
        rw [List.mem_dedup]
        exact List.mem_map.mpr ⟨placed, inside, by simpa using same⟩
      exact ordered_eq_true.mp (each (key, s.sharedEvents rows key)
        (List.mem_filter.mpr ⟨List.mem_map.mpr ⟨key, named, rfl⟩, by simpa using long⟩))
  · rintro each ⟨key, events⟩ member
    obtain ⟨listed, -⟩ := List.mem_filter.mp member
    obtain ⟨key', -, same⟩ := List.mem_map.mp listed
    obtain ⟨rfl, rfl⟩ := Prod.mk.inj same
    exact ordered_eq_true.mpr (each key')

/-- An accepted merge: its segments, and what its checks read of their union. -/
theorem mergeFinalizedPrefixes_eq_ok {parents : List (Option ImportEntry)} {imports : Imports} :
    s.mergeFinalizedPrefixes parents = .ok imports ↔ ∃ segments, s.mergeSegments (parents.filterMap id) = .ok segments ∧
      (segments.map (·.2.ns)).Nodup ∧ s.Mergeable (s.union (segments.map (·.2))) ∧
      imports = ⟨segments, (s.union (segments.map (·.2))).events.foldl addSupply []⟩ := by
  simp only [Store.mergeFinalizedPrefixes, Store.unionFacts, bind_eq_ok, requireReplay_eq_ok, require_eq_ok, pure_eq_ok,
    decide_eq_true_eq, List.map_map, Function.comp_def]
  constructor
  · rintro ⟨segments, merged, facts, ⟨-, once, rfl⟩, -, ordered, -, nullifiers, -, outputs, -, recovery, -, supply, rfl⟩
    refine ⟨segments, merged, once, ⟨shared_all.mp ordered, by simpa using nullifiers, by simpa using outputs, by simpa using recovery,
      addSupply_all.mp supply⟩, rfl⟩
  · rintro ⟨segments, merged, once, mergeable, rfl⟩
    refine ⟨segments, merged, _, ⟨(), once, rfl⟩, (), shared_all.mpr mergeable.ordered, (), by simpa using mergeable.nullifiers, (),
      by simpa using mergeable.outputs, (), by simpa using mergeable.recovery, (), addSupply_all.mpr mergeable.supply, rfl⟩

section Matching

variable {names : Preimages}

/-- Frontiers of the same segments, read as far in the same histories. -/
structure Matches (s : Store) (a b : OrderedMap Bytes ImportEntry) : Prop where
  keys : (a.map (·.1)).Nodup
  kept : ∀ entry ∈ a, s.Holds entry.2 ∧ s.segment entry.2.ns = entry.1
  same : ∀ name entry, OrderedMap.get? a name = some entry →
    ∃ other, OrderedMap.get? b name = some other ∧ s.Prefix entry other ∧ s.Prefix other entry

/-- What an entry's rows tell. -/
def entryTold (s : Store) (entry : ImportEntry) : List (Nat × Fact) := ((s.rows entry.ns).through entry.upto).told

theorem Known.entryTold (known : s.Known names) (placed : s.WellPlaced) {a b : ImportEntry} (first : s.Holds a) (second : s.Holds b)
    (segment : s.segment a.ns = s.segment b.ns) (ab : s.Prefix a b) (ba : s.Prefix b a) : s.entryTold a = s.entryTold b := by
  have upto : a.upto = b.upto := le_antisymm ab.1 ba.1
  obtain ⟨n, found, bound⟩ := first
  obtain ⟨m, found', bound'⟩ := second
  simp only [Store.segment, found, found', Option.map_some, Option.getD_some] at segment
  rw [Store.entryTold, Store.entryTold, Store.rows_of_found found, Store.rows_of_found found', ← upto]
  exact known.copies placed a.ns b.ns n m found found' segment a.upto bound (upto ▸ bound') ab.2

/-- What matching frontiers' rows tell, they tell alike. -/
theorem Matches.perm {γ : Type} {a b : OrderedMap Bytes ImportEntry} (ab : s.Matches a b) (ba : s.Matches b a) (known : s.Known names)
    (placed : s.WellPlaced) (read : Bytes → List (Nat × Fact) → List γ) :
    (a.flatMap fun entry => read (s.segment entry.2.ns) (s.entryTold entry.2)).Perm
      (b.flatMap fun entry => read (s.segment entry.2.ns) (s.entryTold entry.2)) := by
  have same : ∀ name, (OrderedMap.get? a name).map (fun entry => read (s.segment entry.ns) (s.entryTold entry)) =
      (OrderedMap.get? b name).map fun entry => read (s.segment entry.ns) (s.entryTold entry) := by
    intro name
    cases found : OrderedMap.get? a name with
    | some entry =>
      obtain ⟨other, found', first, second⟩ := ab.same name entry found
      obtain ⟨held, named⟩ := ab.kept _ (OrderedMap.mem_of_get? found)
      obtain ⟨held', named'⟩ := ba.kept _ (OrderedMap.mem_of_get? found')
      rw [found', Option.map_some, Option.map_some, named.trans named'.symm,
        known.entryTold placed held held' (named.trans named'.symm) first second]
    | none =>
      cases found' : OrderedMap.get? b name with
      | none => rfl
      | some other =>
        obtain ⟨entry, found'', -⟩ := ba.same name other found'
        rw [found] at found''
        cases found''
  exact OrderedMap.flatMap_perm ab.keys ba.keys same

/-- A table of a union, read of what the entries tell. -/
theorem union_table {α β : Type} {pick : Fact → Option α} {f : α → β}
    (blind : ∀ fact : Fact, fact.told.bind (fun fact => (pick fact).map f) = (pick fact).map f) (segments : OrderedMap Bytes ImportEntry) :
    (Rows.table pick (s.union (segments.map (·.2)))).map (fun placed => f placed.row) =
      segments.flatMap fun entry => (s.entryTold entry.2).filterMap fun told => (pick told.2).map f := by
  have one : ∀ rows : Rows, (Rows.table pick rows).map (fun placed => f placed.row) = rows.told.filterMap fun told => (pick told.2).map f := by
    intro rows
    have told := Rows.told_table blind rows
    rw [Rows.table_map] at told
    have second := congrArg (List.map Prod.snd) told
    simp only [List.map_map, List.map_filterMap, Option.map_map, Function.comp_def] at second
    exact second.symm
  induction segments with
  | nil => rfl
  | cons entry rest ih =>
    rw [List.map_cons, Store.union_cons, Rows.table_append, List.map_append, ih, one, List.flatMap_cons]
    rfl

theorem Matches.table {α β : Type} {a b : OrderedMap Bytes ImportEntry} (ab : s.Matches a b) (ba : s.Matches b a) (known : s.Known names)
    (placed : s.WellPlaced) {pick : Fact → Option α} {f : α → β}
    (blind : ∀ fact : Fact, fact.told.bind (fun fact => (pick fact).map f) = (pick fact).map f) :
    ((Rows.table pick (s.union (a.map (·.2)))).map fun placed => f placed.row).Perm
      ((Rows.table pick (s.union (b.map (·.2)))).map fun placed => f placed.row) := by
  rw [Store.union_table blind, Store.union_table blind]
  exact ab.perm ba known placed fun _ told => told.filterMap fun told => (pick told.2).map f

/-- A backing's total with one event's supply. -/
def addTotal (backing : Bytes) (total : Option Totals) : Option Supply → Option Totals
  | some supply => if supply.backing = backing then some ((total.getD .zero).add supply.totals) else total
  | none => total

/-- The totals of a union are its supplies', in whatever order. -/
theorem addSupply_perm {a b : List (Placed StoredEvent)} (perm : (a.map (·.row.supply)).Perm (b.map (·.row.supply))) (backing : Bytes) :
    OrderedMap.get? (a.foldl addSupply []) backing = OrderedMap.get? (b.foldl addSupply []) backing := by
  have read : ∀ (events : List (Placed StoredEvent)) (map : OrderedMap Bytes Totals), OrderedMap.get? (events.foldl addSupply map) backing =
      (events.map (·.row.supply)).foldl (addTotal backing) (OrderedMap.get? map backing) := by
    intro events
    induction events with
    | nil => exact fun map => rfl
    | cons event rest ih =>
      intro map
      rw [List.foldl_cons, ih, List.map_cons, List.foldl_cons]
      refine congrArg (fun start => List.foldl _ start _) ?_
      rw [addSupply]
      cases event.row.supply with
      | none => rfl
      | some supply =>
        rw [OrderedMap.get?_set]
        by_cases same : supply.backing = backing
        · simp only [addTotal, same, if_true]
        · simp only [addTotal, same, if_false]
  rw [read, read]
  refine perm.foldl_eq' (fun x _ y _ total => ?_) _
  cases x with
  | none => rfl
  | some x =>
    cases y with
    | none => rfl
    | some y =>
      by_cases first : x.backing = backing <;> by_cases second : y.backing = backing <;>
        simp [addTotal, first, second, Totals.add, Nat.add_comm, Nat.add_left_comm]

/-- The ancestry check between two places, read of what their segments' headers fix. -/
def places (names : Preimages) (a b : Bytes × Nat) : Bool :=
  if a.1 = b.1 then a.2 < b.2 else a.2 ≤ ((names.base b.1 a.1).map (·.1)).getD 0

theorem Known.precedes (known : s.Known names) (placed : s.WellPlaced) {a b : SharedEvent} {n : Namespace}
    (found : s.namespaces b.ns = some n) (named : b.segment = n.segment) :
    s.precedes a b = places names (a.segment, a.position) (b.segment, b.position) := by
  have perm := Store.imports_perm found
  have reads : OrderedMap.get? (s.imports b.ns) a.segment = OrderedMap.get? n.imports a.segment :=
    OrderedMap.get?_perm perm ((perm.map _).nodup_iff.mpr (placed.segments _ n found)) _
  have based := (known _ n found).based a.segment
  simp only [Store.precedes, places, named, ← based, reads, Store.base, Option.map_map, Function.comp_def]

/-- The places of the events of a union that touch a key. -/
def keyPlaces (key : EventKey) (segment : Bytes) (told : List (Nat × Fact)) : List (Bytes × Nat) :=
  ((told.filterMap fun told => (match told.2 with | .eventKey key => some key | _ => none : Option EventKey).map (told.1, ·)).filter
    (·.2 = key)).map fun place => (segment, place.1)

theorem sharedEvents_places {segments : OrderedMap Bytes ImportEntry} (placed : s.WellPlaced)
    (held : ∀ entry ∈ segments, s.Holds entry.2) (key : EventKey) :
    (s.sharedEvents (s.union (segments.map (·.2))) key).map (fun event => (event.segment, event.position)) =
      segments.flatMap fun entry => keyPlaces key (s.segment entry.2.ns) (s.entryTold entry.2) := by
  have one : ∀ (rows : Rows) (ns : Nat), (∀ row ∈ rows, row.ns = ns) →
      (s.sharedEvents rows key).map (fun event => (event.segment, event.position)) = keyPlaces key (s.segment ns) rows.told := by
    intro rows ns place
    have told := @Rows.told_table _ (fun fact => match fact with | .eventKey key => some key | _ => none)
      (by rintro (_ | _ | _ | _ | _ | _ | _) <;> rfl) rows
    simp only [keyPlaces, told, Store.sharedEvents, List.filter_map, List.map_map]
    refine List.map_congr_left fun row member => ?_
    have own : row.ns = ns := by
      obtain ⟨fact, -, inside⟩ := Rows.mem_table.mp (List.mem_filter.mp member).1
      exact place _ inside
    simp only [Function.comp_apply, own]
  induction segments with
  | nil => rfl
  | cons entry rest ih =>
    obtain ⟨n, found, -⟩ := held entry List.mem_cons_self
    have rest_ := ih fun other member => held other (List.mem_cons_of_mem _ member)
    have split_ : ∀ a b : Rows, s.sharedEvents (a ++ b) key = s.sharedEvents a key ++ s.sharedEvents b key := by
      intro a b
      simp only [Store.sharedEvents, Rows.eventKeys_append, List.filter_append, List.map_append]
    rw [List.map_cons, Store.union_cons, split_, List.map_append, rest_, List.flatMap_cons]
    refine congrArg (· ++ _) (one _ _ fun row member => ?_)
    have source := (Rows.mem_through.mp member).1
    rw [Store.rows_of_found found] at source
    exact (placed.rows _ n found row source).1

/-- The ancestry checks of matching frontiers are one. -/
theorem Known.ordered_iff (known : s.Known names) (placed : s.WellPlaced) {segments : OrderedMap Bytes ImportEntry}
    (held : ∀ entry ∈ segments, s.Holds entry.2) (key : EventKey) :
    ((s.sharedEvents (s.union (segments.map (·.2))) key).Pairwise fun a b => s.precedes a b = true ∨ s.precedes b a = true) ↔
      ((segments.flatMap fun entry => keyPlaces key (s.segment entry.2.ns) (s.entryTold entry.2)).Pairwise
        fun a b => places names a b = true ∨ places names b a = true) := by
  rw [← sharedEvents_places placed held, List.pairwise_map]
  have source : ∀ event ∈ s.sharedEvents (s.union (segments.map (·.2))) key, ∃ n, s.namespaces event.ns = some n ∧ event.segment = n.segment := by
    intro event member
    obtain ⟨row, listed, rfl⟩ := List.mem_map.mp member
    obtain ⟨fact, -, inside⟩ := Rows.mem_table.mp (List.mem_filter.mp listed).1
    obtain ⟨entry, member', row'⟩ := List.mem_flatMap.mp inside
    obtain ⟨named, listed', rfl⟩ := List.mem_map.mp member'
    obtain ⟨n, found, -⟩ := held named listed'
    have source := (Rows.mem_through.mp row').1
    rw [Store.rows_of_found found] at source
    have place : row.ns = named.2.ns := (placed.rows _ n found _ source).1
    exact ⟨n, by rw [place]; exact found, by simp [Store.segment, place, found]⟩
  refine List.Pairwise.iff_of_mem fun {a b} first second => ?_
  obtain ⟨n, found, named⟩ := source a first
  obtain ⟨m, found', named'⟩ := source b second
  rw [known.precedes placed found' named', known.precedes placed found named]

/-- Matching frontiers tell the same events. -/
theorem Matches.events {a b : OrderedMap Bytes ImportEntry} (ab : s.Matches a b) (ba : s.Matches b a) (known : s.Known names)
    (placed : s.WellPlaced) :
    ((s.union (a.map (·.2))).events.map fun event => (event.row.identity, event.row.kind, event.row.supply)).Perm
      ((s.union (b.map (·.2))).events.map fun event => (event.row.identity, event.row.kind, event.row.supply)) :=
  @Matches.table s names _ _ a b ab ba known placed _
    (fun row : StoredEvent => (row.identity, row.kind, row.supply)) (by rintro (_ | _ | _ | _ | _ | _ | _) <;> rfl)

theorem Matches.supply {a b : OrderedMap Bytes ImportEntry} (ab : s.Matches a b) (ba : s.Matches b a) (known : s.Known names)
    (placed : s.WellPlaced) (backing : Bytes) : OrderedMap.get? ((s.union (a.map (·.2))).events.foldl addSupply []) backing =
      OrderedMap.get? ((s.union (b.map (·.2))).events.foldl addSupply []) backing := by
  refine addSupply_perm ?_ backing
  have perm := (ab.events ba known placed).map fun told => told.2.2
  simpa only [List.map_map, Function.comp_def] using perm

/-- What a merge checks of matching frontiers, it checks alike. -/
theorem Matches.mergeable {a b : OrderedMap Bytes ImportEntry} (ab : s.Matches a b) (ba : s.Matches b a) (known : s.Known names)
    (placed : s.WellPlaced) (mergeable : s.Mergeable (s.union (a.map (·.2)))) : s.Mergeable (s.union (b.map (·.2))) where
  ordered key := by
    have ordered := (known.ordered_iff placed (fun entry member => (ab.kept entry member).1) key).mp (mergeable.ordered key)
    refine (known.ordered_iff placed (fun entry member => (ba.kept entry member).1) key).mpr ?_
    exact ((ab.perm ba known placed (keyPlaces key)).pairwise_iff fun {_ _} either => either.symm).mp ordered
  nullifiers := (ab.table ba known placed (by rintro (_ | _ | _ | _ | _ | _ | _) <;> rfl)).nodup_iff.mp mergeable.nullifiers
  outputs := (ab.table ba known placed (by rintro (_ | _ | _ | _ | _ | _ | _) <;> rfl)).nodup_iff.mp mergeable.outputs
  recovery := by
    have perm := ((ab.events ba known placed).filter fun told => 4 ≤ told.2.1).map (·.1)
    simp only [List.filter_map, List.map_map, Function.comp_def] at perm
    exact perm.nodup_iff.mp mergeable.recovery
  supply backing total found := mergeable.supply backing total ((ab.supply ba known placed backing).trans found)

end Matching

end Store

/-- What an accepted merge of finalized prefixes is. -/
structure Store.Merges (s : Store) (parents : List ImportEntry) (imports : Imports) : Prop where
  once : (imports.segments.map (·.1)).Nodup
  source : ∀ name entry, OrderedMap.get? imports.segments name = some entry →
    ∃ parent ∈ parents, OrderedMap.get? (s.frontier parent.ns parent.upto).segments name = some entry
  greatest : ∀ parent ∈ parents, ∀ name entry, OrderedMap.get? (s.frontier parent.ns parent.upto).segments name = some entry →
    ∃ top, OrderedMap.get? imports.segments name = some top ∧ s.Prefix entry top
  union : ∀ segment q fact, s.Told (imports.segments.map (·.2)) segment q fact ↔
    ∃ parent ∈ parents, s.Told (parent :: (s.imports parent.ns).map (·.2)) segment q fact
  ordered : ∀ key, (s.sharedEvents (s.union (imports.segments.map (·.2))) key).Pairwise fun a b =>
    s.Before a.segment a.position b.ns b.position ∨ s.Before b.segment b.position a.ns a.position
  closed : s.Closed imports.segments

/-- Two merged frontiers of the same positions, histories and totals. -/
structure Store.SameFrontier (s : Store) (a b : Imports) : Prop where
  segments : ∀ name, s.base a.segments name = s.base b.segments name
  totals : ∀ backing, OrderedMap.get? a.totals backing = OrderedMap.get? b.totals backing

section Merged

variable {names : Preimages} {s : Store} {parents : List ImportEntry}

/-- A held entry's frontier lists each of its entries once. -/
theorem Store.WellPlaced.frontier_get? (placed : s.WellPlaced) {parent : ImportEntry} (held : s.Holds parent) {name : Bytes} {entry : ImportEntry} :
    OrderedMap.get? (s.frontier parent.ns parent.upto).segments name = some entry ↔ (name, entry) ∈ (s.frontier parent.ns parent.upto).segments :=
  ⟨OrderedMap.mem_of_get?, OrderedMap.get?_of_mem (placed.frontier held).1⟩

/-- An event is before another in ancestry only by its segment or by the import of its segment. -/
theorem Store.Before.cases (known : s.Known names) (placed : s.WellPlaced) {segment : Bytes} {q ns p : Nat} (before : s.Before segment q ns p)
    {n : Namespace} (found : s.namespaces ns = some n) :
    (n.segment = segment ∧ q < p) ∨ ∃ entry, OrderedMap.get? n.imports segment = some entry ∧ q ≤ entry.upto := by
  induction before generalizing n with
  | own same less =>
    simp only [Store.segment, found, Option.map_some, Option.getD_some] at same
    exact .inl ⟨same, less⟩
  | imported member le =>
    have inside := (Store.imports_perm found).mem_iff.mp member
    exact .inr ⟨_, OrderedMap.get?_of_mem (placed.segments _ n found) inside, le⟩
  | @through ns p name entry member _ ih =>
    have inside := (Store.imports_perm found).mem_iff.mp member
    obtain ⟨-, m, foundM, -⟩ := placed.imports _ n found _ inside
    rcases ih foundM with ⟨same, less⟩ | ⟨inner, at_, le⟩
    · have named := (known _ n found).named _ inside
      simp only [Store.segment, foundM, Option.map_some, Option.getD_some] at named
      refine .inr ⟨entry, ?_, less.le⟩
      rw [← same, named]
      exact OrderedMap.get?_of_mem (placed.segments _ n found) inside
    · have imported : (segment, inner) ∈ s.imports entry.ns := (Store.imports_perm foundM).mem_iff.mpr (OrderedMap.mem_of_get? at_)
      obtain ⟨top, found', above⟩ := (known _ n found).closed _ inside _ imported
      exact .inr ⟨top, found', le.trans above.1⟩

/-- The ancestry check reads the later event's own imports, and they are all of its ancestry. -/
theorem Store.Known.precedes_iff (known : s.Known names) (placed : s.WellPlaced) {a b : SharedEvent} (positive : 0 < a.position)
    {n : Namespace} (found : s.namespaces b.ns = some n) (named : b.segment = n.segment) :
    s.precedes a b = true ↔ s.Before a.segment a.position b.ns b.position := by
  have perm := Store.imports_perm found
  have reads : OrderedMap.get? (s.imports b.ns) a.segment = OrderedMap.get? n.imports a.segment :=
    OrderedMap.get?_perm perm ((perm.map _).nodup_iff.mpr (placed.segments _ n found)) _
  have own := known _ n found
  simp only [Store.precedes, reads]
  constructor
  · intro checked
    split at checked
    · rename_i same
      exact .own (by simp [Store.segment, found, same, named]) (by simpa using checked)
    · cases at_ : OrderedMap.get? n.imports a.segment with
      | none =>
        simp only [at_, Option.map_none, Option.getD_none, decide_eq_true_eq] at checked
        omega
      | some entry =>
        simp only [at_, Option.map_some, Option.getD_some, decide_eq_true_eq] at checked
        exact .imported (perm.mem_iff.mpr (OrderedMap.mem_of_get? at_)) checked
  · intro before
    rcases before.cases known placed found with ⟨same, less⟩ | ⟨entry, at_, le⟩
    · rw [if_pos (same.symm.trans named.symm)]
      simpa using less
    · have other : a.segment ≠ b.segment := by
        intro same
        have none_ := (own.based n.segment).trans own.apart
        rw [named] at same
        rw [← same] at none_
        simp [Store.base, at_] at none_
      rw [if_neg other, at_]
      simpa using le

/-- Segments each named once are each replayed by a namespace of their own. -/
theorem Store.Named.sources {segments : OrderedMap Bytes ImportEntry} (named : s.Named segments) (keys : (segments.map (·.1)).Nodup) :
    (segments.map (·.2.ns)).Nodup := by
  refine List.Nodup.of_map s.segment ?_
  rw [List.map_map]
  have same : segments.map (s.segment ∘ fun entry => entry.2.ns) = segments.map (·.1) := List.map_congr_left named
  rwa [same]

theorem Rows.through_told {rows : Rows} {p q : Nat} {fact : Fact} : (q, fact) ∈ (rows.through p).told ↔ (q, fact) ∈ rows.told ∧ q ≤ p := by
  simp only [Rows.mem_told, Rows.mem_through]
  constructor
  · rintro ⟨placed, ⟨member, within⟩, rfl, told⟩
    exact ⟨⟨placed, member, rfl, told⟩, within⟩
  · rintro ⟨⟨placed, member, rfl, told⟩, within⟩
    exact ⟨placed, ⟨member, within⟩, rfl, told⟩

/-- What a prefix tells, a longer one of its history tells. -/
theorem Store.Known.prefix_told (known : s.Known names) (placed : s.WellPlaced) {a b : ImportEntry} (first : s.Holds a) (second : s.Holds b)
    (segment : s.segment a.ns = s.segment b.ns) (prefix_ : s.Prefix a b) {q : Nat} {fact : Fact} (told : (q, fact) ∈ s.entryTold a) :
    (q, fact) ∈ s.entryTold b := by
  have short : s.entryTold a = s.entryTold ⟨b.ns, a.upto⟩ :=
    known.entryTold placed first (second.below prefix_.1) segment ⟨le_rfl, prefix_.2⟩ ⟨le_rfl, fun positive => (prefix_.2 positive).symm⟩
  rw [short, Store.entryTold, Rows.through_told] at told
  rw [Store.entryTold, Rows.through_told]
  exact ⟨told.1, told.2.trans prefix_.1⟩

/-- An accepted merge of known states is the least frontier over theirs. -/
theorem Store.Known.merges (known : s.Known names) (placed : s.WellPlaced) (held : ∀ parent ∈ parents, s.Holds parent)
    {segments : OrderedMap Bytes ImportEntry} {totals : OrderedMap Bytes Totals}
    (joined : Joined s.Prefix (s.parentEntries parents) segments) (mergeable : s.Mergeable (s.union (segments.map (·.2)))) :
    s.Merges parents ⟨segments, totals⟩ := by
  have kept := known.parentEntries placed held
  have source : ∀ entry ∈ segments, entry ∈ s.parentEntries parents :=
    fun entry member => joined.source _ _ (OrderedMap.get?_of_mem joined.keys member)
  have entries : ∀ entry ∈ segments, s.Holds entry.2 := fun entry member => (kept entry (source entry member)).1
  refine ⟨joined.keys, fun name entry found => ?_, fun parent listed name entry found => ?_, fun segment q fact => ⟨?_, ?_⟩, fun key => ?_,
    (known.merged_closed placed held joined).2⟩
  · obtain ⟨parent, listed, inside⟩ := Store.mem_parentEntries.mp (joined.source _ _ found)
    exact ⟨parent, listed, (placed.frontier_get? (held parent listed)).mpr inside⟩
  · exact joined.greatest _ _ (Store.mem_parentEntries.mpr ⟨parent, listed, (placed.frontier_get? (held parent listed)).mp found⟩)
  · rintro ⟨_, member, named, told⟩
    obtain ⟨⟨name, entry⟩, inside, rfl⟩ := List.mem_map.mp member
    obtain ⟨parent, listed, within⟩ := Store.mem_parentEntries.mp (source _ inside)
    obtain ⟨n, found, -⟩ := id (held parent listed)
    refine ⟨parent, listed, entry, ?_, named, told⟩
    rcases (known.mem_frontier found _).mp within with imported | own
    · exact List.mem_cons_of_mem _ (List.mem_map.mpr ⟨_, (Store.imports_perm found).mem_iff.mpr imported, rfl⟩)
    · rw [(Prod.mk.inj own).2]
      exact List.mem_cons_self
  · rintro ⟨parent, listed, entry, member, named, told⟩
    obtain ⟨n, found, -⟩ := id (held parent listed)
    obtain ⟨name, within⟩ : ∃ name, (name, entry) ∈ (s.frontier parent.ns parent.upto).segments := by
      rcases List.mem_cons.mp member with rfl | imported
      · exact ⟨n.segment, (known.mem_frontier found _).mpr (.inr rfl)⟩
      · obtain ⟨⟨name, entry⟩, inside, rfl⟩ := List.mem_map.mp imported
        exact ⟨name, (known.mem_frontier found _).mpr (.inl ((Store.imports_perm found).mem_iff.mp inside))⟩
    have own : (name, entry) ∈ s.parentEntries parents := Store.mem_parentEntries.mpr ⟨parent, listed, within⟩
    obtain ⟨top, at_, prefix_⟩ := joined.greatest _ _ own
    obtain ⟨holds, segment_⟩ := kept _ own
    obtain ⟨holds', segment'⟩ := kept _ (joined.source _ _ at_)
    have same : s.segment entry.ns = s.segment top.ns := segment_.trans segment'.symm
    exact ⟨top, List.mem_map.mpr ⟨_, OrderedMap.mem_of_get? at_, rfl⟩, same.symm.trans named,
      known.prefix_told placed holds holds' same prefix_ told⟩
  · refine (mergeable.ordered key).imp_of_mem fun {a b} first second ordered => ?_
    have event : ∀ event ∈ s.sharedEvents (s.union (segments.map (·.2))) key, 0 < event.position ∧
        ∃ n, s.namespaces event.ns = some n ∧ event.segment = n.segment := by
      intro event member
      obtain ⟨row, listed, rfl⟩ := List.mem_map.mp member
      obtain ⟨fact, picked, inside⟩ := Rows.mem_table.mp (List.mem_filter.mp listed).1
      obtain ⟨entry, member', row'⟩ := List.mem_flatMap.mp inside
      obtain ⟨named, listed', rfl⟩ := List.mem_map.mp member'
      obtain ⟨n, found, -⟩ := entries named listed'
      have source := (Rows.mem_through.mp row').1
      rw [Store.rows_of_found found] at source
      have place : row.ns = named.2.ns := (placed.rows _ n found _ source).1
      refine ⟨Nat.pos_of_ne_zero fun zero => ?_, n, by rw [place]; exact found, by simp [Store.segment, place, found]⟩
      have told := (known _ n found).zero _ source zero
      cases fact with
      | eventKey key => cases told
      | _ => cases picked
    obtain ⟨positive, n, found, named⟩ := event a first
    obtain ⟨positive', m, found', named'⟩ := event b second
    rw [← known.precedes_iff placed positive found' named', ← known.precedes_iff placed positive' found named]
    exact ordered

/-- A merge of known states refuses or accepts: its reads find every event, and no segment is read through two namespaces. -/
theorem Store.Known.merge_refuses (known : s.Known names) (placed : s.WellPlaced) {parents : List (Option ImportEntry)}
    (held : ∀ parent, some parent ∈ parents → s.Holds parent) : OnlyRefuses (s.mergeFinalizedPrefixes parents) := by
  have holds : ∀ parent ∈ parents.filterMap id, s.Holds parent := fun parent listed => held parent (by simpa using listed)
  have kept := known.parentEntries placed holds
  have laws := known.sharedPrefix
  have segments : OnlyRefuses (s.mergeSegments (parents.filterMap id)) := by
    rw [Store.mergeSegments_eq]
    refine @OnlyRefuses.foldlM _ _ (fun map => ∀ name entry, OrderedMap.get? map name = some entry →
      s.Holds entry ∧ s.segment entry.ns = name) _ _ (fun map entry member own => ?_) _ (fun name entry found => ?_)
    · obtain ⟨name, entry⟩ := entry
      have listed := kept _ member
      have set_ : ∀ top, s.Holds top ∧ s.segment top.ns = name → ∀ other value,
          OrderedMap.get? (OrderedMap.set map name top) other = some value → s.Holds value ∧ s.segment value.ns = other := by
        intro top holds other value found
        rw [OrderedMap.get?_set] at found
        split at found
        · rename_i same
          exact same ▸ Option.some.inj found ▸ holds
        · exact own _ _ found
      simp only [joinEntry]
      split
      · refine ⟨.ok, fun later run => ?_⟩
        exact Except.ok.inj run ▸ set_ entry listed
      · rename_i prior found
        have older := own _ _ found
        refine ⟨OnlyRefuses.bind ?_ fun top _ => .ok, fun later run => ?_⟩
        · intro failure thrown
          simp only [Store.sharedPrefix] at thrown
          split at thrown
          · rename_i le
            rcases known.checkAgree older.1 listed.1 le with ⟨-, agree⟩ | ⟨-, agree⟩
            · rw [agree] at thrown
              cases thrown
            · rw [agree] at thrown
              exact ⟨.continuity, (Except.error.inj thrown).symm⟩
          · rename_i more
            rcases known.checkAgree listed.1 older.1 (Nat.le_of_not_le more) with ⟨-, agree⟩ | ⟨-, agree⟩
            · rw [agree] at thrown
              cases thrown
            · rw [agree] at thrown
              exact ⟨.continuity, (Except.error.inj thrown).symm⟩
        · obtain ⟨top, joins, rest⟩ := bind_eq_ok.mp run
          obtain rfl := pure_eq_ok.mp rest
          rcases laws.greater older listed joins with ⟨-, rfl⟩ | ⟨-, rfl⟩
          · exact set_ _ listed
          · exact set_ _ older
    · cases found
  unfold Store.mergeFinalizedPrefixes
  refine segments.bind fun merged run => ?_
  have joined := known.merged placed holds run
  have sources := (known.merged_closed placed holds joined).1.sources joined.keys
  have once : (merged.map (·.2)).map (·.ns) = merged.map (·.2.ns) := by rw [List.map_map]; rfl
  refine OnlyRefuses.bind (fun failure thrown => ?_) fun facts _ => ?_
  · simp only [Store.unionFacts, once, sources, require, decide_true, if_true] at thrown
    cases thrown
  · exact .bind .requireReplay fun _ _ => .bind .requireReplay fun _ _ => .bind .requireReplay fun _ _ =>
      .bind .requireReplay fun _ _ => .bind .requireReplay fun _ _ => .ok

/-- Frontiers joined from the same states' match. -/
theorem Store.Known.joined_matches (known : s.Known names) (placed : s.WellPlaced) {parents parents' : List ImportEntry}
    (held : ∀ parent ∈ parents, s.Holds parent) (same : ∀ parent, parent ∈ parents ↔ parent ∈ parents')
    {a b : OrderedMap Bytes ImportEntry} (joined : Joined s.Prefix (s.parentEntries parents) a)
    (joined' : Joined s.Prefix (s.parentEntries parents') b) : s.Matches a b := by
  have entries : ∀ entry, entry ∈ s.parentEntries parents ↔ entry ∈ s.parentEntries parents' := by
    intro entry
    simp only [Store.mem_parentEntries, same]
  refine ⟨joined.keys, fun entry member => ?_, fun name entry found => joined.same joined' entries found⟩
  exact known.parentEntries placed held entry (joined.source _ _ (OrderedMap.get?_of_mem joined.keys member))

/-- No event is at an opening. -/
theorem Store.Known.historyAt_zero (known : s.Known names) {entry : ImportEntry} (held : s.Holds entry) (zero : entry.upto = 0) :
    s.historyAt entry = none := by
  obtain ⟨n, found, -⟩ := held
  simp only [Store.historyAt, Store.event, found, Option.bind_some, zero, Option.map_eq_none_iff]
  cases seen : n.event 0 with
  | none => rfl
  | some event => exact absurd ((known _ n found).event_pos seen) (Nat.lt_irrefl 0)

/-- Matching frontiers read the same histories as far. -/
theorem Store.Matches.base {a b : OrderedMap Bytes ImportEntry} (ab : s.Matches a b) (ba : s.Matches b a) (known : s.Known names)
    (name : Bytes) : s.base a name = s.base b name := by
  simp only [Store.base]
  cases found : OrderedMap.get? a name with
  | some entry =>
    obtain ⟨other, found', first, second⟩ := ab.same name entry found
    have upto : entry.upto = other.upto := le_antisymm first.1 second.1
    have held := (ab.kept _ (OrderedMap.mem_of_get? found)).1
    have held' := (ba.kept _ (OrderedMap.mem_of_get? found')).1
    rw [found', Option.map_some, Option.map_some]
    refine congrArg some (Prod.ext upto ?_)
    rcases Nat.eq_zero_or_pos entry.upto with zero | positive
    · rw [known.historyAt_zero held zero, known.historyAt_zero held' (upto ▸ zero)]
    · rw [first.2 positive, upto]
  | none =>
    cases found' : OrderedMap.get? b name with
    | none => rfl
    | some other =>
      obtain ⟨entry, found'', -⟩ := ba.same name other found'
      rw [found] at found''
      cases found''

/-- A merge of held states in a known store refuses or is the least frontier over theirs; and whatever order or copies of them it
reads, it refuses alike and comes to the same positions, histories and totals. -/
theorem merges_alike [Crypto] {r : Replays} (reach : (knownReplays names).Reach r) {parents parents' : List (Option ImportEntry)}
    (held : ∀ parent, some parent ∈ parents → r.store.Holds parent)
    (same : ∀ parent, some parent ∈ parents ↔ some parent ∈ parents') :
    OnlyRefuses (r.store.mergeFinalizedPrefixes parents) ∧ ∀ imports, r.store.mergeFinalizedPrefixes parents = .ok imports →
      r.store.Merges (parents.filterMap id) imports ∧
      ∃ imports', r.store.mergeFinalizedPrefixes parents' = .ok imports' ∧ r.store.SameFrontier imports imports' := by
  have known := (knownReplays_known reach).store
  have placed := (apartReplays_audited.reach (knownReplays_apart reach)).store.toWellPlaced
  refine ⟨known.merge_refuses placed held, fun imports run => ?_⟩
  obtain ⟨segments, merged, -, mergeable, rfl⟩ := Store.mergeFinalizedPrefixes_eq_ok.mp run
  have holds : ∀ parent ∈ parents.filterMap id, r.store.Holds parent := fun parent listed => held parent (by simpa using listed)
  have holds' : ∀ parent ∈ parents'.filterMap id, r.store.Holds parent :=
    fun parent listed => held parent ((same parent).mpr (by simpa using listed))
  have members : ∀ parent, parent ∈ parents.filterMap id ↔ parent ∈ parents'.filterMap id := by
    intro parent
    simpa using same parent
  have kept := known.parentEntries placed holds
  have kept' := known.parentEntries placed holds'
  have joined := known.merged placed holds merged
  obtain ⟨segments', merged'⟩ : ∃ segments', r.store.mergeSegments (parents'.filterMap id) = .ok segments' := by
    rw [Store.mergeSegments_eq]
    refine (foldlM_joins_iff known.sharedPrefix kept').mpr fun name a b first second => ?_
    rw [Store.mem_parentEntries] at first second
    simp only [← members] at first second
    exact joined.comparable known.sharedPrefix kept name a b (Store.mem_parentEntries.mpr first) (Store.mem_parentEntries.mpr second)
  have joined' := known.merged placed holds' merged'
  have ab := known.joined_matches placed holds members joined joined'
  have ba := known.joined_matches placed holds' (fun parent => (members parent).symm) joined' joined
  have sources' := (known.merged_closed placed holds' joined').1.sources joined'.keys
  refine ⟨known.merges placed holds joined mergeable, _, Store.mergeFinalizedPrefixes_eq_ok.mpr
    ⟨segments', merged', sources', ab.mergeable ba known placed mergeable, rfl⟩, fun name => ab.base ba known name,
    fun backing => ab.supply ba known placed backing⟩

end Merged

section Sample

local instance sampleMerges : Crypto := sampleCrypto

/-- A demand of the segment named 2 over the sample demand's tag, standing past it. -/
def sampleOther : RecordBody :=
  { sampleDemand with publicInputs := sampleLimbs (sampleName 0) ++ sampleLimbs (sampleName 2) ++ [5] ++ sampleLimbs (sampleName 3) ++
      [5, emptyNoteRoot, 0, 77, 0] ++ sampleLimbs (sampleName 7) ++ [1, 90] }

def sampleLater : SegmentReplay := { sampleReplay with segment := sampleName 2, index := 50 }

/-- The segment named 2 opened over the one named 1, and over none, each to the same history; then the one named 1 opened over itself. -/
def sampleCopies : Except Failure Store := do
  let (first, opened) ← openSegmentState Store.empty (sampleName 1) (sampleName 9) none poolV3
  let stood ← applyRecord opened first (encodeRecord sampleDemand) sampleReplay
  let (second, again) ← openSegmentState stood (sampleName 2) (sampleName 9) (some (first.handle.frontier stood)) poolV3
  let applied ← applyRecord again second (encodeRecord sampleOther) sampleLater
  let (alone, twice) ← openSegmentState applied (sampleName 2) (sampleName 9) none poolV3
  let copied ← applyRecord twice alone (encodeRecord sampleOther) sampleLater
  let (_, last) ← openSegmentState copied (sampleName 1) (sampleName 9) (some (first.handle.frontier copied)) poolV3
  return last

theorem openSegmentState_reach {R : Type} {s : Store} (reach : replays.Reach ⟨s, []⟩) {construction : Construction R}
    {segment identity : Bytes} {imported : Option Imports} {state : SegmentState R} {later : Store} (source : ImportSource ⟨s, []⟩ imported)
    (run : openSegmentState s segment identity imported construction = .ok (state, later)) : replays.Reach ⟨later, []⟩ ∧ s.Grows later := by
  have unused : s.namespaces s.next = none := (replays_placed.reach reach).store.fresh _ le_rfl
  obtain ⟨history, evidence, spent, -, -, -, -, -, -, made⟩ := openSegmentState_eq_ok.mp run
  exact ⟨.next reach (.opened (r := ⟨s, []⟩) source run), made ▸ Store.opened_grows unused⟩

theorem sampleCopies_reach {s : Store} (run : sampleCopies = .ok s) : replays.Reach ⟨s, []⟩ := by
  obtain ⟨⟨first, opened⟩, opening, run⟩ := bind_eq_ok.mp run
  obtain ⟨stood, standing, run⟩ := bind_eq_ok.mp run
  obtain ⟨⟨second, again⟩, importing, run⟩ := bind_eq_ok.mp run
  obtain ⟨applied, applying, run⟩ := bind_eq_ok.mp run
  obtain ⟨⟨alone, twice⟩, copying, run⟩ := bind_eq_ok.mp run
  obtain ⟨copied, applying', run⟩ := bind_eq_ok.mp run
  obtain ⟨⟨final, last⟩, ending, run⟩ := bind_eq_ok.mp run
  obtain rfl := pure_eq_ok.mp run
  obtain ⟨n, found, -, -, -, keeps⟩ := openSegmentState_opened opening
  obtain ⟨m, foundM, -, -, -, keepsM⟩ := openSegmentState_opened importing
  obtain ⟨k, foundK, -, -, -, keepsK⟩ := openSegmentState_opened copying
  have started : replays.Reach ⟨stood, []⟩ := .next (openSegmentState_reach (.start rfl) .none opening).1 (.applied found keeps standing)
  obtain ⟨n', found', grown⟩ := applyRecord_grows standing _ _ found
  have imports : ImportSource ⟨stood, []⟩ (some (first.handle.frontier stood)) :=
    .tip (r := ⟨stood, []⟩) found' (grown.keeps.trans keeps)
  obtain ⟨reached, grows⟩ := openSegmentState_reach started imports importing
  obtain ⟨reached', grows'⟩ := openSegmentState_reach (.next reached (.applied foundM keepsM applying)) .none copying
  have later : stood.Grows copied := (grows.trans (applyRecord_grows applying)).trans (grows'.trans (applyRecord_grows applying'))
  obtain ⟨n₁, found₁, grown₁⟩ := later _ _ found'
  have kept : n₁.keeps = first.construction.keeps := grown₁.keeps.trans (grown.keeps.trans keeps)
  exact (openSegmentState_reach (.next reached' (.applied foundK keepsK applying')) (.tip (r := ⟨copied, []⟩) found₁ kept) ending).1

/-- Copies of one segment over different frontiers make a merge depend on its parents' order, and a segment opened over its own
state is merged at less than what another entry imports of it. -/
theorem sampleCopies_unordered : ∃ s imports, sampleCopies = .ok s ∧ replays.Reach ⟨s, []⟩ ∧
    s.Holds ⟨2, 1⟩ ∧ s.Holds ⟨3, 1⟩ ∧ s.Holds ⟨4, 0⟩ ∧
    s.mergeFinalizedPrefixes [some ⟨2, 1⟩, some ⟨3, 1⟩] = .error (.replay .recoveryConflict) ∧
    (∃ accepted, s.mergeFinalizedPrefixes [some ⟨3, 1⟩, some ⟨2, 1⟩] = .ok accepted) ∧
    s.mergeFinalizedPrefixes [some ⟨4, 0⟩] = .ok imports ∧ ¬s.Closed imports.segments := by
  have runs : sampleCopies.toOption.any (fun s =>
      [2, 3].all (fun ns => (s.namespaces ns).any (1 ≤ ·.position)) && (s.namespaces 4).isSome &&
      (match s.mergeFinalizedPrefixes [some ⟨2, 1⟩, some ⟨3, 1⟩] with
        | .error failure => failure = .replay .recoveryConflict
        | .ok _ => false) &&
      (s.mergeFinalizedPrefixes [some ⟨3, 1⟩, some ⟨2, 1⟩]).toOption.isSome &&
      (s.mergeFinalizedPrefixes [some ⟨4, 0⟩]).toOption.any (fun imports =>
        imports.segments.any fun entry => (s.imports entry.2.ns).any fun inner =>
          (OrderedMap.get? imports.segments inner.1).all fun held => held.upto < inner.2.upto)) = true := by decide +kernel
  obtain ⟨s, run, runs⟩ := ok_of_any runs
  simp only [Bool.and_eq_true, List.all_cons, List.all_nil, Bool.and_true,
    Option.any_eq_true, decide_eq_true_eq] at runs
  obtain ⟨⟨⟨⟨⟨⟨n, found, bound⟩, m, foundM, boundM⟩, last⟩, refused⟩, accepted⟩, imports, merged, open_⟩ := runs
  obtain ⟨k, foundK⟩ := Option.isSome_iff_exists.mp last
  refine ⟨s, imports, run, sampleCopies_reach run, ⟨n, found, bound⟩, ⟨m, foundM, boundM⟩, ⟨k, foundK, Nat.zero_le _⟩, ?_, ?_, ?_, ?_⟩
  · split at refused
    · rename_i failure thrown
      rw [thrown, of_decide_eq_true refused]
    · cases refused
  · cases merging : s.mergeFinalizedPrefixes [some ⟨3, 1⟩, some ⟨2, 1⟩] with
    | error failure => simp [merging, Except.toOption] at accepted
    | ok result => exact ⟨result, rfl⟩
  · cases merging : s.mergeFinalizedPrefixes [some ⟨4, 0⟩] with
    | error failure => simp [merging, Except.toOption] at merged
    | ok result => simpa [merging, Except.toOption] using merged
  · obtain ⟨entry, member, more⟩ := List.any_eq_true.mp open_
    obtain ⟨inner, imported, short⟩ := List.any_eq_true.mp more
    intro closed
    obtain ⟨held, at_, prefix_⟩ := closed entry member inner imported
    rw [at_, Option.all_some, decide_eq_true_eq] at short
    exact absurd prefix_.1 (Nat.not_le_of_lt short)

/-- The segment named 1 stands a demand, and the one named 2 is opened over it. -/
def sampleInherited : Except Failure (Store × Store × SegmentState Record × Record × Store) := do
  let (first, opened) ← openSegmentState Store.empty (sampleName 1) (sampleName 9) none poolV3
  let record ← decodeJudged poolV3 (encodeRecord sampleDemand)
  let stood ← applyRecord opened first (encodeRecord sampleDemand) sampleReplay
  let (_, last) ← openSegmentState stood (sampleName 2) (sampleName 9) (some (first.handle.frontier stood)) poolV3
  return (opened, stood, first, record, last)

theorem sampleInherited_alike : ∃ names r imports imports', (knownReplays names).Reach r ∧
    r.store.mergeFinalizedPrefixes [some ⟨2, 0⟩, none, some ⟨1, 1⟩] = .ok imports ∧ imports.segments.length = 2 ∧
    r.store.Merges [⟨2, 0⟩, ⟨1, 1⟩] imports ∧
    r.store.mergeFinalizedPrefixes [some ⟨1, 1⟩, some ⟨2, 0⟩, some ⟨1, 1⟩] = .ok imports' ∧ r.store.SameFrontier imports imports' := by
  have runs : sampleInherited.toOption.any (fun (opened, _, first, record, last) =>
      (judgedView opened first record).kind = 4 && (last.namespaces 1).any (1 ≤ ·.position) && (last.namespaces 2).isSome &&
      (last.mergeFinalizedPrefixes [some ⟨2, 0⟩, none, some ⟨1, 1⟩]).toOption.any (·.segments.length = 2)) = true := by decide +kernel
  obtain ⟨⟨opened, stood, first, record, last⟩, run, runs⟩ := ok_of_any runs
  simp only [Bool.and_eq_true, Option.any_eq_true, decide_eq_true_eq] at runs
  obtain ⟨⟨⟨kind, n, found, bound⟩, heir⟩, imports, merged, two⟩ := runs
  obtain ⟨⟨first, opened⟩, opening, run⟩ := bind_eq_ok.mp run
  obtain ⟨record, decoded, run⟩ := bind_eq_ok.mp run
  obtain ⟨stood, standing, run⟩ := bind_eq_ok.mp run
  obtain ⟨⟨second, last⟩, importing, run⟩ := bind_eq_ok.mp run
  obtain ⟨rfl, rfl, rfl, rfl, rfl⟩ : _ ∧ _ ∧ _ ∧ _ ∧ _ := by simpa using pure_eq_ok.mp run
  obtain ⟨n₀, found₀, named, none_, -, keeps⟩ := openSegmentState_opened opening
  obtain ⟨n₁, found₁, grown⟩ := applyRecord_grows standing _ _ found₀
  obtain ⟨-, -, -, -, -, -, -, -, constructed, -⟩ := openSegmentState_eq_ok.mp opening
  have reads : decodeJudged first.construction (encodeRecord sampleDemand) = .ok record := by simpa only [constructed] using decoded
  let names : Preimages :=
    { link := fun _ => ⟨n₀.history, (judgedView opened first record).identity, n₁.noteRoot, n₁.spent.root, n₀.position + 1⟩
      stated := fun _ _ => (judgedView opened first record).stated
      base := fun segment name => if segment = sampleName 2 then stood.base (first.handle.frontier stood).segments name else none
      stands := fun _ _ _ => rfl }
  have other : sampleName 1 ≠ sampleName 2 := by decide
  have alone : ∀ name, names.base (sampleName 1) name = none := by
    intro name
    simp only [names, other, if_false]
  have bases : ∀ name, names.base (sampleName 2) name = stood.base (first.handle.frontier stood).segments name := by
    intro name
    simp only [names, if_true]
  have openedReach : (knownReplays names).Reach ⟨opened, []⟩ := .next (.start rfl) (.opened (r := ⟨Store.empty, []⟩) .none opening
    (fun name => (alone name).symm) (alone _))
  have linked : ∀ tip, stood.namespaces first.ns = some tip → names.link tip.history =
      ⟨n₀.history, (judgedView opened first record).identity, tip.noteRoot, tip.spent.root, n₀.position + 1⟩ := by
    intro tip seen
    obtain rfl : n₁ = tip := Option.some.inj (found₁.symm.trans seen)
    rfl
  have four : ¬((judgedView opened first record).kind = 1 ∨ (judgedView opened first record).kind = 3) := by
    rw [kind]
    decide
  have stoodReach : (knownReplays names).Reach ⟨stood, []⟩ := .next openedReach (.applied (r := ⟨opened, []⟩) found₀ keeps standing reads
    (fun kinds => absurd kinds four) rfl linked)
  have source : ImportSource ⟨stood, []⟩ (some (first.handle.frontier stood)) :=
    .tip (r := ⟨stood, []⟩) found₁ (grown.keeps.trans keeps)
  have apart : stood.base (first.handle.frontier stood).segments (sampleName 2) = none := by
    refine Store.base_eq_none.mpr fun listed => ?_
    rcases (Store.frontier_names found₁).mp listed with same | inherited
    · exact other (named.symm.trans (grown.segment.symm.trans same.symm))
    · rw [grown.imports, none_] at inherited
      exact List.not_mem_nil inherited
  have reach : (knownReplays names).Reach ⟨last, []⟩ := .next stoodReach (.opened (r := ⟨stood, []⟩) source importing
    (fun name => (bases name).symm) ((bases _).trans apart))
  obtain ⟨heirs, foundH⟩ := Option.isSome_iff_exists.mp heir
  have held : ∀ parent, some parent ∈ [some ⟨2, 0⟩, none, some (⟨1, 1⟩ : ImportEntry)] → last.Holds parent := by
    intro parent member
    simp only [List.mem_cons, Option.some.injEq, reduceCtorEq, List.not_mem_nil, or_false, false_or] at member
    rcases member with rfl | rfl
    · exact ⟨heirs, foundH, Nat.zero_le _⟩
    · exact ⟨n, found, bound⟩
  have accepted : last.mergeFinalizedPrefixes [some ⟨2, 0⟩, none, some ⟨1, 1⟩] = .ok imports := by
    cases merging : last.mergeFinalizedPrefixes [some ⟨2, 0⟩, none, some ⟨1, 1⟩] with
    | error failure => simp [merging, Except.toOption] at merged
    | ok result => simpa [merging, Except.toOption] using merged
  have permuted : ∀ parent : ImportEntry, some parent ∈ [some ⟨2, 0⟩, none, some (⟨1, 1⟩ : ImportEntry)] ↔
      some parent ∈ [some ⟨1, 1⟩, some ⟨2, 0⟩, some (⟨1, 1⟩ : ImportEntry)] := by simp [or_comm]
  obtain ⟨merges, imports', again, same⟩ := (merges_alike reach held permuted).2 imports accepted
  exact ⟨names, ⟨last, []⟩, imports, imports', reach, accepted, two, merges, again, same⟩

end Sample

end Moe
