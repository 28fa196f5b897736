import Moe.Pool.HistoricalReads
import Moe.Pool.Told

namespace Moe

/-- What the digests of a run are of, no two of them colliding: each history hash is of one link and each identity of one
statement; and what the header behind each segment's name fixes of the frontier it opens over. -/
structure Preimages where
  link : Bytes → HistoryLink
  stated : Bytes → (Bytes → Option Demand) → Stated
  base : Bytes → Bytes → Option (Nat × Option Bytes)
  stands : ∀ id demandOf other, (stated id demandOf).demand = (stated id other).demand

namespace Store

def historyAt (s : Store) (entry : ImportEntry) : Option Bytes := (s.event entry.ns entry.upto).map (·.history)

/-- A segment's imported position and history in a frontier. -/
def base (s : Store) (segments : OrderedMap Bytes ImportEntry) (name : Bytes) : Option (Nat × Option Bytes) :=
  (OrderedMap.get? segments name).map fun entry => (entry.upto, s.historyAt entry)

/-- One replayed prefix is no longer than another and ends in its history. -/
def Prefix (s : Store) (a b : ImportEntry) : Prop := a.upto ≤ b.upto ∧ (0 < a.upto → s.historyAt a = s.historyAt ⟨b.ns, a.upto⟩)

/-- Every segment an entry imports is in the frontier too, at least as far. -/
def Closed (s : Store) (segments : OrderedMap Bytes ImportEntry) : Prop :=
  ∀ entry ∈ segments, ∀ inner ∈ s.imports entry.2.ns, ∃ held, OrderedMap.get? segments inner.1 = some held ∧ s.Prefix inner.2 held

/-- Each entry's namespace replays the segment it is named by. -/
def Named (s : Store) (segments : OrderedMap Bytes ImportEntry) : Prop := ∀ entry ∈ segments, s.segment entry.2.ns = entry.1

end Store

variable [Crypto]

/-- A call that did not refuse, where no two digests collide and each segment opens over what its header fixes, never itself. -/
inductive KnownStep (names : Preimages) : Replays → ReplayAction → Replays → Prop
  | opened {r : Replays} {R : Type} {construction : Construction R} {segment identity : Bytes} {imported : Option Imports}
      {state : SegmentState R} {later : Store} : ImportSource r imported →
      openSegmentState r.store segment identity imported construction = .ok (state, later) →
      (∀ name, r.store.base (imported.getD .empty).segments name = names.base segment name) → names.base segment segment = none →
      KnownStep names r (.opened segment imported) { r with store := later }
  | merged {r : Replays} {parents : List (Option ImportEntry)} {imports : Imports} :
      (∀ parent, some parent ∈ parents → r.store.Holds parent) → r.store.mergeFinalizedPrefixes parents = .ok imports →
      KnownStep names r (.merged imports) { r with merged := imports :: r.merged }
  | applied {r : Replays} {R : Type} {state : SegmentState R} {n : Namespace} {bytes : Bytes} {record : R} {replay : SegmentReplay}
      {later : Store} : r.store.namespaces state.ns = some n → n.keeps = state.construction.keeps →
      applyRecord r.store state bytes replay = .ok later → decodeJudged state.construction bytes = .ok record →
      ((judgedView r.store state record).kind = 1 ∨ (judgedView r.store state record).kind = 3 →
        (judgedView r.store state record).backings ≠ []) →
      (judgedView r.store state record).stated =
        names.stated (judgedView r.store state record).identity (state.handle.view r.store).demand →
      (∀ tip, later.namespaces state.ns = some tip → names.link tip.history =
        ⟨n.history, (judgedView r.store state record).identity, tip.noteRoot, tip.spent.root, n.position + 1⟩) →
      KnownStep names r (.applied state.ns bytes) { r with store := later }

def knownReplays (names : Preimages) : Machine Replays ReplayAction := ⟨replays.start, KnownStep names⟩

omit [Crypto] in
theorem Store.base_eq_none {s : Store} {segments : OrderedMap Bytes ImportEntry} {name : Bytes} :
    s.base segments name = none ↔ name ∉ segments.map (·.1) := by
  simp only [Store.base, Option.map_eq_none_iff, OrderedMap.get?_eq_none_iff, List.mem_map, not_exists, not_and]

theorem KnownStep.apart {names : Preimages} {r later : Replays} {action : ReplayAction} (step : KnownStep names r action later) :
    apartReplays.step r action later := by
  cases step with
  | opened source run based apart => exact ⟨.opened source run, Store.base_eq_none.mp ((based _).trans apart)⟩
  | merged held run => exact ⟨.merged held run, trivial⟩
  | applied found keeps run => exact ⟨.applied found keeps run, trivial⟩

theorem knownReplays_apart {names : Preimages} {r : Replays} (reach : (knownReplays names).Reach r) : apartReplays.Reach r := by
  induction reach with
  | start first => exact .start first
  | next _ step ih => exact .next ih (KnownStep.apart step)

/-- What the event at a position of a namespace tells: the statement and the link its history hash is of. -/
structure Store.Tells (names : Preimages) (s : Store) (ns : Nat) (n : Namespace) (p : Nat) (history : Bytes) : Prop where
  event : (n.event (p + 1)).map (·.history) = some history
  position : (names.link history).position = p + 1
  previous : ∀ before, n.event p = some before → (names.link history).previous = before.history
  own : ∀ stands, (names.stated (names.link history).identity (s.visible ns p).demand).demand = some stands →
    stands.1 = (names.link history).identity
  rows : (n.rows.at_ (p + 1)).told = ((names.stated (names.link history).identity (s.visible ns p).demand).facts
    (names.link history) history (s.visible ns p).demand).map (p + 1, ·)

/-- What a namespace is in a store whose digests are known. -/
structure Namespace.Known (names : Preimages) (s : Store) (ns : Nat) (n : Namespace) : Prop where
  newest : n.rows.Newest
  zero : ∀ row ∈ n.rows, row.position = 0 → row.row.told = none
  tip : 0 < n.position → (n.event n.position).map (·.history) = some n.history
  tells : ∀ p < n.position, ∃ history, s.Tells names ns n p history
  named : s.Named n.imports
  based : ∀ name, s.base n.imports name = names.base n.segment name
  apart : names.base n.segment n.segment = none
  closed : s.Closed n.imports

def Store.Known (names : Preimages) (s : Store) : Prop := ∀ ns n, s.namespaces ns = some n → n.Known names s ns

section Growth

omit [Crypto]

variable {s later : Store} (grows : s.Grows later)

include grows

theorem Store.Grows.historyAt {entry : ImportEntry} (held : s.Holds entry) : later.historyAt entry = s.historyAt entry := by
  obtain ⟨n, found, bound⟩ := held
  obtain ⟨n', found', grown⟩ := grows _ n found
  simp only [Store.historyAt, Store.event, found, found', Option.bind_some, grown.event bound]

theorem Store.Grows.segment {entry : ImportEntry} (held : s.Holds entry) : later.segment entry.ns = s.segment entry.ns := by
  obtain ⟨n, found, -⟩ := held
  obtain ⟨n', found', grown⟩ := grows _ n found
  simp only [Store.segment, found, found', Option.map_some, grown.segment]

theorem Store.Grows.prefix {a b : ImportEntry} (first : s.Holds a) (second : s.Holds b) (prefix_ : s.Prefix a b) : later.Prefix a b := by
  obtain ⟨n, found, bound⟩ := second
  refine ⟨prefix_.1, fun positive => ?_⟩
  have inside : s.Holds ⟨b.ns, a.upto⟩ := ⟨n, found, prefix_.1.trans bound⟩
  rw [grows.historyAt first, grows.historyAt inside]
  exact prefix_.2 positive

theorem Store.Grows.base {segments : OrderedMap Bytes ImportEntry} (held : ∀ entry ∈ segments, s.Holds entry.2) (name : Bytes) :
    later.base segments name = s.base segments name := by
  simp only [Store.base]
  cases found : OrderedMap.get? segments name with
  | none => rfl
  | some entry =>
    have same := grows.historyAt (held _ (OrderedMap.mem_of_get? found))
    simp only [Option.map_some, same]

theorem Store.Grows.named {segments : OrderedMap Bytes ImportEntry} (held : ∀ entry ∈ segments, s.Holds entry.2)
    (named : s.Named segments) : later.Named segments :=
  fun entry member => (grows.segment (held entry member)).trans (named entry member)

theorem Store.Grows.closed {segments : OrderedMap Bytes ImportEntry} (placed : s.WellPlaced) (held : ∀ entry ∈ segments, s.Holds entry.2)
    (closed : s.Closed segments) : later.Closed segments := by
  intro entry member inner imported
  obtain ⟨n, found, bound⟩ := held entry member
  rw [grows.imports found] at imported
  obtain ⟨top, at_, prefix_⟩ := closed entry member inner imported
  have first := (placed.imports _ n found inner ((Store.imports_perm found).mem_iff.mp imported)).2
  exact ⟨top, at_, grows.prefix first (held _ (OrderedMap.mem_of_get? at_)) prefix_⟩

end Growth

omit [Crypto] in
/-- A namespace that does not move stays known as the store grows. -/
theorem Namespace.Known.grows {names : Preimages} {s later : Store} {ns : Nat} {n : Namespace} (known : n.Known names s ns)
    (placed : s.WellPlaced) (found : s.namespaces ns = some n) (grows : s.Grows later) : n.Known names later ns := by
  have held : ∀ entry ∈ n.imports, s.Holds entry.2 := fun entry member => (placed.imports ns n found entry member).2
  refine ⟨known.newest, known.zero, known.tip, fun p below => ?_, grows.named held known.named,
    fun name => (grows.base held name).trans (known.based name), known.apart, grows.closed placed held known.closed⟩
  obtain ⟨history, tells⟩ := known.tells p below
  have visible := grows.visible placed ⟨n, found, below.le⟩
  exact ⟨history, tells.event, tells.position, tells.previous, visible ▸ tells.own, visible ▸ tells.rows⟩

omit [Crypto] in
theorem Namespace.Known.event_pos {names : Preimages} {s : Store} {ns : Nat} {n : Namespace} (known : n.Known names s ns) {p : Nat}
    {event : StoredEvent} (found : n.event p = some event) : 0 < p := by
  obtain ⟨placed, seen, -⟩ := Option.map_eq_some_iff.mp found
  have position : placed.position = p := by simpa using List.find?_some seen
  obtain ⟨fact, picked, member⟩ := Rows.mem_table.mp (List.mem_of_find?_eq_some seen)
  rcases Nat.eq_zero_or_pos p with rfl | positive
  · have told := known.zero _ member position
    cases fact with
    | event row => cases told
    | _ => cases picked
  · exact positive

section Written

variable {names : Preimages} {s later : Store} {R : Type} {state : SegmentState R} {bytes : Bytes} {replay : SegmentReplay} {record : R}
  {n : Namespace} {effects : Append} {spent : SpentSet} {demand : Option StoredDemand}

theorem Namespace.written_event (n : Namespace) (ns : Nat) (effects : Append) (spent : SpentSet) (demand : Option StoredDemand) :
    (n.written ns effects spent demand).event (n.position + 1) = some (n.eventOf effects spent) := by
  simp [Namespace.event, Namespace.written, Rows.events_append]

/-- The namespace a record is applied to stays known. -/
theorem Applied.known (applied : Applied s state bytes replay record n effects spent demand later) (placed : s.WellPlaced) (stood : s.Stood)
    (known : n.Known names s state.ns)
    (named : (judgedView s state record).kind = 1 ∨ (judgedView s state record).kind = 3 → (judgedView s state record).backings ≠ [])
    (stated : (judgedView s state record).stated = names.stated (judgedView s state record).identity (state.handle.view s).demand)
    (link : names.link (n.eventOf effects spent).history = ⟨n.history, (judgedView s state record).identity,
      (n.eventOf effects spent).noteRoot, spent.root, n.position + 1⟩) :
    (n.written state.ns effects spent demand).Known names later state.ns := by
  have grows := applied.grows
  have told := applied.told placed stood named
  have regular := judgedView_regular placed stood applied.found record
  have held : ∀ entry ∈ n.imports, s.Holds entry.2 := fun entry member => (placed.imports _ n applied.found entry member).2
  have places : ∀ row ∈ n.added state.ns effects spent demand, row.position = n.position + 1 :=
    fun row member => (n.mem_added _ _ _ _ member).2
  have below : ∀ row ∈ n.rows, row.position ≤ n.position := fun row member => (placed.rows _ n applied.found row member).2
  have earlier : ∀ p ≤ n.position, later.visible state.ns p = s.visible state.ns p :=
    fun p bound => grows.visible placed ⟨n, applied.found, bound⟩
  have grown := n.written_grown state.ns effects spent demand
  refine ⟨?_, ?_, fun _ => ?_, fun p bound => ?_, grows.named held known.named, fun name => (grows.base held name).trans (known.based name),
    known.apart, grows.closed placed held known.closed⟩
  · refine List.pairwise_append.mpr ⟨List.pairwise_of_forall_mem_list fun a first b second => ?_, known.newest, fun a new b old => ?_⟩
    · rw [places a first, places b second]
    · rw [places a new]
      exact (below b old).trans (Nat.le_succ _)
  · intro row member zero
    rcases List.mem_append.mp member with new | old
    · have := places row new
      omega
    · exact known.zero row old zero
  · have event := n.written_event state.ns effects spent demand
    exact congrArg (Option.map (·.history)) event
  · rcases Nat.lt_or_ge p n.position with old | new
    · obtain ⟨history, tells⟩ := known.tells p old
      have rows : (n.written state.ns effects spent demand).rows.at_ (p + 1) = n.rows.at_ (p + 1) := by
        have none_ : Rows.at_ (p + 1) (n.added state.ns effects spent demand) = [] := by
          refine List.filter_eq_nil_iff.mpr fun row member => ?_
          have := places row member
          simp only [decide_eq_true_eq]
          omega
        simp only [Namespace.written, Rows.at_, List.filter_append] at none_ ⊢
        rw [none_, List.nil_append]
      refine ⟨history, ?_, tells.position, fun before seen => ?_, ?_, ?_⟩
      · rw [grown.event (by omega)]
        exact tells.event
      · rw [grown.event old.le] at seen
        exact tells.previous before seen
      · rw [earlier p old.le]
        exact tells.own
      · rw [earlier p old.le, rows]
        exact tells.rows
    · obtain rfl : p = n.position := by
        have : p < n.position + 1 := bound
        omega
      have demandOf : (state.handle.view s).demand = (s.visible state.ns n.position).demand := by
        rw [← SegmentState.rows applied.found]
        rfl
      have identity : (names.link (n.eventOf effects spent).history).identity = (judgedView s state record).identity := by rw [link]
      rw [demandOf] at stated told
      have own : (names.stated (judgedView s state record).identity (s.visible state.ns n.position).demand).demand =
          (judgedView s state record).demand := by
        rw [← stated]
        rfl
      refine ⟨(n.eventOf effects spent).history, ?_, by rw [link], fun before seen => ?_, ?_, ?_⟩
      · rw [n.written_event]
        rfl
      · rw [grown.event le_rfl] at seen
        have tip := known.tip (known.event_pos seen)
        rw [seen] at tip
        rw [link]
        exact (Option.some.inj tip).symm
      · rw [earlier _ le_rfl, identity, own]
        intro stands found
        by_cases four : (judgedView s state record).kind = 4
        · obtain ⟨value, named, -⟩ := regular.stands four
          rw [named] at found
          exact (congrArg Prod.fst (Option.some.inj found)).symm
        · rw [regular.others four] at found
          cases found
      · have rows : (n.written state.ns effects spent demand).rows.at_ (n.position + 1) = n.added state.ns effects spent demand := by
          have none_ : Rows.at_ (n.position + 1) n.rows = [] := by
            refine List.filter_eq_nil_iff.mpr fun row member => ?_
            have := below row member
            simp only [decide_eq_true_eq]
            omega
          have all : Rows.at_ (n.position + 1) (n.added state.ns effects spent demand) = n.added state.ns effects spent demand :=
            List.filter_eq_self.mpr fun row member => by simpa using places row member
          simp only [Namespace.written, Rows.at_, List.filter_append] at none_ all ⊢
          rw [none_, all, List.append_nil]
        rw [rows, earlier _ le_rfl, identity, ← stated, link]
        exact told

end Written

/-- What frontiers a new segment may start from are: named, and closed under what they import. -/
structure Replays.Known (names : Preimages) (r : Replays) : Prop where
  store : r.store.Known names
  merged : ∀ imports ∈ r.merged, r.store.Named imports.segments ∧ r.store.Closed imports.segments

omit [Crypto] in
theorem Store.Prefix.refl (s : Store) (a : ImportEntry) : s.Prefix a a := ⟨le_rfl, fun _ => rfl⟩

omit [Crypto] in
/-- A known segment's frontier lists what it imports, and itself. -/
theorem Store.Known.mem_frontier {names : Preimages} {s : Store} (known : s.Known names) {ns p : Nat} {n : Namespace}
    (found : s.namespaces ns = some n) (entry : Bytes × ImportEntry) :
    entry ∈ (s.frontier ns p).segments ↔ entry ∈ n.imports ∨ entry = (n.segment, ⟨ns, p⟩) := by
  have own := known ns n found
  have segment : s.segment ns = n.segment := by simp [Store.segment, found]
  have perm := Store.imports_perm found
  have absent : n.segment ∉ n.imports.map (·.1) := Store.base_eq_none.mp ((own.based _).trans own.apart)
  have absent' : s.segment ns ∉ (s.imports ns).map (·.1) := by
    rw [segment]
    exact fun member => absent ((perm.map _).mem_iff.mp member)
  rw [Store.frontier, OrderedMap.set_of_not_mem absent', List.mem_append, perm.mem_iff, List.mem_singleton, segment]

omit [Crypto] in
/-- The frontier of a state is named and closed: it does not import its own segment. -/
theorem Store.Known.frontier {names : Preimages} {s : Store} (known : s.Known names) (placed : s.WellPlaced) {ns p : Nat} {n : Namespace}
    (found : s.namespaces ns = some n) : s.Named (s.frontier ns p).segments ∧ s.Closed (s.frontier ns p).segments := by
  have own := known ns n found
  have members := @Store.Known.mem_frontier names s known ns p n found
  have segment : s.segment ns = n.segment := by simp [Store.segment, found]
  have absent : n.segment ∉ n.imports.map (·.1) := Store.base_eq_none.mp ((own.based _).trans own.apart)
  have keys := placed.segments ns n found
  have perm := Store.imports_perm found
  have lookup : ∀ name held, OrderedMap.get? n.imports name = some held → OrderedMap.get? (s.frontier ns p).segments name = some held := by
    intro name held at_
    have other : n.segment ≠ name := by
      rintro rfl
      exact absent (List.mem_map.mpr ⟨_, OrderedMap.mem_of_get? at_, rfl⟩)
    rw [Store.frontier, OrderedMap.get?_set, segment, if_neg other, OrderedMap.get?_perm perm ((perm.map _).nodup_iff.mpr keys)]
    exact at_
  refine ⟨fun entry member => ?_, fun entry member inner imported => ?_⟩
  · rcases (members entry).mp member with old | rfl
    · exact own.named entry old
    · exact segment
  · rcases (members entry).mp member with old | rfl
    · obtain ⟨held, at_, prefix_⟩ := own.closed entry old inner imported
      exact ⟨held, lookup _ _ at_, prefix_⟩
    · obtain ⟨name, held⟩ := inner
      exact ⟨held, lookup _ _ (OrderedMap.get?_of_mem keys (perm.mem_iff.mp imported)), .refl s _⟩

end Moe
