import Moe.Pool.Reads

namespace Moe

section

variable [Crypto]

/-- The namespaces a namespace imports. -/
def Store.sources (s : Store) (ns : Nat) : List Nat := (s.imports ns).map (·.2.ns)

/-- A sequence of the store's writes, each collection one that `alive` lets pass. A call that throws writes nothing. -/
inductive StoreRun (alive : Store → List Nat → Prop) (s : Store) : Store → Prop
  | start : StoreRun alive s s
  | append {middle later : Store} {ns : Nat} {record : Append} :
      StoreRun alive s middle → middle.append ns record = .ok later → StoreRun alive s later
  | opened {middle later : Store} {ns : Nat} {segment identity history evidence : Bytes} {imported : Option Imports}
      {keeps : NamespaceConstruction} :
      StoreRun alive s middle → middle.open segment identity imported history evidence keeps = .ok (ns, later) → StoreRun alive s later
  | copied {middle later : Store} {source : Option Store} {frontier copied : Imports} {identity : Bytes → Bytes} :
      StoreRun alive s middle → middle.copyFrontier source frontier identity = .ok (copied, later) → StoreRun alive s later
  | collected {middle : Store} {keep : List Nat} : StoreRun alive s middle → alive middle keep → StoreRun alive s (middle.collect keep)

/-- A store any run of its writes leaves. -/
def Store.Written (s : Store) : Prop := StoreRun (fun _ _ => True) .empty s

/-- A collection keeps a namespace, or one that imports it. -/
def Store.KeepsAlive (ns : Nat) (s : Store) (keep : List Nat) : Prop := ns ∈ keep ∨ ∃ m ∈ keep, ns ∈ s.sources m

/-- A collection keeps a namespace, or one that imports it and everything it imports. -/
def Store.KeepsReads (ns : Nat) (s : Store) (keep : List Nat) : Prop :=
  ns ∈ keep ∨ ∃ m ∈ keep, ns ∈ s.sources m ∧ ∀ k ∈ s.sources ns, k ∈ s.sources m

/-- A namespace's frontier names positions its sources have reached. -/
def Store.Reached (s : Store) (ns : Nat) : Prop :=
  ∀ entry ∈ s.imports ns, ∀ m, s.namespaces entry.2.ns = some m → entry.2.upto ≤ m.position

/-- Two stores answer every read at `(ns, p)` alike. -/
structure SameReads (s later : Store) (ns p : Nat) : Prop where
  hasNullifier : ∀ nf, later.hasNullifier ns p nf = s.hasNullifier ns p nf
  hasOutput : ∀ cm, later.hasOutput ns p cm = s.hasOutput ns p cm
  hasAnchor : ∀ root, later.hasAnchor ns p root = s.hasAnchor ns p root
  hasSpentTag : ∀ tag, later.hasSpentTag ns p tag = s.hasSpentTag ns p tag
  isEffective : ∀ id, later.isEffective ns p id = s.isEffective ns p id
  hasEvent : ∀ identity, later.hasEvent ns p identity = s.hasEvent ns p identity
  demand : ∀ id, later.demand ns p id = s.demand ns p id
  demandsWithTag : ∀ tag, later.demandsWithTag ns p tag = s.demandsWithTag ns p tag
  presentedWithTag : ∀ tag, later.presentedWithTag ns p tag = s.presentedWithTag ns p tag
  presented : ∀ id, later.presented ns p id = s.presented ns p id
  tagSpends : ∀ tag, later.tagSpends ns p tag = s.tagSpends ns p tag
  total : ∀ backing, later.total ns p backing = s.total ns p backing
  totals : later.totals ns p = s.totals ns p
  output : ∀ cm, later.output ns p cm = s.output ns p cm
  outputs : later.outputs ns p = s.outputs ns p
  nullifiers : later.nullifiers ns p = s.nullifiers ns p
  events : later.events ns p = s.events ns p
  factDigest : later.factDigest ns p = s.factDigest ns p

/-- Numbers given out once: those past the next hold nothing, and every row and import names one given out. -/
structure Store.Numbered (s : Store) : Prop where
  fresh : ∀ ns, s.next ≤ ns → s.namespaces ns = none
  rows : ∀ ns n, s.namespaces ns = some n → ∀ row ∈ n.rows, row.ns = ns
  sources : ∀ ns n, s.namespaces ns = some n → ∀ entry ∈ n.imports, entry.2.ns < s.next

/-- What a store holds under a number a later one holds at least as far, and what it dropped stays dropped. -/
structure Store.Carries (s later : Store) (ns : Nat) : Prop where
  held : ∀ n, s.namespaces ns = some n → ∃ n', later.namespaces ns = some n' ∧ n.Grown n'
  dropped : s.namespaces ns = none → later.namespaces ns = none

section Step

omit [Crypto]

theorem Store.Carries.of_eq {s later : Store} {ns : Nat} (same : later.namespaces ns = s.namespaces ns) : s.Carries later ns where
  held n found := ⟨n, same.trans found, .refl n⟩
  dropped none_ := same.trans none_

theorem Store.Carries.trans {a b c : Store} {ns : Nat} (first : a.Carries b ns) (second : b.Carries c ns) : a.Carries c ns where
  held n found := by
    obtain ⟨middle, found', grown⟩ := first.held n found
    obtain ⟨last, found'', grown'⟩ := second.held middle found'
    exact ⟨last, found'', grown.trans grown'⟩
  dropped none_ := second.dropped (first.dropped none_)

theorem Store.Numbered.below {s : Store} (numbered : s.Numbered) {ns : Nat} {n : Namespace} (found : s.namespaces ns = some n) :
    ns < s.next := by
  by_contra past
  rw [numbered.fresh ns (Nat.le_of_not_lt past)] at found
  cases found

/-- A write under the next number leaves every number given out before. -/
theorem Store.Numbered.put_next {s : Store} (numbered : s.Numbered) {n : Namespace} (rows : ∀ row ∈ n.rows, row.ns = s.next)
    (imports : ∀ entry ∈ n.imports, entry.2.ns < s.next) : ({ s.put s.next n with next := s.next + 1 } : Store).Numbered := by
  refine ⟨?_, ?_, ?_⟩
  · intro ns past
    have past : s.next + 1 ≤ ns := past
    exact (s.put_other n (by omega)).trans (numbered.fresh ns (by omega))
  · intro ns m found row member
    have found : (s.put s.next n).namespaces ns = some m := found
    by_cases same : ns = s.next
    · subst same
      rw [s.put_self] at found
      obtain rfl := Option.some.inj found
      exact rows row member
    · rw [s.put_other n same] at found
      exact numbered.rows ns m found row member
  · intro ns m found entry member
    have found : (s.put s.next n).namespaces ns = some m := found
    change entry.2.ns < s.next + 1
    by_cases same : ns = s.next
    · subst same
      rw [s.put_self] at found
      obtain rfl := Option.some.inj found
      exact Nat.lt_succ_of_lt (imports entry member)
    · rw [s.put_other n same] at found
      exact Nat.lt_succ_of_lt (numbered.sources ns m found entry member)

theorem Store.carries_put_next {s : Store} {n : Namespace} {ns : Nat} (below : ns < s.next) :
    s.Carries { s.put s.next n with next := s.next + 1 } ns := .of_eq (s.put_other n (by omega))

theorem Store.Numbered.collect {s : Store} (numbered : s.Numbered) (keep : List Nat) : (s.collect keep).Numbered := by
  refine ⟨?_, ?_, ?_⟩
  · intro ns past
    simp only [Store.collect]
    rw [numbered.fresh ns past, ite_self]
  · intro ns n found
    simp only [Store.collect] at found
    split at found
    · exact numbered.rows ns n found
    · cases found
  · intro ns n found
    simp only [Store.collect] at found
    split at found
    · exact numbered.sources ns n found
    · cases found

end Step

theorem Store.Numbered.append {s later : Store} (numbered : s.Numbered) {ns : Nat} {record : Append}
    (run : s.append ns record = .ok later) : later.Numbered ∧ later.next = s.next ∧ ∀ m, s.Carries later m := by
  obtain ⟨n, n', found, wrote, rfl⟩ := Store.append_eq_ok.mp run
  obtain ⟨-, spent, demand, ended, -, -, -, rfl⟩ := Namespace.append_eq_ok.mp wrote
  have grown := n.written_grown ns record spent demand
  have below := numbered.below found
  refine ⟨⟨?_, ?_, ?_⟩, rfl, ?_⟩
  · intro m past
    have past : s.next ≤ m := past
    exact (s.put_other _ (by omega)).trans (numbered.fresh m past)
  · intro m o found' row member
    by_cases same : m = ns
    · subst same
      rw [s.put_self] at found'
      obtain rfl := Option.some.inj found'
      rcases List.mem_append.mp member with new | old
      · exact (n.mem_added m record spent demand new).1
      · exact numbered.rows m n found row old
    · rw [s.put_other _ same] at found'
      exact numbered.rows m o found' row member
  · intro m o found' entry member
    by_cases same : m = ns
    · subst same
      rw [s.put_self] at found'
      obtain rfl := Option.some.inj found'
      rw [grown.imports] at member
      exact numbered.sources m n found entry member
    · rw [s.put_other _ same] at found'
      exact numbered.sources m o found' entry member
  · intro m
    by_cases same : m = ns
    · subst same
      refine ⟨fun o found' => ?_, fun none_ => absurd (found.symm.trans none_) (Option.some_ne_none _)⟩
      obtain rfl := Option.some.inj (found.symm.trans found')
      exact ⟨_, s.put_self _ _, grown⟩
    · exact .of_eq (s.put_other _ same)

theorem Store.Numbered.opened {s later : Store} (numbered : s.Numbered) {ns : Nat} {segment identity history evidence : Bytes}
    {imported : Option Imports} {keeps : NamespaceConstruction}
    (run : s.open segment identity imported history evidence keeps = .ok (ns, later)) :
    later.Numbered ∧ s.next ≤ later.next ∧ ∀ m < s.next, s.Carries later m := by
  obtain ⟨held, -, spent, -, -, rfl⟩ := Store.open_eq_ok.mp run
  refine ⟨numbered.put_next ?_ ?_, Nat.le_succ _, fun m below => Store.carries_put_next below⟩
  · intro row member
    rw [Store.fresh_rows member]
  intro entry member
  obtain ⟨source, found, -⟩ := held entry member
  exact numbered.below found

/-- One segment copied is a namespace under the next number, or none. -/
theorem Store.copySegment_cases {source : Store} {identity : Bytes → Bytes} {state after : Store × OrderedMap Bytes ImportEntry}
    {entry : Bytes × ImportEntry} (run : Store.copySegment source identity state entry = .ok after) :
    after.1 = state.1 ∨ ∃ n : Namespace, n.imports = [] ∧ (∀ row ∈ n.rows, row.ns = state.1.next) ∧
      after.1 = { state.1.put state.1.next n with next := state.1.next + 1 } := by
  simp only [Store.copySegment, bind_eq_ok] at run
  obtain ⟨n, -, -, -, held, -, rest⟩ := run
  cases held with
  | some ns => exact .inl (congrArg Prod.fst (pure_eq_ok.mp rest)).symm
  | none =>
    refine .inr ⟨_, rfl, fun row member => ?_, (congrArg Prod.fst (pure_eq_ok.mp rest)).symm⟩
    obtain ⟨placed, -, rfl⟩ := List.mem_map.mp member
    rfl

theorem Store.Numbered.copied {s later : Store} (numbered : s.Numbered) {source : Option Store} {frontier copied : Imports}
    {identity : Bytes → Bytes} (run : s.copyFrontier source frontier identity = .ok (copied, later)) :
    later.Numbered ∧ s.next ≤ later.next ∧ ∀ m < s.next, s.Carries later m := by
  have keeps : ∀ state after entry, Store.copySegment (source.getD .empty) identity state entry = .ok after →
      (state.1.Numbered ∧ s.next ≤ state.1.next ∧ ∀ m < s.next, s.Carries state.1 m) →
      after.1.Numbered ∧ s.next ≤ after.1.next ∧ ∀ m < s.next, s.Carries after.1 m := by
    rintro state after entry step ⟨numbered, more, carries⟩
    rcases Store.copySegment_cases step with same | ⟨n, none_, rows, same⟩
    · rw [same]
      exact ⟨numbered, more, carries⟩
    · rw [same]
      refine ⟨numbered.put_next rows (by simp [none_]), Nat.le_succ_of_le more, fun m below => ?_⟩
      exact (carries m below).trans (Store.carries_put_next (by omega))
  have start : s.Numbered ∧ s.next ≤ s.next ∧ ∀ m < s.next, s.Carries s m := ⟨numbered, le_rfl, fun m _ => .of_eq rfl⟩
  cases source with
  | none =>
    obtain ⟨-, rfl⟩ := Prod.mk.inj (Except.ok.inj run)
    exact start
  | some other =>
    obtain ⟨⟨last, segments⟩, folded, done⟩ := bind_eq_ok.mp run
    obtain ⟨-, rfl⟩ := Prod.mk.inj (pure_eq_ok.mp done)
    exact foldlM_keeps (fun state entry after _ before step => keeps state after entry step before) folded start

/-- Whatever it collects, a run hands out each number once. -/
theorem StoreRun.numbered {alive : Store → List Nat → Prop} {s later : Store} (run : StoreRun alive s later) (numbered : s.Numbered) :
    later.Numbered ∧ s.next ≤ later.next := by
  induction run with
  | start => exact ⟨numbered, le_rfl⟩
  | append _ step ih =>
    obtain ⟨after, same, -⟩ := ih.1.append step
    exact ⟨after, same ▸ ih.2⟩
  | opened _ step ih =>
    obtain ⟨after, more, -⟩ := ih.1.opened step
    exact ⟨after, ih.2.trans more⟩
  | copied _ step ih =>
    obtain ⟨after, more, -⟩ := ih.1.copied step
    exact ⟨after, ih.2.trans more⟩
  | collected _ _ ih => exact ⟨ih.1.collect _, ih.2⟩

theorem Store.Written.numbered {s : Store} (written : s.Written) : s.Numbered :=
  (StoreRun.numbered written ⟨fun _ _ => rfl, fun _ _ found => absurd found.symm (Option.some_ne_none _), fun _ _ found => absurd found.symm (Option.some_ne_none _)⟩).1

section Reads

omit [Crypto]

theorem Store.Carries.imports {s later : Store} {ns : Nat} (carries : s.Carries later ns) : later.imports ns = s.imports ns := by
  cases found : s.namespaces ns with
  | none => simp only [Store.imports, found, carries.dropped found]
  | some n =>
    obtain ⟨n', found', grown⟩ := carries.held n found
    simp only [Store.imports, found, found', Option.map_some, Option.getD_some, grown.imports]

theorem Store.Carries.segment {s later : Store} {ns : Nat} (carries : s.Carries later ns) : later.segment ns = s.segment ns := by
  cases found : s.namespaces ns with
  | none => simp only [Store.segment, found, carries.dropped found]
  | some n =>
    obtain ⟨n', found', grown⟩ := carries.held n found
    simp only [Store.segment, found, found', Option.map_some, Option.getD_some, grown.segment]

/-- Rows a store has reached stay as they were. -/
theorem Store.Carries.through {s later : Store} {ns p : Nat} (carries : s.Carries later ns)
    (reached : ∀ n, s.namespaces ns = some n → p ≤ n.position) : (later.rows ns).through p = (s.rows ns).through p := by
  cases found : s.namespaces ns with
  | none => simp only [Store.rows, found, carries.dropped found]
  | some n =>
    obtain ⟨n', found', grown⟩ := carries.held n found
    simp only [Store.rows, found, found', Option.map_some, Option.getD_some]
    exact grown.through (reached n found)

theorem Namespace.Grown.event {n later : Namespace} (grown : n.Grown later) {p : Nat} (bound : p ≤ n.position) :
    later.event p = n.event p := by
  obtain ⟨added, rows, after⟩ := grown.rows
  have none_added : (Rows.events added).find? (·.position = p) = none := by
    refine List.find?_eq_none.mpr fun placed member => ?_
    have past : n.position < placed.position := @Rows.table_place _ _ added (fun _ position => n.position < position) after placed member
    simp only [decide_eq_true_eq]
    omega
  rw [Namespace.event, Namespace.event, rows, Rows.events_append, List.find?_append, none_added, Option.none_or]

theorem Store.Carries.eventAt {s later : Store} {ns p : Nat} (carries : s.Carries later ns)
    (reached : ∀ n, s.namespaces ns = some n → p ≤ n.position) : later.eventAt ns p = s.eventAt ns p := by
  rw [Store.eventAt, Store.eventAt, carries.segment]
  congr 1
  cases found : s.namespaces ns with
  | none => simp only [Store.event, found, carries.dropped found]
  | some n =>
    obtain ⟨n', found', grown⟩ := carries.held n found
    simp only [Store.event, found, found', Option.bind_some]
    exact grown.event (reached n found)

/-- What a later store must carry for the reads at `(ns, p)` to stand. -/
structure Store.CarriesReads (s later : Store) (ns p : Nat) : Prop where
  carries : ∀ m ∈ ns :: s.sources ns, s.Carries later m
  reached : ∀ entry ∈ (⟨ns, p⟩ :: (s.imports ns).map (·.2) : List ImportEntry), ∀ n, s.namespaces entry.ns = some n →
    entry.upto ≤ n.position

variable {s later : Store} {ns p : Nat}

theorem Store.CarriesReads.entry (carries : s.CarriesReads later ns p) {entry : ImportEntry}
    (member : entry ∈ (⟨ns, p⟩ :: (s.imports ns).map (·.2) : List ImportEntry)) : s.Carries later entry.ns := by
  refine carries.carries _ ?_
  rcases List.mem_cons.mp member with rfl | imported
  · exact List.mem_cons_self
  · obtain ⟨listed, inside, rfl⟩ := List.mem_map.mp imported
    exact List.mem_cons_of_mem _ (List.mem_map_of_mem inside)

theorem Store.CarriesReads.visible (carries : s.CarriesReads later ns p) : later.visible ns p = s.visible ns p := by
  have imports := (carries.carries ns List.mem_cons_self).imports
  rw [Store.visible, Store.visible, imports]
  refine List.flatMap_congr fun entry member => ?_
  exact (carries.entry member).through (carries.reached entry member)

/-- A visible row stands in a namespace read, at or below the position read there. -/
theorem Store.Numbered.visible_entry (numbered : s.Numbered) {placed : Placed Fact} (member : placed ∈ s.visible ns p) :
    ∃ entry ∈ (⟨ns, p⟩ :: (s.imports ns).map (·.2) : List ImportEntry), placed.ns = entry.ns ∧ placed.position ≤ entry.upto := by
  obtain ⟨entry, listed, inside⟩ := List.mem_flatMap.mp member
  obtain ⟨row, bound⟩ := Rows.mem_through.mp inside
  refine ⟨entry, listed, ?_, bound⟩
  cases found : s.namespaces entry.ns with
  | none => simp [Store.rows, found] at row
  | some n =>
    rw [Store.rows_of_found found] at row
    exact numbered.rows _ n found placed row

/-- The event of a visible row stays what it was. -/
theorem Store.CarriesReads.event (carries : s.CarriesReads later ns p) (numbered : s.Numbered) {α : Type} {pick : Fact → Option α}
    {placed : Placed α} (member : placed ∈ Rows.table pick (s.visible ns p)) :
    later.eventAt placed.ns placed.position = s.eventAt placed.ns placed.position ∧ later.segment placed.ns = s.segment placed.ns := by
  obtain ⟨fact, -, row⟩ := Rows.mem_table.mp member
  obtain ⟨entry, listed, same, bound⟩ := numbered.visible_entry row
  simp only at same bound
  rw [same]
  exact ⟨(carries.entry listed).eventAt fun n found => bound.trans (carries.reached entry listed n found), (carries.entry listed).segment⟩

theorem Store.CarriesReads.total (carries : s.CarriesReads later ns p) (backing : Bytes) : later.total ns p backing = s.total ns p backing := by
  have own := carries.carries ns List.mem_cons_self
  cases found : s.namespaces ns with
  | none => simp only [Store.total, found, own.dropped found]
  | some n =>
    obtain ⟨n', found', grown⟩ := own.held n found
    simp only [Store.total, found, found', Option.map_some, Option.getD_some]
    exact grown.total (carries.reached _ List.mem_cons_self n found) backing

theorem Namespace.Grown.totalsAt {n later : Namespace} (grown : n.Grown later) (bound : p ≤ n.position) :
    later.totalsAt p = n.totalsAt p := by
  obtain ⟨added, totals, after⟩ := grown.totals
  have none_added : added.filter (·.position ≤ p) = [] := by
    refine List.filter_eq_nil_iff.mpr fun total member => ?_
    have := after total member
    simp only [decide_eq_true_eq]
    omega
  simp only [Namespace.totalsAt, totals, List.filter_append, none_added, List.nil_append]
  exact List.map_congr_left fun backing _ => by rw [grown.total bound backing]

theorem Store.CarriesReads.totals (carries : s.CarriesReads later ns p) : later.totals ns p = s.totals ns p := by
  have own := carries.carries ns List.mem_cons_self
  cases found : s.namespaces ns with
  | none => simp only [Store.totals, found, own.dropped found]
  | some n =>
    obtain ⟨n', found', grown⟩ := own.held n found
    simp only [Store.totals, found, found', Option.map_some, Option.getD_some]
    exact grown.totalsAt (carries.reached _ List.mem_cons_self n found)

theorem Rows.mem_inOrder {α : Type} {number : Placed α → Nat} {rows : List (Placed α)} {placed : Placed α} :
    placed ∈ Rows.inOrder number rows ↔ placed ∈ rows := (List.mergeSort_perm ..).mem_iff

theorem Store.CarriesReads.presented (carries : s.CarriesReads later ns p) (numbered : s.Numbered) (id : Bytes) :
    later.presented ns p id = s.presented ns p id := by
  simp only [Store.presented, carries.visible]
  refine Option.map_congr fun held found => ?_
  have stood := (carries.event numbered (List.mem_of_find?_eq_some found)).1
  have ended : ((s.visible ns p).demandEnds.find? (·.row = id)).map (fun ended => later.eventAt ended.ns ended.position) =
      ((s.visible ns p).demandEnds.find? (·.row = id)).map fun ended => s.eventAt ended.ns ended.position :=
    Option.map_congr fun ended found => (carries.event numbered (List.mem_of_find?_eq_some found)).1
  rw [stood, ended]

theorem Store.CarriesReads.tagSpends (carries : s.CarriesReads later ns p) (numbered : s.Numbered) (tag : Nat) :
    later.tagSpends ns p tag = s.tagSpends ns p tag := by
  simp only [Store.tagSpends, carries.visible]
  refine congrArg (requireKey tag >>= ·) (funext fun _ => congrArg pure (List.map_congr_left fun spend member => ?_))
  exact (carries.event numbered (List.mem_of_mem_filter (Rows.mem_inOrder.mp member))).1

theorem Store.CarriesReads.events (carries : s.CarriesReads later ns p) (numbered : s.Numbered) : later.events ns p = s.events ns p := by
  simp only [Store.events, carries.visible]
  exact List.map_congr_left fun event member => by rw [(carries.event numbered (Rows.mem_inOrder.mp member)).2]

end Reads

/-- Every read at `(ns, p)` is of what is visible there. -/
theorem Store.CarriesReads.same {s later : Store} {ns p : Nat} (carries : s.CarriesReads later ns p) (numbered : s.Numbered) :
    SameReads s later ns p where
  hasNullifier nf := by rw [Store.hasNullifier, Store.hasNullifier, carries.visible]
  hasOutput cm := by rw [Store.hasOutput, Store.hasOutput, carries.visible]
  hasAnchor root := by rw [Store.hasAnchor, Store.hasAnchor, carries.visible]
  hasSpentTag tag := by rw [Store.hasSpentTag, Store.hasSpentTag, carries.visible]
  isEffective id := by rw [Store.isEffective, Store.isEffective, carries.visible]
  hasEvent identity := by rw [Store.hasEvent, Store.hasEvent, carries.visible]
  demand id := by rw [Store.demand, Store.demand, carries.visible]
  demandsWithTag tag := by rw [Store.demandsWithTag, Store.demandsWithTag, carries.visible]
  presentedWithTag tag := by rw [Store.presentedWithTag, Store.presentedWithTag, carries.visible]
  presented := carries.presented numbered
  tagSpends := carries.tagSpends numbered
  total := carries.total
  totals := carries.totals
  output cm := by rw [Store.output, Store.output, carries.visible]
  outputs := by rw [Store.outputs, Store.outputs, carries.visible]
  nullifiers := by rw [Store.nullifiers, Store.nullifiers, carries.visible]
  events := carries.events numbered
  factDigest := by rw [Store.factDigest, Store.factDigest, carries.visible]

omit [Crypto] in
/-- A collection that keeps a namespace's reads drops none of the namespaces they are of. -/
theorem Store.KeepsReads.live {s : Store} {ns : Nat} {keep : List Nat} (keeps : s.KeepsReads ns keep) :
    ∀ m ∈ ns :: s.sources ns, m ∈ s.live keep := by
  intro m read
  rcases keeps with own | ⟨importer, kept, imported, covers⟩
  · exact List.mem_flatMap.mpr ⟨ns, own, read⟩
  · refine List.mem_flatMap.mpr ⟨importer, kept, List.mem_cons_of_mem _ ?_⟩
    rcases List.mem_cons.mp read with rfl | source
    · exact imported
    · exact covers m source

omit [Crypto] in
theorem Store.carries_collect {s : Store} {keep : List Nat} {ns : Nat} (live : ns ∈ s.live keep) : s.Carries (s.collect keep) ns :=
  .of_eq (if_pos live)

/-- A run whose collections keep a namespace's reads carries every namespace they are of. -/
theorem StoreRun.carries {s later : Store} {ns : Nat} (run : StoreRun (Store.KeepsReads ns) s later) (numbered : s.Numbered)
    {n : Namespace} (found : s.namespaces ns = some n) : ∀ m ∈ ns :: s.sources ns, s.Carries later m := by
  have below : ∀ m ∈ ns :: s.sources ns, m < s.next := by
    intro m read
    rcases List.mem_cons.mp read with rfl | source
    · exact numbered.below found
    · obtain ⟨entry, listed, rfl⟩ := List.mem_map.mp source
      exact numbered.sources ns n found entry ((Store.imports_perm found).mem_iff.mp listed)
  induction run with
  | start => exact fun m _ => .of_eq rfl
  | append before step ih =>
    obtain ⟨-, -, carries⟩ := (before.numbered numbered).1.append step
    exact fun m read => (ih m read).trans (carries m)
  | opened before step ih =>
    obtain ⟨middle, more⟩ := before.numbered numbered
    obtain ⟨-, -, carries⟩ := middle.opened step
    exact fun m read => (ih m read).trans (carries m ((below m read).trans_le more))
  | copied before step ih =>
    obtain ⟨middle, more⟩ := before.numbered numbered
    obtain ⟨-, -, carries⟩ := middle.copied step
    exact fun m read => (ih m read).trans (carries m ((below m read).trans_le more))
  | @collected middle keep _ keeps ih =>
    have sources : middle.sources ns = s.sources ns := by
      rw [Store.sources, Store.sources, (ih ns List.mem_cons_self).imports]
    intro m read
    exact (ih m read).trans (Store.carries_collect (keeps.live m (sources ▸ read)))

/-- A read at a position below a tip is the same whatever is written after. -/
theorem reads_immutable {s later : Store} {ns p : Nat} {n : Namespace} (written : s.Written) (found : s.namespaces ns = some n)
    (below : p ≤ n.position) (reached : s.Reached ns) (run : StoreRun (Store.KeepsReads ns) s later) : SameReads s later ns p := by
  have numbered := written.numbered
  refine Store.CarriesReads.same ⟨run.carries numbered found, ?_⟩ numbered
  intro entry member m source
  rcases List.mem_cons.mp member with rfl | imported
  · obtain rfl := Option.some.inj (found.symm.trans source)
    exact below
  · obtain ⟨listed, inside, rfl⟩ := List.mem_map.mp imported
    exact reached listed inside m source

end

local instance readsCrypto : Crypto := sampleCrypto

/-- A record that spends a nullifier, and stands or ends a demand. -/
def sampleWrite (nf : Nat) (demand : Option (Bytes × Demand)) (ended : Option Bytes) : Append where
  identity := [1]
  kind := 0
  index := none
  record := []
  proofHash := []
  signatureHash := []
  evidence := []
  supply := none
  nullifiers := [⟨nf, nf⟩]
  outputs := []
  demand
  ended
  keys := []
  history _ _ := []

def sampleKeeps : NamespaceConstruction := ⟨"moe/lit/v1", false⟩

/-- A demand stands at 1 and ends at 2, and a successor imports its namespace. -/
def sampleHistory : Except Failure (Store × Store) := do
  let (_, opened) ← Store.empty.open [1] [9] none [] [] sampleKeeps
  let s ← opened.append 1 (sampleWrite 7 (some ([5], ⟨[3], 4, [7, 7], [2], 0, 9, none⟩)) none)
  let ended ← s.append 1 (sampleWrite 8 none (some [5]))
  let (_, heir) ← ended.open [2] [9] (some ⟨[([1], ⟨1, 2⟩)], []⟩) [] [] sampleKeeps
  let (_, copied) ← heir.copyFrontier (some s) ⟨[([1], ⟨1, 1⟩)], []⟩ (fun _ => [8])
  return (s, copied)

/-- The demand still stands at 1 once a collection keeps the successor alone. -/
theorem sampleReads_immutable : ∃ s later, sampleHistory = .ok (s, later) ∧ SameReads s (later.collect [2]) 1 1 ∧
    (later.collect [2]).demand 1 1 [5] ≠ none ∧ (later.collect [2]).demand 1 2 [5] = none := by
  have runs : sampleHistory.toOption.any (fun stores => (stores.1.namespaces 1).any (1 ≤ ·.position) && (stores.1.imports 1).isEmpty &&
      stores.2.sources 2 = [1] && stores.2.sources 1 = [] && (stores.2.collect [2]).demand 1 1 [5] ≠ none &&
      (stores.2.collect [2]).demand 1 2 [5] = none) = true := by decide +kernel
  obtain ⟨⟨s, later⟩, ran, runs⟩ := ok_of_any runs
  have run := ran
  simp only [Bool.and_eq_true, decide_eq_true_eq, Option.any_eq_true, List.isEmpty_iff] at runs
  obtain ⟨⟨⟨⟨⟨⟨n, found, below⟩, alone⟩, imported⟩, none_⟩, stands⟩, ended⟩ := runs
  obtain ⟨⟨_, opened⟩, opening, run⟩ := bind_eq_ok.mp run
  obtain ⟨_, standing, run⟩ := bind_eq_ok.mp run
  obtain ⟨_, ending, run⟩ := bind_eq_ok.mp run
  obtain ⟨⟨_, _⟩, heir, run⟩ := bind_eq_ok.mp run
  obtain ⟨⟨_, _⟩, copying, run⟩ := bind_eq_ok.mp run
  obtain ⟨rfl, rfl⟩ := Prod.mk.inj (pure_eq_ok.mp run)
  refine ⟨_, _, ran, ?_, stands, ended⟩
  refine reads_immutable (.append (.opened .start opening) standing) found below (fun entry member => ?_)
    (.collected (.copied (.opened (.append .start ending) heir) copying) (.inr ⟨2, by simp, ?_⟩))
  · rw [alone] at member
    cases member
  · simp [imported, none_]

/-- Namespace 3 imports 2 without what 2 imports, and 4 imports 1 past its tip. -/
def sampleUnread : Except Failure (Store × Store) := do
  let (_, opened) ← Store.empty.open [1] [9] none [] [] sampleKeeps
  let written ← opened.append 1 (sampleWrite 7 none none)
  let (_, heir) ← written.open [2] [9] (some ⟨[([1], ⟨1, 1⟩)], []⟩) [] [] sampleKeeps
  let (_, narrow) ← heir.open [3] [9] (some ⟨[([2], ⟨2, 0⟩)], []⟩) [] [] sampleKeeps
  let (_, ahead) ← narrow.open [4] [9] (some ⟨[([1], ⟨1, 2⟩)], []⟩) [] [] sampleKeeps
  let later ← ahead.append 1 (sampleWrite 8 none none)
  return (ahead, later)

/-- A collection that keeps an importer alone drops what the import reads, and a frontier past its source's tip reads what is
written there later. -/
theorem sampleReads_change : ∃ s later, sampleUnread = .ok (s, later) ∧ s.Written ∧
    ((s.namespaces 2).isSome ∧ s.Reached 2 ∧ StoreRun (Store.KeepsAlive 2) s (s.collect [3]) ∧
      s.hasNullifier 2 0 7 = .ok true ∧ (s.collect [3]).hasNullifier 2 0 7 = .ok false) ∧
    ((s.namespaces 4).isSome ∧ StoreRun (Store.KeepsAlive 4) s later ∧
      s.hasNullifier 4 0 8 = .ok false ∧ later.hasNullifier 4 0 8 = .ok true) := by
  have runs : sampleUnread.toOption.any (fun stores => (stores.1.namespaces 2).isSome && stores.1.sources 3 = [2] &&
      ((stores.1.imports 2).all fun entry => (stores.1.namespaces entry.2.ns).all (entry.2.upto ≤ ·.position)) &&
      stores.1.hasNullifier 2 0 7 = .ok true && (stores.1.collect [3]).hasNullifier 2 0 7 = .ok false &&
      (stores.1.namespaces 4).isSome && stores.1.hasNullifier 4 0 8 = .ok false &&
      stores.2.hasNullifier 4 0 8 = .ok true) = true := by decide +kernel
  obtain ⟨⟨s, later⟩, ran, runs⟩ := ok_of_any runs
  have run := ran
  simp only [Bool.and_eq_true, decide_eq_true_eq, List.all_eq_true] at runs
  obtain ⟨⟨⟨⟨⟨⟨⟨held, imports⟩, reached⟩, seen⟩, gone⟩, ahead⟩, unseen⟩, later_⟩ := runs
  obtain ⟨⟨_, _⟩, opening, run⟩ := bind_eq_ok.mp run
  obtain ⟨_, writing, run⟩ := bind_eq_ok.mp run
  obtain ⟨⟨_, _⟩, heir, run⟩ := bind_eq_ok.mp run
  obtain ⟨⟨_, _⟩, narrow, run⟩ := bind_eq_ok.mp run
  obtain ⟨⟨_, _⟩, past, run⟩ := bind_eq_ok.mp run
  obtain ⟨_, appending, run⟩ := bind_eq_ok.mp run
  obtain ⟨rfl, rfl⟩ := Prod.mk.inj (pure_eq_ok.mp run)
  refine ⟨_, _, ran, .opened (.opened (.opened (.append (.opened .start opening) writing) heir) narrow) past,
    ⟨held, fun entry member m source => ?_, .collected .start (.inr ⟨3, by simp, by simp [imports]⟩), seen, gone⟩,
    ahead, .append .start appending, unseen, later_⟩
  have below := reached entry member
  rw [source] at below
  exact of_decide_eq_true below

end Moe
