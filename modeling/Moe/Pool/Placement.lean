import Moe.Pool.Judgment
import Moe.Pool.Merge

namespace Moe

/-- Where a store's rows and imports stand: each row in its own namespace at or below its tip, and each imported
namespace an earlier one of the same construction, read once and at or below its tip. -/
structure Store.WellPlaced (s : Store) : Prop where
  fresh : ∀ ns, s.next ≤ ns → s.namespaces ns = none
  rows : ∀ ns n, s.namespaces ns = some n → ∀ row ∈ n.rows, row.ns = ns ∧ row.position ≤ n.position
  imports : ∀ ns n, s.namespaces ns = some n → ∀ entry ∈ n.imports, entry.2.ns < ns ∧ s.Holds entry.2
  segments : ∀ ns n, s.namespaces ns = some n → (n.imports.map (·.1)).Nodup
  sources : ∀ ns n, s.namespaces ns = some n → (n.imports.map (·.2.ns)).Nodup
  keeps : ∀ ns n, s.namespaces ns = some n → ∀ entry ∈ n.imports, ∃ source, s.namespaces entry.2.ns = some source ∧
    source.keeps = n.keeps

theorem Store.empty_placed : Store.empty.WellPlaced where
  fresh _ _ := rfl
  rows _ _ found := nomatch found
  imports _ _ found := nomatch found
  segments _ _ found := nomatch found
  sources _ _ found := nomatch found
  keeps _ _ found := nomatch found

theorem Store.union_cons (s : Store) (entry : ImportEntry) (entries : List ImportEntry) :
    s.union (entry :: entries) = (s.rows entry.ns).through entry.upto ++ s.union entries := rfl

theorem Store.union_perm (s : Store) {a b : List ImportEntry} (perm : a.Perm b) : (s.union a).Perm (s.union b) :=
  perm.flatMap_right _

theorem Store.rows_of_found {s : Store} {ns : Nat} {n : Namespace} (found : s.namespaces ns = some n) :
    s.rows ns = n.rows := by
  simp [Store.rows, found]

theorem Store.imports_perm {s : Store} {ns : Nat} {n : Namespace} (found : s.namespaces ns = some n) :
    (s.imports ns).Perm n.imports := by
  simp only [Store.imports, found, Option.map_some, Option.getD_some]
  exact List.mergeSort_perm ..

/-- The state at a held entry reads held entries only. -/
theorem Store.WellPlaced.holds {s : Store} (placed : s.WellPlaced) {ns p : Nat} (held : s.Holds ⟨ns, p⟩) :
    ∀ entry ∈ (⟨ns, p⟩ :: (s.imports ns).map (·.2) : List ImportEntry), s.Holds entry := by
  obtain ⟨n, found, bound⟩ := held
  intro entry member
  rcases List.mem_cons.mp member with rfl | imported
  · exact ⟨n, found, bound⟩
  · obtain ⟨source, listed, rfl⟩ := List.mem_map.mp imported
    exact (placed.imports ns n found source ((Store.imports_perm found).mem_iff.mp listed)).2

/-- A fixed position of a segment that has moved on reads what it read. -/
theorem Store.Grows.visible {s later : Store} (grows : s.Grows later) (placed : s.WellPlaced) {ns p : Nat}
    (held : s.Holds ⟨ns, p⟩) : later.visible ns p = s.visible ns p := by
  obtain ⟨n, found, -⟩ := id held
  rw [Store.visible, Store.visible, grows.imports found]
  exact grows.union (placed.holds held)

/-- A frontier names the state's segment and those it imports. -/
theorem Store.frontier_names {s : Store} {ns p : Nat} {n : Namespace} (found : s.namespaces ns = some n) {name : Bytes} :
    name ∈ (s.frontier ns p).segments.map (·.1) ↔ name = n.segment ∨ name ∈ n.imports.map (·.1) := by
  have segment : s.segment ns = n.segment := by simp [Store.segment, found]
  have imported : name ∈ (s.imports ns).map (·.1) ↔ name ∈ n.imports.map (·.1) := ((Store.imports_perm found).map _).mem_iff
  rw [Store.frontier, segment, ← imported]
  by_cases present : n.segment ∈ (s.imports ns).map (·.1)
  · rw [OrderedMap.set_keys_of_mem present]
    exact ⟨.inr, by rintro (rfl | listed) <;> assumption⟩
  · rw [OrderedMap.set_of_not_mem present, List.map_append, List.mem_append, or_comm]
    simp

/-- The frontier's entries are the state's own and its imports', unless the state imports its own segment. -/
theorem Store.frontier_perm {s : Store} {ns p : Nat} {n : Namespace} (found : s.namespaces ns = some n)
    (apart : n.segment ∉ n.imports.map (·.1)) :
    (s.union ((s.frontier ns p).segments.map (·.2))).Perm (s.visible ns p) := by
  have absent : s.segment ns ∉ (s.imports ns).map (·.1) := by
    have same : s.segment ns = n.segment := by simp [Store.segment, found]
    rw [same]
    exact fun member => apart (((Store.imports_perm found).map _).mem_iff.mp member)
  rw [Store.frontier, OrderedMap.set_of_not_mem absent, List.map_append]
  exact s.union_perm (List.perm_append_comm.trans (List.Perm.refl _))

/-- Segments each named once, and each read to a kept entry. -/
def NamedOnce (keep : ImportEntry → Prop) (segments : OrderedMap Bytes ImportEntry) : Prop :=
  (segments.map (·.1)).Nodup ∧ ∀ entry ∈ segments, keep entry.2

theorem NamedOnce.grows {s later : Store} (grows : s.Grows later) {segments : OrderedMap Bytes ImportEntry}
    (named : NamedOnce s.Holds segments) : NamedOnce later.Holds segments :=
  ⟨named.1, fun entry member => grows.holds (named.2 entry member)⟩

/-- The state's frontier names held entries, each segment once. -/
theorem Store.WellPlaced.frontier {s : Store} (placed : s.WellPlaced) {ns p : Nat} (held : s.Holds ⟨ns, p⟩) :
    NamedOnce s.Holds (s.frontier ns p).segments := by
  obtain ⟨n, found, bound⟩ := held
  have keys : ((s.imports ns).map (·.1)).Nodup :=
    ((Store.imports_perm found).map _).nodup_iff.mpr (placed.segments ns n found)
  refine ⟨OrderedMap.set_keys_nodup keys _ _, fun entry member => ?_⟩
  rcases (OrderedMap.mem_set keys).mp member with rfl | ⟨listed, -⟩
  · exact ⟨n, found, bound⟩
  · exact (placed.imports ns n found entry ((Store.imports_perm found).mem_iff.mp listed)).2

section Merge

variable {s : Store}

theorem Store.WellPlaced.earlier (placed : s.WellPlaced) {entry : ImportEntry} (held : s.Holds entry) : entry.ns < s.next := by
  obtain ⟨m, found, -⟩ := held
  by_contra past
  rw [placed.fresh entry.ns (Nat.le_of_not_lt past)] at found
  cases found

theorem Store.sharedPrefix_cases {prior entry high : ImportEntry} (run : s.sharedPrefix prior entry = .ok high) :
    high = prior ∨ high = entry := by
  by_cases shorter : prior.upto ≤ entry.upto
  · simp only [Store.sharedPrefix, shorter, if_true] at run
    exact .inr (pure_eq_ok.mp (bind_unit_eq_ok.mp run).2).symm
  · simp only [Store.sharedPrefix, shorter, if_false] at run
    exact .inl (pure_eq_ok.mp (bind_unit_eq_ok.mp run).2).symm

/-- Whatever the parents, the merged segments are each named once and each an entry of a parent's. -/
theorem Store.mergeSegments_keeps {keep : ImportEntry → Prop} {parents : List ImportEntry}
    {segments : OrderedMap Bytes ImportEntry}
    (frontiers : ∀ parent ∈ parents, ∀ entry ∈ (s.frontier parent.ns parent.upto).segments, keep entry.2)
    (run : s.mergeSegments parents = .ok segments) : NamedOnce keep segments := by
  refine foldlM_keeps ?_ run ⟨List.nodup_nil, by simp⟩
  rintro map ⟨name, entry⟩ merged member ⟨keys, kept⟩ step
  have entryKept : keep entry := by
    obtain ⟨parent, listed, inside⟩ := List.mem_flatMap.mp member
    exact frontiers parent (by simpa using listed) _ inside
  have setKept : ∀ value, keep value → (OrderedMap.set map name value = merged) → NamedOnce keep merged := by
    rintro value valueKept rfl
    refine ⟨OrderedMap.set_keys_nodup keys _ _, fun other inside => ?_⟩
    rcases (OrderedMap.mem_set keys).mp inside with rfl | ⟨old, -⟩
    · exact valueKept
    · exact kept other old
  unfold Store.mergeSegment at step
  split at step
  · exact setKept entry entryKept (by simpa using step)
  · next prior seen =>
    obtain ⟨high, shared, done⟩ := bind_eq_ok.mp step
    refine setKept high ?_ (pure_eq_ok.mp done)
    rcases Store.sharedPrefix_cases shared with rfl | rfl
    · exact kept _ (OrderedMap.mem_of_get? seen)
    · exact entryKept

/-- An accepted merge of held states names held entries, each segment once. -/
theorem Store.WellPlaced.merge (placed : s.WellPlaced) {parents : List (Option ImportEntry)} {imports : Imports}
    (held : ∀ parent, some parent ∈ parents → s.Holds parent) (run : s.mergeFinalizedPrefixes parents = .ok imports) :
    NamedOnce s.Holds imports.segments := by
  simp only [Store.mergeFinalizedPrefixes, bind_eq_ok, requireReplay_eq_ok, pure_eq_ok] at run
  obtain ⟨segments, merged, -, -, -, -, -, -, -, -, -, -, -, -, rfl⟩ := run
  have entries : ∀ parent ∈ parents.filterMap id, ∀ entry ∈ (s.frontier parent.ns parent.upto).segments, s.Holds entry.2 :=
    fun parent listed => (placed.frontier (held parent (by simpa using listed))).2
  exact Store.mergeSegments_keeps entries merged

end Merge

section Written

variable [Crypto] {s : Store} {ns : Nat} {n : Namespace} {record : Append} {spent : SpentSet} {demand : Option StoredDemand}

/-- What a store with a record written holds: what it held, and the namespace with the record. -/
theorem Store.written_found {other : Nat} {m : Namespace}
    (seen : (s.put ns (n.written ns record spent demand)).namespaces other = some m) :
    (other = ns ∧ m = n.written ns record spent demand) ∨ (other ≠ ns ∧ s.namespaces other = some m) := by
  by_cases same : other = ns
  · subst same
    exact .inl ⟨rfl, Option.some.inj (seen.symm.trans (s.put_self _ _))⟩
  · exact .inr ⟨same, (s.put_other _ same).symm.trans seen⟩

theorem Store.WellPlaced.written (placed : s.WellPlaced) (found : s.namespaces ns = some n) :
    (s.put ns (n.written ns record spent demand)).WellPlaced := by
  have grows := Store.put_grows found (n.written_grown ns record spent demand)
  have before : ∀ {other m}, (s.put ns (n.written ns record spent demand)).namespaces other = some m →
      ∃ was, s.namespaces other = some was ∧ m.imports = was.imports ∧ m.keeps = was.keeps := by
    intro other m seen
    rcases Store.written_found seen with ⟨rfl, rfl⟩ | ⟨-, same⟩
    · exact ⟨n, found, rfl, rfl⟩
    · exact ⟨m, same, rfl, rfl⟩
  refine ⟨fun other past => ?_, fun other m seen => ?_, fun other m seen => ?_, fun other m seen => ?_,
    fun other m seen => ?_, fun other m seen => ?_⟩
  · have absent := placed.fresh other past
    rwa [s.put_other _ (fun same => by simp [same, found] at absent)]
  · rcases Store.written_found seen with ⟨rfl, rfl⟩ | ⟨-, same⟩
    · intro row member
      rcases List.mem_append.mp member with new | old
      · have place := n.mem_added _ record spent demand new
        exact ⟨place.1, place.2.le⟩
      · have place := placed.rows _ n found row old
        exact ⟨place.1, place.2.trans (Nat.le_succ _)⟩
    · exact placed.rows other m same
  · obtain ⟨was, held, imports, -⟩ := before seen
    intro entry member
    obtain ⟨earlier, holds⟩ := placed.imports other was held entry (imports ▸ member)
    exact ⟨earlier, grows.holds holds⟩
  · obtain ⟨was, held, imports, -⟩ := before seen
    exact imports ▸ placed.segments other was held
  · obtain ⟨was, held, imports, -⟩ := before seen
    exact imports ▸ placed.sources other was held
  · obtain ⟨was, held, imports, keeps⟩ := before seen
    intro entry member
    obtain ⟨source, sourced, same⟩ := placed.keeps other was held entry (imports ▸ member)
    obtain ⟨later, sourced, grown⟩ := grows _ source sourced
    exact ⟨later, sourced, grown.keeps.trans (same.trans keeps.symm)⟩

/-- What is visible after a record is its rows over what was visible before it. -/
theorem Store.visible_written {s : Store} (placed : s.WellPlaced) (found : s.namespaces ns = some n) :
    (s.put ns (n.written ns record spent demand)).visible ns (n.position + 1) =
      n.added ns record spent demand ++ s.visible ns n.position := by
  have grows := Store.put_grows found (n.written_grown ns record spent demand)
  have held : s.Holds ⟨ns, n.position⟩ := ⟨n, found, le_rfl⟩
  have past : ((s.imports ns).map (·.2)).flatMap (fun entry => (s.rows entry.ns).through entry.upto) =
      s.union ((s.imports ns).map (·.2)) := rfl
  rw [Store.visible, Store.visible, Store.union_cons, Store.union_cons, grows.imports found,
    grows.union fun entry member => placed.holds held entry (List.mem_cons_of_mem _ member),
    Store.rows_of_found (s.put_self ns _), Store.rows_of_found found]
  have after : Rows.through (n.position + 1) (n.written ns record spent demand).rows =
      n.added ns record spent demand ++ Rows.through n.position n.rows := by
    rw [Rows.through_all fun row member => (placed.rows ns n found row member).2]
    refine Rows.through_all fun row member => ?_
    rcases List.mem_append.mp member with new | old
    · exact (n.mem_added ns record spent demand new).2.le
    · exact (placed.rows ns n found row old).2.trans (Nat.le_succ _)
  rw [after, List.append_assoc]

end Written

section Opened

variable [Crypto] {s : Store} {segment identity history evidence : Bytes} {imports : Imports} {keeps : NamespaceConstruction}
  {spent : SpentSet}

/-- The store with a fresh namespace opened. -/
def Store.opened (s : Store) (segment identity : Bytes) (imports : Imports) (history evidence : Bytes)
    (keeps : NamespaceConstruction) (spent : SpentSet) : Store :=
  { s.put s.next (s.fresh segment identity imports history evidence keeps spent) with next := s.next + 1 }

theorem Store.opened_self : (s.opened segment identity imports history evidence keeps spent).namespaces s.next =
    some (s.fresh segment identity imports history evidence keeps spent) := s.put_self ..

theorem Store.opened_other {other : Nat} (ne : other ≠ s.next) :
    (s.opened segment identity imports history evidence keeps spent).namespaces other = s.namespaces other :=
  s.put_other _ ne

theorem Store.opened_grows (unused : s.namespaces s.next = none) :
    s.Grows (s.opened segment identity imports history evidence keeps spent) := by
  intro other m seen
  have ne : other ≠ s.next := by
    rintro rfl
    simp [unused] at seen
  exact ⟨m, (Store.opened_other ne).trans seen, .refl m⟩

/-- A fresh namespace's own rows hold its empty anchor at most. -/
theorem Store.fresh_rows {placed : Placed Fact}
    (member : placed ∈ (s.fresh segment identity imports history evidence keeps spent).rows) :
    placed = ⟨s.next, 0, .anchor emptyNoteRoot⟩ := by
  cases tree : keeps.tree <;> simp [Store.fresh, tree] at member
  exact member

theorem Store.fresh_table {α : Type} {pick : Fact → Option α} (skips : pick (.anchor emptyNoteRoot) = none) :
    Rows.table pick (s.fresh segment identity imports history evidence keeps spent).rows = [] := by
  refine List.filterMap_eq_nil_iff.mpr fun placed member => ?_
  rw [Store.fresh_rows member, skips]
  rfl

theorem Store.opened_found {other : Nat} {m : Namespace}
    (seen : (s.opened segment identity imports history evidence keeps spent).namespaces other = some m) :
    (other = s.next ∧ m = s.fresh segment identity imports history evidence keeps spent) ∨
      (other ≠ s.next ∧ s.namespaces other = some m) := by
  by_cases same : other = s.next
  · subst same
    exact .inl ⟨rfl, Option.some.inj (seen.symm.trans Store.opened_self)⟩
  · exact .inr ⟨same, (Store.opened_other same).symm.trans seen⟩

/-- A namespace opened over held entries, each segment and each namespace once, stands where it should. -/
theorem Store.WellPlaced.opened (placed : s.WellPlaced) (named : NamedOnce s.Holds imports.segments)
    (sources : (imports.segments.map (·.2.ns)).Nodup)
    (kept : ∀ entry ∈ imports.segments, ∃ source, s.namespaces entry.2.ns = some source ∧ source.keeps = keeps) :
    (s.opened segment identity imports history evidence keeps spent).WellPlaced := by
  have grows : s.Grows (s.opened segment identity imports history evidence keeps spent) :=
    Store.opened_grows (placed.fresh _ le_rfl)
  refine ⟨fun other past => ?_, fun other m seen => ?_, fun other m seen => ?_, fun other m seen => ?_,
    fun other m seen => ?_, fun other m seen => ?_⟩
  · have past : s.next + 1 ≤ other := past
    rw [Store.opened_other (by omega)]
    exact placed.fresh other (by omega)
  all_goals rcases Store.opened_found seen with ⟨rfl, rfl⟩ | ⟨-, same⟩
  · intro row member
    rw [Store.fresh_rows member]
    exact ⟨rfl, Nat.zero_le _⟩
  · exact placed.rows other m same
  · exact fun entry member => ⟨placed.earlier (named.2 entry member), grows.holds (named.2 entry member)⟩
  · intro entry member
    obtain ⟨earlier, was⟩ := placed.imports other m same entry member
    exact ⟨earlier, grows.holds was⟩
  · exact named.1
  · exact placed.segments other m same
  · exact sources
  · exact placed.sources other m same
  · intro entry member
    obtain ⟨source, was, same⟩ := kept entry member
    obtain ⟨later, now, grown⟩ := grows _ source was
    exact ⟨later, now, grown.keeps.trans same⟩
  · intro entry member
    obtain ⟨source, was, same⟩ := placed.keeps other m same entry member
    obtain ⟨later, now, grown⟩ := grows _ source was
    exact ⟨later, now, grown.keeps.trans same⟩

/-- A fresh namespace sees what its imports hold, and its own empty anchor at most. -/
theorem Store.visible_opened (unused : s.namespaces s.next = none) (held : ∀ entry ∈ imports.segments, s.Holds entry.2) :
    ((s.opened segment identity imports history evidence keeps spent).visible s.next 0).Perm
      ((s.fresh segment identity imports history evidence keeps spent).rows ++ s.union (imports.segments.map (·.2))) := by
  have grows : s.Grows (s.opened segment identity imports history evidence keeps spent) := Store.opened_grows unused
  have entries : ∀ entry ∈ imports.segments.map (·.2), s.Holds entry := by
    intro entry member
    obtain ⟨listed, inside, rfl⟩ := List.mem_map.mp member
    exact held listed inside
  have own : Rows.through 0 (s.fresh segment identity imports history evidence keeps spent).rows =
      (s.fresh segment identity imports history evidence keeps spent).rows :=
    Rows.through_all fun placed member => by rw [Store.fresh_rows member]
  rw [Store.visible, Store.union_cons, Store.rows_of_found Store.opened_self, own, ← grows.union entries]
  exact (Store.union_perm _ ((Store.imports_perm Store.opened_self).map _)).append_left _

/-- An opened segment's namespace is its construction's, over what the store opens. -/
theorem openSegmentState_eq_ok {R : Type} {construction : Construction R} {imported : Option Imports} {state : SegmentState R}
    {later : Store} : openSegmentState s segment identity imported construction = .ok (state, later) ↔
      ∃ history evidence spent, construction.genesisHistory segment = .ok history ∧
        construction.genesisEvidence segment = .ok evidence ∧
        (∀ entry ∈ (imported.getD .empty).segments, ∃ source, s.namespaces entry.2.ns = some source ∧
          source.keeps = construction.keeps) ∧
        ((imported.getD .empty).segments.map (·.2.ns)).Nodup ∧
        SpentSet.insertAll none (s.importedNullifiers (imported.getD .empty)) = .ok spent ∧
        state = ⟨s.next, construction⟩ ∧
        later = s.opened segment identity (imported.getD .empty) history evidence construction.keeps spent := by
  simp only [openSegmentState, bind_eq_ok, pure_eq_ok, Prod.mk.injEq, Prod.exists, Store.open_eq_ok, Store.opened]
  constructor
  · rintro ⟨history, seeded, evidence, seeded', ns, _, ⟨held, once, spent, inserted, rfl, rfl⟩, rfl, rfl⟩
    exact ⟨history, evidence, spent, seeded, seeded', held, once, inserted, rfl, rfl⟩
  · rintro ⟨history, evidence, spent, seeded, seeded', held, once, inserted, rfl, rfl⟩
    exact ⟨history, seeded, evidence, seeded', _, _, ⟨held, once, spent, inserted, rfl, rfl⟩, rfl, rfl⟩

theorem openSegmentState_opened {R : Type} {s : Store} {segment identity : Bytes} {imported : Option Imports}
    {construction : Construction R} {state : SegmentState R} {later : Store}
    (run : openSegmentState s segment identity imported construction = .ok (state, later)) :
    ∃ n, later.namespaces state.ns = some n ∧ n.segment = segment ∧
      n.imports = (imported.getD .empty).segments ∧ n.position = 0 ∧ n.keeps = state.construction.keeps := by
  obtain ⟨history, evidence, spent, -, -, -, -, -, rfl, rfl⟩ := openSegmentState_eq_ok.mp run
  exact ⟨_, Store.opened_self, rfl, rfl, rfl, rfl⟩

end Opened

end Moe
