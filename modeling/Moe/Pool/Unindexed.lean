import Moe.Pool.Applied

namespace Moe

/-- An event without the index it was judged at. -/
def StoredEvent.unindexed (event : StoredEvent) : StoredEvent := { event with index := none }

def Fact.unindexed : Fact → Fact
  | .event row => .event row.unindexed
  | fact => fact

def Rows.unindexed (rows : Rows) : Rows := rows.map fun placed => ⟨placed.ns, placed.position, placed.row.unindexed⟩

/-- A namespace without the indices its events were judged at, and without the witnesses a replay chose. -/
def Namespace.unindexed (n : Namespace) : Namespace := { n with rows := n.rows.unindexed, witnesses := [] }

def Store.unindexed (s : Store) : Store := { s with namespaces := fun ns => (s.namespaces ns).map (·.unindexed) }

/-- A table whose rows an index is no part of. -/
theorem Rows.table_unindexed {α : Type} {pick : Fact → Option α} (blind : ∀ fact : Fact, pick fact.unindexed = pick fact)
    (rows : Rows) : Rows.table pick rows.unindexed = Rows.table pick rows := by
  simp [Rows.table, Rows.unindexed, List.filterMap_map, blind]

@[simp] theorem Rows.nullifiers_unindexed (rows : Rows) : rows.unindexed.nullifiers = rows.nullifiers :=
  Rows.table_unindexed (by rintro (_ | _ | _ | _ | _ | _ | _) <;> rfl) rows

@[simp] theorem Rows.outputs_unindexed (rows : Rows) : rows.unindexed.outputs = rows.outputs :=
  Rows.table_unindexed (by rintro (_ | _ | _ | _ | _ | _ | _) <;> rfl) rows

@[simp] theorem Rows.anchors_unindexed (rows : Rows) : rows.unindexed.anchors = rows.anchors :=
  Rows.table_unindexed (by rintro (_ | _ | _ | _ | _ | _ | _) <;> rfl) rows

@[simp] theorem Rows.demands_unindexed (rows : Rows) : rows.unindexed.demands = rows.demands :=
  Rows.table_unindexed (by rintro (_ | _ | _ | _ | _ | _ | _) <;> rfl) rows

@[simp] theorem Rows.demandEnds_unindexed (rows : Rows) : rows.unindexed.demandEnds = rows.demandEnds :=
  Rows.table_unindexed (by rintro (_ | _ | _ | _ | _ | _ | _) <;> rfl) rows

theorem Rows.events_unindexed (rows : Rows) :
    rows.unindexed.events = rows.events.map fun event => ⟨event.ns, event.position, event.row.unindexed⟩ := by
  simp only [Rows.events, Rows.table, Rows.unindexed, List.filterMap_map, List.map_filterMap]
  refine List.filterMap_congr fun placed _ => ?_
  cases h : placed.row <;> simp [h, Fact.unindexed]

theorem Rows.through_unindexed (p : Nat) (rows : Rows) : Rows.through p rows.unindexed = (Rows.through p rows).unindexed := by
  simp [Rows.through, Rows.unindexed, List.filter_map, Function.comp_def]

theorem Rows.unindexed_append (a b : Rows) : Rows.unindexed (a ++ b) = a.unindexed ++ b.unindexed := List.map_append

section

variable (s : Store) (ns p : Nat)

theorem Store.rows_unindexed : s.unindexed.rows ns = (s.rows ns).unindexed := by
  simp only [Store.rows, Store.unindexed, Option.map_map]
  cases s.namespaces ns <;> rfl

theorem Store.imports_unindexed : s.unindexed.imports ns = s.imports ns := by
  simp only [Store.imports, Store.unindexed, Option.map_map]
  cases s.namespaces ns <;> rfl

theorem Store.visible_unindexed : s.unindexed.visible ns p = (s.visible ns p).unindexed := by
  simp only [Store.visible, Store.union, Store.imports_unindexed, Store.rows_unindexed, Rows.through_unindexed]
  exact (List.map_flatMap ..).symm

theorem Store.total_unindexed (backing : Bytes) : s.unindexed.total ns p backing = s.total ns p backing := by
  simp only [Store.total, Store.unindexed, Option.map_map]
  cases s.namespaces ns <;> rfl

theorem Store.event_unindexed : s.unindexed.event ns p = (s.event ns p).map (·.unindexed) := by
  simp only [Store.event, Store.unindexed]
  cases s.namespaces ns with
  | none => rfl
  | some n =>
    simp [Namespace.event, Namespace.unindexed, Rows.events_unindexed, List.find?_map, Function.comp_def]

end

variable {R : Type}

/-- No question a state answers reads an index. -/
theorem StateHandle.view_unindexed (s : Store) (h : StateHandle R) : h.view s.unindexed = h.view s := by
  have position : h.position s.unindexed = h.position s := by
    simp only [StateHandle.position, Store.unindexed, Option.map_map]
    cases s.namespaces h.ns <;> rfl
  have rows : h.rows s.unindexed = (h.rows s).unindexed := by
    rw [StateHandle.rows, position, Store.visible_unindexed]
    rfl
  have effective : ∀ rows : Rows, rows.unindexed.isEffective = rows.isEffective := by
    intro rows
    funext id
    simp [Rows.isEffective, Rows.events_unindexed, List.any_map, Function.comp_def, StoredEvent.unindexed]
  have settled : ∀ cm, h.settledFor s.unindexed cm = h.settledFor s cm := by
    intro cm
    have events : ∀ ns p, (s.unindexed.event ns p).bind (·.settlement) = (s.event ns p).bind (·.settlement) := by
      intro ns p
      rw [Store.event_unindexed]
      cases s.event ns p <;> rfl
    simp [StateHandle.settledFor, rows, Rows.output, events]
  simp [StateHandle.view, rows, effective, funext settled, Rows.hasNullifier, Rows.hasOutput, Rows.hasAnchor,
    Rows.presentedWithTag, Rows.demand, Rows.demandsWithTag, Rows.hasSpentTag, Rows.isEnded, funext_iff]

/-- Two stores that differ in the indices of events and in witnesses at most. -/
def Store.Alike (s s' : Store) : Prop := s.unindexed = s'.unindexed

def Namespace.Alike (n n' : Namespace) : Prop := n.unindexed = n'.unindexed

section Alike

variable {s s' : Store}

theorem Store.Alike.found (alike : s.Alike s') {ns : Nat} {n : Namespace} (found : s.namespaces ns = some n) :
    ∃ n', s'.namespaces ns = some n' ∧ n.Alike n' := by
  have same := congrFun (congrArg Store.namespaces alike) ns
  simp only [Store.unindexed, found, Option.map_some] at same
  obtain ⟨n', found', erased⟩ := Option.map_eq_some_iff.mp same.symm
  exact ⟨n', found', erased.symm⟩

theorem Store.Alike.view (alike : s.Alike s') (h : StateHandle R) : h.view s = h.view s' := by
  rw [← StateHandle.view_unindexed, ← StateHandle.view_unindexed s', show s.unindexed = s'.unindexed from alike]

theorem Store.Alike.total (alike : s.Alike s') (ns p : Nat) (backing : Bytes) : s.total ns p backing = s'.total ns p backing := by
  rw [← Store.total_unindexed, ← Store.total_unindexed s', show s.unindexed = s'.unindexed from alike]

theorem Store.Alike.position (alike : s.Alike s') (h : StateHandle R) : h.position s = h.position s' := by
  cases found : s.namespaces h.ns with
  | none =>
    have none : s'.namespaces h.ns = none := by
      have same := congrFun (congrArg Store.namespaces alike) h.ns
      simpa [Store.unindexed, found, eq_comm] using same
    simp [StateHandle.position, found, none]
  | some n =>
    obtain ⟨n', found', same⟩ := alike.found found
    have erased : n.unindexed = n'.unindexed := same
    have tip : n.unindexed.position = n'.unindexed.position := congrArg Namespace.position erased
    have tip : n.position = n'.position := tip
    simp [StateHandle.position, found, found', tip]

theorem Store.Alike.hasStatement (alike : s.Alike s') (ns p : Nat) (identity : Bytes) :
    s.hasStatement ns p identity = s'.hasStatement ns p identity := by
  have blind : ∀ s : Store, s.unindexed.hasStatement ns p identity = s.hasStatement ns p identity := by
    intro s
    simp [Store.hasStatement, Store.rows_unindexed, Rows.through_unindexed, Rows.events_unindexed, List.any_map,
      Function.comp_def, StoredEvent.unindexed]
  rw [← blind, ← blind s', show s.unindexed = s'.unindexed from alike]

theorem Store.Alike.put (alike : s.Alike s') {ns : Nat} {n n' : Namespace} (same : n.Alike n') :
    (s.put ns n).Alike (s'.put ns n') := by
  have erased : s.unindexed = s'.unindexed := alike
  have next : s.unindexed.next = s'.unindexed.next := congrArg Store.next erased
  have others := fun other => congrFun (congrArg Store.namespaces alike) other
  simp only [Store.Alike, Store.unindexed, Store.put, Store.mk.injEq]
  refine ⟨next, funext fun other => ?_⟩
  by_cases here : other = ns
  · simpa [here] using show n.unindexed = n'.unindexed from same
  · simpa [here, Store.unindexed] using others other

end Alike

section Append

/-- A record's write without its index and its witnesses. -/
def Append.unindexed (record : Append) : Append :=
  { record with index := none, outputs := record.outputs.map fun output => { output with witness := none } }

theorem Append.cms_unindexed (record : Append) : record.unindexed.outputs.map (·.cm) = record.outputs.map (·.cm) := by
  simp [Append.unindexed, Function.comp_def]

theorem Namespace.stand_unindexed (n : Namespace) : n.unindexed.stand = n.stand := by
  funext demand
  simp [Namespace.stand, Namespace.unindexed]

theorem Namespace.endDemand_unindexed (n : Namespace) : n.unindexed.endDemand = n.endDemand := by
  funext id
  simp [Namespace.endDemand, Namespace.unindexed]

variable [Crypto]

theorem Namespace.spend_unindexed (n : Namespace) (nullifiers : List StoredNullifier) :
    n.unindexed.spend nullifiers = n.spend nullifiers := by
  simp [Namespace.spend, Namespace.unindexed]

theorem Namespace.written_unindexed (n : Namespace) (ns : Nat) (record : Append) (spent : SpentSet)
    (demand : Option StoredDemand) : (n.written ns record spent demand).unindexed =
      (n.unindexed.written ns record.unindexed spent demand).unindexed := by
  have notes : n.unindexed.appendOutputs (record.unindexed.outputs.map (·.cm)) =
      n.appendOutputs (record.outputs.map (·.cm)) := by
    rw [record.cms_unindexed]
    rfl
  have event : (n.unindexed.eventOf record.unindexed spent).unindexed = (n.eventOf record spent).unindexed := by
    simp only [Namespace.eventOf, notes]
    rfl
  have history := congrArg StoredEvent.history event
  have root := congrArg StoredEvent.noteRoot event
  simp only [StoredEvent.unindexed] at history root
  have outputs : n.unindexed.outputRows record.unindexed.outputs = n.outputRows record.outputs := by
    simp [Namespace.outputRows, Append.unindexed, Namespace.unindexed, List.zipIdx_map, Function.comp_def]
  have anchors : ∀ root, n.unindexed.newAnchors root = n.newAnchors root := by
    intro root
    simp [Namespace.newAnchors, Namespace.unindexed]
  have added : Rows.unindexed (n.unindexed.added ns record.unindexed spent demand) =
      Rows.unindexed (n.added ns record spent demand) := by
    simp only [Namespace.added, outputs, anchors, root, Rows.unindexed, List.cons_append, List.map_cons, Fact.unindexed, event]
    rfl
  have twice : ∀ rows : Rows, rows.unindexed.unindexed = rows.unindexed := by
    intro rows
    simp only [Rows.unindexed, List.map_map]
    refine List.map_congr_left fun placed _ => ?_
    obtain ⟨_, _, row⟩ := placed
    cases row <;> rfl
  have rows : Rows.unindexed (n.written ns record spent demand).rows =
      Rows.unindexed (n.unindexed.written ns record.unindexed spent demand).rows := by
    simp only [Namespace.written, Rows.unindexed_append, added]
    exact congrArg (_ ++ ·) (twice n.rows).symm
  simp only [Namespace.unindexed, Namespace.mk.injEq] at rows ⊢
  exact ⟨rfl, rfl, rfl, rfl, rfl, history.symm, rfl, congrArg NoteAppend.leaves notes.symm,
    congrArg NoteAppend.noteRoot notes.symm, congrArg NoteAppend.ommers notes.symm, rfl, rfl, rows, rfl, trivial⟩

/-- What one namespace takes of a record, a namespace alike takes of the record alike. -/
theorem Namespace.Alike.append {n n' m : Namespace} (alike : n.Alike n') {ns : Nat} {record record' : Append}
    (same : record.unindexed = record'.unindexed) (run : n.append ns record = .ok m) :
    ∃ m', n'.append ns record' = .ok m' ∧ m.Alike m' := by
  have erased : n.unindexed = n'.unindexed := alike
  obtain ⟨outputs, spent, demand, ended, spend, stand, ends, rfl⟩ := Namespace.append_eq_ok.mp run
  have cms : record.outputs.map (·.cm) = record'.outputs.map (·.cm) := by
    rw [← record.cms_unindexed, same, record'.cms_unindexed]
  have nullifiers : record.nullifiers = record'.nullifiers := (congrArg Append.nullifiers same :)
  have demands : record.demand = record'.demand := (congrArg Append.demand same :)
  have endeds : record.ended = record'.ended := (congrArg Append.ended same :)
  refine ⟨n'.written ns record' spent demand, Namespace.append_eq_ok.mpr ⟨?_, spent, demand, ended, ?_, ?_, ?_, rfl⟩, ?_⟩
  · have keeps : n.keeps = n'.keeps := (congrArg Namespace.keeps erased :)
    have rows : n.rows.outputs = n'.rows.outputs := by
      rw [← Rows.outputs_unindexed, ← n'.rows.outputs_unindexed]
      exact congrArg (fun n => Rows.outputs n.rows) erased
    rw [Namespace.checkOutputs_eq_ok] at outputs ⊢
    rwa [← cms, ← keeps, ← rows]
  · rw [← nullifiers, ← n'.spend_unindexed, ← erased, n.spend_unindexed]
    exact spend
  · rw [← demands, ← n'.stand_unindexed, ← erased, n.stand_unindexed]
    exact stand
  · rw [← endeds, ← n'.endDemand_unindexed, ← erased, n.endDemand_unindexed]
    exact ends
  · show (n.written ns record spent demand).unindexed = (n'.written ns record' spent demand).unindexed
    rw [n.written_unindexed, n'.written_unindexed, erased, same]

end Append

end Moe
