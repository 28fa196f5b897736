import Moe.Pool.ReplayStore

namespace Moe

/-- What a namespace at a later tip keeps of an earlier one: its rows and totals are the earlier ones
under newer rows, all placed past the earlier tip. -/
structure Namespace.Grown (n later : Namespace) : Prop where
  segment : later.segment = n.segment
  keeps : later.keeps = n.keeps
  imports : later.imports = n.imports
  position : n.position ≤ later.position
  rows : ∃ added, later.rows = added ++ n.rows ∧ ∀ placed ∈ added, n.position < placed.position
  totals : ∃ added, later.totals = added ++ n.totals ∧ ∀ total ∈ added, n.position < total.position

theorem Namespace.Grown.refl (n : Namespace) : n.Grown n :=
  ⟨rfl, rfl, rfl, le_rfl, ⟨[], by simp⟩, ⟨[], by simp⟩⟩

theorem Namespace.Grown.trans {a b c : Namespace} (first : a.Grown b) (second : b.Grown c) : a.Grown c := by
  obtain ⟨rows, rowsEq, rowsAfter⟩ := first.rows
  obtain ⟨rows', rowsEq', rowsAfter'⟩ := second.rows
  obtain ⟨totals, totalsEq, totalsAfter⟩ := first.totals
  obtain ⟨totals', totalsEq', totalsAfter'⟩ := second.totals
  have later := first.position
  refine ⟨second.segment.trans first.segment, second.keeps.trans first.keeps, second.imports.trans first.imports,
    later.trans second.position, ⟨rows' ++ rows, by rw [rowsEq', rowsEq, List.append_assoc], ?_⟩,
    ⟨totals' ++ totals, by rw [totalsEq', totalsEq, List.append_assoc], ?_⟩⟩
  · intro placed member
    rcases List.mem_append.mp member with new | old
    · exact lt_of_le_of_lt later (rowsAfter' placed new)
    · exact rowsAfter placed old
  · intro total member
    rcases List.mem_append.mp member with new | old
    · exact lt_of_le_of_lt later (totalsAfter' total new)
    · exact totalsAfter total old

theorem Namespace.Grown.through {n later : Namespace} (grown : n.Grown later) {p : Nat} (bound : p ≤ n.position) :
    later.rows.through p = n.rows.through p := by
  obtain ⟨added, rows, after⟩ := grown.rows
  rw [rows, Rows.through_append, Rows.through_none fun placed member => lt_of_le_of_lt bound (after placed member)]
  rfl

theorem Namespace.Grown.total {n later : Namespace} (grown : n.Grown later) {p : Nat} (bound : p ≤ n.position)
    (backing : Bytes) : later.total p backing = n.total p backing := by
  obtain ⟨added, totals, after⟩ := grown.totals
  have none_added : added.find? (fun row => row.backing = backing && row.position ≤ p) = none := by
    refine List.find?_eq_none.mpr fun total member => ?_
    have := after total member
    simp only [Bool.and_eq_true, decide_eq_true_eq, not_and, not_le]
    omega
  simp only [Namespace.total, totals, List.find?_append, none_added, Option.none_or]

/-- Every namespace a store holds, a later one holds at least as far. -/
def Store.Grows (s later : Store) : Prop :=
  ∀ ns n, s.namespaces ns = some n → ∃ n', later.namespaces ns = some n' ∧ n.Grown n'

theorem Store.Grows.refl (s : Store) : s.Grows s := fun _ n found => ⟨n, found, .refl n⟩

theorem Store.Grows.trans {a b c : Store} (first : a.Grows b) (second : b.Grows c) : a.Grows c := by
  intro ns n found
  obtain ⟨middle, found, grown⟩ := first ns n found
  obtain ⟨last, found, grown'⟩ := second ns middle found
  exact ⟨last, found, grown.trans grown'⟩

/-- An entry names a namespace the store holds, at or below its tip. -/
def Store.Holds (s : Store) (entry : ImportEntry) : Prop :=
  ∃ n, s.namespaces entry.ns = some n ∧ entry.upto ≤ n.position

theorem Store.Grows.holds {s later : Store} (grows : s.Grows later) {entry : ImportEntry} (held : s.Holds entry) :
    later.Holds entry := by
  obtain ⟨n, found, bound⟩ := held
  obtain ⟨n', found', grown⟩ := grows _ _ found
  exact ⟨n', found', bound.trans grown.position⟩

/-- What was visible stays as it was: unions of held entries read no newer row. -/
theorem Store.Grows.union {s later : Store} (grows : s.Grows later) {entries : List ImportEntry}
    (held : ∀ entry ∈ entries, s.Holds entry) : later.union entries = s.union entries := by
  refine List.flatMap_congr fun entry member => ?_
  obtain ⟨n, found, bound⟩ := held entry member
  obtain ⟨n', found', grown⟩ := grows _ _ found
  simp only [Store.rows, found, found', Option.map_some, Option.getD_some]
  exact grown.through bound

theorem Store.Grows.imports {s later : Store} (grows : s.Grows later) {ns : Nat} {n : Namespace}
    (found : s.namespaces ns = some n) : later.imports ns = s.imports ns := by
  obtain ⟨n', found', grown⟩ := grows _ _ found
  simp only [Store.imports, found, found', Option.map_some, Option.getD_some, grown.imports]

theorem Store.Grows.total {s later : Store} (grows : s.Grows later) {ns p : Nat} (held : s.Holds ⟨ns, p⟩)
    (backing : Bytes) : later.total ns p backing = s.total ns p backing := by
  obtain ⟨n, found, bound⟩ := held
  obtain ⟨n', found', grown⟩ := grows _ _ found
  simp only [Store.total, found, found', Option.map_some, Option.getD_some]
  exact grown.total bound backing

theorem Store.put_self (s : Store) (ns : Nat) (n : Namespace) : (s.put ns n).namespaces ns = some n := by
  simp [Store.put]

theorem Store.put_other (s : Store) {ns other : Nat} (n : Namespace) (ne : other ≠ ns) :
    (s.put ns n).namespaces other = s.namespaces other := by
  simp [Store.put, ne]

theorem Store.find_eq_ok {s : Store} {ns : Nat} {n : Namespace} : s.find ns = .ok n ↔ s.namespaces ns = some n := by
  unfold Store.find
  cases s.namespaces ns <;> simp

theorem Store.put_grows {s : Store} {ns : Nat} {n later : Namespace} (found : s.namespaces ns = some n)
    (grown : n.Grown later) : s.Grows (s.put ns later) := by
  intro other m seen
  by_cases same : other = ns
  · subst same
    obtain rfl : n = m := Option.some.inj (found.symm.trans seen)
    exact ⟨later, s.put_self _ _, grown⟩
  · exact ⟨m, (s.put_other _ same).trans seen, .refl m⟩

theorem Namespace.outputRows_cms (n : Namespace) (outputs : List AppendOutput) :
    (n.outputRows outputs).map (·.cm) = outputs.map (·.cm) := by
  simp only [outputRows, List.map_map, Function.comp_def]
  rw [show (fun x : AppendOutput × Nat => x.1.cm) = (·.cm) ∘ Prod.fst from rfl, ← List.map_map, List.zipIdx_map_fst]

/-- The output table's checks read commitments only. -/
theorem Namespace.checkOutputs_eq_ok {n : Namespace} {outputs : List AppendOutput} :
    n.checkOutputs outputs = .ok () ↔
      (∀ cm ∈ outputs.map (·.cm), if n.keeps.tree = true then isField cm = true else cm < keyBound) ∧
        (outputs.map (·.cm)).Nodup ∧ ∀ cm ∈ outputs.map (·.cm), ∀ held ∈ n.rows.outputs, held.row.cm ≠ cm := by
  cases tree : n.keeps.tree <;>
    simp only [Namespace.checkOutputs, tree, bind_unit_eq_ok, forM_eq_ok, requireKey, require_eq_ok, if_true,
      Bool.false_eq_true, if_false] <;> simp

variable [Crypto]

/-- A write to a namespace passed each table's checks; the rest is what it writes. -/
theorem Namespace.append_eq_ok {n later : Namespace} {ns : Nat} {record : Append} :
    n.append ns record = .ok later ↔
      n.checkOutputs record.outputs = .ok () ∧ ∃ spent demand ended, n.spend record.nullifiers = .ok spent ∧
        record.demand.mapM n.stand = .ok demand ∧ record.ended.mapM n.endDemand = .ok ended ∧
        later = n.written ns record spent demand := by
  simp only [Namespace.append, bind_eq_ok, pure_eq_ok]
  constructor
  · rintro ⟨⟨⟩, outputs, spent, spend, demand, stand, ended, ends, rfl⟩
    exact ⟨outputs, spent, demand, ended, spend, stand, ends, rfl⟩
  · rintro ⟨outputs, spent, demand, ended, spend, stand, ends, rfl⟩
    exact ⟨(), outputs, spent, spend, demand, stand, ended, ends, rfl⟩

theorem Store.append_eq_ok {s later : Store} {ns : Nat} {record : Append} :
    s.append ns record = .ok later ↔
      ∃ n n', s.namespaces ns = some n ∧ n.append ns record = .ok n' ∧ later = s.put ns n' := by
  simp only [Store.append, bind_eq_ok, Store.find_eq_ok, pure_eq_ok]
  constructor
  · rintro ⟨n, found, n', run, rfl⟩
    exact ⟨n, n', found, run, rfl⟩
  · rintro ⟨n, n', found, run, rfl⟩
    exact ⟨n, found, n', run, rfl⟩

section

variable (n : Namespace) (ns : Nat) (record : Append) (spent : SpentSet) (demand : Option StoredDemand)

/-! The rows one record adds, table by table. -/

theorem Namespace.mem_added {placed : Placed Fact} (member : placed ∈ n.added ns record spent demand) :
    placed.ns = ns ∧ placed.position = n.position + 1 := by
  obtain ⟨fact, -, rfl⟩ := List.mem_map.mp member
  exact ⟨rfl, rfl⟩

@[simp] theorem Namespace.added_events : Rows.events (n.added ns record spent demand) =
    [⟨ns, n.position + 1, n.eventOf record spent⟩] := by
  simp [Rows.events, Rows.table, added, List.filterMap_append, List.filterMap_map]

@[simp] theorem Namespace.added_nullifiers : Rows.nullifiers (n.added ns record spent demand) =
    record.nullifiers.map (⟨ns, n.position + 1, ·⟩) := by
  simp [Rows.nullifiers, Rows.table, added, List.filterMap_append, List.filterMap_map]

@[simp] theorem Namespace.added_outputs : Rows.outputs (n.added ns record spent demand) =
    (n.outputRows record.outputs).map (⟨ns, n.position + 1, ·⟩) := by
  simp [Rows.outputs, Rows.table, added, List.filterMap_append, List.filterMap_map]

@[simp] theorem Namespace.added_anchors : Rows.anchors (n.added ns record spent demand) =
    (n.newAnchors (n.eventOf record spent).noteRoot).map (⟨ns, n.position + 1, ·⟩) := by
  simp [Rows.anchors, Rows.table, added, List.filterMap_append, List.filterMap_map]

@[simp] theorem Namespace.added_demands : Rows.demands (n.added ns record spent demand) =
    demand.toList.map (⟨ns, n.position + 1, ·⟩) := by
  simp [Rows.demands, Rows.table, added, List.filterMap_append, List.filterMap_map]

@[simp] theorem Namespace.added_demandEnds : Rows.demandEnds (n.added ns record spent demand) =
    record.ended.toList.map (⟨ns, n.position + 1, ·⟩) := by
  simp [Rows.demandEnds, Rows.table, added, List.filterMap_append, List.filterMap_map]

@[simp] theorem Namespace.added_eventKeys : Rows.eventKeys (n.added ns record spent demand) =
    record.keys.dedup.map (⟨ns, n.position + 1, ·⟩) := by
  simp [Rows.eventKeys, Rows.table, added, List.filterMap_append, List.filterMap_map]

end

theorem Namespace.written_grown (n : Namespace) (ns : Nat) (record : Append) (spent : SpentSet)
    (demand : Option StoredDemand) : n.Grown (n.written ns record spent demand) := by
  refine ⟨rfl, rfl, rfl, Nat.le_succ _, ⟨_, rfl, ?_⟩, ⟨_, rfl, ?_⟩⟩
  · intro placed member
    rw [(n.mem_added ns record spent demand member).2]
    exact Nat.lt_succ_self _
  · intro total member
    obtain ⟨supply, -, rfl⟩ := List.mem_map.mp member
    exact Nat.lt_succ_self _

/-- An opened namespace takes the next number; every import is of its construction, each namespace
imported once, and each imported nullifier inserted once. -/
theorem Store.open_eq_ok {s later : Store} {segment identity history evidence : Bytes} {imported : Option Imports}
    {keeps : NamespaceConstruction} {ns : Nat} :
    s.open segment identity imported history evidence keeps = .ok (ns, later) ↔
      (∀ entry ∈ (imported.getD .empty).segments, ∃ source, s.namespaces entry.2.ns = some source ∧ source.keeps = keeps) ∧
      ((imported.getD .empty).segments.map (·.2.ns)).Nodup ∧
      ∃ spent, SpentSet.insertAll none (s.importedNullifiers (imported.getD .empty)) = .ok spent ∧ ns = s.next ∧
        later = { s.put s.next (s.fresh segment identity (imported.getD .empty) history evidence keeps spent) with
          next := s.next + 1 } := by
  have sources : ∀ entry : Bytes × ImportEntry, (do
      let source ← s.find entry.2.ns
      require (source.keeps = keeps) (.typeError "an import is of another construction")) = .ok () ↔
      ∃ source, s.namespaces entry.2.ns = some source ∧ source.keeps = keeps := by
    simp only [bind_eq_ok, Store.find_eq_ok, require_eq_ok, decide_eq_true_eq, implies_true]
  simp only [Store.open, bind_eq_ok, pure_eq_ok, Prod.mk.injEq, require_eq_ok, decide_eq_true_eq, forM_eq_ok, sources]
  constructor
  · rintro ⟨-, held, -, once, spent, inserted, rfl, rfl⟩
    exact ⟨held, once, spent, inserted, rfl, rfl⟩
  · rintro ⟨held, once, spent, inserted, rfl, rfl⟩
    exact ⟨(), held, (), once, spent, inserted, rfl, rfl⟩

end Moe
