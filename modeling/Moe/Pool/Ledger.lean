import Mathlib.Algebra.BigOperators.Group.List.Basic
import Mathlib.Data.List.Find
import Moe.Pool.Placement

namespace Moe

/-- An issue's or a burn's effect on one backing's supply. -/
def StoredEvent.supplyOf (event : StoredEvent) (backing : Bytes) : Totals :=
  match event.supply with
  | some supply => if (event.kind = 1 ∨ event.kind = 3) ∧ supply.backing = backing then supply.totals else .zero
  | none => .zero

/-- What the issues and burns among some rows issued and burned of a backing, each event once. -/
def Rows.supplied (rows : Rows) (backing : Bytes) : Totals :=
  ⟨(rows.events.map fun event => (event.row.supplyOf backing).issued).sum,
    (rows.events.map fun event => (event.row.supplyOf backing).burned).sum⟩

/-- No nullifier and no output twice among some rows, and their supply the total a state reads. -/
structure Ledger (rows : Rows) (total : Bytes → Totals) : Prop where
  nullifiers : (rows.nullifiers.map (·.row.nf)).Nodup
  outputs : (rows.outputs.map (·.row.cm)).Nodup
  supply : ∀ backing, total backing = rows.supplied backing
  bounded : ∀ backing, (total backing).burned ≤ (total backing).issued ∧ (total backing).issued < valueBound

/-- What one namespace's own rows meet: one event at each position through the tip, spent and created at
one, nothing zero spent or created, supply moved by issues and burns only. -/
structure Namespace.Sound (n : Namespace) : Prop where
  totals : ∀ total ∈ n.totals, total.position ≤ n.position
  events : n.rows.events.map (·.position) = (List.range' 1 n.position).reverse
  nullifiers : ∀ spend ∈ n.rows.nullifiers, 1 ≤ spend.position ∧ spend.row.nf ≠ 0
  outputs : ∀ output ∈ n.rows.outputs, 1 ≤ output.position ∧ output.row.cm ≠ 0
  supply : ∀ event ∈ n.rows.events, event.row.supply ≠ none → event.row.kind = 1 ∨ event.row.kind = 3
  leaves : n.keeps.tree = true → n.leaves ≤ noteTreeCapacity

structure Store.Sound (s : Store) : Prop extends s.WellPlaced where
  namespaces : ∀ ns n, s.namespaces ns = some n → n.Sound

theorem Rows.supplied_append (a b : Rows) (backing : Bytes) :
    Rows.supplied (a ++ b) backing = (Rows.supplied a backing).add (Rows.supplied b backing) := by
  simp [supplied, events, Totals.add]

theorem Rows.table_perm {α : Type} (pick : Fact → Option α) {a b : Rows} (perm : a.Perm b) :
    (Rows.table pick a).Perm (Rows.table pick b) := perm.filterMap _

theorem Rows.supplied_perm {a b : Rows} (perm : a.Perm b) (backing : Bytes) : a.supplied backing = b.supplied backing := by
  have events : a.events.Perm b.events := Rows.table_perm _ perm
  simp only [supplied, Totals.mk.injEq]
  exact ⟨(events.map _).sum_eq, (events.map _).sum_eq⟩

/-- The order rows are read in does not matter. -/
theorem Ledger.perm {a b : Rows} {total : Bytes → Totals} (ledger : Ledger a total) (perm : a.Perm b) : Ledger b total where
  nullifiers := ((Rows.table_perm _ perm).map _).nodup_iff.mp ledger.nullifiers
  outputs := ((Rows.table_perm _ perm).map _).nodup_iff.mp ledger.outputs
  supply backing := (ledger.supply backing).trans (Rows.supplied_perm perm backing)
  bounded := ledger.bounded

/-- Rows of the other tables change no ledger. -/
theorem Ledger.cons_rows {own rows : Rows} {total : Bytes → Totals} (ledger : Ledger rows total) (events : own.events = [])
    (nullifiers : own.nullifiers = []) (outputs : own.outputs = []) : Ledger (own ++ rows) total where
  nullifiers := by simpa [nullifiers] using ledger.nullifiers
  outputs := by simpa [outputs] using ledger.outputs
  supply backing := by simpa [Rows.supplied, events] using ledger.supply backing
  bounded := ledger.bounded

theorem Store.total_of_found {s : Store} {ns : Nat} {n : Namespace} (found : s.namespaces ns = some n) (p : Nat)
    (backing : Bytes) : s.total ns p backing = n.total p backing := by
  simp [Store.total, found]

theorem Store.Grows.ledger {s later : Store} (grows : s.Grows later) (placed : s.WellPlaced) {ns p : Nat}
    (held : s.Holds ⟨ns, p⟩) (ledger : Ledger (s.visible ns p) (s.total ns p)) :
    Ledger (later.visible ns p) (later.total ns p) := by
  rw [grows.visible placed held, show later.total ns p = s.total ns p from funext (grows.total held)]
  exact ledger

theorem Namespace.totalsAt_get (n : Namespace) (p : Nat) (backing : Bytes) :
    (OrderedMap.get? (n.totalsAt p) backing).getD .zero = n.total p backing := by
  rw [Namespace.totalsAt, OrderedMap.get?_tabulate]
  by_cases listed : backing ∈ ((n.totals.filter (·.position ≤ p)).map (·.backing)).dedup
  · rw [if_pos listed, Option.getD_some]
  · have unseen : n.totals.find? (fun row => row.backing = backing && row.position ≤ p) = none := by
      refine List.find?_eq_none.mpr fun total member matched => listed ?_
      simp only [Bool.and_eq_true, decide_eq_true_eq] at matched
      exact List.mem_dedup.mpr (List.mem_map.mpr ⟨total, List.mem_filter.mpr ⟨member, by simpa using matched.2⟩, matched.1⟩)
    rw [if_neg listed, Namespace.total, unseen]
    rfl

end Moe

namespace Moe

variable {R : Type}

/-- What a record's write needs of its effects, whichever mode judged it. -/
structure Admissible (rows : Rows) (total : Bytes → Totals) (record : Append) : Prop where
  nullifiers : (record.nullifiers.map (·.nf)).Nodup
  spent : ∀ nf ∈ record.nullifiers.map (·.nf), nf ≠ 0 ∧ rows.hasNullifier nf = false
  outputs : (record.outputs.map (·.cm)).Nodup
  created : ∀ cm ∈ record.outputs.map (·.cm), cm ≠ 0 ∧ rows.hasOutput cm = false
  supply : ∀ supply, record.supply = some supply →
    (record.kind = 1 ∨ record.kind = 3) ∧
    ((total supply.backing).add supply.totals).burned ≤ ((total supply.backing).add supply.totals).issued ∧
    ((total supply.backing).add supply.totals).issued < valueBound

theorem Rows.hasNullifier_eq_false {rows : Rows} {nf : Nat} :
    rows.hasNullifier nf = false ↔ nf ∉ rows.nullifiers.map (·.row.nf) := by
  simp [Rows.hasNullifier]

theorem Rows.hasOutput_eq_false {rows : Rows} {cm : Nat} :
    rows.hasOutput cm = false ↔ cm ∉ rows.outputs.map (·.row.cm) := by
  simp [Rows.hasOutput]

section

variable [Crypto] {n : Namespace} {ns : Nat} {record : Append} {spent : SpentSet} {demand : Option StoredDemand}

theorem Namespace.Sound.written {rows : Rows} {total : Bytes → Totals} (sound : n.Sound)
    (admissible : Admissible rows total record)
    (room : n.keeps.tree = true → n.leaves + record.outputs.length ≤ noteTreeCapacity) :
    (n.written ns record spent demand).Sound where
  totals total member := by
    rcases List.mem_append.mp member with new | old
    · obtain ⟨supply, -, rfl⟩ := List.mem_map.mp new
      exact le_rfl
    · exact (sound.totals total old).trans (Nat.le_succ _)
  events := by
    have last : List.range' 1 (n.position + 1) = List.range' 1 n.position ++ [n.position + 1] := by
      rw [List.range'_1_concat, Nat.add_comm 1]
    simp only [Namespace.written, Rows.events_append, added_events, List.map_append, last, List.reverse_append,
      ← sound.events]
    rfl
  nullifiers spend member := by
    simp only [Namespace.written, Rows.nullifiers_append, added_nullifiers, List.mem_append] at member
    rcases member with new | old
    · obtain ⟨row, listed, rfl⟩ := List.mem_map.mp new
      exact ⟨Nat.le_add_left _ _, (admissible.spent row.nf (List.mem_map.mpr ⟨row, listed, rfl⟩)).1⟩
    · exact sound.nullifiers spend old
  outputs output member := by
    simp only [Namespace.written, Rows.outputs_append, added_outputs, List.mem_append] at member
    rcases member with new | old
    · obtain ⟨row, listed, rfl⟩ := List.mem_map.mp new
      have cm : row.cm ∈ record.outputs.map (·.cm) := by
        rw [← n.outputRows_cms]
        exact List.mem_map.mpr ⟨row, listed, rfl⟩
      exact ⟨Nat.le_add_left _ _, (admissible.created row.cm cm).1⟩
    · exact sound.outputs output old
  supply event member moved := by
    simp only [Namespace.written, Rows.events_append, added_events, List.mem_append] at member
    rcases member with new | old
    · obtain rfl := List.mem_singleton.mp new
      obtain ⟨supply, named⟩ := Option.ne_none_iff_exists'.mp moved
      exact (admissible.supply supply named).1
    · exact sound.supply event old moved
  leaves tree := by
    have bound := room tree
    simp only [Namespace.written, Namespace.appendOutputs, show n.keeps.tree = true from tree, if_true,
      appendNotes_leaves, List.length_map]
    exact bound

/-- The total after a record is the total before it with the record's supply. -/
theorem Namespace.Sound.written_total (sound : n.Sound) (backing : Bytes)
    (kinds : ∀ supply, record.supply = some supply → record.kind = 1 ∨ record.kind = 3) :
    (n.written ns record spent demand).total (n.position + 1) backing =
      (n.total n.position backing).add ((n.eventOf record spent).supplyOf backing) := by
  have old : n.totals.find? (fun row => row.backing = backing && row.position ≤ n.position + 1) =
      n.totals.find? (fun row => row.backing = backing && row.position ≤ n.position) := by
    refine List.find?_congr fun row member => ?_
    have bound := sound.totals row member
    simp [bound, bound.trans (Nat.le_succ _)]
  cases moved : record.supply with
  | none => simp [Namespace.written, Namespace.total, moved, old, StoredEvent.supplyOf, Namespace.eventOf, Totals.add, Totals.zero]
  | some supply =>
    by_cases same : supply.backing = backing
    · subst same
      simp [Namespace.written, Namespace.total, moved, StoredEvent.supplyOf, Namespace.eventOf, kinds supply moved]
    · simp [Namespace.written, Namespace.total, moved, old, StoredEvent.supplyOf, Namespace.eventOf, same, Totals.add,
        Totals.zero]

/-- A record that is admissible in what its namespace sees extends the ledger. -/
theorem Ledger.written {rows : Rows} {total : Bytes → Totals} (ledger : Ledger rows total)
    (admissible : Admissible rows total record) :
    Ledger (n.added ns record spent demand ++ rows)
      (fun backing => (total backing).add ((n.eventOf record spent).supplyOf backing)) where
  nullifiers := by
    rw [Rows.nullifiers_append, List.map_append, Namespace.added_nullifiers, List.map_map]
    refine List.nodup_append.mpr ⟨admissible.nullifiers, ledger.nullifiers, ?_⟩
    rintro nf new _ old rfl
    exact Rows.hasNullifier_eq_false.mp (admissible.spent nf new).2 old
  outputs := by
    rw [Rows.outputs_append, List.map_append, Namespace.added_outputs, List.map_map,
      show ((fun x : Placed StoredOutput => x.row.cm) ∘ fun row => ⟨ns, n.position + 1, row⟩) = (·.cm) from rfl,
      n.outputRows_cms]
    refine List.nodup_append.mpr ⟨admissible.outputs, ledger.outputs, ?_⟩
    rintro cm new _ old rfl
    exact Rows.hasOutput_eq_false.mp (admissible.created cm new).2 old
  supply backing := by
    rw [Rows.supplied_append, ledger.supply backing]
    simp [Rows.supplied, Totals.add, Nat.add_comm]
  bounded backing := by
    have before := ledger.bounded backing
    cases moved : record.supply with
    | none => simpa [StoredEvent.supplyOf, Namespace.eventOf, moved, Totals.add, Totals.zero] using before
    | some supply =>
      obtain ⟨kind, bounds⟩ := admissible.supply supply moved
      by_cases same : supply.backing = backing
      · subst same
        simpa [StoredEvent.supplyOf, Namespace.eventOf, moved, kind] using bounds
      · simpa [StoredEvent.supplyOf, Namespace.eventOf, moved, same, Totals.add, Totals.zero] using before

end

theorem checkSupply_eq_ok {view : StatementView} {kind : Nat} {total : Totals} {issuer : Bytes} :
    checkSupply view kind total issuer = .ok () ↔
      (kind = 1 → view.issuerSigned issuer = true ∧ ∃ quantity, view.quantity = some quantity ∧
        total.issued + quantity < valueBound) ∧
      (kind = 3 → ∃ quantity, view.quantity = some quantity ∧ (quantity : Int) ≤ total.issued - total.burned) := by
  by_cases issue : kind = 1
  · simp [checkSupply, issue, bind_eq_ok]
  · by_cases burn : kind = 3 <;> simp [checkSupply, issue, burn, bind_eq_ok]

/-- The checks a record passes in any mode make its effects admissible. -/
theorem Finishable.admissible {s : Store} {state : SegmentState R} {replay : SegmentReplay} {bytes : Bytes} {record : R}
    {n m : Namespace} {effects : Append} (bounded : ∀ backing, (state.handle.total s backing).burned ≤
      (state.handle.total s backing).issued ∧ (state.handle.total s backing).issued < valueBound)
    (finishable : Finishable s state replay (judgmentFor s state record replay bytes n) m)
    (carries : (judgmentFor s state record replay bytes n).toJudged.Carries effects) :
    Admissible (state.handle.rows s) (state.handle.total s) effects := by
  obtain ⟨⟨distinct, spent⟩, ⟨distinct', created⟩⟩ := checkUniqueEffects_eq_ok.mp finishable.unique
  refine ⟨carries.nfs ▸ distinct, carries.nfs ▸ spent, carries.outputs ▸ distinct', carries.outputs ▸ created, ?_⟩
  intro supply moved
  obtain ⟨issue, burn⟩ := checkSupply_eq_ok.mp finishable.supply
  have viewKind : (judgedView s state record).kind = state.construction.kind record := state.construction.view_kind ..
  have within := bounded (backingOf s state record replay)
  rw [carries.kind]
  rw [carries.supply] at moved
  simp only [judgmentFor, viewKind] at moved issue burn ⊢
  by_cases issued : state.construction.kind record = 1
  · obtain ⟨-, quantity, named, below⟩ := issue issued
    rw [if_pos issued, named] at moved
    cases moved
    exact ⟨.inl issued, by simp only [Totals.add, Option.getD_some]; omega, by simpa [Totals.add] using below⟩
  · rw [if_neg issued] at moved
    by_cases burned : state.construction.kind record = 3
    · obtain ⟨quantity, named, below⟩ := burn burned
      rw [if_pos burned, named] at moved
      cases moved
      exact ⟨.inr burned, by simp only [Totals.add, Option.getD_some]; omega, by simpa [Totals.add] using within.2⟩
    · rw [if_neg burned] at moved
      cases moved

end Moe

namespace Moe

/-- A frontier a new namespace may start from: held entries, each segment once, and its totals the supply
of their union. -/
structure Imports.Good (s : Store) (imports : Imports) : Prop where
  named : NamedOnce s.Holds imports.segments
  ledger : Ledger (s.union (imports.segments.map (·.2))) fun backing => (OrderedMap.get? imports.totals backing).getD .zero

theorem Ledger.empty : Ledger [] fun _ => .zero where
  nullifiers := List.nodup_nil
  outputs := List.nodup_nil
  supply _ := rfl
  bounded _ := ⟨le_rfl, by decide⟩

theorem Imports.empty_good (s : Store) : Imports.empty.Good s where
  named := ⟨List.nodup_nil, fun _ member => absurd member List.not_mem_nil⟩
  ledger := Ledger.empty

theorem Imports.Good.grows {s later : Store} {imports : Imports} (good : imports.Good s) (grows : s.Grows later) :
    imports.Good later where
  named := good.named.grows grows
  ledger := by
    have held : ∀ entry ∈ imports.segments.map (·.2), s.Holds entry := by
      intro entry member
      obtain ⟨listed, inside, rfl⟩ := List.mem_map.mp member
      exact good.named.2 listed inside
    rw [grows.union held]
    exact good.ledger

/-- The frontier of a state that does not import its own segment carries the state's ledger. -/
theorem Store.WellPlaced.frontier_good {s : Store} (placed : s.WellPlaced) {ns p : Nat} {n : Namespace}
    (found : s.namespaces ns = some n) (bound : p ≤ n.position) (apart : n.segment ∉ n.imports.map (·.1))
    (ledger : Ledger (s.visible ns p) (s.total ns p)) : (s.frontier ns p).Good s where
  named := placed.frontier ⟨n, found, bound⟩
  ledger := by
    have totals : (fun backing => (OrderedMap.get? (s.frontier ns p).totals backing).getD .zero) = s.total ns p := by
      funext backing
      simp only [Store.frontier, Store.totals, Store.total, found, Option.map_some, Option.getD_some]
      exact n.totalsAt_get p backing
    rw [totals]
    exact ledger.perm (Store.frontier_perm found apart).symm

theorem Rows.mem_union {s : Store} {entries : List ImportEntry} {placed : Placed Fact} (member : placed ∈ s.union entries) :
    ∃ entry ∈ entries, placed ∈ s.rows entry.ns := by
  obtain ⟨entry, listed, inside⟩ := List.mem_flatMap.mp member
  exact ⟨entry, listed, (Rows.mem_through.mp inside).1⟩

/-- Every supply row of a union is an issue's or a burn's. -/
theorem Store.Sound.union_supply {s : Store} (sound : s.Sound) {entries : List ImportEntry} :
    ∀ event ∈ (s.union entries).events, event.row.supply ≠ none → event.row.kind = 1 ∨ event.row.kind = 3 := by
  intro event member moved
  obtain ⟨fact, picked, inside⟩ := Rows.mem_table.mp member
  obtain ⟨entry, -, source⟩ := Rows.mem_union inside
  cases found : s.namespaces entry.ns with
  | none => simp [Store.rows, found] at source
  | some n =>
    rw [Store.rows_of_found found] at source
    exact (sound.namespaces _ n found).supply event (Rows.mem_table.mpr ⟨fact, picked, source⟩) moved

/-- The merge's supply map sums each event once. -/
theorem foldl_addSupply {events : List (Placed StoredEvent)} (map : OrderedMap Bytes Totals)
    (kinds : ∀ event ∈ events, event.row.supply ≠ none → event.row.kind = 1 ∨ event.row.kind = 3) (backing : Bytes) :
    (OrderedMap.get? (events.foldl addSupply map) backing).getD .zero =
      ((OrderedMap.get? map backing).getD .zero).add ⟨(events.map fun event => (event.row.supplyOf backing).issued).sum,
        (events.map fun event => (event.row.supplyOf backing).burned).sum⟩ := by
  induction events generalizing map with
  | nil => simp [Totals.add]
  | cons event rest ih =>
    rw [List.foldl_cons, ih _ fun other member => kinds other (List.mem_cons_of_mem _ member)]
    cases moved : event.row.supply with
    | none => simp [addSupply, StoredEvent.supplyOf, moved, Totals.zero]
    | some supply =>
      have kind := kinds event List.mem_cons_self (by simp [moved])
      by_cases same : supply.backing = backing
      · subst same
        simp [addSupply, StoredEvent.supplyOf, moved, kind, OrderedMap.get?_set, Totals.add, Nat.add_assoc]
      · simp [addSupply, StoredEvent.supplyOf, moved, same, OrderedMap.get?_set, Totals.add, Totals.zero]

/-- An accepted merge's frontier is good: its checks read the whole union. -/
theorem Store.Sound.merge_good {s : Store} (sound : s.Sound) {parents : List (Option ImportEntry)} {imports : Imports}
    (held : ∀ parent, some parent ∈ parents → s.Holds parent) (run : s.mergeFinalizedPrefixes parents = .ok imports) :
    imports.Good s := by
  have named := sound.merge held run
  simp only [Store.mergeFinalizedPrefixes, bind_eq_ok, requireReplay_eq_ok, pure_eq_ok] at run
  obtain ⟨segments, -, facts, union, -, -, -, spent, -, output, -, -, -, supply, rfl⟩ := run
  simp only [Store.unionFacts, bind_eq_ok, require_eq_ok, decide_eq_true_eq, pure_eq_ok] at union
  obtain ⟨-, -, rfl⟩ := union
  refine ⟨named, ⟨by simpa using spent, by simpa using output, fun backing => ?_, fun backing => ?_⟩⟩
  · rw [foldl_addSupply [] sound.union_supply]
    simp [Rows.supplied, Totals.add, Totals.zero]
  · cases seen : OrderedMap.get? ((s.union (segments.map (·.2))).events.foldl addSupply []) backing with
    | none => exact ⟨le_rfl, by decide⟩
    | some total =>
      have bounds := List.all_eq_true.mp supply _ (OrderedMap.mem_of_get? seen)
      simpa using bounds

end Moe

namespace Moe

/-- What a history never does: spend or create anything zero, in two events, or twice in one; count an
event twice; or let a backing's supply leave the events that moved it. -/
structure SafeHistory (rows : Rows) (total : Bytes → Totals) : Prop where
  spends : ∀ spend ∈ rows.nullifiers,
    (∃! event, event ∈ rows.events ∧ event.ns = spend.ns ∧ event.position = spend.position) ∧ spend.row.nf ≠ 0 ∧
      ∀ other ∈ rows.nullifiers, other.row.nf = spend.row.nf → other = spend
  outputs : ∀ output ∈ rows.outputs,
    (∃! event, event ∈ rows.events ∧ event.ns = output.ns ∧ event.position = output.position) ∧ output.row.cm ≠ 0 ∧
      ∀ other ∈ rows.outputs, other.row.cm = output.row.cm → other = output
  distinct : (rows.nullifiers.map (·.row.nf)).Nodup ∧ (rows.outputs.map (·.row.cm)).Nodup
  events : (rows.events.map fun event => (event.ns, event.position)).Nodup
  supply : ∀ backing, total backing = rows.supplied backing ∧
    (total backing).burned ≤ (total backing).issued ∧ (total backing).issued < valueBound

section Union

variable {s : Store} {entries : List ImportEntry}

theorem Store.Sound.row_source (sound : s.Sound) (held : ∀ entry ∈ entries, s.Holds entry) {placed : Placed Fact}
    (member : placed ∈ s.union entries) :
    ∃ n, s.namespaces placed.ns = some n ∧ placed ∈ n.rows ∧
      ∃ entry ∈ entries, entry.ns = placed.ns ∧ placed.position ≤ entry.upto ∧ entry.upto ≤ n.position := by
  obtain ⟨entry, listed, inside⟩ := List.mem_flatMap.mp member
  obtain ⟨n, found, bound⟩ := held entry listed
  obtain ⟨source, within⟩ := Rows.mem_through.mp inside
  rw [Store.rows_of_found found] at source
  have place := (sound.rows _ n found placed source).1
  exact ⟨n, place ▸ found, source, entry, listed, place.symm, within, bound⟩

/-- A row past the opening is at the position of exactly one event of the union. -/
theorem Store.Sound.union_event (sound : s.Sound) (held : ∀ entry ∈ entries, s.Holds entry) {placed : Placed Fact}
    (member : placed ∈ s.union entries) (past : 1 ≤ placed.position) :
    ∃! event, event ∈ (s.union entries).events ∧ event.ns = placed.ns ∧ event.position = placed.position := by
  obtain ⟨n, found, source, entry, listed, named, within, bound⟩ := sound.row_source held member
  have own := sound.namespaces _ n found
  have positions : placed.position ∈ n.rows.events.map (·.position) := by
    rw [own.events, List.mem_reverse, List.mem_range'_1]
    omega
  obtain ⟨event, recorded, at_position⟩ := List.mem_map.mp positions
  obtain ⟨fact, picked, row⟩ := Rows.mem_table.mp recorded
  have place : event.ns = placed.ns := (sound.rows _ n found _ row).1
  have visible : event ∈ (s.union entries).events := by
    refine Rows.mem_table.mpr ⟨fact, picked, List.mem_flatMap.mpr ⟨entry, listed, Rows.mem_through.mpr ⟨?_, ?_⟩⟩⟩
    · rw [named, Store.rows_of_found found]
      exact row
    · exact at_position.trans_le within
  refine ⟨event, ⟨visible, place, at_position⟩, fun other ⟨seen, otherNs, otherPosition⟩ => ?_⟩
  obtain ⟨otherFact, otherPicked, otherRow⟩ := Rows.mem_table.mp seen
  obtain ⟨m, otherFound, otherSource, -⟩ := sound.row_source held otherRow
  obtain rfl : n = m := Option.some.inj (found.symm.trans (otherNs ▸ otherFound))
  have once : (n.rows.events.map (·.position)).Nodup := by
    rw [own.events, List.nodup_reverse]
    exact List.nodup_range'
  exact List.inj_on_of_nodup_map once (Rows.mem_table.mpr ⟨otherFact, otherPicked, otherSource⟩) recorded
    (otherPosition.trans at_position.symm)

/-- Namespaces read once each read each event once. -/
theorem Store.Sound.union_events_nodup (sound : s.Sound) (held : ∀ entry ∈ entries, s.Holds entry)
    (sources : (entries.map (·.ns)).Nodup) :
    ((s.union entries).events.map fun event => (event.ns, event.position)).Nodup := by
  induction entries with
  | nil => exact List.nodup_nil
  | cons entry rest ih =>
    obtain ⟨absent, sources⟩ := List.nodup_cons.mp sources
    obtain ⟨n, found, bound⟩ := held entry List.mem_cons_self
    have own := sound.namespaces _ n found
    have later := ih (fun other member => held other (List.mem_cons_of_mem _ member)) sources
    rw [Store.union_cons, Rows.events_append, List.map_append, Store.rows_of_found found]
    refine List.nodup_append.mpr ⟨?_, later, ?_⟩
    · have positions : ((n.rows.through entry.upto).events.map (·.position)).Nodup := by
        have all : (n.rows.events.map (·.position)).Nodup := by
          rw [own.events, List.nodup_reverse]
          exact List.nodup_range'
        exact all.sublist (((List.filter_sublist).filterMap _).map _)
      exact List.Nodup.of_map Prod.snd (by simpa [List.map_map, Function.comp_def] using positions)
    · rintro place here _ there rfl
      obtain ⟨event, recorded, rfl⟩ := List.mem_map.mp here
      obtain ⟨other, seen, same⟩ := List.mem_map.mp there
      obtain ⟨fact, picked, row⟩ := Rows.mem_table.mp recorded
      obtain ⟨otherFact, otherPicked, otherRow⟩ := Rows.mem_table.mp seen
      have place : event.ns = entry.ns := (sound.rows _ n found _ (Rows.mem_through.mp row).1).1
      obtain ⟨m, -, -, otherEntry, listed, named, -⟩ :=
        sound.row_source (fun other member => held other (List.mem_cons_of_mem _ member)) otherRow
      have sameNs : other.ns = event.ns := congrArg Prod.fst same
      exact absent (List.mem_map.mpr ⟨otherEntry, listed, named.trans (sameNs.trans place)⟩)

end Union

/-- The state at a held position reads a namespace once: its imports are earlier ones, each listed once. -/
theorem Store.Sound.sources_nodup {s : Store} (sound : s.Sound) {ns p : Nat} {n : Namespace}
    (found : s.namespaces ns = some n) :
    ((⟨ns, p⟩ :: (s.imports ns).map (·.2) : List ImportEntry).map (·.ns)).Nodup := by
  have perm := Store.imports_perm found
  rw [List.map_cons, List.nodup_cons, List.map_map]
  refine ⟨fun member => ?_, ((perm.map _).nodup_iff).mpr (sound.sources ns n found)⟩
  obtain ⟨entry, listed, same⟩ := List.mem_map.mp member
  have earlier := (sound.imports ns n found entry (perm.mem_iff.mp listed)).1
  exact absurd same earlier.ne

/-- A namespace whose rows and totals meet the ledger has a safe history. -/
theorem Store.Sound.safe {s : Store} (sound : s.Sound) {ns p : Nat} (held : s.Holds ⟨ns, p⟩)
    (ledger : Ledger (s.visible ns p) (s.total ns p)) : SafeHistory (s.visible ns p) (s.total ns p) := by
  have entries := sound.holds held
  obtain ⟨n, found, -⟩ := id held
  have row : ∀ {placed : Placed Fact}, placed ∈ s.visible ns p →
      ∃ n, s.namespaces placed.ns = some n ∧ placed ∈ n.rows := fun member => by
    obtain ⟨source, at_ns, inside, -⟩ := sound.row_source entries member
    exact ⟨source, at_ns, inside⟩
  refine ⟨fun spend member => ?_, fun output member => ?_, ⟨ledger.nullifiers, ledger.outputs⟩,
    sound.union_events_nodup entries (sound.sources_nodup found), fun backing => ⟨ledger.supply backing, ledger.bounded backing⟩⟩
  · obtain ⟨fact, picked, inside⟩ := Rows.mem_table.mp member
    obtain ⟨source, at_ns, recorded⟩ := row inside
    obtain ⟨past, nonzero⟩ := (sound.namespaces _ source at_ns).nullifiers spend (Rows.mem_table.mpr ⟨fact, picked, recorded⟩)
    exact ⟨sound.union_event entries inside past, nonzero, fun other also same =>
      List.inj_on_of_nodup_map ledger.nullifiers also member same⟩
  · obtain ⟨fact, picked, inside⟩ := Rows.mem_table.mp member
    obtain ⟨source, at_ns, recorded⟩ := row inside
    obtain ⟨past, nonzero⟩ := (sound.namespaces _ source at_ns).outputs output (Rows.mem_table.mpr ⟨fact, picked, recorded⟩)
    exact ⟨sound.union_event entries inside past, nonzero, fun other also same =>
      List.inj_on_of_nodup_map ledger.outputs also member same⟩

end Moe
