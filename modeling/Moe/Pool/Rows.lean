import Moe.Lib.OrderedMap
import Moe.Pool.Construction

namespace Moe

structure Totals where
  issued : Nat
  burned : Nat
  deriving DecidableEq

def Totals.zero : Totals := ⟨0, 0⟩

def Totals.add (a b : Totals) : Totals := ⟨a.issued + b.issued, a.burned + b.burned⟩

/-- An event's effect on a backing's supply. -/
structure Supply where
  backing : Bytes
  totals : Totals
  deriving DecidableEq

/-- The tag or demand an event touches. -/
inductive EventKey
  | tag (tag : Nat)
  | demand (id : Bytes)
  deriving DecidableEq

/-- One replayed record: its digests, the index it was judged at and the chain values after it. Only a
settlement keeps its bytes. -/
structure StoredEvent where
  identity : Bytes
  kind : Nat
  index : Option Nat
  proofHash : Bytes
  signatureHash : Bytes
  settlement : Option Bytes
  history : Bytes
  evidence : Bytes
  noteRoot : Nat
  spentRoot : Bytes
  supply : Option Supply
  deriving DecidableEq

structure StoredNullifier where
  nf : Nat
  tag : Nat
  deriving DecidableEq

structure StoredOutput where
  cm : Nat
  leaf : Nat
  capsule : Option Bytes
  settlement : Bool
  deriving DecidableEq

/-- A demand with its tag rows and its nullifier rows, which are written with it. -/
structure StoredDemand where
  id : Bytes
  backing : Bytes
  quantity : Nat
  tag0 : Nat
  tag1 : Nat
  presenter : Bytes
  instant : Nat
  deadline : Nat
  tags : List Nat
  nullifiers : List Nat
  deriving DecidableEq

/-- A stored demand as a read returns it. -/
def StoredDemand.demand (row : StoredDemand) : Demand :=
  { backing := row.backing, quantity := row.quantity, tags := [row.tag0, row.tag1], presenter := row.presenter,
    instant := row.instant, deadline := row.deadline
    nullifiers := if row.nullifiers = [] then none else some row.nullifiers }

/-- A row of one of the append-only tables. -/
inductive Fact
  | event (row : StoredEvent)
  | nullifier (row : StoredNullifier)
  | output (row : StoredOutput)
  | anchor (root : Nat)
  | demand (row : StoredDemand)
  | demandEnd (id : Bytes)
  | eventKey (key : EventKey)
  deriving DecidableEq

/-- A row with the namespace and the position that added it. -/
structure Placed (α : Type) where
  ns : Nat
  position : Nat
  row : α
  deriving DecidableEq

/-- The rows a history is read from, newest first. -/
abbrev Rows := List (Placed Fact)

namespace Rows

/-- One table's rows. -/
def table {α : Type} (pick : Fact → Option α) (rows : Rows) : List (Placed α) :=
  rows.filterMap fun placed => (pick placed.row).map fun row => ⟨placed.ns, placed.position, row⟩

def events : Rows → List (Placed StoredEvent) := table fun | .event row => some row | _ => none
def nullifiers : Rows → List (Placed StoredNullifier) := table fun | .nullifier row => some row | _ => none
def outputs : Rows → List (Placed StoredOutput) := table fun | .output row => some row | _ => none
def anchors : Rows → List (Placed Nat) := table fun | .anchor root => some root | _ => none
def demands : Rows → List (Placed StoredDemand) := table fun | .demand row => some row | _ => none
def demandEnds : Rows → List (Placed Bytes) := table fun | .demandEnd id => some id | _ => none
def eventKeys : Rows → List (Placed EventKey) := table fun | .eventKey key => some key | _ => none

/-- The rows at or below a position. -/
def through (p : Nat) (rows : Rows) : Rows := rows.filter (·.position ≤ p)

@[simp] theorem table_nil {α : Type} (pick : Fact → Option α) : table pick [] = [] := rfl

@[simp] theorem table_append {α : Type} (pick : Fact → Option α) (a b : Rows) :
    table pick (a ++ b) = table pick a ++ table pick b := List.filterMap_append

@[simp] theorem events_append (a b : Rows) : events (a ++ b) = events a ++ events b := table_append ..
@[simp] theorem nullifiers_append (a b : Rows) : nullifiers (a ++ b) = nullifiers a ++ nullifiers b := table_append ..
@[simp] theorem outputs_append (a b : Rows) : outputs (a ++ b) = outputs a ++ outputs b := table_append ..
@[simp] theorem anchors_append (a b : Rows) : anchors (a ++ b) = anchors a ++ anchors b := table_append ..
@[simp] theorem demands_append (a b : Rows) : demands (a ++ b) = demands a ++ demands b := table_append ..
@[simp] theorem demandEnds_append (a b : Rows) : demandEnds (a ++ b) = demandEnds a ++ demandEnds b := table_append ..
@[simp] theorem eventKeys_append (a b : Rows) : eventKeys (a ++ b) = eventKeys a ++ eventKeys b := table_append ..

theorem mem_table {α : Type} {pick : Fact → Option α} {rows : Rows} {placed : Placed α} :
    placed ∈ table pick rows ↔ ∃ fact, pick fact = some placed.row ∧ ⟨placed.ns, placed.position, fact⟩ ∈ rows := by
  simp only [table, List.mem_filterMap, Option.map_eq_some_iff]
  constructor
  · rintro ⟨source, member, row, picked, rfl⟩
    exact ⟨source.row, picked, member⟩
  · rintro ⟨fact, picked, member⟩
    exact ⟨_, member, placed.row, picked, rfl⟩

/-- A row's table keeps the place it was added at. -/
theorem table_place {α : Type} {pick : Fact → Option α} {rows : Rows} {held : Nat → Nat → Prop}
    (within : ∀ placed ∈ rows, held placed.ns placed.position) {placed : Placed α} (member : placed ∈ table pick rows) :
    held placed.ns placed.position := by
  obtain ⟨fact, -, source⟩ := mem_table.mp member
  exact within _ source

theorem through_append (p : Nat) (a b : Rows) : through p (a ++ b) = through p a ++ through p b := List.filter_append ..

theorem through_all {p : Nat} {rows : Rows} (below : ∀ placed ∈ rows, placed.position ≤ p) : through p rows = rows := by
  simpa [through, List.filter_eq_self] using below

theorem through_none {p : Nat} {rows : Rows} (above : ∀ placed ∈ rows, p < placed.position) : through p rows = [] := by
  simpa [through, List.filter_eq_nil_iff] using above

theorem mem_through {p : Nat} {rows : Rows} {placed : Placed Fact} :
    placed ∈ through p rows ↔ placed ∈ rows ∧ placed.position ≤ p := by
  simp [through]

end Rows

end Moe
