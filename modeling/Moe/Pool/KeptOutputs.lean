import Moe.Lit.Construction
import Mathlib.Data.Rat.Defs
import Mathlib.Algebra.Order.Ring.Rat

namespace Moe

namespace KeptOutputs

/-- A column declared an integer, as a row altered in place may hold it: a text or a blob is past every number. -/
inductive Cell
  | integer (value : Int)
  | real (value : Rat)
  | other
  deriving DecidableEq

/-- Whether a query's `<= n` takes a column. -/
def Cell.atMost (cell : Cell) (n : Int) : Bool :=
  match cell with
  | integer value => value ≤ n
  | real value => value ≤ n
  | other => false

/-- Whether a query's `>= n` takes a column. -/
def Cell.atLeast (cell : Cell) (n : Int) : Bool :=
  match cell with
  | integer value => n ≤ value
  | real value => (n : Rat) ≤ value
  | other => true

/-- A kept output row; a commitment that is not a key's bytes is none. -/
structure OutputRow where
  cm : Option Nat
  position : Cell
  leaf : Cell
  settlement : Bool
  deriving DecidableEq

/-- An output as the store gives it. -/
structure OwnOutput where
  cm : Nat
  position : Int
  leaf : Int

/-- A row as it is given: one whose position or leaf is no integer as nothing, which no derived output is. -/
def OutputRow.read (row : OutputRow) : Except Failure (Option OwnOutput) :=
  match row.position, row.leaf, row.cm with
  | .integer position, .integer leaf, some cm => .ok (some ⟨cm, position, leaf⟩)
  | .integer _, .integer _, none => .error (.keptState "a stored key is 32 bytes")
  | _, _, _ => .ok none

/-- A kept demand row with its nullifier rows; an identity that is not a text is none. -/
structure DemandRow where
  id : Option Bytes
  ns : Nat
  position : Cell
  value : Demand
  deriving DecidableEq

structure EndRow where
  id : Option Bytes
  ns : Nat
  position : Cell

/-- What the store holds of a namespace and of those it imports: its own output rows as the leaf index gives them, and the demand
tables as their keys do. -/
structure KeptRows where
  ns : Nat
  outputs : List OutputRow
  demands : List DemandRow
  ends : List EndRow
  imports : List (Nat × Nat)
  events : List (Nat × Int)
  keyed : demands.Pairwise fun a b => a.id.isSome → a.id = b.id → a.ns ≠ b.ns

namespace KeptRows

variable (rows : KeptRows)

/-- A row visible from a position: the namespace's own through it, or an imported one's through where it is imported. -/
def visible (p : Nat) (ns : Nat) (position : Cell) : Bool :=
  ns = rows.ns && position.atMost p || rows.imports.any fun entry => entry.1 = ns && position.atMost entry.2

/-- The demand standing under an identity: visible, with no visible end. -/
def demand (p : Nat) (id : Bytes) : Option Demand :=
  if rows.ends.any fun row => row.id = some id && rows.visible p row.ns row.position then none
  else (rows.demands.find? fun row => row.id = some id && rows.visible p row.ns row.position).map (·.value)

/-- A visible demand with the namespace and position of its event. -/
def presented (p : Nat) (id : Bytes) : Except Failure (Option (Demand × Nat × Int)) :=
  match rows.demands.find? fun row => row.id = some id && rows.visible p row.ns row.position with
  | none => .ok none
  | some row =>
    match row.position with
    | .integer position =>
      if (row.ns, position) ∈ rows.events then .ok (some (row.value, row.ns, position)) else .error (.typeError "position of undefined")
    | _ => .error (.rangeError "position is no integer")

/-- The namespace's own outputs of a leaf on, or all of them. -/
def ownOutputs (start : Option Int) : List OutputRow :=
  match start with
  | none => rows.outputs
  | some leaf => rows.outputs.filter (·.leaf.atLeast leaf)

/-- The namespace's own demands stood up past a position, or any, through another. -/
def ownDemands (after : Option Nat) (through : Nat) : List DemandRow :=
  rows.demands.filter fun row => row.ns = rows.ns && (match after with | none => true | some p => !row.position.atMost p) &&
    row.position.atMost through

def demandPast (p : Nat) : Bool := rows.demands.any fun row => row.ns = rows.ns && !row.position.atMost p

end KeptRows

/-- Where a namespace's own outputs are known to be its trail's. -/
structure KnownOutputs where
  position : Nat
  leaves : Nat
  /-- The highest position of a row a rebuild walked. -/
  top : Int
  /-- The lowest leaf of a row it passed over as past its position. -/
  skipped : Option Int
  demands : OrderedMap Bytes Demand

/-- One check: what the store holds then, the position checked, whether it is the tip, and the demands an importer's closure shows. -/
structure Visit where
  rows : KeptRows
  position : Nat
  tip : Bool
  closure : Bytes → Option Demand

/-- The demand a settlement reads where its trail stood none up: from the state before it, or from the closure. -/
def Visit.before (visit : Visit) (p : Nat) (id : Bytes) : Option Demand := (visit.rows.demand p id).or (visit.closure id)

/-- What a rebuild derives of a trail: the demands stood up, theirs by position, and the outputs in order. -/
structure Rebuilt where
  demands : OrderedMap Bytes Demand
  stood : OrderedMap Bytes Nat
  derived : List (Nat × Nat)

variable {R : Type} (c : Construction R)

/-- Whether the demand a record stands up is the kept row's. -/
def rowStands (rows : KeptRows) (p : Nat) (stand : Option (Bytes × Demand)) : Except Failure Bool :=
  match stand with
  | none => .ok true
  | some (id, value) =>
    match rows.presented p id with
    | .error failure => .error failure
    | .ok none => .ok false
    | .ok (some (demand, ns, position)) => .ok (ns = rows.ns && position = p && demand = value)

/-- A rebuild with what a record's view adds. -/
def Rebuilt.add (rebuilt : Rebuilt) (p : Nat) (view : StatementView) : Rebuilt :=
  { demands := match view.demand with | none => rebuilt.demands | some (id, value) => rebuilt.demands.set id value
    stood := match view.demand with | none => rebuilt.stood | some (id, _) => rebuilt.stood.set id p
    derived := rebuilt.derived ++ view.outputs.map fun cm => (cm, p) }

/-- A record's view, a settlement's demand read from the trail's or from the state before it. -/
def viewAt (visit : Visit) (before : Nat) (rebuilt : OrderedMap Bytes Demand) (record : R) : StatementView :=
  c.view record fun id => (rebuilt.get? id).or (visit.before before id)

/-- The outputs and demands of a trail's records, the first of which is past `before`; none where a record is not one a valid
prefix holds, or a demand's row is not the one stood up. -/
def rebuild (visit : Visit) : List Bytes → Nat → Rebuilt → Except Failure (Option Rebuilt)
  | [], _, rebuilt => .ok (some rebuilt)
  | bytes :: rest, before, rebuilt =>
    if visit.position < before + 1 then .ok (some rebuilt)
    else
      match c.decode bytes with
      | .error (.encoding _) => .ok none
      | .error failure => .error failure
      | .ok record =>
        if c.kind record < 1 ∨ 6 < c.kind record then .ok none
        else
          match rowStands visit.rows (before + 1) (viewAt c visit before rebuilt.demands record).demand with
          | .error failure => .error failure
          | .ok false => .ok none
          | .ok true => rebuild visit rest (before + 1) (rebuilt.add (before + 1) (viewAt c visit before rebuilt.demands record))

/-- A row an earlier walk compared. -/
def compared (known : Option KnownOutputs) (output : OwnOutput) : Bool :=
  match known with
  | none => false
  | some k => output.leaf < k.leaves && output.position ≤ k.position

/-- The lower of the leaves passed over. -/
def lower (skipped : Option Int) (leaf : Int) : Int :=
  match skipped with
  | none => leaf
  | some least => if leaf < least then leaf else least

/-- The walk of own output rows beside those derived: its highest position and the lowest leaf it passed over, where they agree. -/
def compareOutputs (known : Option KnownOutputs) (position : Nat) (tip : Bool) :
    List OutputRow → List (Nat × Nat) → Int → Option Int → Except Failure (Option (Int × Option Int))
  | [], derived, top, skipped => .ok (if derived = [] ∧ ¬ (tip = true ∧ position < top) then some (top, skipped) else none)
  | row :: rest, derived, top, skipped =>
    match row.read with
    | .error failure => .error failure
    | .ok none => .ok none
    | .ok (some output) =>
      if position < output.position then
        if tip then .ok none else compareOutputs known position tip rest derived (max top output.position) (some (lower skipped output.leaf))
      else if compared known output then compareOutputs known position tip rest derived (max top output.position) skipped
      else
        match derived with
        | [] => .ok none
        | expected :: others =>
          if expected.1 = output.cm ∧ expected.2 = output.position then
            compareOutputs known position tip rest others (max top output.position) skipped
          else .ok none

/-- Every demand row read is one stood up at its position, and they are as many. -/
def demandsStood (stood : OrderedMap Bytes Nat) (rows : List DemandRow) : Bool :=
  (rows.all fun row =>
    match row.id, row.position with
    | some id, .integer position => (stood.get? id).map (fun p : Nat => (p : Int)) = some position
    | _, _ => false) && rows.length = stood.length

/-- The leaf a walk starts at: none reads every row. -/
def startLeaf (known : Option KnownOutputs) : Option Int :=
  known.map fun k =>
    match k.skipped with
    | some leaf => if leaf < k.leaves then leaf else k.leaves
    | none => k.leaves

/-- Whether a check past what is known holds, and what is known after it. -/
def walkOutputs (records : List Bytes) (known : Option KnownOutputs) (visit : Visit) : Except Failure (Option KnownOutputs) :=
  let after := (known.map (·.position)).getD 0
  match rebuild c visit (if visit.position = after then [] else records.drop after) after ⟨(known.map (·.demands)).getD [], [], []⟩ with
  | .error failure => .error failure
  | .ok none => .ok none
  | .ok (some rebuilt) =>
    match compareOutputs known visit.position visit.tip (visit.rows.ownOutputs (startLeaf known)) rebuilt.derived
        ((known.map (·.top)).getD 0) none with
    | .error failure => .error failure
    | .ok none => .ok none
    | .ok (some (top, skipped)) =>
      if demandsStood rebuilt.stood (visit.rows.ownDemands (known.map (·.position)) visit.position) &&
          !(visit.tip && visit.rows.demandPast visit.position) then
        .ok (some ⟨visit.position, (known.map (·.leaves)).getD 0 + rebuilt.derived.length, top, skipped, rebuilt.demands⟩)
      else .ok none

/-- Whether a namespace's own rows through a position are what its trail derives, and what is known of them after the check. -/
def keptOutputsHold (trail : Option (List Bytes)) (known : Option KnownOutputs) (visit : Visit) :
    Except Failure (Bool × Option KnownOutputs) :=
  if c.keeps.tree then .ok (true, known)
  else
    match known.filter fun k => visit.position ≤ k.position with
    | some k => .ok (!visit.tip || (k.top ≤ visit.position && !visit.rows.demandPast visit.position), known)
    | none =>
      match trail with
      | none => .ok (false, known)
      | some records =>
        if records.length < visit.position then .ok (false, known)
        else
          match walkOutputs c records known visit with
          | .error failure => .error failure
          | .ok none => .ok (false, known)
          | .ok (some next) => .ok (true, some next)

/-- What is known after checks, the last first: one that throws leaves it. -/
def knownAfter (trail : Option (List Bytes)) : List Visit → Option KnownOutputs
  | [] => none
  | visit :: earlier =>
    match keptOutputsHold c trail (knownAfter trail earlier) visit with
    | .ok (_, known) => known
    | .error _ => knownAfter trail earlier

end KeptOutputs

end Moe
