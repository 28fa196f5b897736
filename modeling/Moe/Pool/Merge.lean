import Moe.Pool.ReplayStore

namespace Moe

variable [Crypto]

/-- An event of a union, with the segment it is of. -/
structure SharedEvent where
  ns : Nat
  position : Nat
  segment : Bytes
  deriving DecidableEq

/-- What the merge checks over a union of imported prefixes. -/
structure UnionFacts where
  repeatedNullifier : Bool
  repeatedOutput : Bool
  repeatedRecovery : Bool
  /-- Each tag or demand two or more events touch, with those events. -/
  shared : List (EventKey × List SharedEvent)
  supply : OrderedMap Bytes Totals

def addSupply (map : OrderedMap Bytes Totals) (event : Placed StoredEvent) : OrderedMap Bytes Totals :=
  match event.row.supply with
  | some supply => OrderedMap.set map supply.backing (((OrderedMap.get? map supply.backing).getD .zero).add supply.totals)
  | none => map

namespace Store

def sharedEvents (s : Store) (rows : Rows) (key : EventKey) : List SharedEvent :=
  (rows.eventKeys.filter (·.row = key)).map fun placed => ⟨placed.ns, placed.position, s.segment placed.ns⟩

/-- The facts over the union of the entries' rows, one namespace read once. -/
def unionFacts (s : Store) (entries : List ImportEntry) : Except Failure UnionFacts := do
  require (entries.map (·.ns)).Nodup (.constraint "merging")
  let rows := s.union entries
  return {
    repeatedNullifier := ¬(rows.nullifiers.map (·.row.nf)).Nodup
    repeatedOutput := ¬(rows.outputs.map (·.row.cm)).Nodup
    repeatedRecovery := ¬((rows.events.filter (4 ≤ ·.row.kind)).map (·.row.identity)).Nodup
    shared := (((rows.eventKeys.map (·.row)).dedup).map fun key => (key, s.sharedEvents rows key)).filter (2 ≤ ·.2.length)
    supply := rows.events.foldl addSupply [] }

/-- Two replays of one segment agree on every event up to the shorter prefix exactly when their history
hashes there agree. -/
def checkAgree (s : Store) (low high : ImportEntry) : Except Failure Unit :=
  if low.ns ≠ high.ns ∧ 0 < low.upto then do
    let a ← known (s.event low.ns low.upto)
    let b ← known (s.event high.ns low.upto)
    requireReplay (a.history = b.history) .continuity
  else .ok ()

/-- The longer of two prefixes of one segment. -/
def sharedPrefix (s : Store) (prior entry : ImportEntry) : Except Failure ImportEntry := do
  let (low, high) := if prior.upto ≤ entry.upto then (prior, entry) else (entry, prior)
  s.checkAgree low high
  return high

def mergeSegment (s : Store) (segments : OrderedMap Bytes ImportEntry) (entry : Bytes × ImportEntry) :
    Except Failure (OrderedMap Bytes ImportEntry) :=
  match OrderedMap.get? segments entry.1 with
  | none => .ok (OrderedMap.set segments entry.1 entry.2)
  | some prior => do return OrderedMap.set segments entry.1 (← s.sharedPrefix prior entry.2)

/-- The parents' frontiers as one; a parent state named twice is merged once. -/
def mergeSegments (s : Store) (parents : List ImportEntry) : Except Failure (OrderedMap Bytes ImportEntry) :=
  (parents.reverse.dedup.reverse.flatMap fun parent => (s.frontier parent.ns parent.upto).segments).foldlM
    s.mergeSegment []

def precedes (s : Store) (a b : SharedEvent) : Bool :=
  if a.segment = b.segment then a.position < b.position
  else a.position ≤ ((OrderedMap.get? (s.imports b.ns) a.segment).map (·.upto)).getD 0

/-- Events that share a tag or a demand are ordered by ancestry. -/
def ordered (s : Store) (events : List SharedEvent) : Bool :=
  events.Pairwise fun a b => s.precedes a b ∨ s.precedes b a

/-- Imported finalized prefixes merged for a new segment: one namespace per imported segment, read to
the furthest position any parent imports, with the union's totals. A parent is its state's namespace and
position, absent for a backing without a predecessor. -/
def mergeFinalizedPrefixes (s : Store) (parents : List (Option ImportEntry)) : Except Failure Imports := do
  let segments ← s.mergeSegments (parents.filterMap id)
  let facts ← s.unionFacts (segments.map (·.2))
  requireReplay (facts.shared.all fun (_, events) => s.ordered events) .recoveryConflict
  requireReplay (!facts.repeatedNullifier) .spent
  requireReplay (!facts.repeatedOutput) .output
  requireReplay (!facts.repeatedRecovery) .repeatedStatement
  requireReplay (facts.supply.all fun (_, total) => total.burned ≤ total.issued && total.issued < valueBound) .supply
  return ⟨segments, facts.supply⟩

end Store

end Moe
