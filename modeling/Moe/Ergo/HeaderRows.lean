import Mathlib.Algebra.Group.Int.Defs
import Mathlib.Data.List.MinMax
import Moe.Bytes
import Moe.Lib.OrderedMap

namespace Moe

open OrderedMap

/-- An accepted header as the rows keep it. -/
structure ErgoHeaderRow where
  height : Int
  parentId : Bytes
  score : Int
  bytes : Bytes
  deriving DecidableEq, Repr

/-- Ids in the order they were first added; the code keys them by their hexadecimal text. -/
abbrev HeaderIds := OrderedMap Bytes Unit

/-- The database's tables of header rows. A score's text is the number it writes in decimal. -/
structure HeaderTables where
  headers : OrderedMap Bytes ErgoHeaderRow
  best : OrderedMap Int Bytes
  side : HeaderIds
  deriving DecidableEq, Repr

namespace HeaderStore

def maxHeight : Int := 2 ^ 31 - 1

def invalidStored : Failure := .error "invalid stored Ergo view"

def notContiguous : Failure := .error "best chain rows must stay contiguous"

def blob (value : Bytes) (width : Option Nat) : Except Failure Bytes := do
  require (width.all (value.length = ·)) invalidStored
  return value

def integer (value max : Int) : Except Failure Int := do
  require (0 ≤ value && value ≤ max) invalidStored
  return value

/-- A decimal text of at most a hundred digits, with no sign. -/
def decimal (value : Int) : Except Failure Int := do
  require (0 ≤ value && value < 10 ^ 100) invalidStored
  return value

/-- The database binds integers of 64 bits. -/
def bindable (value : Int) : Except Failure Unit :=
  require (-2 ^ 63 ≤ value && value < 2 ^ 63) (.typeError "BigInt value is too large to bind")

end HeaderStore

open HeaderStore

/-- The best chain's changed heights: `ids` from `fromHeight` upward replace every stored height from it. -/
structure ChangedBest where
  fromHeight : Int
  ids : List Bytes
  deriving DecidableEq, Repr

def ChangedBest.top (changed : ChangedBest) : Int := changed.fromHeight + changed.ids.length - 1

/-- The changed heights cut at a height and continued by `ids`. -/
def ChangedBest.extend (changed : ChangedBest) (fromHeight : Int) (ids : List Bytes) : ChangedBest :=
  { changed with ids := changed.ids.take (fromHeight - changed.fromHeight).toNat ++ ids }

/-- Header rows over the database, with the running sync's changes in memory until its commit writes them. -/
structure JournalHeaderRows where
  db : HeaderTables
  pending : OrderedMap Bytes ErgoHeaderRow := []
  deleted : HeaderIds := []
  changed : Option ChangedBest := none
  stored : Option Int
  side : HeaderIds
  sideTouched : HeaderIds := []
  deriving DecidableEq, Repr

namespace JournalHeaderRows

def storedTop : Option Int → Except Failure (Option Int)
  | none => .ok none
  | some top => some <$> integer top maxHeight

/-- The rows of a process that opens the database. -/
def attach (db : HeaderTables) : Except Failure JournalHeaderRows := do
  let stored ← storedTop (db.best.map (·.1)).max?
  db.side.forM fun entry => discard (blob entry.1 (some 32))
  return { db, stored, side := db.side }

def readRow (row : ErgoHeaderRow) : Except Failure ErgoHeaderRow := do
  let height ← integer row.height maxHeight
  let parentId ← blob row.parentId (some 32)
  let score ← decimal row.score
  return { height, parentId, score, bytes := row.bytes }

def get (rows : JournalHeaderRows) (id : Bytes) : Except Failure (Option ErgoHeaderRow) :=
  if (get? rows.deleted id).isSome then .ok none
  else match get? rows.pending id with
    | some row => .ok (some row)
    | none => match get? rows.db.headers id with
      | none => .ok none
      | some row => some <$> readRow row

def put (rows : JournalHeaderRows) (id : Bytes) (row : ErgoHeaderRow) : JournalHeaderRows :=
  { rows with deleted := erase rows.deleted id, pending := set rows.pending id row }

def delete (rows : JournalHeaderRows) (id : Bytes) : JournalHeaderRows :=
  { rows with pending := erase rows.pending id, deleted := set rows.deleted id () }

def selectBest (rows : JournalHeaderRows) (height : Int) : Except Failure (Option Bytes) := do
  bindable height
  match get? rows.db.best height with
  | none => return none
  | some id => some <$> blob id (some 32)

def storedBestAt (rows : JournalHeaderRows) (height : Int) : Except Failure (Option Bytes) :=
  match rows.stored with
  | none => .ok none
  | some top => if top < height then .ok none else rows.selectBest height

def bestAt (rows : JournalHeaderRows) (height : Int) : Except Failure (Option Bytes) :=
  match rows.changed with
  | none => rows.storedBestAt height
  | some changed =>
    if changed.fromHeight ≤ height then .ok changed.ids[(height - changed.fromHeight).toNat]?
    else rows.storedBestAt height

def bestHeight (rows : JournalHeaderRows) : Option Int :=
  match rows.changed with
  | some changed => some changed.top
  | none => rows.stored

def setBest (rows : JournalHeaderRows) (fromHeight : Int) (ids : List Bytes) : Except Failure JournalHeaderRows :=
  if ids = [] ∨ ∃ top ∈ rows.bestHeight, top + 1 < fromHeight then .error notContiguous
  else match rows.changed with
    | some changed =>
      if changed.fromHeight ≤ fromHeight then .ok { rows with changed := some (changed.extend fromHeight ids) }
      else .ok { rows with changed := some { fromHeight, ids } }
    | none => .ok { rows with changed := some { fromHeight, ids } }

def sides (rows : JournalHeaderRows) : List Bytes := rows.side.map (·.1)

def addSide (rows : JournalHeaderRows) (id : Bytes) : JournalHeaderRows :=
  { rows with side := set rows.side id (), sideTouched := set rows.sideTouched id () }

def removeSide (rows : JournalHeaderRows) (id : Bytes) : JournalHeaderRows :=
  { rows with side := erase rows.side id, sideTouched := set rows.sideTouched id () }

/-- `INSERT OR REPLACE` of each pending header. -/
def insertHeaders (headers : OrderedMap Bytes ErgoHeaderRow) :
    OrderedMap Bytes ErgoHeaderRow → Except Failure (OrderedMap Bytes ErgoHeaderRow)
  | [] => .ok headers
  | (id, row) :: rest => do
    bindable row.height
    insertHeaders (set headers id row) rest

/-- `INSERT` of the best chain's ids from a height upward. -/
def insertBest (best : OrderedMap Int Bytes) : Int → List Bytes → Except Failure (OrderedMap Int Bytes)
  | _, [] => .ok best
  | height, id :: rest => do
    bindable height
    require (get? best height).isNone (.constraint "best")
    insertBest (set best height id) (height + 1) rest

def replaceBest (best : OrderedMap Int Bytes) : Option ChangedBest → Except Failure (OrderedMap Int Bytes)
  | none => .ok best
  | some changed => do
    bindable changed.fromHeight
    insertBest (best.filter (·.1 < changed.fromHeight)) changed.fromHeight changed.ids

def writeSides (kept : HeaderIds) (side touched : HeaderIds) : HeaderIds :=
  touched.foldl (fun kept entry => if (get? side entry.1).isSome then set kept entry.1 () else erase kept entry.1) kept

/-- Write the running sync's changes. -/
def write (rows : JournalHeaderRows) : Except Failure HeaderTables := do
  let headers ← insertHeaders (rows.deleted.foldl (fun headers entry => erase headers entry.1) rows.db.headers) rows.pending
  let best ← replaceBest rows.db.best rows.changed
  return { headers, best, side := writeSides rows.db.side rows.side rows.sideTouched }

/-- After the commit: the database now holds everything. -/
def written (rows : JournalHeaderRows) (db : HeaderTables) : JournalHeaderRows :=
  { db, stored := rows.bestHeight, side := rows.side }

/-- One transaction: a throw leaves it rolled back. -/
def commit (rows : JournalHeaderRows) : Except Failure JournalHeaderRows := do
  let db ← rows.write
  return rows.written db

end JournalHeaderRows

/-- Rows in memory: for a store used on its own. -/
structure MemoryHeaderRows where
  headers : OrderedMap Bytes ErgoHeaderRow := []
  base : Option Int := none
  best : List Bytes := []
  side : HeaderIds := []
  deriving DecidableEq, Repr

namespace MemoryHeaderRows

def get (rows : MemoryHeaderRows) (id : Bytes) : Option ErgoHeaderRow := get? rows.headers id

def put (rows : MemoryHeaderRows) (id : Bytes) (row : ErgoHeaderRow) : MemoryHeaderRows :=
  { rows with headers := set rows.headers id row }

def delete (rows : MemoryHeaderRows) (id : Bytes) : MemoryHeaderRows :=
  { rows with headers := erase rows.headers id }

def bestAt (rows : MemoryHeaderRows) (height : Int) : Option Bytes :=
  match rows.base with
  | none => none
  | some base => if height < base then none else rows.best[(height - base).toNat]?

def bestHeight (rows : MemoryHeaderRows) : Option Int :=
  match rows.base with
  | none => none
  | some base => if rows.best = [] then none else some (base + rows.best.length - 1)

/-- The first call's height is the base. -/
def setBest (rows : MemoryHeaderRows) (fromHeight : Int) (ids : List Bytes) : Except Failure MemoryHeaderRows :=
  let base := rows.base.getD fromHeight
  if fromHeight < base ∨ base + rows.best.length < fromHeight then .error notContiguous
  else .ok { rows with base := some base, best := rows.best.take (fromHeight - base).toNat ++ ids }

def sides (rows : MemoryHeaderRows) : List Bytes := rows.side.map (·.1)

def addSide (rows : MemoryHeaderRows) (id : Bytes) : MemoryHeaderRows := { rows with side := set rows.side id () }

def removeSide (rows : MemoryHeaderRows) (id : Bytes) : MemoryHeaderRows := { rows with side := erase rows.side id }

end MemoryHeaderRows

/-- The calls of the rows' interface. -/
inductive RowCall
  | get (id : Bytes)
  | put (id : Bytes) (row : ErgoHeaderRow)
  | delete (id : Bytes)
  | bestAt (height : Int)
  | bestHeight
  | setBest (fromHeight : Int) (ids : List Bytes)
  | sides
  | addSide (id : Bytes)
  | removeSide (id : Bytes)
  deriving DecidableEq, Repr

/-- What a call answers: what it returns, or what it throws. -/
inductive RowAnswer
  | row (found : Option ErgoHeaderRow)
  | id (found : Option Bytes)
  | height (top : Option Int)
  | ids (listed : List Bytes)
  | done
  | threw (failure : Failure)
  deriving DecidableEq, Repr

/-- Two answers alike: ids are compared as sets. -/
def RowAnswer.Same : RowAnswer → RowAnswer → Prop
  | .ids a, .ids b => ∀ id, id ∈ a ↔ id ∈ b
  | a, b => a = b

def answered {α : Type} (answer : α → RowAnswer) : Except Failure α → RowAnswer
  | .ok value => answer value
  | .error failure => .threw failure

/-- A call that changes the rows, or leaves them where it throws. -/
def changing {α : Type} (rows : α) : Except Failure α → RowAnswer × α
  | .ok after => (.done, after)
  | .error failure => (.threw failure, rows)

def JournalHeaderRows.call (rows : JournalHeaderRows) : RowCall → RowAnswer × JournalHeaderRows
  | .get id => (answered .row (rows.get id), rows)
  | .put id row => (.done, rows.put id row)
  | .delete id => (.done, rows.delete id)
  | .bestAt height => (answered .id (rows.bestAt height), rows)
  | .bestHeight => (.height rows.bestHeight, rows)
  | .setBest fromHeight ids => changing rows (rows.setBest fromHeight ids)
  | .sides => (.ids rows.sides, rows)
  | .addSide id => (.done, rows.addSide id)
  | .removeSide id => (.done, rows.removeSide id)

def MemoryHeaderRows.call (rows : MemoryHeaderRows) : RowCall → RowAnswer × MemoryHeaderRows
  | .get id => (.row (rows.get id), rows)
  | .put id row => (.done, rows.put id row)
  | .delete id => (.done, rows.delete id)
  | .bestAt height => (.id (rows.bestAt height), rows)
  | .bestHeight => (.height rows.bestHeight, rows)
  | .setBest fromHeight ids => changing rows (rows.setBest fromHeight ids)
  | .sides => (.ids rows.sides, rows)
  | .addSide id => (.done, rows.addSide id)
  | .removeSide id => (.done, rows.removeSide id)

/-- What happens to a view's rows: a call, a commit of what was called, or a crash, after which the process opens the database again. -/
inductive RowEvent
  | call (call : RowCall)
  | commit
  | crash
  deriving DecidableEq, Repr

def JournalHeaderRows.event (rows : JournalHeaderRows) : RowEvent → RowAnswer × JournalHeaderRows
  | .call call => rows.call call
  | .commit => changing rows rows.commit
  | .crash => changing rows (attach rows.db)

/-- The plain rows beside their state at the last commit, which a crash takes them back to. -/
structure PlainRows where
  rows : MemoryHeaderRows := {}
  committed : MemoryHeaderRows := {}
  deriving DecidableEq, Repr

def PlainRows.event (plain : PlainRows) : RowEvent → RowAnswer × PlainRows
  | .call call => ((plain.rows.call call).1, { plain with rows := (plain.rows.call call).2 })
  | .commit => (.done, { plain with committed := plain.rows })
  | .crash => (.done, { plain with rows := plain.committed })

/-- The answers of a run of events, and the rows after them. -/
def JournalHeaderRows.run (rows : JournalHeaderRows) : List RowEvent → List RowAnswer × JournalHeaderRows
  | [] => ([], rows)
  | event :: rest =>
    let after := (rows.event event).2.run rest
    ((rows.event event).1 :: after.1, after.2)

def PlainRows.run (plain : PlainRows) : List RowEvent → List RowAnswer × PlainRows
  | [] => ([], plain)
  | event :: rest =>
    let after := (plain.event event).2.run rest
    ((plain.event event).1 :: after.1, after.2)

/-- A database no view was kept in. -/
def HeaderTables.empty : HeaderTables := ⟨[], [], []⟩

/-- The rows over it. -/
def JournalHeaderRows.fresh : JournalHeaderRows := { db := .empty, stored := none, side := [] }

end Moe
