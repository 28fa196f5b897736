import Moe.Ergo.HeaderRowsOverlay

namespace Moe

open OrderedMap HeaderStore

/-- A call on values the tables keep: a header of a kept height, parent and score, ids of 32 bytes, and a best chain of at least one id
from no lower than where the plain rows' starts. -/
def RowCall.Fits (rows : MemoryHeaderRows) : RowCall → Prop
  | .put _ row => row.Kept
  | .bestAt height => -2 ^ 63 ≤ height
  | .setBest fromHeight ids => ids ≠ [] ∧ 0 ≤ fromHeight ∧ fromHeight + ids.length ≤ maxHeight + 1 ∧
      (∀ id ∈ ids, id.length = 32) ∧ ∀ base, rows.base = some base → base ≤ fromHeight
  | .addSide id => id.length = 32
  | _ => True

def RowEvent.Fits (plain : PlainRows) : RowEvent → Prop
  | .call own => own.Fits plain.rows
  | _ => True

/-- Every call of a run fits the plain rows it finds. -/
def PlainRows.Fitting : PlainRows → List RowEvent → Prop
  | _, [] => True
  | plain, event :: rest => event.Fits plain ∧ (plain.event event).2.Fitting rest

/-- The best chain changed since the last commit, over the chain at it, is the chain now. -/
inductive ChangedBest.Overlays (committed now : MemoryHeaderRows) : Option ChangedBest → Prop
  | same : (∀ height, now.bestAt height = committed.bestAt height) → now.bestHeight = committed.bestHeight → Overlays committed now none
  | changed {changed : ChangedBest} {base : Int} : now.base = some base → base ≤ changed.fromHeight → changed.ids ≠ [] →
      now.bestHeight = some changed.top →
      (∀ height, now.bestAt height =
        if changed.fromHeight ≤ height then changed.ids[(height - changed.fromHeight).toNat]? else committed.bestAt height) →
      Overlays committed now (some changed)

/-- A call that leaves the best chain leaves what overlays it. -/
theorem ChangedBest.Overlays.leave {committed now after : MemoryHeaderRows} {changed : Option ChangedBest}
    (overlays : Overlays committed now changed) (base : after.base = now.base) (best : after.best = now.best) :
    Overlays committed after changed := by
  have chains : ∀ height, after.bestAt height = now.bestAt height := fun height => by
    rw [MemoryHeaderRows.bestAt, MemoryHeaderRows.bestAt, base, best]
  have tops : after.bestHeight = now.bestHeight := by
    rw [MemoryHeaderRows.bestHeight, MemoryHeaderRows.bestHeight, base, best]
  cases overlays with
  | same chain top => exact .same (fun height => (chains height).trans (chain height)) (tops.trans top)
  | changed based low nonempty top chain =>
    exact .changed (base.trans based) low nonempty (tops.trans top) fun height => (chains height).trans (chain height)

/-- The changed heights after a best chain is set: those there were cut and continued, or new ones from a lower height. -/
def ChangedBest.next (changed : Option ChangedBest) (fromHeight : Int) (ids : List Bytes) : ChangedBest :=
  match changed with
  | none => ⟨fromHeight, ids⟩
  | some old => if old.fromHeight ≤ fromHeight then old.extend fromHeight ids else ⟨fromHeight, ids⟩

theorem JournalHeaderRows.setBest_eq (rows : JournalHeaderRows) (fromHeight : Int) (ids : List Bytes) :
    rows.setBest fromHeight ids = if ids = [] ∨ ∃ top ∈ rows.bestHeight, top + 1 < fromHeight then .error notContiguous
      else .ok { rows with changed := some (ChangedBest.next rows.changed fromHeight ids) } := by
  rw [JournalHeaderRows.setBest]
  split
  · rfl
  · cases rows.changed with
    | none => rfl
    | some old =>
      simp only [ChangedBest.next]
      split <;> rfl

/-- Cut at a height it reaches and continued, a chain is what continues it from there and itself below. -/
theorem ChangedBest.extend_at {old : ChangedBest} {fromHeight : Int} {ids : List Bytes} (low : old.fromHeight ≤ fromHeight)
    (high : fromHeight ≤ old.top + 1) (height : Int) (above : old.fromHeight ≤ height) :
    (old.extend fromHeight ids).ids[(height - old.fromHeight).toNat]? =
      if fromHeight ≤ height then ids[(height - fromHeight).toNat]? else old.ids[(height - old.fromHeight).toNat]? := by
  simp only [ChangedBest.top] at high
  have cut : (old.ids.take (fromHeight - old.fromHeight).toNat).length = (fromHeight - old.fromHeight).toNat := by
    rw [List.length_take]
    omega
  rw [ChangedBest.extend]
  by_cases within : fromHeight ≤ height
  · rw [if_pos within, List.getElem?_append_right (by omega), cut]
    congr 1
    omega
  · rw [if_neg within, List.getElem?_append_left (by omega), List.getElem?_take_of_lt (by omega)]

/-- A best chain set over the changed heights is the one set over the plain rows. -/
theorem ChangedBest.Overlays.next {committed now after : MemoryHeaderRows} {changed : Option ChangedBest} {fromHeight : Int}
    {ids : List Bytes} (overlays : Overlays committed now changed) (kept : now.Kept) (nonempty : ids ≠ [])
    (chained : ∀ base, now.base = some base → base ≤ fromHeight) (set_ : now.setBest fromHeight ids = .ok after) :
    Overlays committed after (some (next changed fromHeight ids)) := by
  have tops := kept.bestHeight_setBest chained nonempty set_
  have chains : ∀ height, _ := fun height => @MemoryHeaderRows.Kept.bestAt_setBest _ _ _ height _ kept chained set_
  obtain ⟨short, made⟩ := (MemoryHeaderRows.setBest_eq_ok chained).mp set_
  have based : after.base = some (now.base.getD fromHeight) := by rw [made]
  have low : now.base.getD fromHeight ≤ fromHeight := by
    cases own : now.base with
    | none => exact le_rfl
    | some base => exact chained base own
  cases overlays with
  | same chain _ =>
    exact .changed based low nonempty tops fun height => by rw [chains, chain]; rfl
  | @changed old base own under _ top chain =>
    have reach : fromHeight ≤ old.top + 1 := by
      have last := (kept.bestHeight_eq own).1
      have := short base own
      have own_top := Option.some.inj (last.symm.trans top)
      omega
    rw [ChangedBest.next]
    by_cases above : old.fromHeight ≤ fromHeight
    · rw [if_pos above]
      refine .changed based ?_ (by simp [extend, nonempty]) ?_ fun height => ?_
      · rw [own]
        exact under
      · rw [tops]
        simp only [ChangedBest.top] at reach
        simp only [ChangedBest.top, extend, List.length_append, List.length_take, Option.some.injEq]
        omega
      · rw [chains, chain]
        show _ = if old.fromHeight ≤ height then _ else _
        by_cases within : old.fromHeight ≤ height
        · rw [if_pos within, if_pos within, show (old.extend fromHeight ids).fromHeight = old.fromHeight from rfl,
            extend_at above reach height within]
        · rw [if_neg within, if_neg within, if_neg (by omega)]
    · rw [if_neg above]
      refine .changed based low nonempty tops fun height => ?_
      rw [chains, chain]
      by_cases within : fromHeight ≤ height
      · rw [if_pos within, if_pos within]
      · rw [if_neg within, if_neg within, if_neg (by omega)]

/-- The row the pending and deleted headers leave at an id. -/
def JournalHeaderRows.row? (rows : JournalHeaderRows) (id : Bytes) : Option ErgoHeaderRow :=
  if (get? rows.deleted id).isSome then none else (get? rows.pending id).or (get? rows.db.headers id)

/-- The changes since the last commit, over the tables, resolve as the plain rows. -/
structure JournalHeaderRows.Shows (rows : JournalHeaderRows) (plain : PlainRows) : Prop where
  holds : rows.db.Holds plain.committed
  kept : plain.rows.Kept
  committed : plain.committed.Kept
  stored : rows.stored = plain.committed.bestHeight
  headers : ∀ id, rows.row? id = plain.rows.get id
  apart : ∀ id, (get? rows.deleted id).isSome → get? rows.pending id = none
  keys : (rows.pending.map (·.1)).Nodup
  best : ChangedBest.Overlays plain.committed plain.rows rows.changed
  side : ∀ id, (get? rows.side id).isSome = (get? plain.rows.side id).isSome
  untouched : ∀ id, get? rows.sideTouched id = none → (get? rows.db.side id).isSome = (get? rows.side id).isSome

namespace JournalHeaderRows.Shows

variable {rows : JournalHeaderRows} {plain : PlainRows}

theorem fresh : JournalHeaderRows.fresh.Shows {} where
  holds := ⟨fun _ => rfl, fun _ => rfl, fun _ => rfl⟩
  kept := MemoryHeaderRows.kept_empty
  committed := MemoryHeaderRows.kept_empty
  stored := rfl
  headers _ := rfl
  apart _ _ := rfl
  keys := List.nodup_nil
  best := .same (fun _ => rfl) rfl
  side _ := rfl
  untouched _ _ := rfl

/-- Tables that hold the plain rows show them where nothing is changed over them. -/
theorem settled {db : HeaderTables} {held : MemoryHeaderRows} {side : HeaderIds} (holds : db.Holds held) (kept : held.Kept)
    (sides : ∀ id, (get? side id).isSome = (get? held.side id).isSome) :
    Shows { db, stored := held.bestHeight, side } ⟨held, held⟩ where
  holds := holds
  kept := kept
  committed := kept
  stored := rfl
  headers := holds.headers
  apart _ _ := rfl
  keys := List.nodup_nil
  best := .same (fun _ => rfl) rfl
  side := sides
  untouched id _ := (holds.side id).trans (sides id).symm

theorem get (shows_ : rows.Shows plain) (id : Bytes) : rows.get id = .ok (plain.rows.get id) := by
  have resolved := shows_.headers id
  rw [row?] at resolved
  rw [JournalHeaderRows.get]
  by_cases gone : (get? rows.deleted id).isSome
  · rw [if_pos gone] at resolved
    rw [if_pos gone, resolved]
  · rw [if_neg gone] at resolved
    rw [if_neg gone, ← resolved]
    cases waiting : get? rows.pending id with
    | some row => rfl
    | none =>
      rw [waiting, Option.none_or] at resolved
      cases found : get? rows.db.headers id with
      | none => rfl
      | some row =>
        rw [found] at resolved
        simp only [(shows_.kept.headers id row resolved.symm).readRow]
        rfl

theorem bestHeight (shows_ : rows.Shows plain) : rows.bestHeight = plain.rows.bestHeight := by
  have overlays := shows_.best
  rw [JournalHeaderRows.bestHeight]
  generalize rows.changed = changed at overlays
  cases overlays with
  | same _ top => exact shows_.stored.trans top.symm
  | changed _ _ _ top _ => exact top.symm

theorem storedBestAt (shows_ : rows.Shows plain) {height : Int} (low : -2 ^ 63 ≤ height) :
    rows.storedBestAt height = .ok (plain.committed.bestAt height) := by
  rw [JournalHeaderRows.storedBestAt, shows_.stored]
  cases top : plain.committed.bestHeight with
  | none =>
    have absent : plain.committed.bestAt height = none := by
      rw [← Option.not_isSome_iff_eq_none, shows_.committed.bestAt_isSome, top]
      simp
    simp only [absent]
  | some last =>
    simp only
    split
    · rename_i above
      have absent : plain.committed.bestAt height = none := by
        rw [← Option.not_isSome_iff_eq_none, shows_.committed.bestAt_isSome, top]
        rintro ⟨_, _, _, same, _, high⟩
        cases same
        omega
      rw [absent]
    · rename_i within
      have high := shows_.committed.top_le top
      rw [selectBest, bindable_eq_ok low (by omega), shows_.holds.best]
      cases found : plain.committed.bestAt height with
      | none => rfl
      | some id =>
        simp only [blob_eq_ok (shows_.committed.bestAt_wide found)]
        rfl

theorem bestAt (shows_ : rows.Shows plain) {height : Int} (low : -2 ^ 63 ≤ height) :
    rows.bestAt height = .ok (plain.rows.bestAt height) := by
  have below := shows_.storedBestAt low
  have overlays := shows_.best
  rw [JournalHeaderRows.bestAt]
  generalize rows.changed = changed at overlays
  cases overlays with
  | same chain _ => rw [chain]; exact below
  | changed _ _ _ _ chain =>
    rw [chain]
    simp only
    split
    · rfl
    · exact below

theorem put (shows_ : rows.Shows plain) {id : Bytes} {row : ErgoHeaderRow} (kept : row.Kept) :
    (rows.put id row).Shows { plain with rows := plain.rows.put id row } where
  holds := shows_.holds
  kept := shows_.kept.put kept
  committed := shows_.committed
  stored := shows_.stored
  headers other := by
    have resolved := shows_.headers other
    rw [row?, MemoryHeaderRows.get] at resolved
    simp only [row?, JournalHeaderRows.put, MemoryHeaderRows.get, MemoryHeaderRows.put, get?_erase, get?_set]
    by_cases same : id = other
    · simp [same]
    · simpa only [same, if_false] using resolved
  apart other gone := by
    simp only [JournalHeaderRows.put, get?_erase, get?_set] at gone ⊢
    split at gone
    · cases gone
    · rename_i differs
      rw [if_neg differs]
      exact shows_.apart other gone
  keys := set_keys_nodup shows_.keys id row
  best := shows_.best.leave rfl rfl
  side := shows_.side
  untouched := shows_.untouched

theorem delete (shows_ : rows.Shows plain) (id : Bytes) :
    (rows.delete id).Shows { plain with rows := plain.rows.delete id } where
  holds := shows_.holds
  kept := shows_.kept.delete id
  committed := shows_.committed
  stored := shows_.stored
  headers other := by
    have resolved := shows_.headers other
    rw [row?, MemoryHeaderRows.get] at resolved
    simp only [row?, JournalHeaderRows.delete, MemoryHeaderRows.get, MemoryHeaderRows.delete, get?_erase, get?_set]
    by_cases same : id = other
    · simp [same]
    · simpa only [same, if_false] using resolved
  apart other gone := by
    simp only [JournalHeaderRows.delete, get?_erase, get?_set] at gone ⊢
    split
    · rfl
    · rename_i differs
      rw [if_neg differs] at gone
      exact shows_.apart other gone
  keys := by
    exact (List.Sublist.map _ List.filter_sublist).nodup shows_.keys
  best := shows_.best.leave rfl rfl
  side := shows_.side
  untouched := shows_.untouched

theorem addSide (shows_ : rows.Shows plain) {id : Bytes} (wide : id.length = 32) :
    (rows.addSide id).Shows { plain with rows := plain.rows.addSide id } where
  holds := shows_.holds
  kept := shows_.kept.addSide wide
  committed := shows_.committed
  stored := shows_.stored
  headers := shows_.headers
  apart := shows_.apart
  keys := shows_.keys
  best := shows_.best.leave rfl rfl
  side other := by
    simp only [JournalHeaderRows.addSide, MemoryHeaderRows.addSide, get?_set]
    split
    · rfl
    · exact shows_.side other
  untouched other absent := by
    simp only [JournalHeaderRows.addSide, get?_set] at absent ⊢
    split at absent
    · cases absent
    · rename_i differs
      rw [if_neg differs]
      exact shows_.untouched other absent

theorem removeSide (shows_ : rows.Shows plain) (id : Bytes) :
    (rows.removeSide id).Shows { plain with rows := plain.rows.removeSide id } where
  holds := shows_.holds
  kept := shows_.kept.removeSide id
  committed := shows_.committed
  stored := shows_.stored
  headers := shows_.headers
  apart := shows_.apart
  keys := shows_.keys
  best := shows_.best.leave rfl rfl
  side other := by
    simp only [JournalHeaderRows.removeSide, MemoryHeaderRows.removeSide, get?_erase]
    split
    · rfl
    · exact shows_.side other
  untouched other absent := by
    simp only [JournalHeaderRows.removeSide, get?_set, get?_erase] at absent ⊢
    split at absent
    · cases absent
    · rename_i differs
      rw [if_neg differs]
      exact shows_.untouched other absent

/-- Setting the best chain answers alike and leaves the rows alike. -/
theorem setBest (shows_ : rows.Shows plain) {fromHeight : Int} {ids : List Bytes}
    (fits : RowCall.Fits plain.rows (.setBest fromHeight ids)) :
    (changing rows (rows.setBest fromHeight ids)).1 = (changing plain.rows (plain.rows.setBest fromHeight ids)).1 ∧
      (changing rows (rows.setBest fromHeight ids)).2.Shows
        { plain with rows := (changing plain.rows (plain.rows.setBest fromHeight ids)).2 } := by
  obtain ⟨nonempty, zero, top, wide, chained⟩ := fits
  rw [JournalHeaderRows.setBest_eq, shows_.bestHeight]
  cases set_ : plain.rows.setBest fromHeight ids with
  | error failure =>
    obtain rfl := MemoryHeaderRows.setBest_eq_error set_
    rw [if_pos (.inr ((shows_.kept.setBest_refuses chained).mpr set_))]
    exact ⟨rfl, shows_⟩
  | ok after =>
    have accepted : ¬∃ last ∈ plain.rows.bestHeight, last + 1 < fromHeight := fun refused => by
      rw [(shows_.kept.setBest_refuses chained).mp refused] at set_
      cases set_
    rw [if_neg (not_or.mpr ⟨nonempty, accepted⟩)]
    obtain ⟨_, made⟩ := (MemoryHeaderRows.setBest_eq_ok chained).mp set_
    exact ⟨rfl, {
      holds := shows_.holds
      kept := shows_.kept.setBest nonempty zero top wide chained set_
      committed := shows_.committed
      stored := shows_.stored
      headers := fun id => (shows_.headers id).trans (by rw [made]; rfl)
      apart := shows_.apart
      keys := shows_.keys
      best := shows_.best.next shows_.kept nonempty chained set_
      side := fun id => (shows_.side id).trans (by rw [made]; rfl)
      untouched := shows_.untouched }⟩

theorem call (shows_ : rows.Shows plain) (own : RowCall) (fits : own.Fits plain.rows) :
    (rows.call own).1.Same (plain.rows.call own).1 ∧ (rows.call own).2.Shows { plain with rows := (plain.rows.call own).2 } := by
  cases own with
  | get id =>
    refine ⟨?_, shows_⟩
    simp only [JournalHeaderRows.call, shows_.get]
    rfl
  | put id row => exact ⟨rfl, shows_.put fits⟩
  | delete id => exact ⟨rfl, shows_.delete id⟩
  | bestAt height =>
    refine ⟨?_, shows_⟩
    simp only [JournalHeaderRows.call, shows_.bestAt fits]
    rfl
  | bestHeight =>
    refine ⟨?_, shows_⟩
    simp only [JournalHeaderRows.call, shows_.bestHeight]
    rfl
  | setBest fromHeight ids =>
    obtain ⟨answer, after⟩ := shows_.setBest fits
    refine ⟨?_, after⟩
    simp only [JournalHeaderRows.call, answer]
    cases set_ : plain.rows.setBest fromHeight ids <;> simp only [MemoryHeaderRows.call, set_] <;> rfl
  | sides =>
    refine ⟨fun id => ?_, shows_⟩
    rw [JournalHeaderRows.sides, MemoryHeaderRows.sides, ← get?_isSome_iff, ← get?_isSome_iff, shows_.side]
  | addSide id => exact ⟨rfl, shows_.addSide fits⟩
  | removeSide id => exact ⟨rfl, shows_.removeSide id⟩

theorem pending_kept (shows_ : rows.Shows plain) : ∀ entry ∈ rows.pending, entry.2.Kept := by
  rintro ⟨id, row⟩ member
  have waiting := get?_of_mem shows_.keys member
  have there : ¬(get? rows.deleted id).isSome := fun gone => by
    rw [shows_.apart id gone] at waiting
    cases waiting
  refine shows_.kept.headers id row ?_
  rw [← shows_.headers, row?, if_neg there, waiting]
  rfl

/-- The best chain's rows are replaced from the changed height. -/
theorem replaceBest (shows_ : rows.Shows plain) :
    ∃ best, JournalHeaderRows.replaceBest rows.db.best rows.changed = .ok best ∧ ∀ height, get? best height = plain.rows.bestAt height := by
  have overlays := shows_.best
  generalize rows.changed = changed at overlays
  cases overlays with
  | same chain _ => exact ⟨_, rfl, fun height => (shows_.holds.best height).trans (chain height).symm⟩
  | @changed changed base based low nonempty top chain =>
    have zero := shows_.kept.low base based
    have high := shows_.kept.top_le top
    have some_ := List.length_pos_of_ne_nil nonempty
    simp only [ChangedBest.top] at high
    obtain ⟨best, run, found⟩ := insertBest_eq (rows.db.best.filter (·.1 < changed.fromHeight)) changed.fromHeight changed.ids
      (by omega) (by omega) fun other above => by rw [get?_filter_lt, if_neg (by omega)]
    refine ⟨best, ?_, fun height => ?_⟩
    · rw [JournalHeaderRows.replaceBest, bindable_eq_ok (by omega) (by omega)]
      exact run
    · rw [found, chain, get?_filter_lt, shows_.holds.best]
      by_cases above : changed.fromHeight ≤ height
      · rw [if_pos above, if_pos above]
      · rw [if_neg above, if_neg above, if_pos (by omega)]

/-- A commit writes tables that hold the plain rows as they are, and leaves no change over them. -/
theorem commit (shows_ : rows.Shows plain) :
    ∃ after, rows.commit = .ok after ∧ after.Shows ⟨plain.rows, plain.rows⟩ := by
  obtain ⟨headers, inserted, rowAt⟩ := insertHeaders_eq
    (rows.deleted.foldl (fun headers entry => erase headers entry.1) rows.db.headers) rows.pending shows_.keys shows_.pending_kept
  obtain ⟨best, replaced, idAt⟩ := shows_.replaceBest
  refine ⟨rows.written ⟨headers, best, writeSides rows.db.side rows.side rows.sideTouched⟩, ?_, ?_⟩
  · rw [JournalHeaderRows.commit, JournalHeaderRows.write, inserted]
    simp only [replaced, bind, Except.bind]
    rfl
  · rw [JournalHeaderRows.written, shows_.bestHeight]
    refine settled ⟨fun id => ?_, idAt, fun id => ?_⟩ shows_.kept shows_.side
    · rw [rowAt, get?_foldl_erase, ← shows_.headers, row?]
      by_cases gone : (get? rows.deleted id).isSome
      · rw [if_pos gone, if_pos gone, shows_.apart id gone]
        rfl
      · rw [if_neg gone, if_neg gone]
    · rw [get?_writeSides]
      cases touched : get? rows.sideTouched id with
      | none => exact (shows_.untouched id touched).trans (shows_.side id)
      | some _ => exact shows_.side id

theorem event (shows_ : rows.Shows plain) (own : RowEvent) (fits : own.Fits plain) :
    (rows.event own).1.Same (plain.event own).1 ∧ (rows.event own).2.Shows (plain.event own).2 := by
  cases own with
  | call own => exact shows_.call own fits
  | commit =>
    obtain ⟨after, run, shown⟩ := shows_.commit
    rw [JournalHeaderRows.event, run]
    exact ⟨rfl, shown⟩
  | crash =>
    rw [JournalHeaderRows.event, shows_.holds.attach shows_.committed]
    exact ⟨rfl, settled shows_.holds shows_.committed shows_.holds.side⟩

/-- Every run of fitting events answers alike, and leaves the rows alike. -/
theorem run (shows_ : rows.Shows plain) {events : List RowEvent} (fitting : plain.Fitting events) :
    List.Forall₂ RowAnswer.Same (rows.run events).1 (plain.run events).1 ∧ (rows.run events).2.Shows (plain.run events).2 := by
  induction events generalizing rows plain with
  | nil => exact ⟨.nil, shows_⟩
  | cons own rest ih =>
    obtain ⟨fits, later⟩ := fitting
    obtain ⟨answer, after⟩ := shows_.event own fits
    obtain ⟨answers, last⟩ := ih after later
    exact ⟨.cons answer answers, last⟩

/-- The best chain is defined on the heights from a base to its top, and nowhere where it has no top. -/
theorem contiguous (shows_ : rows.Shows plain) :
    ∃ base, ∀ height, -2 ^ 63 ≤ height →
      ((∃ id, rows.bestAt height = .ok (some id)) ↔ ∃ top, rows.bestHeight = some top ∧ base ≤ height ∧ height ≤ top) := by
  refine ⟨plain.rows.base.getD 0, fun height low => ?_⟩
  have defined := @MemoryHeaderRows.Kept.bestAt_isSome _ height shows_.kept
  rw [Option.isSome_iff_exists] at defined
  rw [shows_.bestHeight]
  simp only [shows_.bestAt low, Except.ok.injEq]
  rw [defined]
  constructor
  · rintro ⟨base, top, based, tops, low, high⟩
    exact ⟨top, tops, by simpa [based] using low, high⟩
  · rintro ⟨top, tops, low, high⟩
    cases based : plain.rows.base with
    | none => simp [MemoryHeaderRows.bestHeight_none based] at tops
    | some base => exact ⟨base, top, rfl, tops, by simpa [based] using low, high⟩

end JournalHeaderRows.Shows

/-- The header rows over the database answer every run of calls, commits and crashes as the plain ones do, where the calls are on values
the tables keep; and their best chain is defined exactly on the heights from a base to its top. -/
theorem header_rows_refine (events : List RowEvent) (fitting : ({} : PlainRows).Fitting events) :
    List.Forall₂ RowAnswer.Same (JournalHeaderRows.fresh.run events).1 (({} : PlainRows).run events).1 ∧
      ∃ base, ∀ height, -2 ^ 63 ≤ height →
        ((∃ id, (JournalHeaderRows.fresh.run events).2.bestAt height = .ok (some id)) ↔
          ∃ top, (JournalHeaderRows.fresh.run events).2.bestHeight = some top ∧ base ≤ height ∧ height ≤ top) := by
  obtain ⟨answers, shown⟩ := JournalHeaderRows.Shows.fresh.run fitting
  exact ⟨answers, shown.contiguous⟩

namespace HeaderStore

def sampleId (byte : UInt8) : Bytes := List.replicate 32 byte

def sampleRow : ErgoHeaderRow := ⟨5, sampleId 9, 7, [1, 2]⟩

/-- A suffix restarted below a pending one, a deleted header put again and a side header touched twice, around a commit and a crash. -/
def sampleEvents : List RowEvent :=
  [.call (.put (sampleId 1) sampleRow), .call (.setBest 5 [sampleId 1, sampleId 2]), .commit, .call (.setBest 6 [sampleId 3, sampleId 4]),
    .call (.setBest 5 [sampleId 5]), .call (.delete (sampleId 1)), .call (.put (sampleId 1) sampleRow), .call (.addSide (sampleId 2)),
    .call (.removeSide (sampleId 2)), .commit, .call (.bestAt 6), .call (.setBest 6 [sampleId 6]), .crash, .call .bestHeight,
    .call (.get (sampleId 1)), .call .sides]

theorem sampleRow_kept : sampleRow.Kept := ⟨by decide, by decide, by decide⟩

theorem sampleEvents_fitting : ({} : PlainRows).Fitting sampleEvents := by
  have base_five : ∀ base : Int, some 5 = some base → base = 5 := fun base same => (Option.some.inj same).symm
  refine ⟨sampleRow_kept, ⟨by decide, by decide, by decide, by decide, fun base same => by cases same⟩, trivial,
    ⟨by decide, by decide, by decide, by decide, fun base same => by rw [base_five base same]; decide⟩,
    ⟨by decide, by decide, by decide, by decide, fun base same => by rw [base_five base same]⟩, trivial, sampleRow_kept, ?_⟩
  refine ⟨(by decide : (sampleId 2).length = 32), trivial, trivial, (by decide : (-2 : Int) ^ 63 ≤ 6),
    ⟨by decide, by decide, by decide, by decide, fun base same => by rw [base_five base same]; decide⟩, trivial, trivial, trivial, trivial,
    trivial⟩

end HeaderStore

theorem header_rows_refine_sample :
    List.Forall₂ RowAnswer.Same (JournalHeaderRows.fresh.run sampleEvents).1 (({} : PlainRows).run sampleEvents).1 ∧
      ∃ base, ∀ height, -2 ^ 63 ≤ height →
        ((∃ id, (JournalHeaderRows.fresh.run sampleEvents).2.bestAt height = .ok (some id)) ↔
          ∃ top, (JournalHeaderRows.fresh.run sampleEvents).2.bestHeight = some top ∧ base ≤ height ∧ height ≤ top) :=
  header_rows_refine sampleEvents sampleEvents_fitting

def RowAnswer.throws : RowAnswer → Bool
  | .threw _ => true
  | _ => false

theorem RowAnswer.Same.throws {a b : RowAnswer} (same : a.Same b) : a.throws = b.throws := by
  cases a <;> cases b <;> simp_all [RowAnswer.Same, RowAnswer.throws]

/-- Runs outside what the tables keep: no id, a chain below the base, a height past the kept ones, an id of another width on the best
chain and beside it, a best chain past the kept heights, and a height asked below what the database binds. -/
def unkeptRuns : List (List RowEvent) :=
  [[.call (.setBest 5 [])],
    [.call (.setBest 5 [sampleId 1]), .call (.setBest 4 [sampleId 1])],
    [.call (.put (sampleId 1) ⟨2 ^ 31, sampleId 9, 7, []⟩), .commit, .call (.get (sampleId 1))],
    [.call (.setBest 5 [[1]]), .commit, .call (.bestAt 5)],
    [.call (.addSide [1]), .commit, .crash],
    [.call (.setBest (2 ^ 31) [sampleId 1]), .commit, .crash],
    [.call (.setBest 5 [sampleId 1]), .commit, .call (.bestAt (-2 ^ 63 - 1))]]

/-- There the rows over the database throw where the plain ones answer, or answer where they throw. -/
theorem unkept_rows_differ : unkeptRuns.Forall fun events =>
    ¬List.Forall₂ RowAnswer.Same (JournalHeaderRows.fresh.run events).1 (({} : PlainRows).run events).1 := by
  have throwing : ∀ {a b : List RowAnswer}, List.Forall₂ RowAnswer.Same a b → a.map RowAnswer.throws = b.map RowAnswer.throws := by
    intro a b same
    induction same with
    | nil => rfl
    | cons head _ ih => rw [List.map_cons, List.map_cons, head.throws, ih]
  have differ : ∀ events ∈ unkeptRuns, (JournalHeaderRows.fresh.run events).1.map RowAnswer.throws ≠
      (({} : PlainRows).run events).1.map RowAnswer.throws := by
    decide +kernel
  exact List.forall_iff_forall_mem.mpr fun events member same => differ events member (throwing same)

end Moe
