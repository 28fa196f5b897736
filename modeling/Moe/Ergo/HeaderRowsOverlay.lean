import Moe.Ergo.HeaderRows

namespace Moe

open OrderedMap HeaderStore

theorem blob_eq_ok {value : Bytes} (wide : value.length = 32) : blob value (some 32) = .ok value := by
  simp [blob, require, wide]

theorem bindable_eq_ok {value : Int} (low : -2 ^ 63 ≤ value) (high : value ≤ maxHeight) : bindable value = .ok () := by
  have below : value < 2 ^ 63 := by
    simp only [maxHeight] at high
    omega
  rw [bindable, require_eq_ok, Bool.and_eq_true, decide_eq_true_iff, decide_eq_true_iff]
  exact ⟨low, below⟩

/-- A row of values the tables keep. -/
structure ErgoHeaderRow.Kept (row : ErgoHeaderRow) : Prop where
  height : 0 ≤ row.height ∧ row.height ≤ maxHeight
  parent : row.parentId.length = 32
  score : 0 ≤ row.score ∧ row.score < 10 ^ 100

theorem ErgoHeaderRow.Kept.readRow {row : ErgoHeaderRow} (kept : row.Kept) : JournalHeaderRows.readRow row = .ok row := by
  obtain ⟨⟨low, high⟩, parent, zero, short⟩ := kept
  have heights : integer row.height maxHeight = .ok row.height := by
    simp [integer, require, low, high]
  have scores : HeaderStore.decimal row.score = .ok row.score := by
    have checked : (decide (0 ≤ row.score) && decide (row.score < 10 ^ 100)) = true := by
      rw [Bool.and_eq_true, decide_eq_true_iff, decide_eq_true_iff]
      exact ⟨zero, short⟩
    rw [HeaderStore.decimal, checked]
    rfl
  rw [JournalHeaderRows.readRow, heights, blob_eq_ok parent, scores]
  rfl

namespace MemoryHeaderRows

/-- What the plain rows hold where every call fits: values the tables keep, and a base exactly where there is a best chain. -/
structure Kept (rows : MemoryHeaderRows) : Prop where
  headers : ∀ id row, rows.get id = some row → row.Kept
  based : rows.best = [] ↔ rows.base = none
  low : ∀ base, rows.base = some base → 0 ≤ base
  high : ∀ base, rows.base = some base → base + rows.best.length ≤ maxHeight + 1
  ids : ∀ id ∈ rows.best, id.length = 32
  side : ∀ id, (get? rows.side id).isSome → id.length = 32

theorem kept_empty : Kept {} where
  headers id row found := by simp [MemoryHeaderRows.get] at found
  based := by simp
  low base same := by simp at same
  high base same := by simp at same
  ids id member := by simp at member
  side id found := by simp at found

variable {rows after : MemoryHeaderRows} {fromHeight height : Int} {ids : List Bytes}

/-- The best chain is defined on the heights from the base to the top. -/
theorem Kept.bestHeight_eq (kept : rows.Kept) {base : Int} (based : rows.base = some base) :
    rows.bestHeight = some (base + rows.best.length - 1) ∧ 0 < rows.best.length := by
  have nonempty : rows.best ≠ [] := by
    intro empty
    rw [kept.based.mp empty] at based
    cases based
  refine ⟨?_, List.length_pos_of_ne_nil nonempty⟩
  simp [bestHeight, based, nonempty]

theorem bestAt_none (based : rows.base = none) : rows.bestAt height = none := by
  rw [bestAt, based]

theorem bestAt_some {base : Int} (based : rows.base = some base) :
    rows.bestAt height = if height < base then none else rows.best[(height - base).toNat]? := by
  rw [bestAt, based]

theorem bestHeight_none (based : rows.base = none) : rows.bestHeight = none := by
  rw [bestHeight, based]

/-- The heights the best chain is defined at: from its base to its top. -/
theorem Kept.bestAt_isSome (kept : rows.Kept) :
    (rows.bestAt height).isSome ↔ ∃ base top, rows.base = some base ∧ rows.bestHeight = some top ∧ base ≤ height ∧ height ≤ top := by
  cases based : rows.base with
  | none => simp [bestAt_none based]
  | some base =>
    rw [bestAt_some based, (kept.bestHeight_eq based).1]
    constructor
    · intro found
      split at found
      · cases found
      · rw [isSome_getElem?] at found
        exact ⟨base, _, rfl, rfl, by omega, by omega⟩
    · rintro ⟨_, _, same, top, low, high⟩
      cases same
      cases top
      rw [if_neg (by omega), isSome_getElem?]
      omega

/-- Where it is defined, its id is one the rows keep. -/
theorem Kept.bestAt_wide (kept : rows.Kept) {id : Bytes} (found : rows.bestAt height = some id) : id.length = 32 := by
  cases based : rows.base with
  | none => simp [bestAt_none based] at found
  | some base =>
    rw [bestAt_some based] at found
    split at found
    · cases found
    · exact kept.ids id (List.mem_of_getElem? found)

theorem Kept.top_le (kept : rows.Kept) {top : Int} (at_top : rows.bestHeight = some top) : top ≤ maxHeight := by
  cases based : rows.base with
  | none => simp [bestHeight_none based] at at_top
  | some base =>
    rw [(kept.bestHeight_eq based).1] at at_top
    cases at_top
    have := kept.high base based
    omega

/-- What a best chain set from a height keeps below it. -/
theorem setBest_eq_ok (chained : ∀ base, rows.base = some base → base ≤ fromHeight) :
    rows.setBest fromHeight ids = .ok after ↔ (∀ base, rows.base = some base → fromHeight ≤ base + rows.best.length) ∧
      after = { rows with base := some (rows.base.getD fromHeight),
                          best := rows.best.take (fromHeight - rows.base.getD fromHeight).toNat ++ ids } := by
  cases based : rows.base with
  | none =>
    simp only [setBest, based, Option.getD_none]
    rw [if_neg (by omega)]
    simp [eq_comm]
  | some base =>
    have := chained base based
    simp only [setBest, based, Option.getD_some]
    split
    · rename_i refused
      constructor
      · intro thrown
        cases thrown
      · rintro ⟨short, _⟩
        have := short base rfl
        omega
    · rename_i fits
      constructor
      · intro same
        cases same
        refine ⟨?_, rfl⟩
        rintro _ ⟨⟩
        omega
      · rintro ⟨_, rfl⟩
        rfl

theorem setBest_eq_error {failure : Failure} (thrown : rows.setBest fromHeight ids = .error failure) : failure = notContiguous := by
  simp only [setBest] at thrown
  split at thrown
  · exact (Except.error.inj thrown).symm
  · cases thrown

/-- A best chain is refused where it starts past the top's child. -/
theorem Kept.setBest_refuses (kept : rows.Kept) (chained : ∀ base, rows.base = some base → base ≤ fromHeight) :
    (∃ top ∈ rows.bestHeight, top + 1 < fromHeight) ↔ rows.setBest fromHeight ids = .error notContiguous := by
  cases based : rows.base with
  | none => simp [bestHeight_none based, setBest, based, kept.based.mpr based]
  | some base =>
    have low := chained base based
    obtain ⟨top, nonempty⟩ := kept.bestHeight_eq based
    simp only [top, setBest, based, Option.getD_some, Option.mem_def, Option.some.injEq, exists_eq_left']
    split
    · rename_i refused
      simp only [iff_true]
      omega
    · rename_i fits
      simp only [reduceCtorEq, iff_false]
      omega

/-- A best chain set from a height is what is set from it, and what stood below it. -/
theorem Kept.bestAt_setBest (kept : rows.Kept) (chained : ∀ base, rows.base = some base → base ≤ fromHeight)
    (set_ : rows.setBest fromHeight ids = .ok after) :
    after.bestAt height = if fromHeight ≤ height then ids[(height - fromHeight).toNat]? else rows.bestAt height := by
  obtain ⟨short, rfl⟩ := (setBest_eq_ok chained).mp set_
  cases based : rows.base with
  | none =>
    have empty : rows.best = [] := kept.based.mpr based
    by_cases above : fromHeight ≤ height
    · simp [bestAt, above, empty, Int.not_lt.mpr above]
    · simp [bestAt, based, above, Int.not_le.mp above]
  | some base =>
    have low := chained base based
    have high := short base based
    have cut : (rows.best.take (fromHeight - base).toNat).length = (fromHeight - base).toNat := by
      rw [List.length_take]
      omega
    simp only [Option.getD_some]
    rw [@bestAt_some { rows with base := some base, best := _ } _ _ rfl, bestAt_some based]
    by_cases above : fromHeight ≤ height
    · rw [if_neg (by omega), if_pos above]
      simp only
      rw [List.getElem?_append_right (by omega), cut]
      congr 1
      omega
    · rw [if_neg above]
      by_cases below : height < base
      · rw [if_pos below, if_pos below]
      · rw [if_neg below, if_neg below]
        simp only
        rw [List.getElem?_append_left (by omega), List.getElem?_take_of_lt (by omega)]

theorem Kept.bestHeight_setBest (kept : rows.Kept) (chained : ∀ base, rows.base = some base → base ≤ fromHeight)
    (nonempty : ids ≠ []) (set_ : rows.setBest fromHeight ids = .ok after) :
    after.bestHeight = some (fromHeight + ids.length - 1) := by
  obtain ⟨short, rfl⟩ := (setBest_eq_ok chained).mp set_
  cases based : rows.base with
  | none =>
    have empty : rows.best = [] := kept.based.mpr based
    simp [bestHeight, nonempty, empty]
  | some base =>
    have low := chained base based
    have high := short base based
    simp only [bestHeight, Option.getD_some, List.append_eq_nil_iff, nonempty, and_false, if_false, List.length_append,
      List.length_take, Option.some.injEq]
    omega

/-- Setting a best chain of kept heights and ids keeps the rows kept. -/
theorem Kept.setBest (kept : rows.Kept) (nonempty : ids ≠ []) (zero : 0 ≤ fromHeight)
    (top : fromHeight + ids.length ≤ maxHeight + 1) (wide : ∀ id ∈ ids, id.length = 32)
    (chained : ∀ base, rows.base = some base → base ≤ fromHeight) (set_ : rows.setBest fromHeight ids = .ok after) : after.Kept := by
  obtain ⟨short, rfl⟩ := (setBest_eq_ok chained).mp set_
  refine ⟨kept.headers, by simp [nonempty], ?_, ?_, ?_, kept.side⟩
  · rintro _ ⟨⟩
    cases based : rows.base with
    | none => exact zero
    | some base => exact kept.low base based
  · rintro _ ⟨⟩
    simp only [List.length_append, List.length_take]
    cases based : rows.base with
    | none =>
      simp only [Option.getD_none]
      omega
    | some base =>
      have := chained base based
      simp only [Option.getD_some]
      omega
  · intro id member
    rcases List.mem_append.mp member with old | new
    · exact kept.ids id (List.mem_of_mem_take old)
    · exact wide id new

theorem Kept.put (kept : rows.Kept) {id : Bytes} {row : ErgoHeaderRow} (keptRow : row.Kept) : (rows.put id row).Kept where
  headers other found same := by
    simp only [MemoryHeaderRows.get, MemoryHeaderRows.put, get?_set] at same
    split at same
    · cases same
      exact keptRow
    · exact kept.headers other found same
  based := kept.based
  low := kept.low
  high := kept.high
  ids := kept.ids
  side := kept.side

theorem Kept.delete (kept : rows.Kept) (id : Bytes) : (rows.delete id).Kept where
  headers other found same := by
    simp only [MemoryHeaderRows.get, MemoryHeaderRows.delete, get?_erase] at same
    split at same
    · cases same
    · exact kept.headers other found same
  based := kept.based
  low := kept.low
  high := kept.high
  ids := kept.ids
  side := kept.side

theorem Kept.addSide (kept : rows.Kept) {id : Bytes} (wide : id.length = 32) : (rows.addSide id).Kept where
  headers := kept.headers
  based := kept.based
  low := kept.low
  high := kept.high
  ids := kept.ids
  side other found := by
    simp only [MemoryHeaderRows.addSide, get?_set] at found
    split at found
    · rename_i same
      exact same ▸ wide
    · exact kept.side other found

theorem Kept.removeSide (kept : rows.Kept) (id : Bytes) : (rows.removeSide id).Kept where
  headers := kept.headers
  based := kept.based
  low := kept.low
  high := kept.high
  ids := kept.ids
  side other found := by
    simp only [MemoryHeaderRows.removeSide, get?_erase] at found
    split at found
    · cases found
    · exact kept.side other found

end MemoryHeaderRows

end Moe

namespace Moe

open OrderedMap HeaderStore

theorem get?_foldl_erase (headers : OrderedMap Bytes ErgoHeaderRow) (deleted : HeaderIds) (id : Bytes) :
    get? (deleted.foldl (fun headers entry => erase headers entry.1) headers) id =
      if (get? deleted id).isSome then none else get? headers id := by
  induction deleted generalizing headers with
  | nil => simp
  | cons entry rest ih =>
    rw [List.foldl_cons, ih, get?_erase, get?_cons]
    by_cases same : entry.1 = id
    · simp [same]
    · simp [same]

theorem get?_filter_lt (best : OrderedMap Int Bytes) (top height : Int) :
    get? (best.filter (·.1 < top)) height = if height < top then get? best height else none := by
  induction best with
  | nil => simp
  | cons entry rest ih =>
    by_cases below : entry.1 < top
    · rw [List.filter_cons_of_pos (by simpa using below), get?_cons, get?_cons, ih]
      by_cases same : entry.1 = height
      · subst same
        simp [below]
      · simp [same]
    · rw [List.filter_cons_of_neg (by simpa using below), ih, get?_cons]
      by_cases same : entry.1 = height
      · subst same
        simp [below]
      · simp [same]

theorem get?_writeSides (kept side touched : HeaderIds) (id : Bytes) :
    (get? (JournalHeaderRows.writeSides kept side touched) id).isSome =
      if (get? touched id).isSome then (get? side id).isSome else (get? kept id).isSome := by
  induction touched generalizing kept with
  | nil => simp [JournalHeaderRows.writeSides]
  | cons entry rest ih =>
    have after := ih (if (get? side entry.1).isSome then set kept entry.1 () else erase kept entry.1)
    rw [JournalHeaderRows.writeSides, List.foldl_cons]
    rw [JournalHeaderRows.writeSides] at after
    rw [after, get?_cons]
    by_cases later : (get? rest id).isSome
    · by_cases same : entry.1 = id <;> simp [later, same]
    · by_cases same : entry.1 = id
      · subst same
        by_cases member : (get? side entry.1).isSome
        · simp [later, member, get?_set]
        · simp [later, member, get?_erase]
      · by_cases member : (get? side entry.1).isSome
        · simp [later, member, same, get?_set]
        · simp [later, member, same, get?_erase]

/-- The pending headers are inserted over the others. -/
theorem insertHeaders_eq (headers pending : OrderedMap Bytes ErgoHeaderRow) (keys : (pending.map (·.1)).Nodup)
    (kept : ∀ entry ∈ pending, entry.2.Kept) :
    ∃ after, JournalHeaderRows.insertHeaders headers pending = .ok after ∧ ∀ id, get? after id = (get? pending id).or (get? headers id) := by
  induction pending generalizing headers with
  | nil => exact ⟨headers, rfl, fun id => by simp⟩
  | cons entry rest ih =>
    obtain ⟨id, row⟩ := entry
    obtain ⟨absent, keys⟩ := List.nodup_cons.mp keys
    obtain ⟨after, run, found⟩ := ih (set headers id row) keys fun entry member => kept entry (List.mem_cons_of_mem _ member)
    obtain ⟨low, high⟩ : 0 ≤ row.height ∧ row.height ≤ maxHeight := (kept (id, row) List.mem_cons_self).height
    refine ⟨after, ?_, fun other => ?_⟩
    · rw [JournalHeaderRows.insertHeaders, bindable_eq_ok (by omega) high]
      exact run
    · rw [found, get?_cons, get?_set]
      by_cases same : id = other
      · subst same
        have missing : get? rest id = none := by
          rw [get?_eq_none_iff]
          rintro other member rfl
          exact absent (List.mem_map.mpr ⟨other, member, rfl⟩)
        simp [missing]
      · simp [same]

/-- A chain inserted where no height stood is what stands from there. -/
theorem insertBest_eq (best : OrderedMap Int Bytes) (height : Int) (ids : List Bytes) (zero : 0 ≤ height)
    (top : height + ids.length ≤ maxHeight + 1) (fresh : ∀ other, height ≤ other → get? best other = none) :
    ∃ after, JournalHeaderRows.insertBest best height ids = .ok after ∧
      ∀ other, get? after other = if height ≤ other then ids[(other - height).toNat]? else get? best other := by
  induction ids generalizing best height with
  | nil =>
    refine ⟨best, rfl, fun other => ?_⟩
    by_cases above : height ≤ other
    · simp [above, fresh other above]
    · simp [above]
  | cons id rest ih =>
    simp only [List.length_cons] at top
    obtain ⟨after, run, found⟩ := ih (set best height id) (height + 1) (by omega) (by omega) (fun other above => by
      rw [get?_set, if_neg (by omega)]
      exact fresh other (by omega))
    refine ⟨after, ?_, fun other => ?_⟩
    · rw [JournalHeaderRows.insertBest, bindable_eq_ok (by omega) (by omega), fresh height le_rfl]
      exact run
    · rw [found, get?_set]
      by_cases above : height + 1 ≤ other
      · have later : (other - height).toNat = (other - (height + 1)).toNat + 1 := by omega
        rw [if_pos above, if_pos (by omega), later, List.getElem?_cons_succ]
      · rw [if_neg above]
        by_cases same : height = other
        · subst same
          simp
        · rw [if_neg same, if_neg (by omega)]

/-- The tables hold what the plain rows do. -/
structure HeaderTables.Holds (db : HeaderTables) (rows : MemoryHeaderRows) : Prop where
  headers : ∀ id, get? db.headers id = rows.get id
  best : ∀ height, get? db.best height = rows.bestAt height
  side : ∀ id, (get? db.side id).isSome = (get? rows.side id).isSome

/-- The best chain's greatest stored height is its tip's. -/
theorem HeaderTables.Holds.top {db : HeaderTables} {rows : MemoryHeaderRows} (holds : db.Holds rows) (kept : rows.Kept) :
    (db.best.map (·.1)).max? = rows.bestHeight := by
  have listed : ∀ height, height ∈ db.best.map (·.1) ↔ (rows.bestAt height).isSome := by
    intro height
    rw [← get?_isSome_iff, holds.best]
  cases based : rows.base with
  | none =>
    rw [MemoryHeaderRows.bestHeight_none based, List.max?_eq_none_iff, List.eq_nil_iff_forall_not_mem]
    intro height member
    rw [listed, MemoryHeaderRows.bestAt_none based] at member
    cases member
  | some base =>
    obtain ⟨top, nonempty⟩ := kept.bestHeight_eq based
    rw [top, List.max?_eq_some_iff]
    constructor
    · rw [listed, kept.bestAt_isSome]
      exact ⟨base, _, based, top, by omega, le_rfl⟩
    · intro height member
      rw [listed, kept.bestAt_isSome] at member
      obtain ⟨_, last, _, same, _, high⟩ := member
      rw [top] at same
      cases same
      exact high

/-- A process that opens tables that hold the plain rows answers from them alone. -/
theorem HeaderTables.Holds.attach {db : HeaderTables} {rows : MemoryHeaderRows} (holds : db.Holds rows) (kept : rows.Kept) :
    JournalHeaderRows.attach db = .ok { db, stored := rows.bestHeight, side := db.side } := by
  have tops : JournalHeaderRows.storedTop rows.bestHeight = .ok rows.bestHeight := by
    cases top : rows.bestHeight with
    | none => rfl
    | some height =>
      have high := kept.top_le top
      have low : 0 ≤ height := by
        cases based : rows.base with
        | none =>
          rw [MemoryHeaderRows.bestHeight_none based] at top
          cases top
        | some base =>
          obtain ⟨same, nonempty⟩ := kept.bestHeight_eq based
          have := kept.low base based
          rw [same] at top
          cases top
          omega
      simp [JournalHeaderRows.storedTop, integer, require, low, high]
  have sides : (db.side.forM fun entry => discard (blob entry.1 (some 32))) = .ok () := by
    rw [forM_eq_ok]
    intro entry member
    have found : (get? db.side entry.1).isSome := get?_isSome_iff.mpr (List.mem_map.mpr ⟨entry, member, rfl⟩)
    rw [holds.side] at found
    rw [blob_eq_ok (kept.side _ found)]
    rfl
  rw [JournalHeaderRows.attach, holds.top kept, tops]
  simp only [sides, bind, Except.bind]
  rfl

end Moe
