import Moe.Ergo.HeaderTreeWalks

namespace Moe.HeaderTree

open OrderedMap Difficulty

section

variable {rows : MemoryHeaderRows} {s : Store} {id : Bytes}

theorem addSides_eq (ids : List Bytes) : ids.foldl MemoryHeaderRows.addSide rows =
    { rows with side := ids.foldl (fun side id => set side id ()) rows.side } := by
  induction ids generalizing rows with
  | nil => rfl
  | cons id ids ih => rw [List.foldl_cons, ih]; rfl

theorem removeSides_eq (ids : List Bytes) : ids.foldl MemoryHeaderRows.removeSide rows = { rows with side := ids.foldl erase rows.side } := by
  induction ids generalizing rows with
  | nil => rfl
  | cons id ids ih => rw [List.foldl_cons, ih]; rfl

theorem mem_setAll {side : HeaderIds} (ids : List Bytes) :
    (id ∈ (ids.foldl (fun side id => set side id ()) side).map (·.1) ↔ id ∈ ids ∨ id ∈ side.map (·.1)) := by
  rw [← get?_isSome_iff, get?_set_all, ← get?_isSome_iff]
  split <;> simp [*]

theorem setAll_nodup {side : HeaderIds} (ids : List Bytes) (nodup : (side.map (·.1)).Nodup) :
    ((ids.foldl (fun side id => set side id ()) side).map (·.1)).Nodup := by
  induction ids generalizing side with
  | nil => exact nodup
  | cons other ids ih => exact ih (set_keys_nodup nodup other ())

theorem mem_eraseAll {side : HeaderIds} (ids : List Bytes) :
    id ∈ (ids.foldl erase side).map (·.1) ↔ id ∉ ids ∧ id ∈ side.map (·.1) := by
  rw [← get?_isSome_iff, get?_erase_all, ← get?_isSome_iff]
  split <;> simp [*]

/-- A loop that only changes the rows. -/
theorem modifies {α : Type} (f : MemoryHeaderRows → α → MemoryHeaderRows) (entries : List α) :
    (entries.forM fun entry => (modify fun s => { s with rows := f s.rows entry } : StoreWork Unit)).runs s =
      (.ok (), { s with rows := entries.foldl f s.rows }) := by
  induction entries generalizing s with
  | nil => rfl
  | cons entry entries ih =>
    change Work.runs (_ >>= fun _ => _) s = _
    rw [Work.runs_bind, Work.runs_modify, Work.andThen]
    exact ih

end

section

variable [Blake] [Autolykos] {anchor : Anchor} {s t : Store} {hs chain : List FullHeader} {h : FullHeader} {rows : MemoryHeaderRows} {id : Bytes}

/-- The context read so far, linked. -/
structure Reads (done : List FullHeader) : Prop where
  heights : ∀ (i : Nat) (first h : FullHeader), done[0]? = some first → done[i]? = some h → h.height = first.height + i
  parents : ∀ (i : Nat) (a b : FullHeader), done[i]? = some a → done[i + 1]? = some b → b.parentId = a.id
  distinct : (done.map (·.id)).Nodup
  canonical : ∀ h ∈ done, parseErgoHeader h.bytes = some h

theorem Reads.append {done : List FullHeader} (reads : Reads done) (canonical : parseErgoHeader h.bytes = some h)
    (new : ∀ other ∈ done, other.id ≠ h.id) (linked : ∀ previous ∈ done.getLast?, h.height = previous.height + 1 ∧ h.parentId = previous.id) :
    Reads (done ++ [h]) := by
  have last : ∀ i a, done[i]? = some a → i + 1 = done.length → a ∈ done.getLast? := by
    intro i a at_ end_
    rw [List.getLast?_eq_getElem?, ← end_, Nat.add_sub_cancel]
    exact at_
  refine ⟨fun i first own begins at_ => ?_, fun i a b at_ next => ?_, ?_, fun other member => ?_⟩
  · by_cases inside : i < done.length
    · rw [List.getElem?_append_left (by omega)] at begins
      rw [List.getElem?_append_left inside] at at_
      exact reads.heights i first own begins at_
    · have index : i = done.length := by
        have := (List.getElem?_eq_some_iff.mp at_).choose
        rw [List.length_append, List.length_singleton] at this
        omega
      subst index
      obtain rfl : h = own := by simpa using at_
      rcases Nat.eq_zero_or_pos done.length with none_ | some_
      · rw [List.eq_nil_of_length_eq_zero none_] at begins
        obtain rfl : h = first := by simpa using begins
        omega
      · rw [List.getElem?_append_left some_] at begins
        have previous := List.getElem?_eq_getElem (show done.length - 1 < done.length by omega)
        have height := (linked _ (last _ _ previous (by omega))).1
        rw [height, reads.heights _ _ _ begins previous]
        omega
  · by_cases inside : i + 1 < done.length
    · rw [List.getElem?_append_left (by omega)] at at_
      rw [List.getElem?_append_left inside] at next
      exact reads.parents i a b at_ next
    · have index : i + 1 = done.length := by
        have := (List.getElem?_eq_some_iff.mp next).choose
        rw [List.length_append, List.length_singleton] at this
        omega
      rw [List.getElem?_append_left (by omega)] at at_
      obtain rfl : h = b := by simpa [index] using next
      exact (linked a (last i a at_ index)).2
  · rw [List.map_append, List.map_singleton, List.nodup_append]
    refine ⟨reads.distinct, List.nodup_singleton _, fun a member b own same => ?_⟩
    obtain ⟨other, inside, rfl⟩ := List.mem_map.mp member
    exact new other inside (same.trans (List.mem_singleton.mp own))
  · rcases List.mem_append.mp member with old | own
    · exact reads.canonical other old
    · rw [List.mem_singleton.mp own, canonical]

theorem readContext_reads {context : List Bytes} {done read : List FullHeader} (reads : Reads done) (run : readContext context done = some read) :
    Reads read ∧ read.length = done.length + context.length := by
  induction context generalizing done with
  | nil =>
    obtain rfl := Option.some.inj run
    exact ⟨reads, rfl⟩
  | cons bytes context ih =>
    simp only [readContext, Option.bind_eq_bind, Option.bind_eq_some_iff] at run
    obtain ⟨header, parsed_, _, new, _, linked, run⟩ := run
    have own := (parseErgoHeader_reads parsed_).1
    obtain ⟨whole, length⟩ := ih (reads.append (own ▸ parsed_) (by simpa [guard] using new) (by simpa [guard] using linked)) run
    refine ⟨whole, ?_⟩
    rw [length, List.length_append, List.length_singleton, List.length_cons]
    omega

theorem readAnchor_linked {anchorId : Bytes} {context : List Bytes} {rules : Rules} (run : readAnchor anchorId context rules = some anchor) :
    anchor.Linked := by
  simp only [readAnchor, Option.bind_eq_bind, Option.bind_eq_some_iff] at run
  obtain ⟨_, long, byHeight, read, root, last, lowest, first, _, -, made⟩ := run
  obtain rfl := Option.some.inj made
  obtain ⟨reads, length⟩ := readContext_reads ⟨by simp, by simp, by simp, by simp⟩ read
  have count : anchorContext + 1 ≤ context.length := by
    by_contra short
    simp [guard, short] at long
  rw [List.length_nil, Nat.zero_add] at length
  rw [List.head?_eq_getElem?] at first
  exact ⟨length ▸ count, last, fun i h at_ => reads.heights i lowest h first at_, reads.parents, reads.distinct, reads.canonical⟩

/-- The heaviest-chain tree: every row on a line of accepted headers, the best chain the first accepted of the heaviest, and the other rows
its sides. -/
structure Kept (s : Store) (chain : List FullHeader) : Prop extends Rooted s chain where
  held : ∀ id row, get? s.rows.headers id = some row → ∃ hs h, Line s.toAnchor s.rows.headers (hs ++ [h]) ∧ h.id = id
  heaviest : ∀ id row, get? s.rows.headers id = some row → row.score ≤ weight chain
  first : ∀ hs h, chain = hs ++ [h] → ∃ before row after, s.rows.headers = before ++ (h.id, row) :: after ∧
    ∀ entry ∈ before, entry.2.score < weight chain
  sides : ∀ id, id ∈ s.rows.sides ↔ (get? s.rows.headers id).isSome = true ∧ id ∉ s.rows.best
  ids : (s.rows.headers.map (·.1)).Nodup
  sideIds : s.rows.sides.Nodup

/-- A row is the last of a line, with its weight. -/
theorem Kept.row (kept : Kept s chain) {row : ErgoHeaderRow} (found : get? s.rows.headers id = some row) :
    ∃ hs h, Line s.toAnchor s.rows.headers (hs ++ [h]) ∧ h.id = id ∧ row = ⟨h.height, h.parentId, weight (hs ++ [h]), h.bytes⟩ := by
  obtain ⟨hs, h, line, rfl⟩ := kept.held id row found
  exact ⟨hs, h, line, rfl, Option.some.inj (found.symm.trans line.last.2.2)⟩

/-- What the store knows of an id: nothing, a line to it, or a header of the context below the anchor. -/
theorem Kept.entry_cases (kept : Kept s chain) (id : Bytes) : (s.entry id = .ok none ∧ get? s.rows.headers id = none) ∨
    (∃ hs, Line s.toAnchor s.rows.headers hs ∧ (s.tip hs).id = id ∧ s.entry id = .ok (some (s.entryOf hs))) ∨
      ∃ h, h.id = id ∧ h.id ≠ s.root.id ∧ s.entry id = .ok (some (parsed h 0 false)) := by
  cases known : s.byHeight.find? (·.id = id) with
  | some h =>
    have same : h.id = id := by simpa using List.find?_some known
    by_cases root : h.id = s.root.id
    · refine .inr (.inl ⟨[], .anchor, root.symm.trans same, ?_⟩)
      rw [← same, root]
      exact kept.entry_tip .anchor
    · refine .inr (.inr ⟨h, same, root, ?_⟩)
      rw [Store.entry, Anchor.entry, Anchor.below, known]
      rfl
  | none =>
    have none_ : s.below id = none := by rw [Anchor.below, known]; rfl
    cases found : get? s.rows.headers id with
    | none =>
      refine .inl ⟨?_, rfl⟩
      rw [Store.entry, Anchor.entry, none_]
      simp only [Anchor.stored, MemoryHeaderRows.get, found]
    | some row =>
      obtain ⟨hs, h, line, rfl⟩ := kept.held id row found
      refine .inr (.inl ⟨hs ++ [h], line, by rw [Anchor.tip_concat], ?_⟩)
      have own := kept.entry_tip line
      rwa [Anchor.tip_concat] at own

/-- A header judged after a line: refused, a difficulty that is not defined, or what follows it. -/
theorem Kept.judge (kept : Kept s chain) (line : Line s.toAnchor s.rows.headers hs) (canonical : parseErgoHeader h.bytes = some h)
    (parent : h.parentId = (s.tip hs).id) : judge s h (s.entryOf hs) = .ok (.ok (decodeCompactBits h.nBits)) ∧ Follows s.toAnchor hs h ∨
      ¬ Follows s.toAnchor hs h ∧ ((∃ answer, judge s h (s.entryOf hs) = .ok (.error answer) ∧ answer ≠ .added) ∨
        ∃ failure, judge s h (s.entryOf hs) = .error failure ∧ s.difficultyAfter hs = .error failure) := by
  have above : ((!(s.entryOf hs).above) && decide ((s.entryOf hs).id ≠ s.root.id)) = false := by
    rcases List.eq_nil_or_concat' hs with rfl | ⟨hs, last, rfl⟩
    · simp [Anchor.entryOf_nil, parsed]
    · simp [Anchor.entryOf_concat, parsed]
  have own : (s.entryOf hs).height = (s.tip hs).height := rfl
  have header : (s.entryOf hs).header = .ok (s.tip hs) := rfl
  rw [HeaderTree.judge, above, own, header, kept.required line]
  simp only [Bool.false_eq_true, if_false]
  by_cases height : h.height = (s.tip hs).height + 1
  swap
  · exact .inr ⟨fun follows => height follows.height, .inl ⟨.height, by simp only [ne_eq, height, not_false_eq_true, if_true]; rfl, by decide⟩⟩
  simp only [ne_eq, height, not_true_eq_false, if_false]
  by_cases later : h.timestamp ≤ (s.tip hs).timestamp
  · exact .inr ⟨fun follows => absurd follows.later (by omega), .inl ⟨.timestamp, by simp only [bind, Except.bind, later, if_true]; rfl, by decide⟩⟩
  cases run : s.difficultyAfter hs with
  | error failure =>
    refine .inr ⟨fun follows => ?_, .inr ⟨failure, by simp only [bind, Except.bind, later, if_false]; rfl, rfl⟩⟩
    have required := follows.required
    rw [run] at required
    cases required
  | ok difficulty =>
    by_cases stated : difficulty ≤ 0 ∨ q < difficulty ∨ decodeCompactBits h.nBits ≠ difficulty
    · refine .inr ⟨fun follows => ?_, .inl ⟨.difficulty, ?_, by decide⟩⟩
      · have required := follows.required
        have positive := follows.positive
        have below := follows.below
        rw [run, Except.ok.injEq] at required
        rcases stated with low | high | differs
        · omega
        · omega
        · exact differs required.symm
      · simp only [bind, Except.bind, later, if_false, Functor.map, Except.map, stated, if_true]
        rfl
    · by_cases work : autolykosPowValid h = true
      · have positive : 0 < difficulty := by omega
        have below : difficulty ≤ q := by omega
        have same : decodeCompactBits h.nBits = difficulty := by
          by_contra differs
          exact stated (.inr (.inr differs))
        refine .inl ⟨?_, canonical, parent, height, by omega, same ▸ run, same ▸ positive, same ▸ below, work⟩
        simp only [bind, Except.bind, later, if_false, Functor.map, Except.map, stated, work]
        rw [same]
        rfl
      · refine .inr ⟨fun follows => work follows.work, .inl ⟨.pow, ?_, by decide⟩⟩
        simp only [bind, Except.bind, later, if_false, Functor.map, Except.map, stated, work]
        rfl

/-- The old best chain's entries become side rows. -/
theorem replaces {heights : List Int} {olds : List Entry} (found : List.Forall₂ (fun height old => s.bestEntry height = .ok old) heights olds) :
    (heights.forM fun height => (do
      let old ← liftM (s.bestEntry height)
      modify fun t => { t with rows := t.rows.addSide old.id } : StoreWork Unit)).runs t =
      (.ok (), { t with rows := (olds.map (·.id)).foldl MemoryHeaderRows.addSide t.rows }) := by
  induction found generalizing t with
  | nil => rfl
  | cons own _ ih =>
    change Work.runs (_ >>= fun _ => _) t = _
    simp only [Work.runs_bind, Work.runs_lift, own, Work.andThen, Work.runs_modify]
    exact ih

/-- A line made the best chain: what was above where they meet becomes sides, and what is above there no longer is. -/
theorem Rooted.promote (rooted : Rooted s chain) (sideIds : s.rows.sides.Nodup) (line : Line s.toAnchor s.rows.headers hs) :
    ∃ side r o, hs = meet hs chain ++ r ∧ chain = meet hs chain ++ o ∧ (promote (s.entryOf hs)).runs s = (.ok (), { s with
        rows := { s.rows with base := some (s.root.height + 1), best := hs.map (·.id), side }, best := s.entryOf hs }) ∧
      (∀ id, id ∈ side.map (·.1) ↔ id ∉ r.map (·.id) ∧ (id ∈ o.map (·.id) ∨ id ∈ s.rows.sides)) ∧ (side.map (·.1)).Nodup := by
  obtain ⟨r, whole, run⟩ := rooted.off_best line
  obtain ⟨o, split_⟩ := meet_prefix_right hs chain
  have metHeight : (s.entryOf (meet hs chain)).height = s.root.height + (meet hs chain).length :=
    (rooted.tree.beginning line (meet_prefix_left hs chain)).height
  generalize meet hs chain = c at *
  have length : chain.length = c.length + o.length := by rw [← split_, List.length_append]
  have bestHeight := rooted.best_height
  have count : (s.best.height - (s.entryOf c).height).toNat = o.length := by omega
  have olds : List.Forall₂ (fun height old => s.bestEntry height = .ok old)
      ((List.range o.length).map fun i : Nat => (s.entryOf c).height + 1 + i) (risen s.toAnchor c o).reverse := by
    rw [risen, List.map_reverse, List.reverse_reverse, List.forall₂_map_left_iff, List.forall₂_map_right_iff, List.forall₂_same]
    intro i member
    rw [List.mem_range] at member
    have inside : c.length + i < chain.length := by omega
    have found := rooted.bestEntry inside
    have index : s.root.height + 1 + (c.length + i : Nat) = (s.entryOf c).height + 1 + i := by omega
    have beginning : chain.take (c.length + i + 1) = c ++ o.take (i + 1) := by
      rw [← split_, Nat.add_assoc, List.take_length_add_append]
    rwa [index, beginning] at found
  have listed : s.rows.best.take c.length ++ r.map (·.id) = hs.map (·.id) := by
    rw [rooted.listed, ← List.map_take, ← split_, List.take_left, ← List.map_append, ← whole]
  have contiguous : ∀ side : HeaderIds, ({ s.rows with side := side } : MemoryHeaderRows).setBest ((s.entryOf c).height + 1)
      (r.map fun h => h.id) = .ok { s.rows with side := side, base := some (s.root.height + 1), best := hs.map fun h => h.id } := by
    intro side
    have best : s.rows.best.length = chain.length := by rw [rooted.listed, List.length_map]
    have base : s.rows.base.getD ((s.entryOf c).height + 1) = s.root.height + 1 := by
      obtain ⟨none_, empty⟩ | base := rooted.base
      · subst empty
        rw [List.length_nil] at length
        rw [none_, Option.getD_none]
        omega
      · rw [base]
        rfl
    have index : ((s.entryOf c).height + 1 - (s.root.height + 1)).toNat = c.length := by omega
    rw [MemoryHeaderRows.setBest]
    simp only [base, best, index, listed]
    rw [if_neg (by omega)]
  refine ⟨(r.map (·.id)).foldl erase ((o.map (·.id)).foldl (fun side id => set side id ()) s.rows.side), r, o, whole, split_.symm, ?_,
    fun id => ?_, ?_⟩
  · have steps : ∀ (start : MemoryHeaderRows) (path : List Entry),
        path.foldl (fun rows (step : Entry) => rows.removeSide step.id) start = (path.map (·.id)).foldl MemoryHeaderRows.removeSide start :=
      fun start path => List.foldl_map.symm
    simp only [HeaderTree.promote, Work.runs_bind, Work.runs_get, Work.andThen, Work.runs_lift, run, count, replaces olds,
      modifies (fun rows (step : Entry) => rows.removeSide step.id), steps, List.map_reverse, risen_ids, List.reverse_reverse, addSides_eq,
      removeSides_eq, contiguous, Work.runs_modify]
  · rw [mem_eraseAll, mem_setAll]
    rfl
  · exact erase_all_keys_nodup (setAll_nodup _ sideIds) _

/-- Lines of one tip are one. -/
theorem Rooted.tip_inj (rooted : Rooted s chain) {ks : List FullHeader} (line : Line s.toAnchor s.rows.headers hs)
    (line' : Line s.toAnchor s.rows.headers ks) (same : (s.tip hs).id = (s.tip ks).id) : hs = ks := by
  have apart : ∀ {p : List FullHeader} {h : FullHeader}, Line s.toAnchor s.rows.headers (p ++ [h]) → h.id ≠ s.root.id := by
    intro p h line root
    have row := line.last.2.2
    rw [root, rooted.fresh _ rooted.linked.root_mem] at row
    cases row
  rcases List.eq_nil_or_concat' hs with rfl | ⟨p, a, rfl⟩
  · rcases List.eq_nil_or_concat' ks with rfl | ⟨q, b, rfl⟩
    · rfl
    · rw [Anchor.tip_concat] at same
      exact absurd same.symm (apart line')
  · rcases List.eq_nil_or_concat' ks with rfl | ⟨q, b, rfl⟩
    · rw [Anchor.tip_concat] at same
      exact absurd same (apart line)
    · rw [Anchor.tip_concat, Anchor.tip_concat] at same
      exact rooted.tree.told p q a b line line' same

/-- A header that is new to a store, and what its rules accept it after. -/
structure Accepts (s : Store) (input : Bytes) (hs : List FullHeader) (h : FullHeader) : Prop where
  read : parseErgoHeader input = some h
  new : s.entry h.id = .ok none
  line : Line s.toAnchor s.rows.headers hs
  follows : Follows s.toAnchor hs h

/-- An accepted header's row. -/
def rowAfter (hs : List FullHeader) (h : FullHeader) : ErgoHeaderRow := ⟨h.height, h.parentId, weight (hs ++ [h]), h.bytes⟩

theorem Accepts.absent {input : Bytes} (accepts : Accepts s input hs h) : get? s.rows.headers h.id = none ∧ ∀ other ∈ s.byHeight, other.id ≠ h.id := by
  have new := accepts.new
  rw [Store.entry, Anchor.entry] at new
  cases known : s.below h.id with
  | some at_ =>
    rw [known] at new
    cases new
  | none =>
    rw [known] at new
    refine ⟨?_, fun other member same => ?_⟩
    · simp only [Anchor.stored, MemoryHeaderRows.get] at new
      split at new
      · assumption
      · split at new <;> cases new
    · rw [Anchor.below, Option.map_eq_none_iff, List.find?_eq_none] at known
      exact known other member (decide_eq_true same)

omit [Blake] [Autolykos] in
theorem put_headers (absent : get? s.rows.headers h.id = none) (row : ErgoHeaderRow) :
    (s.rows.put h.id row).headers = s.rows.headers ++ [(h.id, row)] :=
  set_of_not_mem fun member => by
    rw [← get?_isSome_iff, absent] at member
    cases member

/-- The accepted header's row put: the store's lines are as they were, and there is one to it. -/
theorem Kept.put (kept : Kept s chain) {input : Bytes} (accepts : Accepts s input hs h) :
    Rooted { s with rows := s.rows.put h.id (rowAfter hs h) } chain ∧
      (∀ ks, Line s.toAnchor s.rows.headers ks → Line s.toAnchor (s.rows.put h.id (rowAfter hs h)).headers ks) ∧
      Line s.toAnchor (s.rows.put h.id (rowAfter hs h)).headers (hs ++ [h]) := by
  obtain ⟨absent, apart⟩ := accepts.absent
  have others : ∀ id, id ≠ h.id → get? (s.rows.put h.id (rowAfter hs h)).headers id = get? s.rows.headers id := by
    intro id differs
    rw [MemoryHeaderRows.put, get?_set, if_neg (Ne.symm differs)]
  have carried : ∀ ks, Line s.toAnchor s.rows.headers ks → Line s.toAnchor (s.rows.put h.id (rowAfter hs h)).headers ks := by
    intro ks line
    refine line.carried fun other member => others _ fun same => ?_
    have held := line.held member
    rw [same, absent] at held
    cases held
  refine ⟨⟨kept.linked, fun other member => ?_, carried _ kept.line, kept.best, kept.listed, kept.base⟩, carried, ?_⟩
  · exact (others _ (apart other member)).trans (kept.fresh other member)
  · refine .next (carried _ accepts.line) accepts.follows ?_
    rw [MemoryHeaderRows.put, get?_set, if_pos rfl]
    rfl

omit [Blake] [Autolykos] in
/-- The ids held after a row is put. -/
theorem put_held_iff (row : ErgoHeaderRow) (id : Bytes) :
    (get? (rows.put h.id row).headers id).isSome = true ↔ id = h.id ∨ (get? rows.headers id).isSome = true := by
  rw [MemoryHeaderRows.put, get?_set]
  by_cases same : h.id = id
  · simp [same]
  · simp [same, Ne.symm same]

/-- What every row tells of itself after one is put, where it was so before. -/
theorem Kept.put_rows (kept : Kept s chain) {input : Bytes} (accepts : Accepts s input hs h) :
    (∀ id row, get? (s.rows.put h.id (rowAfter hs h)).headers id = some row →
      ∃ ks k, Line s.toAnchor (s.rows.put h.id (rowAfter hs h)).headers (ks ++ [k]) ∧ k.id = id) ∧
      (∀ id row, get? (s.rows.put h.id (rowAfter hs h)).headers id = some row → row.score ≤ max (weight chain) (weight (hs ++ [h]))) ∧
      ((s.rows.put h.id (rowAfter hs h)).headers.map (·.1)).Nodup := by
  obtain ⟨rooted, carried, own⟩ := kept.put accepts
  have cases_ : ∀ id row, get? (s.rows.put h.id (rowAfter hs h)).headers id = some row →
      id = h.id ∧ row = rowAfter hs h ∨ get? s.rows.headers id = some row := by
    intro id row found
    rw [MemoryHeaderRows.put, get?_set] at found
    split at found
    · rename_i same
      exact .inl ⟨same.symm, (Option.some.inj found).symm⟩
    · exact .inr found
  refine ⟨fun id row found => ?_, fun id row found => ?_, set_keys_nodup kept.ids _ _⟩
  · rcases cases_ id row found with ⟨rfl, -⟩ | old
    · exact ⟨hs, h, own, rfl⟩
    · obtain ⟨ks, k, line, same⟩ := kept.held id row old
      exact ⟨ks, k, carried _ line, same⟩
  · rcases cases_ id row found with ⟨-, rfl⟩ | old
    · exact Int.le_max_right _ _
    · exact (kept.heaviest id row old).trans (Int.le_max_left _ _)

/-- An accepted header off a best chain that stays. -/
theorem Kept.aside (kept : Kept s chain) {input : Bytes} (accepts : Accepts s input hs h) (light : weight (hs ++ [h]) ≤ weight chain) :
    Kept { s with rows := (s.rows.put h.id (rowAfter hs h)).addSide h.id } chain := by
  obtain ⟨rooted, -, own⟩ := kept.put accepts
  obtain ⟨held, heaviest, ids⟩ := kept.put_rows accepts
  obtain ⟨absent, -⟩ := accepts.absent
  have off : h.id ∉ s.rows.best := by
    intro member
    have held := kept.listed_held member
    rw [absent] at held
    cases held
  refine ⟨⟨rooted.linked, rooted.fresh, rooted.line, rooted.best, rooted.listed, rooted.base⟩, held, fun id row found => ?_, fun ks k whole => ?_,
    fun id => ?_, ids, set_keys_nodup kept.sideIds _ _⟩
  · have := heaviest id row found
    omega
  · obtain ⟨before, row, after, rows, earlier⟩ := kept.first ks k whole
    refine ⟨before, row, after ++ [(h.id, rowAfter hs h)], ?_, earlier⟩
    change (s.rows.put h.id (rowAfter hs h)).headers = _
    rw [put_headers absent, rows, List.append_assoc, List.cons_append]
  · change id ∈ (set s.rows.side h.id ()).map (·.1) ↔ (get? (s.rows.put h.id (rowAfter hs h)).headers id).isSome = true ∧ id ∉ s.rows.best
    rw [put_held_iff, ← get?_isSome_iff, get?_set]
    have old := kept.sides id
    rw [MemoryHeaderRows.sides, ← get?_isSome_iff] at old
    by_cases same : h.id = id
    · subst same
      simp [off]
    · simp only [same, if_false, Ne.symm same, false_or]
      exact old

/-- An accepted header heavier than the best chain, made its tip. -/
theorem Kept.heavier (kept : Kept s chain) {input : Bytes} (accepts : Accepts s input hs h) (heavy : weight chain < weight (hs ++ [h])) :
    ∃ t, (promote (s.entryOf (hs ++ [h]))).runs { s with rows := s.rows.put h.id (rowAfter hs h) } = (.ok (), t) ∧
      t.toAnchor = s.toAnchor ∧ t.rows.headers = s.rows.headers ++ [(h.id, rowAfter hs h)] ∧ Kept t (hs ++ [h]) := by
  obtain ⟨rooted, carried, own⟩ := kept.put accepts
  obtain ⟨held, heaviest, ids⟩ := kept.put_rows accepts
  obtain ⟨absent, -⟩ := accepts.absent
  obtain ⟨side, r, o, whole, split_, run, sides, sideIds⟩ := rooted.promote kept.sideIds own
  refine ⟨_, run, rfl, put_headers absent _, ⟨rooted.linked, rooted.fresh, own, rfl, rfl, .inr rfl⟩, held, fun id row found => ?_,
    fun ks k tip => ?_, fun id => ?_, ids, sideIds⟩
  · have := heaviest id row found
    omega
  · obtain ⟨rfl, same⟩ := List.append_inj' tip rfl
    obtain rfl := List.singleton_inj.mp same
    refine ⟨s.rows.headers, rowAfter hs h, [], put_headers absent _, fun entry member => ?_⟩
    have found := get?_of_mem kept.ids (show (entry.1, entry.2) ∈ s.rows.headers from member)
    exact Int.lt_of_le_of_lt (kept.heaviest _ _ found) heavy
  · have nodup := kept.tree.keys_nodup kept.line
    have listed : id ∈ s.rows.best ↔ id ∈ (meet (hs ++ [h]) chain).map (·.id) ∨ id ∈ o.map (·.id) := by
      rw [kept.listed, ← List.mem_append, ← List.map_append, ← split_]
    have new : id ∈ (hs ++ [h]).map (·.id) ↔ id ∈ (meet (hs ++ [h]) chain).map (·.id) ∨ id ∈ r.map (·.id) := by
      rw [← List.mem_append, ← List.map_append, ← whole]
    have apart : id ∈ o.map (·.id) → id ∉ (meet (hs ++ [h]) chain).map (·.id) := by
      intro above met
      rw [split_, List.map_append, List.nodup_append] at nodup
      exact nodup.2.2 _ met _ above rfl
    have held : id ∈ s.rows.best → (get? s.rows.headers id).isSome = true := kept.listed_held
    change id ∈ side.map (·.1) ↔ (get? (s.rows.put h.id (rowAfter hs h)).headers id).isSome = true ∧ id ∉ (hs ++ [h]).map (·.id)
    rw [sides id, put_held_iff]
    constructor
    · rintro ⟨past, above | aside⟩
      · refine ⟨.inr (held (listed.mpr (.inr above))), fun on => ?_⟩
        exact (new.mp on).elim (apart above) past
      · obtain ⟨own, off⟩ := (kept.sides id).mp aside
        exact ⟨.inr own, fun on => (new.mp on).elim (fun met => off (listed.mpr (.inl met))) past⟩
    · rintro ⟨rfl | own, off⟩
      · exact absurd (by simp) off
      · refine ⟨fun past => off (new.mpr (.inr past)), ?_⟩
        by_cases on : id ∈ s.rows.best
        · exact .inl ((listed.mp on).resolve_left fun met => off (new.mpr (.inl met)))
        · exact .inr ((kept.sides id).mpr ⟨own, on⟩)

section

variable {input : Bytes} {at_ parent : Entry} {answer : AddAnswer}

theorem add_known (read : parseErgoHeader input = some h) (found : s.entry h.id = .ok (some at_)) :
    (HeaderTree.add input).runs s = (.ok .known, s) := by
  simp only [HeaderTree.add, read, Work.runs_bind, Work.runs_get, Work.andThen, Work.runs_lift, found]
  rfl

theorem add_orphan (read : parseErgoHeader input = some h) (new : s.entry h.id = .ok none) (none_ : s.entry h.parentId = .ok none) :
    (HeaderTree.add input).runs s = (.ok .unknownParent, s) := by
  simp only [HeaderTree.add, read, Work.runs_bind, Work.runs_get, Work.andThen, Work.runs_lift, new, none_]
  rfl

theorem add_refused (read : parseErgoHeader input = some h) (new : s.entry h.id = .ok none) (found : s.entry h.parentId = .ok (some parent))
    (judged : HeaderTree.judge s h parent = .ok (.error answer)) : (HeaderTree.add input).runs s = (.ok answer, s) := by
  simp only [HeaderTree.add, read, Work.runs_bind, Work.runs_get, Work.andThen, Work.runs_lift, new, found, Option.isSome_none,
    Bool.false_eq_true, if_false, judged]
  rfl

theorem add_failed {failure : Failure} (read : parseErgoHeader input = some h) (new : s.entry h.id = .ok none)
    (found : s.entry h.parentId = .ok (some parent)) (judged : HeaderTree.judge s h parent = .error failure) :
    (HeaderTree.add input).runs s = (.error failure, s) := by
  simp only [HeaderTree.add, read, Work.runs_bind, Work.runs_get, Work.andThen, Work.runs_lift, new, found, Option.isSome_none,
    Bool.false_eq_true, if_false, judged]

/-- A header accepted with no more weight than the best chain becomes a side header; a heavier one is promoted. -/
theorem Kept.takes_in (kept : Kept s chain) (accepts : Accepts s input hs h) (found : s.entry h.parentId = .ok (some (s.entryOf hs)))
    (judged : HeaderTree.judge s h (s.entryOf hs) = .ok (.ok (decodeCompactBits h.nBits))) :
    ∃ t, (HeaderTree.add input).runs s = (.ok .added, t) ∧ t.toAnchor = s.toAnchor ∧ t.rows.headers = s.rows.headers ++ [(h.id, rowAfter hs h)] ∧
      Kept t (if weight chain < weight (hs ++ [h]) then hs ++ [h] else chain) := by
  have score : (s.entryOf hs).score + decodeCompactBits h.nBits = weight (hs ++ [h]) := weight_concat.symm
  by_cases heavy : weight chain < weight (hs ++ [h])
  · obtain ⟨t, run, anchor, headers, after⟩ := kept.heavier accepts heavy
    refine ⟨t, ?_, anchor, headers, by rwa [if_pos heavy]⟩
    rw [Anchor.entryOf_concat] at run
    simp only [HeaderTree.add, accepts.read, Work.runs_bind, Work.runs_get, Work.andThen, Work.runs_lift, accepts.new, found, judged, score,
      kept.best_score, parsed, Work.runs_modify, heavy, Option.isSome_none, if_true, Bool.false_eq_true, if_false]
    change Work.andThen _ ((promote (parsed h (weight (hs ++ [h])) true)).runs { s with rows := s.rows.put h.id (rowAfter hs h) }) = _
    rw [run]
    rfl
  · refine ⟨{ s with rows := (s.rows.put h.id (rowAfter hs h)).addSide h.id }, ?_, rfl, put_headers accepts.absent.1 _, ?_⟩
    · simp only [HeaderTree.add, accepts.read, Work.runs_bind, Work.runs_get, Work.andThen, Work.runs_lift, accepts.new, found, judged, score,
        kept.best_score, parsed, Work.runs_modify, heavy, Option.isSome_none, Bool.false_eq_true, if_false]
      rfl
    · rw [if_neg heavy]
      exact kept.aside accepts (by omega)

end

/-- A header offered: accepted as its rules say and the heavier chain the best, or the store as it was, for an answer or for a difficulty that
is not defined. -/
theorem Kept.add (kept : Kept s chain) (input : Bytes) :
    (∃ hs h t, Accepts s input hs h ∧ (HeaderTree.add input).runs s = (.ok .added, t) ∧ t.toAnchor = s.toAnchor ∧
        t.rows.headers = s.rows.headers ++ [(h.id, rowAfter hs h)] ∧
        Kept t (if weight chain < weight (hs ++ [h]) then hs ++ [h] else chain)) ∨
      (¬ ∃ hs h, Accepts s input hs h) ∧ ((∃ answer, (HeaderTree.add input).runs s = (.ok answer, s) ∧ answer ≠ .added) ∨
        ∃ failure hs, (HeaderTree.add input).runs s = (.error failure, s) ∧ Line s.toAnchor s.rows.headers hs ∧ s.difficultyAfter hs = .error failure) := by
  cases read : parseErgoHeader input with
  | none =>
    refine .inr ⟨fun ⟨hs, h, accepts⟩ => ?_, .inl ⟨.malformed, by simp only [HeaderTree.add, read]; rfl, by decide⟩⟩
    have own := accepts.read
    rw [read] at own
    cases own
  | some h =>
    have own : parseErgoHeader h.bytes = some h := by rw [(parseErgoHeader_reads read).1, read]
    have same : ∀ {hs h'}, Accepts s input hs h' → h' = h := fun accepts => Option.some.inj (accepts.read.symm.trans read)
    have parentOf : ∀ {hs h'}, Accepts s input hs h' → s.entry h.parentId = .ok (some (s.entryOf hs)) := by
      intro hs h' accepts
      obtain rfl := same accepts
      rw [accepts.follows.parent]
      exact kept.entry_tip accepts.line
    have known : ∀ {at_}, s.entry h.id = .ok (some at_) → ¬ ∃ hs h, Accepts s input hs h := by
      rintro at_ found ⟨hs, h', accepts⟩
      obtain rfl := same accepts
      rw [accepts.new] at found
      cases found
    obtain ⟨new, -⟩ | ⟨ks, -, -, found⟩ | ⟨k, -, -, found⟩ := kept.entry_cases h.id
    · obtain ⟨none_, -⟩ | ⟨hs, line, tip, found⟩ | ⟨k, tip, root, found⟩ := kept.entry_cases h.parentId
      · refine .inr ⟨fun ⟨hs, h', accepts⟩ => ?_, .inl ⟨.unknownParent, add_orphan read new none_, by decide⟩⟩
        have parent := parentOf accepts
        rw [none_] at parent
        cases parent
      · have unfit : ¬ Follows s.toAnchor hs h → ¬ ∃ hs h, Accepts s input hs h := by
          rintro fails ⟨hs', h', accepts⟩
          obtain rfl := same accepts
          rw [kept.tip_inj line accepts.line (tip.trans accepts.follows.parent)] at fails
          exact fails accepts.follows
        obtain ⟨judged, follows⟩ | ⟨fails, ⟨answer, judged, other⟩ | ⟨failure, judged, undefined⟩⟩ := kept.judge line own tip.symm
        · have accepts : Accepts s input hs h := ⟨read, new, line, follows⟩
          obtain ⟨t, after⟩ := kept.takes_in accepts found judged
          exact .inl ⟨hs, h, t, accepts, after⟩
        · exact .inr ⟨unfit fails, .inl ⟨answer, add_refused read new found judged, other⟩⟩
        · exact .inr ⟨unfit fails, .inr ⟨failure, hs, add_failed read new found judged, line, undefined⟩⟩
      · have judged : HeaderTree.judge s h (parsed k 0 false) = .ok (.error .belowAnchor) := by
          rw [HeaderTree.judge]
          simp only [parsed, Bool.not_false, Bool.true_and, ne_eq, root, not_false_eq_true, decide_true, if_true]
          rfl
        refine .inr ⟨fun ⟨hs, h', accepts⟩ => ?_, .inl ⟨.belowAnchor, add_refused read new found judged, by decide⟩⟩
        have parent := parentOf accepts
        rw [found, Except.ok.injEq, Option.some.injEq] at parent
        rcases List.eq_nil_or_concat' hs with rfl | ⟨hs, last, rfl⟩
        · exact root (congrArg Entry.id parent)
        · rw [Anchor.entryOf_concat] at parent
          exact absurd (congrArg Entry.above parent) Bool.false_ne_true
    · exact .inr ⟨known found, .inl ⟨.known, add_known read found, by decide⟩⟩
    · exact .inr ⟨known found, .inl ⟨.known, add_known read found, by decide⟩⟩

end

end Moe.HeaderTree
