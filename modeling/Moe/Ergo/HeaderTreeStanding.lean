import Moe.Ergo.HeaderTreeRuns
import Moe.Ergo.RequiredDifficulty

namespace Moe.HeaderTree

open OrderedMap Framer Difficulty

section

variable [Blake] [Autolykos] {anchor : Anchor} {s : Store} {hs chain : List FullHeader} {h : FullHeader} {id : Bytes} {ids done : List Bytes}

/-- A header off the best chain on a line to one of some ids. -/
def Guarded (s : Store) (chain : List FullHeader) (ids : List Bytes) (id : Bytes) : Prop :=
  ∃ ks k rest, Line s.toAnchor s.rows.headers (ks ++ [k] ++ rest) ∧ (s.tip (ks ++ [k] ++ rest)).id ∈ ids ∧ k.id = id ∧ ¬ ks ++ [k] <+: chain

/-- An id held of a kept header's line. -/
theorem Guarded.below {ks : List FullHeader} {k last : FullHeader} {rest : List FullHeader} (kept : Kept s chain)
    (guarded : Guarded s chain ids last.id) (line : Line s.toAnchor s.rows.headers (ks ++ [k] ++ rest)) (tip : (s.tip (ks ++ [k] ++ rest)).id = last.id)
    (off : ¬ ks ++ [k] <+: chain) : Guarded s chain ids k.id := by
  obtain ⟨qs, q, more, whole, member, same, -⟩ := guarded
  have first := kept.tree.beginning whole (List.prefix_append _ more)
  have joined : qs ++ [q] = ks ++ [k] ++ rest := kept.tip_inj first line (by rw [Anchor.tip_concat, same, tip])
  rw [joined] at whole member
  refine ⟨ks, k, rest ++ more, ?_, ?_, rfl, off⟩
  · rwa [← List.append_assoc]
  · rwa [← List.append_assoc]

theorem Guarded.of_append {more : List Bytes} : Guarded s chain (done ++ more) id ↔ Guarded s chain done id ∨ Guarded s chain more id := by
  constructor
  · rintro ⟨ks, k, rest, line, member, same, off⟩
    exact (List.mem_append.mp member).imp (fun old => ⟨ks, k, rest, line, old, same, off⟩) fun new => ⟨ks, k, rest, line, new, same, off⟩
  · rintro (⟨ks, k, rest, line, member, same, off⟩ | ⟨ks, k, rest, line, member, same, off⟩)
    · exact ⟨ks, k, rest, line, List.mem_append_left _ member, same, off⟩
    · exact ⟨ks, k, rest, line, List.mem_append_right _ member, same, off⟩

omit [Blake] [Autolykos] in
/-- One value set for each of a stopped walk's entries. -/
theorem get?_risen {β : Type} {p r : List FullHeader} {value : β} {map : OrderedMap Bytes β} :
    get? ((risen anchor p r).foldl (fun map other => set map other.id value) map) id = if id ∈ r.map (·.id) then some value else get? map id := by
  have mapped : (risen anchor p r).foldl (fun map (other : Entry) => set map other.id value) map =
      ((risen anchor p r).map (·.id)).foldl (fun map id => set map id value) map := by rw [List.foldl_map]
  rw [mapped, get?_set_all, risen_ids]
  simp only [List.mem_reverse]

/-- One more protected path kept. -/
theorem Kept.keepPath (kept : Kept s chain) {keep : HeaderIds} (guards : ∀ id, (get? keep id).isSome = true ↔ Guarded s chain done id)
    (line : Line s.toAnchor s.rows.headers hs) : ∃ path, (s.off (some (s.entryOf hs)) fun other => (get? keep other.id).isSome) = .ok path ∧
      ∀ id, (get? (path.1.foldl (fun keep other => set keep other.id ()) keep) id).isSome = true ↔ Guarded s chain (done ++ [(s.tip hs).id]) id := by
  obtain ⟨p, r, rfl, run, there, past⟩ := kept.off (fun other => (get? keep other.id).isSome) line
  refine ⟨_, run, fun id => ?_⟩
  have now : (get? ((risen s.toAnchor p r).foldl (fun keep other => set keep other.id ()) keep) id).isSome = true ↔
      id ∈ r.map (·.id) ∨ Guarded s chain done id := by
    rw [get?_risen, ← guards]
    split <;> simp [*]
  rw [now, Guarded.of_append, or_comm]
  refine or_congr_right' fun old => ⟨fun member => ?_, fun guarded => ?_⟩
  · obtain ⟨k, inside, rfl⟩ := List.mem_map.mp member
    obtain ⟨first, last, rfl⟩ := List.append_of_mem inside
    have split_ : p ++ (first ++ k :: last) = p ++ first ++ [k] ++ last := by simp
    rw [split_] at line ⊢
    refine ⟨p ++ first, k, last, line, List.mem_singleton.mpr rfl, rfl, ?_⟩
    have off := (past (first ++ [k]) (by simp) ⟨last, by simp⟩).1
    rwa [← List.append_assoc] at off
  · obtain ⟨ks, k, rest, line', member, rfl, off⟩ := guarded
    have same := kept.tip_inj line' line (List.mem_singleton.mp member)
    have within : ks ++ [k] <+: p ++ r := ⟨rest, same⟩
    by_cases under : ks ++ [k] <+: p
    · rcases there with on | stopped
      · exact absurd (under.trans on) off
      · obtain ⟨left, rfl⟩ := under
        have first := kept.tree.beginning line (List.prefix_append _ r)
        rcases List.eq_nil_or_concat' (ks ++ [k] ++ left) with none_ | ⟨qs, q, whole⟩
        · simp at none_
        · have tip : (s.tip (ks ++ [k] ++ left)).id = q.id := by rw [whole, Anchor.tip_concat]
          have guarded : Guarded s chain done q.id := (guards q.id).mp (tip ▸ stopped)
          exact absurd (Guarded.below kept guarded first tip off) old
    · obtain ⟨x, above⟩ := (List.prefix_or_prefix_of_prefix within (List.prefix_append p r)).resolve_left under
      rcases List.eq_nil_or_concat' x with rfl | ⟨first, last, rfl⟩
      · rw [List.append_nil] at above
        exact absurd (above ▸ List.prefix_refl _) under
      · rw [← above, List.prefix_append_right_inj] at within
        rw [← List.append_assoc] at above
        obtain rfl := List.singleton_inj.mp (List.append_inj' above rfl).2
        exact List.mem_map_of_mem (within.subset (List.mem_append_right _ (List.mem_singleton.mpr rfl)))

/-- The headers off the best chain on the protected paths, or an id the store does not know. -/
theorem Kept.keepPaths (kept : Kept s chain) {keep : HeaderIds} (guards : ∀ id, (get? keep id).isSome = true ↔ Guarded s chain done id)
    (ids : List Bytes) : (∃ keep', s.keepPaths ids keep = .ok keep' ∧ (∀ id ∈ ids, s.entry id ≠ .ok none) ∧
        ∀ id, (get? keep' id).isSome = true ↔ Guarded s chain (done ++ ids) id) ∨
      s.keepPaths ids keep = .error (.error "unknown protected header") ∧ ∃ id ∈ ids, s.entry id = .ok none := by
  induction ids generalizing keep done with
  | nil => exact .inl ⟨keep, rfl, by simp, by simpa using guards⟩
  | cons id ids ih =>
    have next : ∀ {path : List Entry × Option Entry} {at_ : Entry}, s.entry id = .ok (some at_) →
        (s.off (some at_) fun other => (get? keep other.id).isSome) = .ok path →
        (∀ other, (get? (path.1.foldl (fun keep other => set keep other.id ()) keep) other).isSome = true ↔
          Guarded s chain (done ++ [id]) other) →
        (∃ keep', s.keepPaths (id :: ids) keep = .ok keep' ∧ (∀ other ∈ id :: ids, s.entry other ≠ .ok none) ∧
          ∀ other, (get? keep' other).isSome = true ↔ Guarded s chain (done ++ id :: ids) other) ∨
        s.keepPaths (id :: ids) keep = .error (.error "unknown protected header") ∧ ∃ other ∈ id :: ids, s.entry other = .ok none := by
      intro path at_ found run guards'
      have step : s.keepPaths (id :: ids) keep = s.keepPaths ids (path.1.foldl (fun keep other => set keep other.id ()) keep) := by
        rw [Store.keepPaths, found]
        simp only [bind, Except.bind, run]
      rw [step]
      obtain ⟨keep', rest, known, guards''⟩ | ⟨rest, other, member, absent⟩ := ih guards'
      · refine .inl ⟨keep', rest, fun other member => ?_, fun other => ?_⟩
        · rcases List.mem_cons.mp member with rfl | later
          · rw [found]
            exact fun none_ => by cases none_
          · exact known other later
        · rw [guards'', List.append_assoc, List.singleton_append]
      · exact .inr ⟨rest, other, List.mem_cons_of_mem _ member, absent⟩
    obtain ⟨absent, -⟩ | ⟨hs, line, rfl, found⟩ | ⟨k, rfl, root, found⟩ := kept.entry_cases id
    · refine .inr ⟨?_, id, List.mem_cons_self, absent⟩
      rw [Store.keepPaths, absent]
      rfl
    · obtain ⟨path, run, guards'⟩ := kept.keepPath guards line
      exact next found run guards'
    · refine @next ([], some (parsed k 0 false)) _ found rfl fun other => ?_
      rw [Guarded.of_append, List.foldl_nil, guards]
      refine ⟨.inl, fun either => either.resolve_right ?_⟩
      rintro ⟨ks, k', rest, line, member, -, -⟩
      rcases List.eq_nil_or_concat' (ks ++ [k'] ++ rest) with none_ | ⟨qs, q, whole⟩
      · simp at none_
      · rw [whole] at line member
        rw [Anchor.tip_concat, List.mem_singleton] at member
        have own := kept.entry_tip line
        rw [Anchor.tip_concat, member, found, Except.ok.injEq, Option.some.injEq, Anchor.entryOf_concat] at own
        exact absurd (congrArg Entry.above own) Bool.false_ne_true

/-- The meeting heights known so far, right. -/
def Meets (s : Store) (chain : List FullHeader) (meets : OrderedMap Bytes Int) : Prop :=
  ∀ ks k height, Line s.toAnchor s.rows.headers (ks ++ [k]) → get? meets k.id = some height →
    height = s.root.height + (meet (ks ++ [k]) chain).length

/-- Where a line meets the best chain, told by the walk and the heights known. -/
theorem Kept.meeting (kept : Kept s chain) {meets : OrderedMap Bytes Int} (right : Meets s chain meets)
    (line : Line s.toAnchor s.rows.headers hs) : ∃ meets', s.meeting (s.entryOf hs) meets =
      .ok (s.root.height + (meet hs chain).length, meets') ∧ Meets s chain meets' := by
  obtain ⟨p, r, rfl, run, there, past⟩ := kept.off (fun other => (get? meets other.id).isSome) line
  have first := kept.tree.beginning line (List.prefix_append p r)
  have off : ∀ x, x ≠ [] → x <+: r → ¬ p ++ x <+: chain := fun x some_ within => (past x some_ within).1
  have height : (if s.onBest (s.entryOf p) then (s.entryOf p).height else (get? meets (s.entryOf p).id).getD (s.entryOf p).height) =
      s.root.height + (meet (p ++ r) chain).length := by
    rw [meet_append off]
    by_cases on : s.onBest (s.entryOf p) = true
    · rw [if_pos on, meet_of_prefix ((kept.onBest first).mp on)]
      exact first.height
    · rw [if_neg on]
      obtain known := there.resolve_left fun within => on ((kept.onBest first).mpr within)
      obtain ⟨height, known⟩ := Option.isSome_iff_exists.mp known
      rcases List.eq_nil_or_concat' p with rfl | ⟨p, k, rfl⟩
      · exact absurd ((kept.onBest first).mpr List.nil_prefix) on
      · rw [known, Option.getD_some]
        rw [Anchor.entryOf_concat] at known
        exact right p k height first known
  refine ⟨(risen s.toAnchor p r).foldl (fun meets other => set meets other.id (s.root.height + (meet (p ++ r) chain).length)) meets, ?_,
    fun ks k own line' found => ?_⟩
  · rw [Store.meeting, run]
    simp only [bind, Except.bind, height]
    rfl
  · rw [get?_risen] at found
    split at found
    · rename_i member
      obtain ⟨other, member, same⟩ := List.mem_map.mp member
      obtain ⟨before, after, rfl⟩ := List.append_of_mem member
      have within : p ++ (before ++ [other]) <+: p ++ (before ++ other :: after) :=
        (List.prefix_append_right_inj p).mpr ⟨after, by simp⟩
      have line'' := kept.tree.beginning line within
      rw [← List.append_assoc] at line''
      have equal := kept.tree.told _ _ _ _ line' line'' same.symm
      rw [← Option.some.inj found, equal, List.append_assoc, meet_append off]
      rw [meet_append fun x some_ inner => off x some_ (inner.trans ⟨after, by simp⟩)]
    · exact right ks k own line' found

/-- A header off the best chain to be dropped below a final header's height, not on a protected path. -/
def Dropped (s : Store) (chain : List FullHeader) (ids : List Bytes) (final : Int) (id : Bytes) : Prop :=
  ∃ ks k, Line s.toAnchor s.rows.headers (ks ++ [k]) ∧ k.id = id ∧ ¬ ks ++ [k] <+: chain ∧ ¬ Guarded s chain ids id ∧
    s.root.height + (meet (ks ++ [k]) chain).length < final

/-- The side headers dropped. -/
theorem Kept.doomed (kept : Kept s chain) {keep : HeaderIds} {final : Entry}
    (guards : ∀ id, (get? keep id).isSome = true ↔ Guarded s chain done id) {meets : OrderedMap Bytes Int} (right : Meets s chain meets)
    {sides : List Bytes} (aside : ∀ id ∈ sides, id ∈ s.rows.sides) : ∃ doomed, s.doomed final keep sides meets = .ok doomed ∧
      ∀ id, id ∈ doomed ↔ id ∈ sides ∧ Dropped s chain done final.height id := by
  induction sides generalizing meets with
  | nil => exact ⟨[], rfl, by simp⟩
  | cons id sides ih =>
    obtain ⟨first, rest⟩ := List.forall_mem_cons.mp aside
    by_cases guarded : (get? keep id).isSome = true
    · obtain ⟨doomed, run, told⟩ := ih right rest
      refine ⟨doomed, by rw [Store.doomed, if_pos guarded, run], fun other => ?_⟩
      rw [told, List.mem_cons]
      refine and_congr_left fun ⟨_, _, _, _, _, free, _⟩ => ⟨.inr, fun either => either.resolve_left ?_⟩
      rintro rfl
      exact free ((guards _).mp guarded)
    · obtain ⟨held, off⟩ := (kept.sides id).mp first
      obtain ⟨row, found⟩ := Option.isSome_iff_exists.mp held
      obtain ⟨ks, k, line, rfl⟩ := kept.held id row found
      obtain ⟨meets', met, right'⟩ := kept.meeting right line
      obtain ⟨doomed, run, told⟩ := ih right' rest
      have out : ¬ ks ++ [k] <+: chain := fun within => off ((kept.listed_iff line).mpr within)
      have own : Dropped s chain done final.height k.id ↔ s.root.height + (meet (ks ++ [k]) chain).length < final.height := by
        constructor
        · rintro ⟨ks', k', line', same, -, -, low⟩
          rwa [← kept.tree.told _ _ _ _ line' line same]
        · exact fun low => ⟨ks, k, line, rfl, out, fun own => guarded ((guards _).mpr own), low⟩
      refine ⟨if s.root.height + (meet (ks ++ [k]) chain).length < final.height then k.id :: doomed else doomed, ?_, fun other => ?_⟩
      · rw [Store.doomed, if_neg guarded]
        simp only [Store.stored, line.stored rfl, bind, Except.bind, met, run, pure, Except.pure]
      · rw [List.mem_cons]
        split
        · rename_i low
          rw [List.mem_cons, told]
          constructor
          · rintro (rfl | ⟨member, dropped⟩)
            · exact ⟨.inl rfl, own.mpr low⟩
            · exact ⟨.inr member, dropped⟩
          · rintro ⟨rfl | member, dropped⟩
            · exact .inl rfl
            · exact .inr ⟨member, dropped⟩
        · rename_i high
          rw [told]
          refine and_congr_left fun dropped => ⟨.inr, fun either => either.resolve_left ?_⟩
          rintro rfl
          exact high (own.mp dropped)

/-- A store without the side headers dropped. -/
def without (s : Store) (doomed : List Bytes) : Store :=
  { s with rows := { s.rows with headers := doomed.foldl erase s.rows.headers, side := doomed.foldl erase s.rows.side } }

omit [Blake] [Autolykos] in
theorem get?_without {doomed : List Bytes} :
    get? (without s doomed).rows.headers id = if id ∈ doomed then none else get? s.rows.headers id := by
  rw [without, get?_erase_all]
  by_cases member : id ∈ doomed <;> simp [member]

omit [Blake] [Autolykos] in
theorem deletes (doomed : List Bytes) : (doomed.forM fun id => (modify fun s => { s with rows := (s.rows.delete id).removeSide id } :
    StoreWork Unit)).runs s = (.ok (), without s doomed) := by
  have folded : ∀ rows : MemoryHeaderRows, doomed.foldl (fun rows id => (rows.delete id).removeSide id) rows =
      { rows with headers := doomed.foldl erase rows.headers, side := doomed.foldl erase rows.side } := by
    induction doomed with
    | nil => exact fun _ => rfl
    | cons id doomed ih => exact fun rows => ih _
  rw [modifies fun rows id => (rows.delete id).removeSide id, folded]
  rfl

/-- What is left after a pruning is still the tree: nothing left loses its parent. -/
theorem Kept.without (kept : Kept s chain) {doomed : List Bytes} {final : Int}
    (told : ∀ id, id ∈ doomed ↔ id ∈ s.rows.sides ∧ Dropped s chain ids final id) : Kept (HeaderTree.without s doomed) chain := by
  have left : ∀ id, get? (doomed.foldl erase s.rows.headers) id = if id ∈ doomed then none else get? s.rows.headers id := fun _ => get?_without
  have onChain : ∀ h ∈ chain, h.id ∉ doomed := by
    intro h member gone
    refine ((kept.sides h.id).mp ((told h.id).mp gone).1).2 ?_
    rw [kept.listed]
    exact List.mem_map_of_mem member
  have whole : ∀ ks k, Line s.toAnchor s.rows.headers (ks ++ [k]) → k.id ∉ doomed → ∀ x ∈ ks ++ [k], x.id ∉ doomed := by
    intro ks k line stays x member gone
    obtain ⟨qs, ⟨rest, equal⟩, line'⟩ := line.member member
    obtain ⟨-, qs', x', own, same, off, free, low⟩ := (told x.id).mp gone
    have first := kept.tree.told _ _ _ _ own line' same
    rw [first] at off low
    have past : ∀ y, y ≠ [] → y <+: rest → ¬ qs ++ [x] ++ y <+: chain := fun y _ _ within => off ((List.prefix_append _ y).trans within)
    have offLast : ¬ ks ++ [k] <+: chain := fun within => off ((List.prefix_append _ rest).trans (equal ▸ within))
    refine stays ((told k.id).mpr ⟨(kept.sides k.id).mpr ⟨line.held (by simp), fun on => offLast ((kept.listed_iff line).mp on)⟩, ks, k,
      line, rfl, offLast, ?_, ?_⟩)
    · intro guarded
      rw [← equal] at line
      exact free (Guarded.below kept guarded line (by rw [equal, Anchor.tip_concat]) off)
    · rwa [← equal, meet_append past]
  have carried : ∀ hs, Line s.toAnchor s.rows.headers hs → (∀ x ∈ hs, x.id ∉ doomed) → Line s.toAnchor (doomed.foldl erase s.rows.headers) hs :=
    fun hs line stays => line.carried fun x member => by rw [left, if_neg (stays x member)]
  refine ⟨⟨kept.linked, fun h member => ?_, carried chain kept.line onChain, kept.best, kept.listed, kept.base⟩, fun id row found => ?_,
    fun id row found => ?_, fun hs h tip => ?_, fun id => ?_, erase_all_keys_nodup kept.ids _, erase_all_keys_nodup kept.sideIds _⟩
  · refine (left h.id).trans ?_
    rw [kept.fresh h member, ite_self]
  · rw [show get? (HeaderTree.without s doomed).rows.headers id = _ from left id] at found
    split at found
    · cases found
    · rename_i stays
      obtain ⟨hs, h, line, rfl⟩ := kept.held id row found
      exact ⟨hs, h, carried _ line (whole hs h line stays), rfl⟩
  · rw [show get? (HeaderTree.without s doomed).rows.headers id = _ from left id] at found
    split at found
    · cases found
    · exact kept.heaviest id row found
  · obtain ⟨before, row, after, rows, earlier⟩ := kept.first hs h tip
    have stays : h.id ∉ doomed := onChain h (tip ▸ List.mem_append_right hs (List.mem_singleton.mpr rfl))
    have split_ := (erase_all_eq s.rows.headers doomed).trans (congrArg (List.filter _) rows)
    rw [List.filter_append, List.filter_cons, if_pos (by simpa using stays)] at split_
    exact ⟨_, row, _, split_, fun entry member => earlier entry (List.mem_of_mem_filter member)⟩
  · change id ∈ (doomed.foldl erase s.rows.side).map (·.1) ↔ (get? (doomed.foldl erase s.rows.headers) id).isSome = true ∧ id ∉ s.rows.best
    have old := kept.sides id
    rw [mem_eraseAll, left]
    change _ ∧ id ∈ s.rows.sides ↔ _
    rw [old]
    split
    · rename_i gone
      simp [gone]
    · rename_i stays
      simp [stays]

/-- A pruning needs a final header on the best chain. -/
theorem Kept.prune_throws (kept : Kept s chain) {witnessed : Bytes} (off : ∀ p f, p ++ [f] <+: chain → f.id ≠ witnessed)
    (protectedIds : List Bytes) : (HeaderTree.prune witnessed protectedIds).runs s =
      (.error (.error "pruning requires a best-chain final header"), s) := by
  cases found : get? s.rows.headers witnessed with
  | none =>
    have none_ : s.stored witnessed = .ok none := by simp only [Store.stored, Anchor.stored, MemoryHeaderRows.get, found]
    simp only [HeaderTree.prune, Work.runs_bind, Work.runs_get, Work.andThen, Work.runs_lift, none_]
    rfl
  | some row =>
    obtain ⟨hs, h, line, rfl⟩ := kept.held witnessed row found
    have out : s.onBest (s.entryOf (hs ++ [h])) = false := by
      rw [← Bool.not_eq_true, kept.onBest line]
      exact fun within => off hs h within rfl
    simp only [HeaderTree.prune, Work.runs_bind, Work.runs_get, Work.andThen, Work.runs_lift, line.stored_own, out]
    rfl

/-- A pruning with a best-chain final header and known protected ones drops what meets the best chain below it and is not protected; any
other throws and leaves the store as it was. -/
theorem Kept.prune (kept : Kept s chain) (witnessed : Bytes) (protectedIds : List Bytes) :
    (∃ doomed p f, p ++ [f] <+: chain ∧ f.id = witnessed ∧ (∀ id ∈ protectedIds, s.entry id ≠ .ok none) ∧
        (HeaderTree.prune witnessed protectedIds).runs s = (.ok (), HeaderTree.without s doomed) ∧ Kept (HeaderTree.without s doomed) chain ∧
        ∀ id, id ∈ doomed ↔ Dropped s chain protectedIds f.height id) ∨
      ∃ failure, (HeaderTree.prune witnessed protectedIds).runs s = (.error failure, s) ∧
        ((∀ p f, p ++ [f] <+: chain → f.id ≠ witnessed) ∨ ∃ id ∈ protectedIds, s.entry id = .ok none) := by
  by_cases final : ∃ p f, p ++ [f] <+: chain ∧ f.id = witnessed
  · obtain ⟨p, f, within, rfl⟩ := final
    have line := kept.tree.beginning kept.line within
    have on : s.onBest (s.entryOf (p ++ [f])) = true := (kept.onBest line).mpr within
    have nothing : ∀ id, (get? ([] : HeaderIds) id).isSome = true ↔ Guarded s chain [] id := by
      intro id
      simp [Guarded]
    obtain ⟨keep, kept_, known, guards⟩ | ⟨unknown, absent⟩ := kept.keepPaths nothing protectedIds
    · rw [List.nil_append] at guards
      obtain ⟨doomed, run, told⟩ := @Kept.doomed _ _ s chain _ kept keep (s.entryOf (p ++ [f])) guards [] (fun _ _ _ _ found => by cases found)
        s.rows.sides fun _ member => member
      have height : (s.entryOf (p ++ [f])).height = f.height := by
        rw [Anchor.entryOf_concat]
        rfl
      rw [height] at told
      refine .inl ⟨doomed, p, f, within, rfl, known, ?_, kept.without told, fun id => ?_⟩
      · simp only [HeaderTree.prune, Work.runs_bind, Work.runs_get, Work.andThen, Work.runs_lift, line.stored_own, on, kept_, run, Bool.not_true,
          Bool.false_eq_true, if_false]
        exact deletes doomed
      · rw [told]
        refine and_iff_right_of_imp ?_
        rintro ⟨ks, k, line, rfl, off, -⟩
        exact (kept.sides k.id).mpr ⟨line.held (by simp), fun on => off ((kept.listed_iff line).mp on)⟩
    · refine .inr ⟨.error "unknown protected header", ?_, .inr absent⟩
      simp only [HeaderTree.prune, Work.runs_bind, Work.runs_get, Work.andThen, Work.runs_lift, line.stored_own, on, unknown, Bool.not_true,
        Bool.false_eq_true, if_false]
  · have off : ∀ p f, p ++ [f] <+: chain → f.id ≠ witnessed := fun p f within own => final ⟨p, f, within, own⟩
    exact .inr ⟨_, kept.prune_throws off protectedIds, .inl off⟩

/-- An accepted header still meets the rules. -/
theorem Rooted.fault (rooted : Rooted s chain) (line : Line s.toAnchor s.rows.headers (hs ++ [h])) (work : Bool) :
    s.fault (s.entryOf (hs ++ [h])) work = .ok none := by
  obtain ⟨before, follows, -⟩ := line.last
  have parent : (s.entryOf hs).header = .ok (s.tip hs) := rfl
  have height : (s.entryOf hs).height = (s.tip hs).height := rfl
  have score : (s.entryOf (hs ++ [h])).score = (s.entryOf hs).score + decodeCompactBits h.nBits := weight_concat
  have later := follows.later
  have own : (work && !autolykosPowValid h) = false := by rw [follows.work, Bool.not_true, Bool.and_false]
  simp only [Store.fault, rooted.parentOf line, Anchor.entryOf_header, parent, height, score, rooted.required before, follows.required, bind, Except.bind,
    Functor.map, Except.map, follows.height, ne_eq, not_true_eq_false, if_false, if_neg (show ¬ h.timestamp ≤ (s.tip hs).timestamp by omega),
    reduceCtorEq, Option.map_some, or_self, own, Bool.false_eq_true]
  rfl

theorem Rooted.bestHeights (rooted : Rooted s chain) : s.bestHeights = (List.range' 0 chain.length).map fun i : Nat => s.root.height + 1 + i := by
  have height := rooted.best_height
  have count : (s.best.height - s.root.height).toNat = chain.length := by omega
  rw [Store.bestHeights, count, List.range_eq_range']

theorem Rooted.auditBest (rooted : Rooted s chain) (work : Bool) {start count : Nat} (inside : start + count = chain.length) :
    s.auditBest work (s.entryOf (chain.take start)) ((List.range' start count).map fun i : Nat => s.root.height + 1 + i) = .ok count := by
  induction count generalizing start with
  | zero => rfl
  | succ count ih =>
    have at_ : chain[start]? = some chain[start] := List.getElem?_eq_getElem (by omega)
    have line := rooted.tree.take rooted.line (start + 1)
    rw [Branches.take_succ at_] at line
    have next := ih (show start + 1 + count = chain.length by omega)
    have parent : (s.entryOf (chain.take start ++ [chain[start]])).parentId = (s.entryOf (chain.take start)).id := by
      rw [Anchor.entryOf_concat]
      exact line.last.2.1.parent
    rw [List.range'_succ, List.map_cons, Store.auditBest, rooted.bestEntry (by omega)]
    rw [Branches.take_succ at_] at next ⊢
    simp only [bind, Except.bind, pure, Except.pure, parent, ne_eq, not_true_eq_false, if_false, rooted.fault line work, next]

theorem Kept.auditSides (kept : Kept s chain) (work : Bool) {sides : List Bytes} (aside : ∀ id ∈ sides, id ∈ s.rows.sides) :
    s.auditSides work sides = .ok sides.length := by
  induction sides with
  | nil => rfl
  | cons id sides ih =>
    obtain ⟨first, rest⟩ := List.forall_mem_cons.mp aside
    obtain ⟨held, off⟩ := (kept.sides id).mp first
    obtain ⟨row, found⟩ := Option.isSome_iff_exists.mp held
    obtain ⟨ks, k, line, rfl, rfl⟩ := kept.row found
    have out : s.onBest (s.entryOf (ks ++ [k])) = false := by
      rw [← Bool.not_eq_true, kept.onBest line]
      exact fun within => off ((kept.listed_iff line).mpr within)
    have heavy := kept.heaviest _ _ found
    have own : (s.entryOf (ks ++ [k])).score = weight (ks ++ [k]) := rfl
    have fault : s.sideFault work (some (s.entryOf (ks ++ [k]))) = .ok none := by
      simp only [Store.sideFault, out, Bool.and_false, Bool.false_eq_true, if_false, kept.best_score, own]
      rw [if_neg (Int.not_lt.mpr heavy), kept.fault line work]
    rw [Store.auditSides, line.stored_own]
    simp only [bind, Except.bind, fault, ih rest, pure, Except.pure, List.length_cons]

/-- The ids on the best chain and its sides are those held, each once. -/
theorem Kept.count (kept : Kept s chain) : chain.length + s.rows.sides.length = s.rows.headers.length := by
  have apart : (chain.map (·.id) ++ s.rows.sides).Nodup := by
    refine List.nodup_append.mpr ⟨kept.tree.keys_nodup kept.line, kept.sideIds, fun a on b aside same => ?_⟩
    rw [← kept.listed] at on
    exact ((kept.sides b).mp aside).2 (same ▸ on)
  have all : (chain.map (·.id) ++ s.rows.sides).Perm (s.rows.headers.map (·.1)) := by
    refine (List.perm_ext_iff_of_nodup apart kept.ids).mpr fun id => ?_
    rw [List.mem_append, ← kept.listed, kept.sides, ← get?_isSome_iff]
    have held : id ∈ s.rows.best → (get? s.rows.headers id).isSome = true := kept.listed_held
    tauto
  have := all.length_eq
  rwa [List.length_append, List.length_map, List.length_map] at this

theorem Kept.audit (kept : Kept s chain) (work : Bool) : s.audit work = .ok s.rows.headers.length := by
  have chain_ := kept.auditBest work (Nat.zero_add chain.length)
  rw [List.take_zero, Anchor.entryOf_nil] at chain_
  rw [Store.audit, kept.bestHeights, chain_, ← kept.count]
  simp only [bind, Except.bind, kept.auditSides work fun _ member => member, pure, Except.pure]

/-- A view of the best chain's header at a height. -/
theorem Rooted.viewAt (rooted : Rooted s chain) {i : Nat} (inside : i < chain.length) :
    s.viewAt (s.root.height + 1 + i) = .ok (view chain[i]) := by
  have at_ : chain[i]? = some chain[i] := List.getElem?_eq_getElem inside
  rw [Store.viewAt, rooted.bestEntry inside, Branches.take_succ at_, Anchor.entryOf_concat]
  rfl

theorem Rooted.bestChain (rooted : Rooted s chain) :
    s.bestChain = .ok ⟨(s.tip chain).id, s.root.height + chain.length, weight chain, chain.map view⟩ := by
  have views : s.bestHeights.mapM s.viewAt = .ok (chain.map view) := by
    rw [rooted.bestHeights, mapM_eq_ok, List.forall₂_map_left_iff, List.forall₂_map_right_iff, List.forall₂_iff_get]
    refine ⟨List.length_range', fun i inside inside' => ?_⟩
    have found := rooted.viewAt inside'
    simpa using found
  have id : s.best.id = (s.tip chain).id := by rw [rooted.best]; rfl
  have height := rooted.best_height
  rw [Store.bestChain, views, id, height, rooted.best_score]
  rfl

theorem Rooted.bestAt_view (rooted : Rooted s chain) (height : Int) : s.bestAt height =
    .ok (if s.root.height < height then (chain[(height - s.root.height - 1).toNat]?).map view else none) := by
  have top := rooted.best_height
  rw [Store.bestAt]
  by_cases inside : height ≤ s.root.height ∨ s.best.height < height
  · rw [if_pos inside]
    split
    · rw [List.getElem?_eq_none (by omega)]
      rfl
    · rfl
  · have within : (height - s.root.height - 1).toNat < chain.length := by omega
    have found := rooted.viewAt within
    have index : s.root.height + 1 + ((height - s.root.height - 1).toNat : Int) = height := by omega
    rw [index] at found
    rw [if_neg inside, if_pos (by omega), found, List.getElem?_eq_getElem within]
    rfl

/-- The store opened again over its rows is the same. -/
theorem Rooted.reopen (rooted : Rooted s chain) : s.toAnchor.store s.rows = .ok s := by
  have tip : s.toAnchor.tipOf s.rows = .ok s.best := by
    rw [rooted.best]
    rcases List.eq_nil_or_concat' chain with rfl | ⟨p, h, rfl⟩
    · have none_ : s.rows.bestHeight = none := by
        have best : s.rows.best = [] := rooted.listed
        rw [MemoryHeaderRows.bestHeight]
        split
        · rfl
        · rw [if_pos best]
      rw [Anchor.tipOf, none_]
      rfl
    · have base : s.rows.base = some (s.root.height + 1) := rooted.base.resolve_left fun ⟨_, empty⟩ => by simp at empty
      have height := rooted.line.height
      rw [Anchor.tip_concat, List.length_append, List.length_singleton] at height
      have bestHeight : s.rows.bestHeight = some h.height := by
        have some_ : s.rows.best ≠ [] := by
          rw [rooted.listed]
          simp
        have length : s.rows.best.length = p.length + 1 := by
          rw [rooted.listed, List.length_map, List.length_append, List.length_singleton]
        rw [MemoryHeaderRows.bestHeight, base]
        simp only [some_, if_false, length]
        congr 1
        omega
      have index : (h.height - s.root.height - 1).toNat = p.length := by omega
      have found : s.rows.bestAt h.height = some h.id := by
        rw [rooted.bestAt, if_pos (by omega), index, List.getElem?_concat_length]
        rfl
      have own : (s.entryOf (p ++ [h])).height = h.height := by
        rw [Anchor.entryOf_concat]
        rfl
      rw [Anchor.tipOf, bestHeight]
      simp only [found, Option.getD_some, rooted.line.stored rfl, bind, Except.bind, own, ne_eq, not_true_eq_false, if_false]
      rfl
  rw [Anchor.store, tip]
  rfl

/-- What a store answers over its best chain: of the chain, of every accepted header by its line, of the headers off it, and of an audit. -/
structure Shows (s : Store) (chain : List FullHeader) : Prop where
  best : s.bestChain = .ok ⟨(s.tip chain).id, s.root.height + chain.length, weight chain, chain.map view⟩
  heaviest : ∀ hs, Line s.toAnchor s.rows.headers hs → weight hs ≤ weight chain
  first : ∀ hs h, chain = hs ++ [h] → ∃ before row after, s.rows.headers = before ++ (h.id, row) :: after ∧
    ∀ entry ∈ before, entry.2.score < weight chain
  line : Line s.toAnchor s.rows.headers chain
  held : ∀ id, (get? s.rows.headers id).isSome = true ↔ ∃ hs h, Line s.toAnchor s.rows.headers (hs ++ [h]) ∧ h.id = id
  sides : ∀ id, id ∈ s.rows.sides ↔ ∃ hs h, Line s.toAnchor s.rows.headers (hs ++ [h]) ∧ h.id = id ∧ ¬ hs ++ [h] <+: chain
  bestAt : ∀ height, s.bestAt height =
    .ok (if s.root.height < height then (chain[(height - s.root.height - 1).toNat]?).map view else none)
  isBest : ∀ hs h, Line s.toAnchor s.rows.headers (hs ++ [h]) → s.isBest h.id = .ok (decide (hs ++ [h] <+: chain))
  forkHeight : ∀ hs h, Line s.toAnchor s.rows.headers (hs ++ [h]) →
    s.forkHeight h.id = .ok (some (s.root.height + (meet (hs ++ [h]) chain).length))
  offBest : ∀ hs h, Line s.toAnchor s.rows.headers (hs ++ [h]) →
    s.offBest h.id = .ok (((hs ++ [h]).drop (meet (hs ++ [h]) chain).length).map (·.id)).reverse
  bytesOf : ∀ hs h, Line s.toAnchor s.rows.headers (hs ++ [h]) → s.bytesOf h.id = .ok (some h.bytes)
  lookups : ∀ hs, Line s.toAnchor s.rows.headers hs → ∀ steps : Nat,
    s.ancestorAt (s.entryOf hs) ((s.tip hs).height - steps) = s.up steps (s.entryOf hs)
  audit : ∀ work, s.audit work = .ok s.rows.headers.length
  reopen : s.toAnchor.store s.rows = .ok s

theorem Kept.shows (kept : Kept s chain) : Shows s chain where
  best := kept.bestChain
  heaviest hs line := by
    rcases List.eq_nil_or_concat' hs with rfl | ⟨hs, h, rfl⟩
    · rcases List.eq_nil_or_concat' chain with rfl | ⟨p, k, rfl⟩
      · exact Int.le_refl _
      · exact (kept.line.positive (by simp)).le
    · exact kept.heaviest _ _ line.last.2.2
  first := kept.first
  line := kept.line
  held id := by
    constructor
    · intro held
      obtain ⟨row, found⟩ := Option.isSome_iff_exists.mp held
      exact kept.held id row found
    · rintro ⟨hs, h, line, rfl⟩
      exact line.held (by simp)
  sides id := by
    rw [kept.sides]
    constructor
    · rintro ⟨held, off⟩
      obtain ⟨row, found⟩ := Option.isSome_iff_exists.mp held
      obtain ⟨hs, h, line, rfl⟩ := kept.held id row found
      exact ⟨hs, h, line, rfl, fun within => off ((kept.listed_iff line).mpr within)⟩
    · rintro ⟨hs, h, line, rfl, off⟩
      exact ⟨line.held (by simp), fun on => off ((kept.listed_iff line).mp on)⟩
  bestAt := kept.bestAt_view
  isBest hs h line := by
    rw [Store.isBest, line.stored_own]
    have same : s.onBest (s.entryOf (hs ++ [h])) = decide (hs ++ [h] <+: chain) := by
      rw [Bool.eq_iff_iff, kept.onBest line, decide_eq_true_eq]
    simp only [bind, Except.bind, Option.any_some, same]
    rfl
  forkHeight hs h line := by
    have height := (kept.tree.beginning line (meet_prefix_left (hs ++ [h]) chain)).height
    have own : (s.entryOf (meet (hs ++ [h]) chain)).height = s.root.height + (meet (hs ++ [h]) chain).length := height
    rw [Store.forkHeight, line.stored_own]
    simp only [bind, Except.bind, kept.fork line, own]
    rfl
  offBest hs h line := by
    obtain ⟨r, whole, run⟩ := kept.off_best line
    have rest := congrArg (List.drop (meet (hs ++ [h]) chain).length) whole
    rw [List.drop_left] at rest
    rw [Store.offBest, line.stored_own, rest]
    simp only [bind, Except.bind, run, risen_ids]
    rfl
  bytesOf hs h line := by
    rw [Store.bytesOf, line.stored_own]
    simp only [bind, Except.bind, Anchor.entryOf_header]
    rfl
  lookups _ line := kept.up line
  audit := kept.audit
  reopen := kept.reopen

/-- A context as the chain has it: later timestamps and positive difficulties upward. -/
structure Anchor.Authentic (anchor : Anchor) : Prop where
  timestamps : anchor.byHeight.Pairwise (·.timestamp < ·.timestamp)
  positive : ∀ h ∈ anchor.byHeight, 0 < decodeCompactBits h.nBits

theorem Line.ordered {headers : OrderedMap Bytes ErgoHeaderRow} (line : Line anchor headers hs) (linked : anchor.Linked)
    (authentic : anchor.Authentic) : (anchor.byHeight ++ hs).Pairwise (fun a b => a.height < b.height ∧ a.timestamp < b.timestamp) ∧
      (∀ h ∈ anchor.byHeight ++ hs, 0 < decodeCompactBits h.nBits) ∧ (anchor.byHeight ++ hs).getLast? = some (anchor.tip hs) := by
  induction line with
  | anchor =>
    rw [List.append_nil]
    refine ⟨List.pairwise_iff_getElem.mpr fun i j inside inside' less => ?_, authentic.positive, linked.last⟩
    have first := linked.heights i _ (List.getElem?_eq_getElem inside)
    have second := linked.heights j _ (List.getElem?_eq_getElem inside')
    exact ⟨by omega, List.pairwise_iff_getElem.mp authentic.timestamps i j inside inside' less⟩
  | @next hs h _ follows _ ih =>
    obtain ⟨ordered, positive, last⟩ := ih
    rw [← List.append_assoc]
    have height := follows.height
    have later := follows.later
    refine ⟨List.pairwise_append.mpr ⟨ordered, List.pairwise_singleton _ _, fun a member b own => ?_⟩, fun other member => ?_, by simp⟩
    · obtain rfl := List.mem_singleton.mp own
      obtain ⟨before, whole⟩ := List.getLast?_eq_some_iff.mp last
      rw [whole] at ordered member
      rcases List.mem_append.mp member with earlier | tip
      · obtain ⟨less, sooner⟩ := (List.pairwise_append.mp ordered).2.2 a earlier _ (List.mem_singleton.mpr rfl)
        exact ⟨by omega, by omega⟩
      · obtain rfl := List.mem_singleton.mp tip
        exact ⟨by omega, later⟩
    · rcases List.mem_append.mp member with old | own
      · exact positive other old
      · rw [List.mem_singleton.mp own]
        exact follows.positive

/-- Over an authentic context every line's next difficulty is defined. -/
theorem Line.difficulty {headers : OrderedMap Bytes ErgoHeaderRow} (line : Line anchor headers hs) (linked : anchor.Linked)
    (authentic : anchor.Authentic) : ∃ difficulty, anchor.difficultyAfter hs = .ok difficulty := by
  obtain ⟨ordered, positive, -⟩ := line.ordered linked authentic
  have root := linked.root_height
  have long := linked.long
  have tip := line.height
  rw [anchorContext] at long
  have epochs : EpochAncestors ((Store.epochsBack.filterMap fun i =>
      (anchor.byHeight ++ hs)[((anchor.tip hs).height - i * epoch - anchor.lowest).toNat]?).map (·.toErgoHeader)) := by
    have within : ∀ i ∈ Store.epochsBack, 0 ≤ i ∧ i ≤ 8 := by decide
    have found : ∀ i ∈ Store.epochsBack, ∃ h,
        (anchor.byHeight ++ hs)[((anchor.tip hs).height - i * epoch - anchor.lowest).toNat]? = some h := by
      intro i member
      obtain ⟨nonneg, most⟩ := within i member
      have low : anchor.lowest ≤ (anchor.tip hs).height - i * epoch := by
        simp only [epoch]
        omega
      have high : (anchor.tip hs).height - i * epoch ≤ (anchor.tip hs).height := by
        simp only [epoch]
        omega
      obtain ⟨-, h, -, -, at_⟩ := linked.ancestor_header line low high
      exact ⟨h, at_⟩
    have pairs : (Store.epochsBack.filterMap fun i =>
        (anchor.byHeight ++ hs)[((anchor.tip hs).height - i * epoch - anchor.lowest).toNat]?).Pairwise
          (fun a b => a.height < b.height ∧ a.timestamp < b.timestamp) := by
      rw [List.pairwise_filterMap]
      have back : Store.epochsBack.Pairwise (fun i j => j < i) := by decide
      refine back.imp_of_mem fun {i j} member member' less a at_ b at_' => ?_
      obtain ⟨inside, rfl⟩ := List.getElem?_eq_some_iff.mp at_
      obtain ⟨inside', rfl⟩ := List.getElem?_eq_some_iff.mp at_'
      have := within i member
      have := within j member'
      refine List.pairwise_iff_getElem.mp ordered _ _ inside inside' ?_
      simp only [epoch] at inside inside' ⊢
      omega
    refine ⟨?_, ?_, ?_, fun own member => ?_⟩
    · have count : (Store.epochsBack.filterMap fun i =>
          (anchor.byHeight ++ hs)[((anchor.tip hs).height - i * epoch - anchor.lowest).toNat]?).length = 9 :=
        (List.filterMap_length_eq_length.mpr fun i member => Option.isSome_iff_exists.mpr (found i member))
      rw [List.length_map, count]
      decide
    · exact List.pairwise_map.mpr (pairs.imp And.left)
    · exact List.pairwise_map.mpr (pairs.imp And.right)
    · obtain ⟨h, inside, rfl⟩ := List.mem_map.mp member
      obtain ⟨i, -, at_⟩ := List.mem_filterMap.mp inside
      exact positive h (List.mem_of_getElem? at_)
  rw [Anchor.difficultyAfter]
  split
  · exact ⟨_, rfl⟩
  · split
    · exact ⟨_, rfl⟩
    · unfold Store.Rules.difficulty
      split
      · obtain ⟨value, -, run, -⟩ := predictiveDifficulty_eq epochs (by decide : (0 : Int) < testnetIntervalMs) (by decide : 0 < testnetInitialDifficulty)
        exact ⟨_, run⟩
      · obtain ⟨_, value, -, -, run, -⟩ := eip37Difficulty_eq epochs
        exact ⟨_, run⟩

/-- A header offered to a store: accepted where its rules say and held last, the heavier chain the best; any other leaves the store as it was,
and none throws over an authentic context. -/
def Offered (s : Store) (chain : List FullHeader) (input : Bytes) : Prop :=
  (∃ hs h t, Accepts s input hs h ∧ (add input).runs s = (.ok .added, t) ∧ t.toAnchor = s.toAnchor ∧
      t.rows.headers = s.rows.headers ++ [(h.id, rowAfter hs h)] ∧ Shows t (if weight chain < weight (hs ++ [h]) then hs ++ [h] else chain)) ∨
    (¬ ∃ hs h, Accepts s input hs h) ∧ ((∃ answer, (add input).runs s = (.ok answer, s) ∧ answer ≠ .added) ∨
      ∃ failure, (add input).runs s = (.error failure, s) ∧ ¬ s.Authentic)

/-- A pruning of a store: where its final header is on the best chain and the protected ones are known, what is dropped is gone and nothing
else; any other throws and leaves the store as it was. -/
def Pruned (s : Store) (chain : List FullHeader) (witnessed : Bytes) (protectedIds : List Bytes) : Prop :=
  (∃ p f t, p ++ [f] <+: chain ∧ f.id = witnessed ∧ (∀ id ∈ protectedIds, s.entry id ≠ .ok none) ∧
      (prune witnessed protectedIds).runs s = (.ok (), t) ∧ t.toAnchor = s.toAnchor ∧ Shows t chain ∧
      ∀ id, (Dropped s chain protectedIds f.height id → get? t.rows.headers id = none) ∧
        (¬ Dropped s chain protectedIds f.height id → get? t.rows.headers id = get? s.rows.headers id)) ∨
    ∃ failure, (prune witnessed protectedIds).runs s = (.error failure, s) ∧
      ((∀ p f, p ++ [f] <+: chain → f.id ≠ witnessed) ∨ ∃ id ∈ protectedIds, s.entry id = .ok none)

theorem Kept.offered (kept : Kept s chain) (input : Bytes) : Offered s chain input := by
  obtain ⟨hs, h, t, accepts, run, anchor, rows, after⟩ | ⟨fails, answered | ⟨failure, hs, run, line, undefined⟩⟩ := kept.add input
  · exact .inl ⟨hs, h, t, accepts, run, anchor, rows, after.shows⟩
  · exact .inr ⟨fails, .inl answered⟩
  · refine .inr ⟨fails, .inr ⟨failure, run, fun authentic => ?_⟩⟩
    obtain ⟨difficulty, defined⟩ := line.difficulty kept.linked authentic
    rw [undefined] at defined
    cases defined

theorem Kept.pruned (kept : Kept s chain) (witnessed : Bytes) (protectedIds : List Bytes) : Pruned s chain witnessed protectedIds := by
  obtain ⟨doomed, p, f, within, same, known, run, after, told⟩ | thrown := kept.prune witnessed protectedIds
  · refine .inl ⟨p, f, _, within, same, known, run, rfl, after.shows, fun id => ?_⟩
    have left : get? (HeaderTree.without s doomed).rows.headers id = if id ∈ doomed then none else get? s.rows.headers id := get?_without
    rw [left, ← told]
    exact ⟨fun gone => if_pos gone, fun stays => if_neg stays⟩
  · exact .inr thrown

/-- An event keeps the tree and its anchor, and the best chain grows no lighter. -/
theorem Kept.after (kept : Kept s chain) (event : Event) :
    ∃ chain', Kept (s.after event) chain' ∧ (s.after event).toAnchor = s.toAnchor ∧ weight chain ≤ weight chain' := by
  cases event with
  | add input =>
    obtain ⟨hs, h, t, -, run, anchor, -, after⟩ | ⟨-, ⟨answer, run, -⟩ | ⟨failure, -, run, -⟩⟩ := kept.add input
    · refine ⟨if weight chain < weight (hs ++ [h]) then hs ++ [h] else chain, ?_, ?_, ?_⟩
      · rwa [Store.after, run]
      · rw [Store.after, run, anchor]
      · split <;> omega
    all_goals
      rw [Store.after, run]
      exact ⟨chain, kept, rfl, Int.le_refl _⟩
  | prune witnessed protectedIds =>
    obtain ⟨doomed, p, f, -, -, -, run, after, -⟩ | ⟨failure, run, -⟩ := kept.prune witnessed protectedIds
    all_goals rw [Store.after, run]
    · exact ⟨chain, after, rfl, Int.le_refl _⟩
    · exact ⟨chain, kept, rfl, Int.le_refl _⟩
  | reopen =>
    rw [Store.after, kept.reopen]
    exact ⟨chain, kept, rfl, Int.le_refl _⟩

theorem Kept.run (kept : Kept s chain) (events : List Event) :
    ∃ chain', Kept (s.run events) chain' ∧ (s.run events).toAnchor = s.toAnchor ∧ weight chain ≤ weight chain' := by
  induction events generalizing s chain with
  | nil => exact ⟨chain, kept, rfl, Int.le_refl _⟩
  | cons event events ih =>
    obtain ⟨next, after, anchor, grown⟩ := kept.after event
    obtain ⟨last, run, same, grown'⟩ := ih after
    exact ⟨last, run, same.trans anchor, by omega⟩

/-- A store opened over no rows holds nothing above its anchor. -/
theorem kept_of_opened {anchorId : Bytes} {context : List Bytes} {rules : Rules}
    (opened : ergoHeaderStore anchorId context rules {} = .ok (some s)) : Kept s [] := by
  rw [ergoHeaderStore] at opened
  split at opened
  · cases opened
  · rename_i anchor read
    have linked := readAnchor_linked read
    obtain rfl := Option.some.inj (Except.ok.inj opened)
    refine ⟨⟨linked, fun _ _ => rfl, .anchor, rfl, rfl, .inl ⟨rfl, rfl⟩⟩, fun _ _ found => ?_, fun _ _ found => ?_, fun hs h whole => ?_,
      fun id => ?_, List.nodup_nil, List.nodup_nil⟩
    · cases found
    · cases found
    · simp at whole
    · exact ⟨fun member => absurd member List.not_mem_nil, fun held => absurd held.1 Bool.false_ne_true⟩

/-- A store over a chain of the headers it holds: what it answers, and what a header offered or a pruning does to it. -/
structure Stands (s : Store) (chain : List FullHeader) : Prop where
  shows : Shows s chain
  offered : ∀ input, Offered s chain input
  pruned : ∀ witnessed protectedIds, Pruned s chain witnessed protectedIds

theorem Kept.stands (kept : Kept s chain) : Stands s chain := ⟨kept.shows, kept.offered, kept.pruned⟩

/-- Whatever headers are offered, in any order, and whatever is pruned or reopened between, the best chain is the first accepted of the
heaviest over the anchor; every answer is of that tree, and it never grows lighter. -/
theorem header_store_stands {anchorId : Bytes} {context : List Bytes} {rules : Rules}
    (opened : ergoHeaderStore anchorId context rules {} = .ok (some s)) (events : List Event) :
    ∃ chain, Stands (s.run events) chain ∧ (s.run events).toAnchor = s.toAnchor ∧
      ∀ later, ∃ chain', Stands (s.run (events ++ later)) chain' ∧ weight chain ≤ weight chain' := by
  obtain ⟨chain, kept, anchor, -⟩ := (kept_of_opened opened).run events
  refine ⟨chain, kept.stands, anchor, fun later => ?_⟩
  obtain ⟨chain', kept', -, grown⟩ := kept.run later
  rw [Store.run, List.foldl_append]
  exact ⟨chain', kept'.stands, grown⟩

end

section

local instance treeBlake : Blake := ⟨fun bytes => toBytes 32 (ofBytes ((bytes.drop 1).take 32) + 1), fun _ => toBytes_length ..⟩

local instance treeAutolykos : Autolykos where
  decodes _ := true
  equation _ _ _ _ := false
  rehashed digest := by
    refine ⟨2, ?_⟩
    have short := ofBytes_lt (((blake2b digest).drop 1).take 32)
    rw [List.length_take, List.length_drop, Blake.blake2b_length, show min 32 (32 - 1) = 31 from rfl] at short
    have below : ofBytes (((blake2b digest).drop 1).take 32) + 1 < 256 ^ 32 := by omega
    have own : ofBytes (blake2b^[2] digest) = ofBytes (((blake2b digest).drop 1).take 32) + 1 := ofBytes_toBytes below
    have range : 256 ^ 31 + 1 < modQRange := by decide
    omega

theorem bind_of {α β : Type} {first : Framer α} {next : α → Framer β} {bytes middle : Bytes} {value : α}
    (run : first bytes = some (value, middle)) : (first >>= next) bytes = next value middle := by
  simp only [bind, StateT.bind, Option.bind, run]

theorem skip_append {count : Nat} {chunk rest : Bytes} (length : chunk.length = count) : skip count (chunk ++ rest) = some ((), rest) :=
  skip_eq_some.mpr ⟨chunk, length, rfl⟩

theorem takeBytes_append {count : Nat} {chunk rest : Bytes} (length : chunk.length = count) : takeBytes count (chunk ++ rest) = some (chunk, rest) := by
  have taken : skip count (chunk ++ rest) = some ((), rest) := skip_eq_some.mpr ⟨chunk, length, rfl⟩
  simp only [takeBytes, Framer.read, bind, StateT.bind, get, getThe, MonadStateOf.get, StateT.get, pure, StateT.pure, Option.bind, taken]
  simp

/-- A quantity of two digits. -/
def twoDigits (value : Nat) : Bytes := [UInt8.ofNat (value % 128 + 128), UInt8.ofNat (value / 128)]

theorem vlq_twoDigits {max value : Nat} {rest : Bytes} (low : 128 ≤ value) (high : value < 16384) (most : value ≤ max) :
    vlq max (twoDigits value ++ rest) = some (value, rest) := by
  have first : (UInt8.ofNat (value % 128 + 128)).toNat = value % 128 + 128 := by
    rw [UInt8.toNat_ofNat']
    omega
  have second : (UInt8.ofNat (value / 128)).toNat = value / 128 := by
    rw [UInt8.toNat_ofNat']
    omega
  have more := (low_bits (UInt8.ofNat (value % 128 + 128)))
  have last := (low_bits (UInt8.ofNat (value / 128)))
  rw [first] at more
  rw [second] at last
  have none_ : UInt8.ofNat (value / 128) ≠ 0 := by
    intro none_
    have := congrArg UInt8.toNat none_
    rw [second] at this
    simp at this
    omega
  have total : (0 ||| ((value % 128 + 128) % 128) <<< 0) ||| (value / 128 % 128) <<< (0 + 7) = value := by
    rw [Nat.or_comm, ← Nat.shiftLeft_add_eq_or_of_lt]
    · rw [Nat.shiftLeft_eq]
      simp
      omega
    · simp
      omega
  rw [vlq, vlqFrom, twoDigits]
  refine bind_eq_some.mpr ⟨_, _, byte_eq_some.mpr rfl, ?_⟩
  rw [first, more.1]
  rw [if_neg (fun own => absurd (more.2.mp own) (by omega)), vlqFrom]
  refine bind_eq_some.mpr ⟨_, _, byte_eq_some.mpr rfl, ?_⟩
  rw [second, last.1, if_pos (last.2.mpr (by omega)), total]
  refine bind_eq_some.mpr ⟨(), _, guard_eq_some.mpr ⟨?_, rfl⟩, rfl⟩
  simp [none_, most]

def zeros (count : Nat) : Bytes := List.replicate count 0

/-- A header two thousand above its number, its own id the next after its parent's. -/
def sampleHeader (n : Nat) : Bytes :=
  2 :: (toBytes 32 n ++ (zeros 32 ++ (zeros 32 ++ (zeros 33 ++ (twoDigits (2000 + n) ++ (zeros 32 ++ ([1, 1, 0, 0] ++ (twoDigits (2000 + n) ++
    (zeros 3 ++ ([0] ++ (zeros 33 ++ zeros 8)))))))))))

def sampleRead (n : Nat) : FullHeader where
  height := (2000 + n : Nat)
  timestamp := (2000 + n : Nat)
  nBits := ofBytes [1, 1, 0, 0]
  bytes := sampleHeader n
  id := toBytes 32 (n + 1)
  version := 2
  parentId := toBytes 32 n
  transactionsRoot := zeros 32
  withoutPow := (sampleHeader n).take ((sampleHeader n).length - 41)
  minerKey := zeros 33
  nonce := zeros 8
  v1 := none

theorem sampleHeader_parses {n : Nat} (small : n < 10000) : parseErgoHeader (sampleHeader n) = some (sampleRead n) := by
  have unsolved : frameUnsolved (sampleHeader n) =
      some (⟨2, toBytes 32 n, zeros 32, 2000 + n, ofBytes [1, 1, 0, 0], 2000 + n⟩, zeros 33 ++ zeros 8) := by
    have zero : ∀ count, (zeros count).length = count := fun _ => List.length_replicate
    rw [sampleHeader, frameUnsolved]
    rw [bind_of (byte_eq_some.mpr rfl), bind_of (takeBytes_append (toBytes_length 32 n))]
    rw [bind_of (skip_append (zero 32)), bind_of (takeBytes_append (zero 32)), bind_of (skip_append (zero 33))]
    rw [bind_of (vlq_twoDigits (by omega) (by omega) (by rw [ergoMaxTimestamp]; omega)), bind_of (skip_append (zero 32))]
    rw [bind_of (takeBytes_append (rfl : [1, 1, 0, 0].length = 4))]
    rw [bind_of (vlq_twoDigits (by omega) (by omega) (by rw [ergoMaxHeight]; omega)), bind_of (skip_append (zero 3))]
    exact bind_of (rfl : newFields 2 ([0] ++ _) = some ((), _))
  have point : framePoint (zeros 33 ++ zeros 8) = some (zeros 33, zeros 8) := by decide +kernel
  have nonce : (do return (← takeBytes 8, none) : Framer (Bytes × Option (Bytes × Nat))) (zeros 8) = some ((zeros 8, none), []) := by
    decide +kernel
  have id : blake2b (sampleHeader n) = toBytes 32 (n + 1) := by
    have parent : ((sampleHeader n).drop 1).take 32 = toBytes 32 n := List.take_left' (toBytes_length 32 n)
    have number : ofBytes (toBytes 32 n) = n := ofBytes_toBytes (by omega)
    exact congrArg (fun k => toBytes 32 (k + 1)) ((congrArg ofBytes parent).trans number)
  rw [parseErgoHeader, unsolved]
  simp only [bind, Option.bind, point, (by decide : (2 : UInt8) ≠ 1), if_false] at nonce ⊢
  rw [nonce, id]
  rfl

theorem sampleContext_reads {k m : Nat} (small : k + m ≤ 10000) :
    readContext ((List.range' k m).map sampleHeader) ((List.range k).map sampleRead) = some ((List.range (k + m)).map sampleRead) := by
  induction m generalizing k with
  | zero => rfl
  | succ m ih =>
    have next := ih (show k + 1 + m ≤ 10000 by omega)
    rw [List.range_succ, List.map_append] at next
    have new : ∀ other ∈ (List.range k).map sampleRead, other.id ≠ (sampleRead k).id := by
      intro other member same
      obtain ⟨i, inside, rfl⟩ := List.mem_map.mp member
      have earlier := List.mem_range.mp inside
      have := toBytes_inj (by omega) (by omega) (same : toBytes 32 (i + 1) = toBytes 32 (k + 1))
      omega
    have linked : ∀ previous ∈ ((List.range k).map sampleRead).getLast?, (sampleRead k).height = previous.height + 1 ∧
        (sampleRead k).parentId = previous.id := by
      intro previous last
      cases k with
      | zero => cases last
      | succ k =>
        rw [List.range_succ, List.map_append, List.map_singleton, List.getLast?_concat] at last
        obtain rfl := Option.some.inj last
        exact ⟨by simp only [sampleRead]; omega, rfl⟩
    rw [List.range'_succ, List.map_cons, readContext, sampleHeader_parses (by omega)]
    have checked : guard (∀ other ∈ (List.range k).map sampleRead, other.id ≠ (sampleRead k).id) = some () := if_pos new
    have checked' : guard (∀ previous ∈ ((List.range k).map sampleRead).getLast?, (sampleRead k).height = previous.height + 1 ∧
        (sampleRead k).parentId = previous.id) = some () := if_pos linked
    rw [show k + (m + 1) = k + 1 + m by omega, ← next]
    simp only [bind, Option.bind, checked, checked', List.map_singleton]

/-- A testnet context of so many headers. -/
def sampleContext : List Bytes := (List.range 1025).map sampleHeader

/-- The sample context's store, nothing held above its anchor. -/
def sampleStore : Store where
  rules := .testnet
  byHeight := (List.range 1025).map sampleRead
  root := sampleRead 1024
  lowest := (sampleRead 0).height
  rows := {}
  best := parsed (sampleRead 1024) 0 false

theorem sampleStore_opens : ergoHeaderStore (toBytes 32 1025) sampleContext .testnet {} = .ok (some sampleStore) := by
  have read : readContext ((List.range' 0 1025).map sampleHeader) [] = _ := @sampleContext_reads 0 1025 (by omega)
  have long : guard ((toBytes 32 1025).length = 32 ∧ anchorContext + 1 ≤ sampleContext.length) = some () :=
    if_pos ⟨toBytes_length .., by rw [sampleContext, List.length_map, List.length_range, anchorContext]⟩
  have last : ((List.range (0 + 1025)).map sampleRead).getLast? = some (sampleRead 1024) := by
    rw [Nat.zero_add, List.range_succ, List.map_append, List.map_singleton, List.getLast?_concat]
  have first : ((List.range (0 + 1025)).map sampleRead).head? = some (sampleRead 0) := by
    rw [List.head?_map, List.head?_range]
    rfl
  have high : guard ((sampleRead 1024).id = toBytes 32 1025 ∧ (anchorContext + 1 : Int) ≤ (sampleRead 1024).height) = some () :=
    if_pos ⟨rfl, by decide⟩
  have anchored : readAnchor (toBytes 32 1025) sampleContext .testnet = some sampleStore.toAnchor := by
    rw [readAnchor, long]
    rw [sampleContext, List.range_eq_range', read]
    simp only [bind, Option.bind, last, first, high]
    rfl
  rw [ergoHeaderStore, anchored]
  rfl

/-- A store over the sample context takes its anchor's child and is opened again. -/
theorem header_store_stands_sample : ∃ (s : Store) (chain : List FullHeader),
    ergoHeaderStore (toBytes 32 1025) sampleContext .testnet {} = .ok (some s) ∧ Stands (s.run [.add (sampleHeader 1025), .reopen]) chain := by
  obtain ⟨chain, stands, -⟩ := header_store_stands sampleStore_opens [.add (sampleHeader 1025), .reopen]
  exact ⟨_, chain, sampleStore_opens, stands⟩

end

end Moe.HeaderTree
