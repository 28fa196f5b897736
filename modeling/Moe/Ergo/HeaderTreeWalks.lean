import Moe.Ergo.Grammar
import Moe.Ergo.HeaderTree
import Moe.Lib.Branches

namespace Moe.HeaderTree

open OrderedMap Framer Difficulty

section

variable {anchor : Anchor} {headers headers' : OrderedMap Bytes ErgoHeaderRow} {hs ks chain : List FullHeader} {h k : FullHeader}

/-- The last of headers above the anchor, the anchor itself where there are none. -/
def Anchor.tip (anchor : Anchor) (hs : List FullHeader) : FullHeader := hs.getLast?.getD anchor.root

@[simp] theorem Anchor.tip_nil : anchor.tip [] = anchor.root := rfl

@[simp] theorem Anchor.tip_concat : anchor.tip (hs ++ [h]) = h := by simp [Anchor.tip]

/-- The sum of the difficulties headers state. -/
def weight (hs : List FullHeader) : Int := (hs.map fun h => decodeCompactBits h.nBits).sum

@[simp] theorem weight_concat : weight (hs ++ [h]) = weight hs + decodeCompactBits h.nBits := by simp [weight]

/-- The difficulty the rules require after headers above the anchor, by their heights and the context's. -/
def Anchor.difficultyAfter (anchor : Anchor) (hs : List FullHeader) : Except Failure Int :=
  if anchor.rules = .testnet ∧ ((anchor.tip hs).height = testnetV2ActivationHeight ∨ (anchor.tip hs).height + 1 = testnetV2ActivationHeight) then
    .ok 32
  else if (anchor.tip hs).height.tmod epoch ≠ 0 then .ok (decodeCompactBits (anchor.tip hs).nBits)
  else Store.Rules.difficulty anchor.rules ((Store.epochsBack.filterMap fun i =>
    (anchor.byHeight ++ hs)[((anchor.tip hs).height - i * epoch - anchor.lowest).toNat]?).map (·.toErgoHeader))

variable [Blake] [Autolykos]

/-- A header as the rules accept it after others above the anchor. -/
structure Follows (anchor : Anchor) (hs : List FullHeader) (h : FullHeader) : Prop where
  canonical : parseErgoHeader h.bytes = some h
  parent : h.parentId = (anchor.tip hs).id
  height : h.height = (anchor.tip hs).height + 1
  later : (anchor.tip hs).timestamp < h.timestamp
  required : anchor.difficultyAfter hs = .ok (decodeCompactBits h.nBits)
  positive : 0 < decodeCompactBits h.nBits
  below : decodeCompactBits h.nBits ≤ q
  work : autolykosPowValid h = true

/-- Accepted headers from the anchor's child up, each held with the score of those to it. -/
inductive Line (anchor : Anchor) (headers : OrderedMap Bytes ErgoHeaderRow) : List FullHeader → Prop
  | anchor : Line anchor headers []
  | next {hs : List FullHeader} {h : FullHeader} : Line anchor headers hs → Follows anchor hs h →
      get? headers h.id = some ⟨h.height, h.parentId, weight (hs ++ [h]), h.bytes⟩ → Line anchor headers (hs ++ [h])

theorem Line.last (line : Line anchor headers (hs ++ [h])) : Line anchor headers hs ∧ Follows anchor hs h ∧
    get? headers h.id = some ⟨h.height, h.parentId, weight (hs ++ [h]), h.bytes⟩ := by
  generalize whole : hs ++ [h] = ks at line
  cases line with
  | anchor => simp at whole
  | next line follows row =>
    obtain ⟨rfl, same⟩ := List.append_inj' whole rfl
    obtain rfl := List.singleton_inj.mp same
    exact ⟨line, follows, row⟩

theorem Line.height (line : Line anchor headers hs) : (anchor.tip hs).height = anchor.root.height + hs.length := by
  induction line with
  | anchor => simp
  | next _ follows _ ih =>
    rw [Anchor.tip_concat, follows.height, ih, List.length_append, List.length_singleton]
    omega

theorem Line.positive (line : Line anchor headers hs) (some_ : hs ≠ []) : 0 < weight hs := by
  induction line with
  | anchor => exact absurd rfl some_
  | @next hs h _ follows _ ih =>
    rw [weight_concat]
    have := follows.positive
    by_cases none_ : hs = []
    · subst none_
      simpa [weight] using this
    · have := ih none_
      omega

/-- A line to each of a line's headers. -/
theorem Line.member (line : Line anchor headers hs) (member : h ∈ hs) : ∃ ks, ks ++ [h] <+: hs ∧ Line anchor headers (ks ++ [h]) := by
  induction line with
  | anchor => cases member
  | @next hs last line follows row ih =>
    rcases List.mem_append.mp member with earlier | own
    · obtain ⟨ks, within, line⟩ := ih earlier
      exact ⟨ks, within.trans (List.prefix_append hs [last]), line⟩
    · obtain rfl := List.mem_singleton.mp own
      exact ⟨hs, List.prefix_refl _, .next line follows row⟩

theorem Line.held (line : Line anchor headers hs) (member : h ∈ hs) : (get? headers h.id).isSome = true := by
  obtain ⟨ks, -, line⟩ := line.member member
  rw [line.last.2.2]
  rfl

/-- A line's ids are held by other rows with the same rows of them. -/
theorem Line.carried (line : Line anchor headers hs) (same : ∀ h ∈ hs, get? headers' h.id = get? headers h.id) : Line anchor headers' hs := by
  induction line with
  | anchor => exact .anchor
  | @next hs h _ follows row ih =>
    refine .next (ih fun other member => same other (List.mem_append_left _ member)) follows ?_
    rw [same h (List.mem_append_right _ (List.mem_singleton.mpr rfl)), row]

omit [Blake] [Autolykos] in
theorem takeBytes_length {count : Nat} {bytes taken rest : Bytes} (run : takeBytes count bytes = some (taken, rest)) : taken.length = count := by
  obtain ⟨skipped, own⟩ := read_eq_some run
  obtain ⟨chunk, length, whole⟩ := skip_eq_some.mp skipped
  rw [own chunk whole, length]

theorem parseErgoHeader_reads {bytes : Bytes} (parsed_ : parseErgoHeader bytes = some h) :
    h.bytes = bytes ∧ h.id = blake2b bytes ∧ h.parentId.length = 32 := by
  simp only [parseErgoHeader, Option.bind_eq_bind, Option.bind_eq_some_iff, Prod.exists] at parsed_
  obtain ⟨unsolved, solution, framed, _, _, -, _, _, _, -, _, -, made⟩ := parsed_
  obtain rfl := Option.some.inj made
  refine ⟨rfl, rfl, ?_⟩
  simp only [frameUnsolved, Framer.bind_eq_some, pure_eq_some] at framed
  obtain ⟨_, _, -, parentId, _, parent, _, _, -, _, _, -, _, _, -, _, _, -, _, _, -, _, _, -, _, _, -, _, _, -, _, _, -, rfl, -⟩ := framed
  exact takeBytes_length parent

theorem Follows.id_length (follows : Follows anchor hs h) : h.id.length = 32 ∧ h.parentId.length = 32 := by
  obtain ⟨-, id, parent⟩ := parseErgoHeader_reads follows.canonical
  exact ⟨by rw [id, Blake.blake2b_length], parent⟩

/-- Lines are the branches of a tree, where no row is the anchor's. -/
theorem Line.branches (anchor : Anchor) (headers : OrderedMap Bytes ErgoHeaderRow) (fresh : get? headers anchor.root.id = none) :
    Branches (Line anchor headers) (·.id) where
  shorter _ _ line := line.last.1
  told p q a b line line' keys := by
    have bytes : ∀ {p q : List FullHeader} {a b : FullHeader}, Line anchor headers (p ++ [a]) → Line anchor headers (q ++ [b]) → a.id = b.id →
        a = b := by
      intro p q a b line line' keys
      obtain ⟨-, follows, row⟩ := line.last
      obtain ⟨-, follows', row'⟩ := line'.last
      have same := congrArg ErgoHeaderRow.bytes (Option.some.inj (row.symm.trans (keys ▸ row')))
      have canonical := follows.canonical
      rw [show a.bytes = b.bytes from same, follows'.canonical] at canonical
      exact (Option.some.inj canonical).symm
    have rooted : ∀ {q : List FullHeader} {b : FullHeader}, Line anchor headers (q ++ [b]) → b.id ≠ anchor.root.id := by
      intro q b line root
      obtain ⟨-, -, row⟩ := line.last
      rw [root, fresh] at row
      cases row
    induction p using List.reverseRecOn generalizing q a b with
    | nil =>
      obtain rfl := bytes line line' keys
      rcases List.eq_nil_or_concat' q with rfl | ⟨q, c, rfl⟩
      · rfl
      · have up := line'.last.2.1.parent
        rw [line.last.2.1.parent, Anchor.tip_nil, Anchor.tip_concat] at up
        exact absurd up.symm (rooted line'.last.1)
    | append_singleton p c ih =>
      obtain rfl := bytes line line' keys
      rcases List.eq_nil_or_concat' q with rfl | ⟨q, d, rfl⟩
      · have up := line.last.2.1.parent
        rw [line'.last.2.1.parent, Anchor.tip_nil, Anchor.tip_concat] at up
        exact absurd up.symm (rooted line.last.1)
      · have up := line.last.2.1.parent
        rw [line'.last.2.1.parent, Anchor.tip_concat, Anchor.tip_concat] at up
        rw [ih q c d line.last.1 line'.last.1 up.symm]

/-- An anchor's context as linkage alone authenticates it. -/
structure Anchor.Linked (anchor : Anchor) : Prop where
  long : anchorContext + 1 ≤ anchor.byHeight.length
  last : anchor.byHeight.getLast? = some anchor.root
  heights : ∀ (i : Nat) (h : FullHeader), anchor.byHeight[i]? = some h → h.height = anchor.lowest + i
  parents : ∀ (i : Nat) (a b : FullHeader), anchor.byHeight[i]? = some a → anchor.byHeight[i + 1]? = some b → b.parentId = a.id
  distinct : (anchor.byHeight.map (·.id)).Nodup
  canonical : ∀ h ∈ anchor.byHeight, parseErgoHeader h.bytes = some h

theorem Anchor.Linked.root_height (linked : anchor.Linked) : anchor.root.height + 1 = anchor.lowest + anchor.byHeight.length := by
  have long := linked.long
  have last := linked.last
  rw [List.getLast?_eq_getElem?] at last
  rw [linked.heights _ _ last]
  omega

/-- The entry of the last of headers above the anchor. -/
def Anchor.entryOf (anchor : Anchor) (hs : List FullHeader) : Entry := parsed (anchor.tip hs) (weight hs) (!hs.isEmpty)

omit [Blake] [Autolykos] in
theorem Anchor.entryOf_concat : anchor.entryOf (hs ++ [h]) = parsed h (weight (hs ++ [h])) true := by
  rw [Anchor.entryOf, Anchor.tip_concat]
  cases hs <;> rfl

omit [Blake] [Autolykos] in
theorem Anchor.entryOf_header : (anchor.entryOf (hs ++ [h])).header = .ok h := by
  rw [Anchor.entryOf_concat]
  rfl

omit [Blake] [Autolykos] in
theorem Anchor.entryOf_nil : anchor.entryOf [] = parsed anchor.root 0 false := rfl

/-- What a store is made of, whatever it accepted: its anchor linked, no row of the context, and the best chain a line its rows list by
height. -/
structure Rooted (s : Store) (chain : List FullHeader) : Prop where
  linked : s.toAnchor.Linked
  fresh : ∀ h ∈ s.byHeight, get? s.rows.headers h.id = none
  line : Line s.toAnchor s.rows.headers chain
  best : s.best = s.toAnchor.entryOf chain
  listed : s.rows.best = chain.map (·.id)
  base : s.rows.base = none ∧ chain = [] ∨ s.rows.base = some (s.root.height + 1)

variable {s : Store}

theorem Anchor.Linked.root_mem (linked : anchor.Linked) : anchor.root ∈ anchor.byHeight := List.mem_of_getLast? linked.last

theorem Anchor.Linked.below (linked : anchor.Linked) (member : h ∈ anchor.byHeight) : anchor.below h.id = some (parsed h 0 false) := by
  cases found : anchor.byHeight.find? (·.id = h.id) with
  | none => exact absurd (decide_eq_true rfl) (List.find?_eq_none.mp found h member)
  | some other =>
    have same : other.id = h.id := by simpa using List.find?_some found
    rw [Anchor.below, found, List.inj_on_of_nodup_map linked.distinct (List.mem_of_find?_eq_some found) member same]
    rfl

theorem Rooted.tree (rooted : Rooted s chain) : Branches (Line s.toAnchor s.rows.headers) (·.id) :=
  Line.branches _ _ (rooted.fresh _ rooted.linked.root_mem)

theorem Rooted.best_height (rooted : Rooted s chain) : s.best.height = s.root.height + chain.length := by
  rw [rooted.best]
  exact rooted.line.height

theorem Rooted.best_score (rooted : Rooted s chain) : s.best.score = weight chain := by
  rw [rooted.best]
  rfl

theorem Rooted.listed_held {id : Bytes} (rooted : Rooted s chain) (on : id ∈ s.rows.best) : (get? s.rows.headers id).isSome = true := by
  rw [rooted.listed, List.mem_map] at on
  obtain ⟨other, member, rfl⟩ := on
  exact rooted.line.held member

theorem Rooted.listed_iff (rooted : Rooted s chain) (line : Line s.toAnchor s.rows.headers (hs ++ [h])) :
    h.id ∈ s.rows.best ↔ hs ++ [h] <+: chain := by
  rw [rooted.listed, rooted.tree.prefix_iff line rooted.line]

theorem Line.stored (line : Line anchor headers (hs ++ [h])) {rows : MemoryHeaderRows} (same : rows.headers = headers) :
    anchor.stored rows h.id = .ok (some (anchor.entryOf (hs ++ [h]))) := by
  obtain ⟨before, follows, row⟩ := line.last
  have above : ¬ h.height ≤ anchor.root.height := by
    have := line.height
    rw [Anchor.tip_concat, List.length_append, List.length_singleton] at this
    omega
  have header : Anchor.storedHeader h.id ⟨h.height, h.parentId, weight (hs ++ [h]), h.bytes⟩ = .ok h := by
    simp [Anchor.storedHeader, follows.canonical]
  rw [Anchor.stored, MemoryHeaderRows.get, same, row, Anchor.entryOf_concat]
  simp only [above, follows.id_length.2, ne_eq, not_true_eq_false, or_self, if_false, header]
  rfl

theorem Line.stored_own (line : Line s.toAnchor s.rows.headers (hs ++ [h])) : s.stored h.id = .ok (some (s.entryOf (hs ++ [h]))) :=
  line.stored rfl

theorem Rooted.entry_tip (rooted : Rooted s chain) (line : Line s.toAnchor s.rows.headers hs) :
    s.entry (s.tip hs).id = .ok (some (s.entryOf hs)) := by
  rcases List.eq_nil_or_concat' hs with rfl | ⟨hs, h, rfl⟩
  · rw [Anchor.tip_nil, Store.entry, Anchor.entry, rooted.linked.below rooted.linked.root_mem, Anchor.entryOf_nil]
  · have none_ : s.below h.id = none := by
      rw [Anchor.below, Option.map_eq_none_iff, List.find?_eq_none]
      intro other member same
      obtain ⟨-, -, row⟩ := line.last
      rw [← of_decide_eq_true same, rooted.fresh other member] at row
      cases row
    rw [Anchor.tip_concat, Store.entry, Anchor.entry, none_]
    exact line.stored rfl

theorem Rooted.parentOf (rooted : Rooted s chain) (line : Line s.toAnchor s.rows.headers (hs ++ [h])) :
    s.parentOf (s.entryOf (hs ++ [h])) = .ok (some (s.entryOf hs)) := by
  obtain ⟨before, follows, -⟩ := line.last
  rw [Anchor.entryOf_concat, Store.parentOf]
  simp only [parsed, if_true, follows.parent]
  exact rooted.entry_tip before

/-- The best chain's rows by height. -/
theorem Rooted.bestAt (rooted : Rooted s chain) (height : Int) : s.rows.bestAt height =
    if s.root.height < height then (chain[(height - s.root.height - 1).toNat]?).map (·.id) else none := by
  rw [MemoryHeaderRows.bestAt]
  obtain ⟨none_, rfl⟩ | base := rooted.base
  · rw [none_]
    simp
  · rw [base]
    simp only [rooted.listed]
    by_cases above : s.root.height < height
    · rw [if_neg (by omega), if_pos above, List.getElem?_map]
      congr 2
      omega
    · rw [if_pos (by omega), if_neg above]

theorem Rooted.bestEntry (rooted : Rooted s chain) {i : Nat} (inside : i < chain.length) :
    s.bestEntry (s.root.height + 1 + i) = .ok (s.entryOf (chain.take (i + 1))) := by
  have at_ : chain[i]? = some chain[i] := List.getElem?_eq_getElem inside
  have line := rooted.tree.take rooted.line (i + 1)
  rw [Branches.take_succ at_] at line
  have found : s.rows.bestAt (s.root.height + 1 + i) = some chain[i].id := by
    have index : (s.root.height + 1 + i - s.root.height - 1).toNat = i := by omega
    rw [rooted.bestAt, if_pos (by omega), index, at_]
    rfl
  rw [Store.bestEntry, found]
  simp only [Store.stored, line.stored rfl, Branches.take_succ at_, bind, Except.bind, pure, Except.pure]

/-- An entry is on the best chain where its line is within it. -/
theorem Rooted.onBest (rooted : Rooted s chain) (line : Line s.toAnchor s.rows.headers hs) :
    s.onBest (s.entryOf hs) = true ↔ hs <+: chain := by
  rcases List.eq_nil_or_concat' hs with rfl | ⟨hs, h, rfl⟩
  · simp [Anchor.entryOf_nil, Store.onBest, parsed]
  · have height := line.height
    rw [Anchor.tip_concat, List.length_append, List.length_singleton] at height
    have index : (h.height - s.root.height - 1).toNat = hs.length := by omega
    rw [Anchor.entryOf_concat, Store.onBest]
    simp only [parsed, Bool.not_true, Bool.false_or, decide_eq_true_eq, rooted.bestAt, index, if_pos (show s.root.height < h.height by omega)]
    constructor
    · intro same
      refine (rooted.tree.prefix_iff line rooted.line).mpr ?_
      cases at_ : chain[hs.length]? with
      | none =>
        have length := line.last.2.1.id_length.1
        rw [at_] at same
        rw [← same] at length
        cases length
      | some other =>
        rw [at_] at same
        exact List.mem_map.mpr ⟨other, List.mem_of_getElem? at_, same⟩
    · rintro ⟨rest, rfl⟩
      rw [List.append_assoc, List.getElem?_append_right (Nat.le_refl _), Nat.sub_self]
      rfl

/-- The entries of a line from its last down to the first past a beginning. -/
def risen (anchor : Anchor) (p r : List FullHeader) : List Entry := (List.range r.length).reverse.map fun i => anchor.entryOf (p ++ r.take (i + 1))

omit [Blake] [Autolykos] in
theorem risen_concat (p r : List FullHeader) : risen anchor p (r ++ [h]) = anchor.entryOf (p ++ r ++ [h]) :: risen anchor p r := by
  rw [risen, List.length_append, List.length_singleton, List.range_succ, List.reverse_append, List.reverse_singleton, List.singleton_append,
    List.map_cons, List.take_of_length_le (by simp), List.append_assoc, risen]
  congr 1
  refine List.map_congr_left fun i member => ?_
  rw [List.mem_reverse, List.mem_range] at member
  rw [List.take_append_of_le_length (by omega)]

omit [Blake] [Autolykos] in
theorem risen_ids (p r : List FullHeader) : (risen anchor p r).map (·.id) = (r.map (·.id)).reverse := by
  induction r using List.reverseRecOn with
  | nil => rfl
  | append_singleton r h ih => rw [risen_concat, List.map_cons, ih, Anchor.entryOf_concat, List.map_append, List.reverse_append]; rfl

/-- Where a walk up a line stops: on the best chain or where it is stopped, and past there nowhere. -/
structure Stops (s : Store) (chain : List FullHeader) (stop : Entry → Bool) (p r : List FullHeader) : Prop where
  there : p <+: chain ∨ stop (s.entryOf p) = true
  past : ∀ x, x ≠ [] → x <+: r → ¬ p ++ x <+: chain ∧ stop (s.entryOf (p ++ x)) = false

theorem Rooted.walkOff (rooted : Rooted s chain) (stop : Entry → Bool) (line : Line s.toAnchor s.rows.headers hs) {left : Nat}
    (enough : hs.length < left) :
    ∃ p r, hs = p ++ r ∧ s.walkOff stop left (some (s.entryOf hs)) = .ok (risen s.toAnchor p r, some (s.entryOf p)) ∧ Stops s chain stop p r := by
  induction hs using List.reverseRecOn generalizing left with
  | nil =>
    obtain ⟨left, rfl⟩ := Nat.exists_eq_add_of_lt enough
    refine ⟨[], [], rfl, ?_, .inl List.nil_prefix, fun x some_ within => absurd (List.prefix_nil.mp within) some_⟩
    rw [Store.walkOff, (rooted.onBest line).mpr List.nil_prefix]
    rfl
  | append_singleton hs h ih =>
    rw [List.length_append, List.length_singleton] at enough
    obtain ⟨left, rfl⟩ := Nat.exists_eq_add_of_lt enough
    by_cases here : s.onBest (s.entryOf (hs ++ [h])) = true ∨ stop (s.entryOf (hs ++ [h])) = true
    · refine ⟨hs ++ [h], [], by rw [List.append_nil], ?_, here.imp_left (rooted.onBest line).mp, fun x some_ within => ?_⟩
      · rw [Store.walkOff, if_pos (by rw [Bool.or_eq_true]; exact here)]
        rfl
      · exact absurd (List.prefix_nil.mp within) some_
    · have enough' : hs.length < hs.length + 1 + left := by omega
      obtain ⟨p, r, rfl, run, stops⟩ := ih line.last.1 enough'
      refine ⟨p, r ++ [h], by rw [List.append_assoc], ?_, stops.there, fun x some_ within => ?_⟩
      · rw [Store.walkOff, if_neg (by rw [Bool.or_eq_true]; exact here), rooted.parentOf line]
        simp only [bind, Except.bind, run, risen_concat, pure, Except.pure]
      · rcases List.prefix_concat_iff.mp within with rfl | within
        · rw [← List.append_assoc]
          refine ⟨fun on => here (.inl ((rooted.onBest line).mpr on)), ?_⟩
          rw [← Bool.not_eq_true]
          exact fun stopped => here (.inr stopped)
        · exact stops.past x some_ within

theorem Rooted.enough (rooted : Rooted s chain) (line : Line s.toAnchor s.rows.headers hs) : hs.length < s.fuel (s.entryOf hs) := by
  have root := rooted.linked.root_height
  have long := rooted.linked.long
  have height : (s.entryOf hs).height = (s.tip hs).height := rfl
  have := line.height
  rw [Store.fuel, height]
  omega

theorem Rooted.off (rooted : Rooted s chain) (stop : Entry → Bool) (line : Line s.toAnchor s.rows.headers hs) :
    ∃ p r, hs = p ++ r ∧ s.off (some (s.entryOf hs)) stop = .ok (risen s.toAnchor p r, some (s.entryOf p)) ∧ Stops s chain stop p r :=
  rooted.walkOff stop line (rooted.enough line)

/-- An unstopped walk stops where the line meets the best chain. -/
theorem Rooted.off_best (rooted : Rooted s chain) (line : Line s.toAnchor s.rows.headers hs) :
    ∃ r, hs = meet hs chain ++ r ∧
      s.off (some (s.entryOf hs)) (fun _ => false) = .ok (risen s.toAnchor (meet hs chain) r, some (s.entryOf (meet hs chain))) := by
  obtain ⟨p, r, rfl, run, there, past⟩ := rooted.off (fun _ => false) line
  have on : p <+: chain := there.resolve_right Bool.false_ne_true
  have met : meet (p ++ r) chain = p := by
    rw [meet_append fun x some_ within => (past x some_ within).1, meet_of_prefix on]
  exact ⟨r, by rw [met], by rw [met, run]⟩

theorem Rooted.fork (rooted : Rooted s chain) (line : Line s.toAnchor s.rows.headers hs) :
    s.fork (s.entryOf hs) = .ok (s.entryOf (meet hs chain)) := by
  obtain ⟨r, -, run⟩ := rooted.off_best line
  rw [Store.fork, run]
  rfl

/-- The ancestor at a height of the last of headers above the anchor. -/
def Anchor.ancestor (anchor : Anchor) (hs : List FullHeader) (height : Int) : Option Entry :=
  if (anchor.tip hs).height < height then none
  else if height ≤ anchor.root.height then anchor.contextAt height
  else some (anchor.entryOf (hs.take (height - anchor.root.height).toNat))

theorem Anchor.Linked.contextAt (linked : anchor.Linked) {height : Int} (low : anchor.lowest ≤ height) (high : height ≤ anchor.root.height) :
    ∃ h, anchor.byHeight[(height - anchor.lowest).toNat]? = some h ∧ anchor.contextAt height = some (parsed h 0 false) ∧ h.height = height := by
  have root := linked.root_height
  have inside : (height - anchor.lowest).toNat < anchor.byHeight.length := by omega
  have at_ := List.getElem?_eq_getElem inside
  refine ⟨_, at_, ?_, ?_⟩
  · rw [Anchor.contextAt, if_neg (by omega), at_]
    rfl
  · rw [linked.heights _ _ at_]
    omega

theorem Anchor.Linked.contextAt_root (linked : anchor.Linked) : anchor.contextAt anchor.root.height = some (anchor.entryOf []) := by
  have root := linked.root_height
  have long := linked.long
  have last := linked.last
  rw [List.getLast?_eq_getElem?] at last
  have index : (anchor.root.height - anchor.lowest).toNat = anchor.byHeight.length - 1 := by omega
  rw [Anchor.contextAt, if_neg (by omega), index, last]
  rfl

theorem Rooted.ancestorAt (rooted : Rooted s chain) (line : Line s.toAnchor s.rows.headers hs) (height : Int) :
    s.ancestorAt (s.entryOf hs) height = .ok (s.ancestor hs height) := by
  have walk : ∀ left, hs.length < left → s.ancestorWalk height left (some (s.entryOf hs)) = .ok (s.ancestor hs height) := by
    induction hs using List.reverseRecOn with
    | nil =>
      intro left enough
      obtain ⟨left, rfl⟩ := Nat.exists_eq_add_of_lt enough
      have on : s.onBest (s.entryOf []) = true := (rooted.onBest line).mpr List.nil_prefix
      rw [Store.ancestorWalk, on, Anchor.ancestor, Anchor.tip_nil]
      have own : (s.entryOf []).height = s.root.height := rfl
      rw [own]
      by_cases low : s.root.height ≤ height
      · rw [if_pos low]
        by_cases same : s.root.height = height
        · rw [if_pos same, if_neg (by omega), if_pos (by omega), ← same, rooted.linked.contextAt_root]
        · rw [if_neg same, if_pos (by omega)]
      · rw [if_neg low, if_pos rfl, if_pos (by omega), if_neg (by omega), if_pos (by omega)]
    | append_singleton hs h ih =>
      intro left enough
      obtain ⟨left, rfl⟩ := Nat.exists_eq_add_of_lt enough
      have tip := line.height
      have before := line.last.1.height
      have own : (s.entryOf (hs ++ [h])).height = (s.tip (hs ++ [h])).height := rfl
      rw [List.length_append, List.length_singleton] at tip
      rw [Store.ancestorWalk, own]
      by_cases low : (s.tip (hs ++ [h])).height ≤ height
      · rw [if_pos low, Anchor.ancestor]
        by_cases same : (s.tip (hs ++ [h])).height = height
        · rw [if_pos same, if_neg (by omega), if_neg (by omega), List.take_of_length_le]
          rw [List.length_append, List.length_singleton]
          omega
        · rw [if_neg same, if_pos (by omega)]
      · have under : s.ancestor (hs ++ [h]) height =
            if height ≤ s.root.height then s.contextAt height else some (s.entryOf ((hs ++ [h]).take (height - s.root.height).toNat)) := by
          rw [Anchor.ancestor, if_neg (by omega)]
        rw [if_neg low, under]
        by_cases on : s.onBest (s.entryOf (hs ++ [h])) = true
        · obtain ⟨rest, whole⟩ := (rooted.onBest line).mp on
          rw [if_pos on]
          split
          · rfl
          · have top := rooted.line.height
            have best := rooted.best_height
            have length := congrArg List.length whole
            simp only [List.length_append, List.length_singleton] at length
            have inside : (height - s.root.height - 1).toNat < chain.length := by omega
            have at_ := rooted.bestEntry inside
            have index : s.root.height + 1 + ((height - s.root.height - 1).toNat : Int) = height := by omega
            have count : (height - s.root.height - 1).toNat + 1 = (height - s.root.height).toNat := by omega
            rw [index, count, ← whole, List.take_append_of_le_length (by rw [List.length_append, List.length_singleton]; omega)] at at_
            rw [if_neg (by omega), at_]
            rfl
        · rw [if_neg on, rooted.parentOf line]
          have up := ih line.last.1 (hs.length + 1 + left) (by omega)
          rw [List.length_append, List.length_singleton]
          simp only [bind, Except.bind, up]
          rw [Anchor.ancestor, if_neg (by omega)]
          split
          · rfl
          · rw [List.take_append_of_le_length (by omega)]
  exact walk _ (rooted.enough line)

/-- So many parents up from an entry. -/
def Store.up (s : Store) : Nat → Entry → Except Failure (Option Entry)
  | 0, at_ => .ok (some at_)
  | steps + 1, at_ => do
    match ← s.parentOf at_ with
    | none => return none
    | some parent => up s steps parent

theorem Anchor.Linked.ancestor_self (linked : anchor.Linked) (line : Line anchor headers hs) :
    anchor.ancestor hs (anchor.tip hs).height = some (anchor.entryOf hs) := by
  have height := line.height
  rw [Anchor.ancestor, if_neg (Int.lt_irrefl _)]
  rcases hs with _ | ⟨first, hs⟩
  · rw [Anchor.tip_nil, if_pos (Int.le_refl _), linked.contextAt_root]
  · rw [List.length_cons] at height
    rw [if_neg (by omega), List.take_of_length_le (by rw [List.length_cons]; omega)]

/-- An entry's parent is its ancestor one below it. -/
theorem Rooted.parent_ancestor (rooted : Rooted s chain) (line : Line s.toAnchor s.rows.headers hs) {height : Int} {at_ : Entry}
    (found : s.ancestor hs height = some at_) : s.parentOf at_ = .ok (s.ancestor hs (height - 1)) := by
  have tip := line.height
  by_cases above : (s.tip hs).height < height
  · rw [Anchor.ancestor, if_pos above] at found
    cases found
  by_cases context : height ≤ s.root.height
  · rw [Anchor.ancestor, if_neg above, if_pos context] at found
    by_cases low : s.lowest ≤ height
    · obtain ⟨h, -, own, same⟩ := rooted.linked.contextAt low context
      obtain rfl := Option.some.inj (own.symm.trans found)
      rw [Anchor.ancestor, if_neg (by omega), if_pos (by omega), Store.parentOf]
      simp only [parsed, Bool.false_eq_true, if_false, same]
    · rw [Anchor.contextAt, if_pos (by omega)] at found
      cases found
  · rw [Anchor.ancestor, if_neg above, if_neg context, Option.some.injEq] at found
    have inside : (height - s.root.height - 1).toNat < hs.length := by omega
    have at_index := List.getElem?_eq_getElem inside
    have count : (height - s.root.height).toNat = (height - s.root.height - 1).toNat + 1 := by omega
    have beginning := rooted.tree.take line ((height - s.root.height - 1).toNat + 1)
    rw [Branches.take_succ at_index] at beginning
    rw [count, Branches.take_succ at_index] at found
    rw [← found, rooted.parentOf beginning, Anchor.ancestor, if_neg (by omega)]
    split
    · rename_i root
      have same : height - 1 = s.root.height := by omega
      have none_ : (height - s.root.height - 1).toNat = 0 := by omega
      rw [same, rooted.linked.contextAt_root, none_, List.take_zero]
    · have less : (height - 1 - s.root.height).toNat = (height - s.root.height - 1).toNat := by omega
      rw [less]

/-- The header of an ancestor, by its height among the context's and those above. -/
theorem Anchor.Linked.ancestor_header (linked : anchor.Linked) (line : Line anchor headers hs) {height : Int} (low : anchor.lowest ≤ height)
    (high : height ≤ (anchor.tip hs).height) : ∃ at_ h, anchor.ancestor hs height = some at_ ∧ at_.header = .ok h ∧
      (anchor.byHeight ++ hs)[(height - anchor.lowest).toNat]? = some h := by
  have root := linked.root_height
  have tip := line.height
  by_cases context : height ≤ anchor.root.height
  · obtain ⟨h, found, own, -⟩ := linked.contextAt low context
    refine ⟨parsed h 0 false, h, ?_, rfl, ?_⟩
    · rw [Anchor.ancestor, if_neg (by omega), if_pos context, own]
    · rw [List.getElem?_append_left (List.getElem?_eq_some_iff.mp found).choose, found]
  · have inside : (height - anchor.root.height - 1).toNat < hs.length := by omega
    have at_index := List.getElem?_eq_getElem inside
    have count : (height - anchor.root.height).toNat = (height - anchor.root.height - 1).toNat + 1 := by omega
    have index : (height - anchor.lowest).toNat = anchor.byHeight.length + (height - anchor.root.height - 1).toNat := by omega
    refine ⟨anchor.entryOf (hs.take ((height - anchor.root.height - 1).toNat + 1)), hs[(height - anchor.root.height - 1).toNat], ?_, ?_, ?_⟩
    · rw [Anchor.ancestor, if_neg (by omega), if_neg context, count]
    · rw [Branches.take_succ at_index, Anchor.entryOf_concat]
      rfl
    · rw [index, List.getElem?_append_right (Nat.le_add_right _ _), Nat.add_sub_cancel_left, at_index]

theorem Anchor.Linked.ancestor_none (linked : anchor.Linked) (line : Line anchor headers hs) {height : Int} (high : height ≤ (anchor.tip hs).height) :
    anchor.ancestor hs height = none ↔ height < anchor.lowest := by
  have root := linked.root_height
  have long := linked.long
  constructor
  · intro none_
    by_contra low
    obtain ⟨at_, -, found, -⟩ := linked.ancestor_header line (by omega) high
    rw [found] at none_
    cases none_
  · intro low
    rw [Anchor.ancestor, if_neg (by omega), if_pos (by omega), Anchor.contextAt, if_pos low]

/-- A lookup by height walks parents one by one. -/
theorem Rooted.up (rooted : Rooted s chain) (line : Line s.toAnchor s.rows.headers hs) (steps : Nat) :
    s.ancestorAt (s.entryOf hs) ((s.tip hs).height - steps) = s.up steps (s.entryOf hs) := by
  have walk : ∀ (steps : Nat) (height : Int) (at_ : Entry), s.ancestor hs height = some at_ →
      s.up steps at_ = .ok (s.ancestor hs (height - steps)) := by
    intro steps
    induction steps with
    | zero =>
      intro height at_ found
      rw [Store.up, Int.natCast_zero, Int.sub_zero, found]
    | succ steps ih =>
      intro height at_ found
      have less : height - (steps + 1 : Nat) = height - 1 - steps := by omega
      rw [Store.up, rooted.parent_ancestor line found, less]
      cases next : s.ancestor hs (height - 1) with
      | none =>
        have high : height ≤ (s.tip hs).height := by
          by_contra higher
          rw [Anchor.ancestor, if_pos (by omega)] at found
          cases found
        have low := (rooted.linked.ancestor_none line (by omega)).mp next
        have none_ : s.ancestor hs (height - 1 - steps) = none := (rooted.linked.ancestor_none line (by omega)).mpr (by omega)
        simp only [bind, Except.bind, none_]
        rfl
      | some parent => exact ih _ _ next
  rw [rooted.ancestorAt line, walk steps _ _ (rooted.linked.ancestor_self line)]

theorem Rooted.epochAncestors (rooted : Rooted s chain) (line : Line s.toAnchor s.rows.headers hs) {back : List Int}
    (within : ∀ i ∈ back, 0 ≤ i ∧ i ≤ 8) : s.epochAncestors (s.entryOf hs) back = .ok (some (back.filterMap fun i =>
      (s.byHeight ++ hs)[((s.tip hs).height - i * epoch - s.lowest).toNat]?)) := by
  induction back with
  | nil => rfl
  | cons i back ih =>
    obtain ⟨first, rest⟩ := List.forall_mem_cons.mp within
    have root := rooted.linked.root_height
    have long := rooted.linked.long
    have tip := line.height
    have own : (s.entryOf hs).height = (s.tip hs).height := rfl
    have low : s.lowest ≤ (s.tip hs).height - i * epoch := by
      simp only [anchorContext, epoch] at long ⊢
      omega
    have high : (s.tip hs).height - i * epoch ≤ (s.tip hs).height := by
      simp only [epoch]
      omega
    obtain ⟨at_, h, found, header, index⟩ := rooted.linked.ancestor_header line low high
    rw [Store.epochAncestors, own, rooted.ancestorAt line, found, List.filterMap_cons, index]
    simp only [bind, Except.bind, header, ih rest, pure, Except.pure]
    rfl

/-- The required difficulty after a line's last header is what the rules require after the line. -/
theorem Rooted.required (rooted : Rooted s chain) (line : Line s.toAnchor s.rows.headers hs) :
    s.required (s.entryOf hs) = some <$> s.difficultyAfter hs := by
  have own : (s.entryOf hs).height = (s.tip hs).height := rfl
  have header : (s.entryOf hs).header = .ok (s.tip hs) := rfl
  rw [Store.required, own, header, Anchor.difficultyAfter]
  split
  · rfl
  · split
    · rfl
    · rw [rooted.epochAncestors line (by decide)]
      rfl

end

end Moe.HeaderTree
