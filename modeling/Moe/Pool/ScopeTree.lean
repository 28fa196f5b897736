import Moe.Lib.OrderedMap
import Moe.Pool.Field
import Moe.Pool.NoteFrontier

namespace Moe

/-- The sign of the first difference of two byte strings, a shorter one first. -/
def compareBytes : Bytes → Bytes → Int
  | x :: xs, y :: ys => if x = y then compareBytes xs ys else x.toNat - y.toNat
  | xs, ys => xs.length - ys.length

def scopeDepth : Nat := 16
def scopeCapacity : Nat := 2 ^ scopeDepth

/-- A backing's name with the identity of its current link in its witnessed replacement chain. -/
structure ScopeEntry where
  backing : Bytes
  link : Bytes
  deriving DecidableEq

def isScopeEntry (entry : ScopeEntry) : Bool := entry.backing.length = 32 && entry.link.length = 32

/-- Each entry's backing is strictly above the one before. -/
def ascends : List ScopeEntry → Bool
  | first :: second :: rest => compareBytes first.backing second.backing < 0 && ascends (second :: rest)
  | _ => true

def isCanonicalScope (entries : List ScopeEntry) : Bool :=
  1 ≤ entries.length && entries.length ≤ scopeCapacity && entries.all isScopeEntry && ascends entries

def requireScope (entries : List ScopeEntry) : Except Failure (List ScopeEntry) := do
  require (isCanonicalScope entries) (.encoding "a scope is 1 to 65536 entries, strictly ascending by backing name")
  return entries

/-- 16 siblings, one per level, and 16 direction bits, true where the path node is the right child. -/
structure ScopePath where
  siblings : List Nat
  right : List Bool
  deriving DecidableEq

def isScopePath (path : ScopePath) : Bool :=
  path.siblings.length = scopeDepth && path.right.length = scopeDepth && path.siblings.all isField

section

variable [Crypto]

/-- The frame a leaf is the hash of. -/
def scopeLeafFrame (backing link : Nat × Nat) : List Nat := [1005, backing.1, backing.2, link.1, link.2]

/-- The frame a node is the hash of, `level` its children's. -/
def scopeNodeFrame (level left right : Nat) : List Nat := [1006, level, left, right]

def scopeLeaf (entry : ScopeEntry) : Except Failure Nat := do
  require (isScopeEntry entry) (.encoding "malformed scope entry")
  let backing ← limbsOf entry.backing
  let link ← limbsOf entry.link
  let leaf := poseidon2Hash (scopeLeafFrame backing link)
  require (leaf ≠ 0) (.encoding "scope leaf must be nonzero")
  return leaf

def scopeNode (level left right : Nat) : Nat := poseidon2Hash (scopeNodeFrame level left right)

/-- The empty subtree whose top is at each level. -/
def emptyScopeSubtree : Nat → Nat
  | 0 => 0
  | level + 1 => scopeNode level (emptyScopeSubtree level) (emptyScopeSubtree level)

/-- The root a leaf and its path carry. -/
def scopeRootOf (leaf : Nat) (path : ScopePath) : Except Failure Nat := do
  require (isScopePath path) (.encoding "malformed scope path")
  let node ← requireField leaf "leaf"
  return (List.range scopeDepth).foldl (fun node level =>
    let sibling := path.siblings.getD level 0
    if path.right.getD level false then scopeNode level sibling node else scopeNode level node sibling) node

/-- Whether a path carries `leaf` to `root`. -/
def scopePathProves (root leaf : Nat) (path : ScopePath) : Bool :=
  match scopeRootOf leaf path with
  | .ok own => own = root
  | .error _ => false

/-- A canonical scope with its tree: `levels[l][i]` is the node at a level over the used prefix, absent nodes empty. -/
structure ScopeTree where
  list : List ScopeEntry
  levels : List (List Nat)
  positions : OrderedMap Bytes Nat

/-- The nodes over a level's, a missing last right child empty. -/
def scopeAbove (level : Nat) (below : List Nat) : List Nat :=
  (List.range ((below.length + 1) / 2)).map fun i => scopeNode level (below.getD (2 * i) 0) (below.getD (2 * i + 1) (emptyScopeSubtree level))

/-- The levels over the leaves, from theirs up. -/
def scopeLevels (leaves : List Nat) : List (List Nat) :=
  (List.range scopeDepth).foldl (fun levels level => levels ++ [scopeAbove level (levels.getD level [])]) [leaves]

namespace ScopeTree

def of (entries : List ScopeEntry) : Except Failure ScopeTree := do
  let list ← requireScope entries
  let leaves ← list.mapM scopeLeaf
  return {
    list, levels := scopeLevels leaves
    positions := list.zipIdx.foldl (fun positions (entry, i) => positions.set (hexText entry.backing) i) [] }

variable (tree : ScopeTree)

def root : Nat := (tree.levels.getD scopeDepth []).getD 0 0

/-- The leaf position of a backing in scope. -/
def indexOf (backing : Bytes) : Option Nat := if backing.length = 32 then tree.positions.get? (hexText backing) else none

def has (backing : Bytes) : Bool := (tree.indexOf backing).isSome

def entry (backing : Bytes) : Option ScopeEntry := (tree.indexOf backing).bind fun index => tree.list[index]?

/-- The path for the entry at a position, against the root. -/
def path (index : Nat) : Except Failure ScopePath := do
  require (index < tree.list.length) (.encoding "no scope entry at that position")
  return {
    siblings := (List.range scopeDepth).map fun level =>
      let i := index / 2 ^ level
      (tree.levels.getD level []).getD (if i % 2 = 1 then i - 1 else i + 1) (emptyScopeSubtree level)
    right := (List.range scopeDepth).map fun level => index / 2 ^ level % 2 = 1 }

def pathFor (backing : Bytes) : Except Failure (Option ScopePath) :=
  match tree.indexOf backing with
  | none => .ok none
  | some index => do return some (← tree.path index)

end ScopeTree

/-- The root of a canonical scope. -/
def scopeRoot (entries : List ScopeEntry) : Except Failure Nat := do return (← ScopeTree.of entries).root

end

end Moe

namespace Moe

open HashTree

namespace HashTree

variable {α : Type*} {node : Nat → α → α → α} {zero : α}

/-- Where equal blocks have equal halves, one top block stands over one row of blocks at each height. -/
theorem block_inj {leaves other : List α} {height : Nat} (top : block node zero leaves height 0 = block node zero other height 0)
    (apart : ∀ h < height, ∀ i, block node zero leaves (h + 1) i = block node zero other (h + 1) i →
      block node zero leaves h (2 * i) = block node zero other h (2 * i) ∧
        block node zero leaves h (2 * i + 1) = block node zero other h (2 * i + 1)) {k : Nat} (small : k ≤ height) :
    ∀ i < 2 ^ k, block node zero leaves (height - k) i = block node zero other (height - k) i := by
  induction k with
  | zero =>
    intro i below
    obtain rfl : i = 0 := by omega
    exact top
  | succ k ih =>
    intro i below
    have above := ih (by omega) (i / 2) (by omega)
    rw [show height - k = height - (k + 1) + 1 by omega] at above
    obtain ⟨left, right⟩ := apart _ (by omega) _ above
    rcases Nat.mod_two_eq_zero_or_one i with even | odd
    · rwa [show 2 * (i / 2) = i by omega] at left
    · rwa [show 2 * (i / 2) + 1 = i by omega] at right

end HashTree

section Order

theorem compareBytes_self (bytes : Bytes) : compareBytes bytes bytes = 0 := by
  induction bytes with
  | nil => rfl
  | cons byte rest ih => simpa [compareBytes] using ih

theorem compareBytes_trans {a b c : Bytes} (first : compareBytes a b < 0) (second : compareBytes b c < 0) : compareBytes a c < 0 := by
  induction a generalizing b c with
  | nil =>
    cases c with
    | nil =>
      cases b with
      | nil => simp [compareBytes] at first
      | cons y ys => simp [compareBytes] at second; omega
    | cons z zs => simp [compareBytes]; omega
  | cons x xs ih =>
    cases b with
    | nil => simp [compareBytes] at first; omega
    | cons y ys =>
      cases c with
      | nil => simp [compareBytes] at second; omega
      | cons z zs =>
        unfold compareBytes at first second ⊢
        split at first
        · rename_i same
          subst same
          split at second
          · rename_i same
            rw [if_pos same]
            exact ih first second
          · rename_i other
            rw [if_neg other]
            exact second
        · split at second
          · rename_i other same
            subst same
            rw [if_neg other]
            exact first
          · have apart : ¬x = z := by
              rintro rfl
              omega
            rw [if_neg apart]
            omega

/-- A canonical scope's backings ascend. -/
theorem ascends_pairwise {entries : List ScopeEntry} (ascending : ascends entries = true) :
    entries.Pairwise fun first second => compareBytes first.backing second.backing < 0 := by
  induction entries with
  | nil => exact .nil
  | cons first rest ih =>
    cases rest with
    | nil => exact List.pairwise_singleton _ _
    | cons second later =>
      rw [ascends, Bool.and_eq_true, decide_eq_true_eq] at ascending
      have below := ih ascending.2
      refine List.pairwise_cons.mpr ⟨fun entry member => ?_, below⟩
      rcases List.mem_cons.mp member with rfl | inside
      · exact ascending.1
      · exact compareBytes_trans ascending.1 ((List.pairwise_cons.mp below).1 entry inside)

end Order

section Levels

variable [Crypto] {leaves : List Nat}

/-- The node over the `i`-th block of `2 ^ h` leaves, those not in use the empty leaf. -/
def scopeBlock (leaves : List Nat) (h i : Nat) : Nat := block scopeNode 0 leaves h i

theorem emptyScopeSubtree_eq (h : Nat) : emptyScopeSubtree h = emptyBlock scopeNode 0 h := by
  induction h with
  | zero => rfl
  | succ h ih => rw [emptyScopeSubtree, emptyBlock, ih]

/-- A level over the used prefix: its nodes are the blocks, the absent ones empty. -/
structure ScopeLevel (leaves row : List Nat) (h : Nat) : Prop where
  node : ∀ i, row.getD i (emptyScopeSubtree h) = scopeBlock leaves h i
  used : ∀ i, i < row.length ↔ i * 2 ^ h < leaves.length

theorem scopeLevel_leaves : ScopeLevel leaves leaves 0 where
  node i := rfl
  used i := by simp

theorem ScopeLevel.above {row : List Nat} {h : Nat} (level : ScopeLevel leaves row h) : ScopeLevel leaves (scopeAbove h row) (h + 1) := by
  have used : ∀ i, i < (scopeAbove h row).length ↔ i * 2 ^ (h + 1) < leaves.length := by
    intro i
    have left := level.used (2 * i)
    rw [show 2 * i * 2 ^ h = i * 2 ^ (h + 1) by ring] at left
    rw [← left, scopeAbove, List.length_map, List.length_range]
    omega
  refine ⟨fun i => ?_, used⟩
  by_cases inside : i < (scopeAbove h row).length
  · have short := inside
    rw [scopeAbove, List.length_map, List.length_range] at short
    rw [List.getD_eq_getElem _ _ inside]
    simp only [scopeAbove, List.getElem_map, List.getElem_range]
    have left : row.getD (2 * i) 0 = row.getD (2 * i) (emptyScopeSubtree h) := by
      rw [List.getD_eq_getElem _ _ (by omega), List.getD_eq_getElem _ _ (by omega)]
    rw [left, level.node, level.node]
    rfl
  · have past : leaves.length ≤ i * 2 ^ (h + 1) := Nat.le_of_not_lt fun before => inside ((used i).mpr before)
    rw [List.getD_eq_default _ _ (Nat.le_of_not_lt inside), emptyScopeSubtree_eq]
    exact (block_empty past).symm

theorem scopeLevels_level {h : Nat} (inside : h ≤ scopeDepth) : ScopeLevel leaves ((scopeLevels leaves).getD h []) h := by
  have steps : ∀ k ≤ scopeDepth, ((List.range k).foldl (fun levels level => levels ++ [scopeAbove level (levels.getD level [])]) [leaves]).length = k + 1 ∧
      ∀ h ≤ k, ScopeLevel leaves (((List.range k).foldl (fun levels level => levels ++ [scopeAbove level (levels.getD level [])]) [leaves]).getD h []) h := by
    intro k small
    induction k with
    | zero =>
      refine ⟨rfl, fun h below => ?_⟩
      obtain rfl := Nat.le_zero.mp below
      exact scopeLevel_leaves
    | succ k ih =>
      obtain ⟨length, each⟩ := ih (by omega)
      rw [List.range_succ, List.foldl_append, List.foldl_cons, List.foldl_nil]
      refine ⟨by rw [List.length_append, length, List.length_singleton], fun h below => ?_⟩
      rcases Nat.lt_or_ge h (k + 1) with old | new
      · rw [List.getD_append _ _ _ _ (by omega)]
        exact each h (by omega)
      · obtain rfl : h = k + 1 := by omega
        rw [List.getD_append_right _ _ _ _ (by omega), length, Nat.sub_self, List.getD_cons_zero]
        exact (each k (Nat.le_refl k)).above
  exact (steps scopeDepth (Nat.le_refl _)).2 h inside

end Levels

section Positions

/-- A list's keys set to their places: each key is at its own. -/
theorem get?_positions {entries : List ScopeEntry} {key : Bytes} {start : Nat} {positions : OrderedMap Bytes Nat}
    (apart : (entries.map (·.backing)).Nodup) (place : Nat) :
    ((entries.zipIdx start).foldl (fun positions (entry, i) => positions.set (hexText entry.backing) i) positions).get? (hexText key) = some place ↔
      (∃ k, place = start + k ∧ (entries[k]?).map (·.backing) = some key) ∨ key ∉ entries.map (·.backing) ∧ positions.get? (hexText key) = some place := by
  induction entries generalizing start positions with
  | nil => simp
  | cons first rest ih =>
    rw [List.map_cons, List.nodup_cons] at apart
    rw [List.zipIdx_cons, List.foldl_cons, ih apart.2, OrderedMap.get?_set]
    constructor
    · rintro (⟨k, rfl, found⟩ | ⟨absent, found⟩)
      · exact .inl ⟨k + 1, by omega, by simpa using found⟩
      · by_cases own : first.backing = key
        · rw [own, if_pos rfl] at found
          exact .inl ⟨0, (Option.some.inj found).symm, by simp [own]⟩
        · rw [if_neg fun same => own (hexText_inj same)] at found
          exact .inr ⟨by simp [Ne.symm own, absent], found⟩
    · rintro (⟨k, rfl, found⟩ | ⟨absent, found⟩)
      · cases k with
        | zero =>
          have own : first.backing = key := by simpa using found
          rw [← own, if_pos rfl]
          exact .inr ⟨apart.1, rfl⟩
        | succ k => exact .inl ⟨k, by omega, by simpa using found⟩
      · rw [List.map_cons, List.mem_cons, not_or] at absent
        rw [if_neg fun same => absent.1 (hexText_inj same).symm]
        exact .inr ⟨absent.2, found⟩

end Positions

namespace ScopeTree

variable [Crypto] {entries : List ScopeEntry} {tree : ScopeTree} {leaves : List Nat}

/-- A tree built of a scope: its leaves are the entries' and are not the empty one. -/
structure Built (entries : List ScopeEntry) (leaves : List Nat) (tree : ScopeTree) : Prop where
  canonical : isCanonicalScope entries = true
  leaf : List.Forall₂ (fun entry leaf => scopeLeaf entry = .ok leaf) entries leaves
  own : tree = ⟨entries, scopeLevels leaves, entries.zipIdx.foldl (fun positions (entry, i) => positions.set (hexText entry.backing) i) []⟩

theorem of_eq_ok : ScopeTree.of entries = .ok tree ↔ ∃ leaves, Built entries leaves tree := by
  unfold ScopeTree.of requireScope
  constructor
  · intro made
    obtain ⟨list, scope, made⟩ := bind_eq_ok.mp made
    obtain ⟨canonical, same⟩ := bind_unit_eq_ok.mp scope
    cases same
    obtain ⟨leaves, hashed, made⟩ := bind_eq_ok.mp made
    exact ⟨leaves, require_eq_ok.mp canonical, mapM_eq_ok.mp hashed, (Except.ok.inj made).symm⟩
  · rintro ⟨leaves, canonical, leaf, rfl⟩
    exact bind_eq_ok.mpr ⟨entries, bind_unit_eq_ok.mpr ⟨require_eq_ok.mpr canonical, rfl⟩, bind_eq_ok.mpr ⟨leaves, mapM_eq_ok.mpr leaf, rfl⟩⟩

omit [Crypto] in
theorem canonical_conditions (canonical : isCanonicalScope entries = true) :
    1 ≤ entries.length ∧ entries.length ≤ scopeCapacity ∧ (∀ entry ∈ entries, isScopeEntry entry = true) ∧
      (entries.map (·.backing)).Nodup := by
  simp only [isCanonicalScope, Bool.and_eq_true, decide_eq_true_eq, List.all_eq_true] at canonical
  obtain ⟨⟨⟨some_, few⟩, each⟩, ascending⟩ := canonical
  refine ⟨some_, few, each, List.pairwise_map.mpr ((ascends_pairwise ascending).imp fun {first second} below same => ?_)⟩
  rw [same, compareBytes_self] at below
  omega

theorem scopeLeaf_eq_ok {entry : ScopeEntry} {leaf : Nat} : scopeLeaf entry = .ok leaf ↔ isScopeEntry entry = true ∧
    ∃ backing link, limbsOf entry.backing = .ok backing ∧ limbsOf entry.link = .ok link ∧ leaf = poseidon2Hash (scopeLeafFrame backing link) ∧
      leaf ≠ 0 := by
  simp only [scopeLeaf, require_eq_ok, bind_eq_ok]
  constructor
  · rintro ⟨_, formed, backing, own, link, other, _, nonzero, made⟩
    cases made
    exact ⟨formed, backing, link, own, other, rfl, of_decide_eq_true nonzero⟩
  · rintro ⟨formed, backing, link, own, other, rfl, nonzero⟩
    exact ⟨(), formed, backing, own, link, other, (), decide_eq_true nonzero, rfl⟩

theorem Built.level (built : Built entries leaves tree) {h : Nat} (inside : h ≤ scopeDepth) : ScopeLevel leaves (tree.levels.getD h []) h := by
  rw [built.own]
  exact scopeLevels_level inside

theorem Built.length (built : Built entries leaves tree) : leaves.length = entries.length := built.leaf.length_eq.symm

theorem Built.root (built : Built entries leaves tree) : tree.root = scopeBlock leaves scopeDepth 0 := by
  have level := built.level (Nat.le_refl _)
  have some_ := (canonical_conditions built.canonical).1
  have inside : 0 < (tree.levels.getD scopeDepth []).length := (level.used 0).mpr (by rw [Nat.zero_mul, built.length]; exact some_)
  rw [← level.node, ScopeTree.root, List.getD_eq_getElem _ _ inside, List.getD_eq_getElem _ _ inside]

theorem leaf_isField {entry : ScopeEntry} {leaf : Nat} (made : scopeLeaf entry = .ok leaf) : isField leaf = true ∧ leaf ≠ 0 := by
  obtain ⟨-, backing, link, -, -, rfl, nonzero⟩ := scopeLeaf_eq_ok.mp made
  exact ⟨Crypto.poseidon2Hash_isField _, nonzero⟩

theorem Built.fields (built : Built entries leaves tree) : ∀ leaf ∈ leaves, isField leaf = true ∧ leaf ≠ 0 := by
  intro leaf member
  obtain ⟨i, inside, rfl⟩ := List.getElem_of_mem member
  exact leaf_isField (built.leaf.get (by rw [← built.length]; exact inside) inside)

theorem scopeBlock_isField (fields : ∀ leaf ∈ leaves, isField leaf = true ∧ leaf ≠ 0) (h i : Nat) : isField (scopeBlock leaves h i) = true := by
  cases h with
  | zero =>
    rw [scopeBlock, block]
    rcases Nat.lt_or_ge i leaves.length with inside | past
    · rw [List.getD_eq_getElem _ _ inside]
      exact (fields _ (List.getElem_mem inside)).1
    · rw [List.getD_eq_default _ _ past]
      decide
  | succ h => exact Crypto.poseidon2Hash_isField _

/-- The path of an entry folds from its leaf to the root. -/
theorem Built.path (built : Built entries leaves tree) {i : Nat} {leaf : Nat} (member : leaves[i]? = some leaf) :
    ∃ path, tree.path i = .ok path ∧ scopeRootOf leaf path = .ok tree.root := by
  have fields := built.fields
  have inside : i < leaves.length := (List.getElem?_eq_some_iff.mp member).1
  have listed : tree.list = entries := by rw [built.own]
  have room : i < 2 ^ scopeDepth := by
    have few := (canonical_conditions built.canonical).2.1
    rw [built.length] at inside
    exact Nat.lt_of_lt_of_le inside few
  have besides : ∀ h < scopeDepth, (tree.levels.getD h []).getD (if i / 2 ^ h % 2 = 1 then i / 2 ^ h - 1 else i / 2 ^ h + 1) (emptyScopeSubtree h) =
      scopeBlock leaves h (beside i h) := by
    intro h small
    rw [(built.level (Nat.le_of_lt small)).node, beside]
    congr 1
    by_cases right : i.testBit h = true
    · rw [if_pos right, if_pos ((testBit_iff i h).mp right)]
    · rw [if_neg right, if_neg fun odd => right ((testBit_iff i h).mpr odd)]
  have climbed := @climb_block _ scopeNode 0 leaves i scopeDepth
    (fun h => (tree.levels.getD h []).getD (if i / 2 ^ h % 2 = 1 then i / 2 ^ h - 1 else i / 2 ^ h + 1) (emptyScopeSubtree h)) besides
  rw [List.getD_eq_getElem?_getD, member, Option.getD_some, Nat.div_eq_of_lt room] at climbed
  refine ⟨_, bind_unit_eq_ok.mpr ⟨require_eq_ok.mpr (by rw [listed, ← built.length]; exact decide_eq_true inside), rfl⟩, ?_⟩
  have field : isField leaf = true := (fields leaf (List.mem_of_getElem? member)).1
  have formed : isScopePath ⟨(List.range scopeDepth).map fun h =>
      (tree.levels.getD h []).getD (if i / 2 ^ h % 2 = 1 then i / 2 ^ h - 1 else i / 2 ^ h + 1) (emptyScopeSubtree h),
      (List.range scopeDepth).map fun h => decide (i / 2 ^ h % 2 = 1)⟩ = true := by
    simp only [isScopePath, List.length_map, List.length_range, decide_true, Bool.true_and, List.all_map, List.all_eq_true,
      List.mem_range, Function.comp_apply]
    intro h small
    rw [besides h small]
    exact scopeBlock_isField fields _ _
  refine bind_unit_eq_ok.mpr ⟨require_eq_ok.mpr formed, bind_eq_ok.mpr ⟨leaf, ?_, ?_⟩⟩
  · rw [requireField, field]
    rfl
  · refine congrArg Except.ok ?_
    rw [built.root, scopeBlock, ← climbed, ← foldl_climb]
    refine List.foldl_ext _ _ _ fun below h member => ?_
    have small := List.mem_range.mp member
    simp only [List.getD_eq_getElem?_getD, List.getElem?_map, List.getElem?_range small, Option.map_some, Option.getD_some, decide_eq_true_eq,
      testBit_iff]

/-- A backing's place is its entry's. -/
theorem Built.indexOf (built : Built entries leaves tree) {backing : Bytes} {i : Nat} :
    tree.indexOf backing = some i ↔ (entries[i]?).map (·.backing) = some backing := by
  obtain ⟨-, -, each, apart⟩ := canonical_conditions built.canonical
  unfold ScopeTree.indexOf
  rw [built.own]
  by_cases length : backing.length = 32
  · rw [if_pos length, get?_positions apart]
    simp
  · rw [if_neg length]
    refine ⟨fun none => (by cases none), fun found => absurd ?_ length⟩
    obtain ⟨entry, member, rfl⟩ := Option.map_eq_some_iff.mp found
    have formed := each entry (List.mem_of_getElem? member)
    rw [isScopeEntry, Bool.and_eq_true, decide_eq_true_eq] at formed
    exact formed.1

/-- The frames a tree's hashes are of: its leaves', its nodes' over the used prefix and the empty subtrees'. -/
def frames (tree : ScopeTree) : List (List Nat) :=
  (tree.list.map fun entry => scopeLeafFrame (ofBytes (entry.backing.take 16), ofBytes (entry.backing.drop 16))
    (ofBytes (entry.link.take 16), ofBytes (entry.link.drop 16))) ++
  ((List.range scopeDepth).flatMap fun h => (List.range (((tree.levels.getD h []).length + 1) / 2)).map fun i =>
    scopeNodeFrame h ((tree.levels.getD h []).getD (2 * i) (emptyScopeSubtree h)) ((tree.levels.getD h []).getD (2 * i + 1) (emptyScopeSubtree h))) ++
  (List.range scopeDepth).map fun h => scopeNodeFrame h (emptyScopeSubtree h) (emptyScopeSubtree h)

/-- No frame of the one tree has another frame's hash in the other. -/
def FramesApart (first second : ScopeTree) : Prop := ∀ x ∈ first.frames, ∀ y ∈ second.frames, poseidon2Hash x = poseidon2Hash y → x = y

/-- Every block's frame is among the tree's. -/
theorem Built.node_frame (built : Built entries leaves tree) {h : Nat} (small : h < scopeDepth) (i : Nat) :
    scopeNodeFrame h (scopeBlock leaves h (2 * i)) (scopeBlock leaves h (2 * i + 1)) ∈ tree.frames := by
  have level := built.level (Nat.le_of_lt small)
  rw [frames, List.mem_append, List.mem_append]
  by_cases used : i < ((tree.levels.getD h []).length + 1) / 2
  · refine .inl (.inr (List.mem_flatMap.mpr ⟨h, List.mem_range.mpr small, List.mem_map.mpr ⟨i, List.mem_range.mpr used, ?_⟩⟩))
    rw [level.node, level.node]
  · have left : scopeBlock leaves h (2 * i) = emptyScopeSubtree h := by rw [← level.node, List.getD_eq_default _ _ (by omega)]
    have right : scopeBlock leaves h (2 * i + 1) = emptyScopeSubtree h := by rw [← level.node, List.getD_eq_default _ _ (by omega)]
    rw [left, right]
    exact .inr (List.mem_map.mpr ⟨h, List.mem_range.mpr small, rfl⟩)

theorem Built.leaf_frame (built : Built entries leaves tree) {i leaf : Nat} (member : leaves[i]? = some leaf) :
    ∃ entry, entries[i]? = some entry ∧ ∃ backing link, limbsOf entry.backing = .ok backing ∧ limbsOf entry.link = .ok link ∧
      leaf = poseidon2Hash (scopeLeafFrame backing link) ∧ scopeLeafFrame backing link ∈ tree.frames := by
  obtain ⟨inside, rfl⟩ := List.getElem?_eq_some_iff.mp member
  have inside' : i < entries.length := by rwa [← built.length]
  obtain ⟨-, backing, link, own, other, hashed, -⟩ := scopeLeaf_eq_ok.mp (built.leaf.get inside' inside)
  refine ⟨entries[i], List.getElem?_eq_getElem inside', backing, link, own, other, hashed, ?_⟩
  have listed : tree.list = entries := by rw [built.own]
  obtain ⟨-, same⟩ := limbsOf_eq_ok.mp own
  obtain ⟨-, same'⟩ := limbsOf_eq_ok.mp other
  rw [frames, List.mem_append, List.mem_append, listed, same, same']
  exact .inl (.inl (List.mem_map.mpr ⟨entries[i], List.getElem_mem inside', rfl⟩))

/-- Trees with the same root are of the same scope. -/
theorem Built.scope_inj {others : List ScopeEntry} {leaves' : List Nat} {tree' : ScopeTree} (built : Built entries leaves tree)
    (built' : Built others leaves' tree') (apart : FramesApart tree tree') (same : tree.root = tree'.root) : entries = others := by
  rw [built.root, built'.root] at same
  have blocks : ∀ i < 2 ^ scopeDepth, scopeBlock leaves 0 i = scopeBlock leaves' 0 i := by
    refine block_inj same (fun h small i equal => ?_) (Nat.le_refl scopeDepth)
    have frame := apart _ (built.node_frame small i) _ (built'.node_frame small i) equal
    simp only [scopeNodeFrame, List.cons.injEq, true_and, and_true] at frame
    exact frame
  have few := (canonical_conditions built.canonical).2.1
  have few' := (canonical_conditions built'.canonical).2.1
  rw [← built.length] at few
  rw [← built'.length] at few'
  have leafs : ∀ i, leaves.getD i 0 = leaves'.getD i 0 := by
    intro i
    rcases Nat.lt_or_ge i scopeCapacity with inside | past
    · exact blocks i inside
    · rw [List.getD_eq_default _ _ (few.trans past), List.getD_eq_default _ _ (few'.trans past)]
  have used : ∀ {own : List Nat}, (∀ leaf ∈ own, isField leaf = true ∧ leaf ≠ 0) → ∀ i, i < own.length ↔ own.getD i 0 ≠ 0 := by
    intro own fields i
    rcases Nat.lt_or_ge i own.length with inside | past
    · rw [List.getD_eq_getElem _ _ inside]
      exact iff_of_true inside (fields _ (List.getElem_mem inside)).2
    · rw [List.getD_eq_default _ _ past]
      exact iff_of_false (Nat.not_lt.mpr past) fun other => other rfl
  have lengths : ∀ i, i < leaves.length ↔ i < leaves'.length := fun i => by rw [used built.fields, used built'.fields, leafs]
  refine List.ext_getElem? fun i => ?_
  rcases Nat.lt_or_ge i leaves.length with inside | past
  · have inside' := (lengths i).mp inside
    obtain ⟨entry, at_, backing, link, own, other, hashed, frame⟩ := built.leaf_frame (List.getElem?_eq_getElem inside)
    obtain ⟨entry', at', backing', link', own', other', hashed', frame'⟩ := built'.leaf_frame (List.getElem?_eq_getElem inside')
    have equal : leaves[i] = leaves'[i] := by
      have both := leafs i
      rwa [List.getD_eq_getElem _ _ inside, List.getD_eq_getElem _ _ inside'] at both
    rw [hashed, hashed'] at equal
    have limbs := apart _ frame _ frame' equal
    simp only [scopeLeafFrame, List.cons.injEq, true_and, and_true] at limbs
    obtain ⟨bh, bl, lh, ll⟩ := limbs
    have backings : entry.backing = entry'.backing := limbsOf_inj own (by rw [own']; exact congrArg Except.ok (Prod.ext bh.symm bl.symm))
    have links : entry.link = entry'.link := limbsOf_inj other (by rw [other']; exact congrArg Except.ok (Prod.ext lh.symm ll.symm))
    rw [at_, at']
    cases entry
    cases entry'
    dsimp only at backings links
    rw [backings, links]
  · have past' : leaves'.length ≤ i := Nat.le_of_not_lt fun inside => absurd ((lengths i).mpr inside) (Nat.not_lt.mpr past)
    rw [built.length] at past
    rw [built'.length] at past'
    rw [List.getElem?_eq_none past, List.getElem?_eq_none past']

end ScopeTree

end Moe
