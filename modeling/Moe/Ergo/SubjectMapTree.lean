import Moe.Ergo.SubjectMap

namespace Moe

open OrderedMap HashTree

/-- An entry's key. -/
def MapEntry.key (entry : MapEntry) : Nat := ofBytes ((entry.subject.drop 28).take 4)

/-- A key's entries among others, in their order. -/
def keyEntries (entries : List MapEntry) (key : Nat) : List MapEntry := entries.filter (·.key = key)

/-- The order of entries on a chain: by height, position and output. -/
def MapEntry.Before (a b : MapEntry) : Prop :=
  a.height < b.height ∨ a.height = b.height ∧ (a.position < b.position ∨ a.position = b.position ∧ a.output < b.output)

theorem subjectKey_eq {entry : MapEntry} (sized : entry.subject.length = 32) : subjectKey entry.subject = .ok entry.key := by
  rw [subjectKey, decide_eq_true sized]
  rfl

theorem MapEntry.key_lt {entry : MapEntry} (sized : entry.subject.length = 32) : entry.key < 2 ^ 32 := by
  have bound := ofBytes_lt ((entry.subject.drop 28).take 4)
  rw [List.length_take, List.length_drop, sized] at bound
  exact bound

theorem keyEntries_append (entries : List MapEntry) (entry : MapEntry) (key : Nat) :
    keyEntries (entries ++ [entry]) key = if entry.key = key then keyEntries entries key ++ [entry] else keyEntries entries key := by
  rw [keyEntries, List.filter_append]
  by_cases same : entry.key = key <;> simp [keyEntries, same]

section

variable [Crypto]

def MapEntry.chained (previous : Nat) (entry : MapEntry) : Nat :=
  poseidon2Hash [1010, previous, ofBytes (entry.subject.take 16), ofBytes (entry.subject.drop 16), entry.height, entry.position, entry.output]

/-- The chain value over a key's entries in order. -/
def chainOf (entries : List MapEntry) : Nat := entries.foldl MapEntry.chained 0

/-- The leaf of a key: over the count and the chain of its entries. -/
def leafOf (entries : List MapEntry) (key : Nat) : Nat := mapLeaf (keyEntries entries key).length (chainOf (keyEntries entries key))

/-- The root of the depth-32 tree over every key's leaf. -/
def treeRoot (entries : List MapEntry) : Nat := subtree (fun _ => mapNode) (leafOf entries) mapDepth 0

variable {map next : SubjectMap} {entries : List MapEntry} {entry : MapEntry} {key : Nat}

theorem entryChain_eq (sized : entry.subject.length = 32) (previous : Nat) : entryChain previous entry = .ok (entry.chained previous) := by
  rw [entryChain, limbsOf_eq_ok.mpr ⟨sized, rfl⟩]
  rfl

theorem chainOf_append (entries : List MapEntry) (entry : MapEntry) : chainOf (entries ++ [entry]) = entry.chained (chainOf entries) := by
  rw [chainOf, List.foldl_append]
  rfl

/-- One more entry changes its key's leaf alone. -/
theorem leafOf_append (entries : List MapEntry) (entry : MapEntry) : leafOf (entries ++ [entry]) = Function.update (leafOf entries) entry.key
    (mapLeaf ((keyEntries entries entry.key).length + 1) (entry.chained (chainOf (keyEntries entries entry.key)))) := by
  funext key
  rw [leafOf, keyEntries_append]
  by_cases same : entry.key = key
  · subst same
    rw [if_pos rfl, Function.update_self, List.length_append, List.length_singleton, chainOf_append]
  · rw [if_neg same, Function.update_of_ne (Ne.symm same)]
    rfl

theorem mapLeaf_isField (count chain : Nat) : isField (mapLeaf count chain) = true := by
  rw [mapLeaf]
  split
  · decide
  · exact Crypto.poseidon2Hash_isField _

theorem subtree_isField (entries : List MapEntry) (h i : Nat) : isField (subtree (fun _ => mapNode) (leafOf entries) h i) = true := by
  cases h with
  | zero => exact mapLeaf_isField _ _
  | succ h => exact Crypto.poseidon2Hash_isField _

theorem chainOf_isField (entries : List MapEntry) : isField (chainOf entries) = true := by
  induction entries using List.reverseRecOn with
  | nil =>
    show isField 0 = true
    decide
  | append_singleton entries entry _ =>
    rw [chainOf_append]
    exact Crypto.poseidon2Hash_isField _

theorem emptySubtree_eq (h : Nat) : emptySubtree h = emptyBlock (fun _ => mapNode) 0 h := by
  induction h with
  | zero => rfl
  | succ h ih => rw [emptySubtree, emptyBlock, ih]

namespace SubjectMap

/-- The map of some entries: each key's count, chain and entries, and every node of their tree, empty or kept. -/
structure Holds (map : SubjectMap) (entries : List MapEntry) : Prop where
  keys : ∀ key, get? map.keys key = if keyEntries entries key = [] then none
    else some ⟨(keyEntries entries key).length, chainOf (keyEntries entries key), keyEntries entries key⟩
  nodes : ∀ h ≤ mapDepth, ∀ i, map.node h i = subtree (fun _ => mapNode) (leafOf entries) h i

theorem holds_nil {height : Nat} {id : Bytes} : Holds { height, id } [] where
  keys key := by simp [keyEntries]
  nodes h _ i := by
    have blank : ∀ j, leafOf [] j = 0 := fun _ => rfl
    rw [subtree_empty fun j _ => blank j, ← emptySubtree_eq]
    rfl

theorem Holds.root (holds : map.Holds entries) : map.root = treeRoot entries := holds.nodes mapDepth (Nat.le_refl _) 0

theorem node_setNode (map : SubjectMap) (level index value h i : Nat) :
    (map.setNode level index value).node h i = if level = h ∧ index = i then value else map.node h i := by
  rw [node, setNode]
  simp only [get?_set, Prod.mk.injEq]
  split <;> rfl

/-- The branch after some levels: its index and node, and the map with the nodes of the branch so far. -/
theorem raised (map : SubjectMap) (key leaf n : Nat) :
    ((List.range n).foldl raise (map.setNode 0 key leaf, key, leaf)).2 =
        (key >>> n, climb (fun _ => mapNode) key.testBit (fun h => map.node h (beside key h)) n leaf) ∧
      ((List.range n).foldl raise (map.setNode 0 key leaf, key, leaf)).1.keys = map.keys ∧
      ((List.range n).foldl raise (map.setNode 0 key leaf, key, leaf)).1.height = map.height ∧
      ∀ h i, ((List.range n).foldl raise (map.setNode 0 key leaf, key, leaf)).1.node h i =
        if h ≤ n ∧ i = key / 2 ^ h then climb (fun _ => mapNode) key.testBit (fun h => map.node h (beside key h)) h leaf else map.node h i := by
  induction n with
  | zero =>
    refine ⟨rfl, rfl, rfl, fun h i => ?_⟩
    simp only [List.range_zero, List.foldl_nil, node_setNode]
    by_cases bottom : h = 0
    · subst bottom
      simp [climb, eq_comm]
    · rw [if_neg (by omega), if_neg (by omega)]
  | succ n ih =>
    obtain ⟨branch, keys, heights, nodes⟩ := ih
    rw [List.range_succ, List.foldl_append, List.foldl_cons, List.foldl_nil]
    generalize (List.range n).foldl raise (map.setNode 0 key leaf, key, leaf) = state at branch keys heights nodes
    obtain ⟨state, index, node_⟩ := state
    obtain ⟨rfl, rfl⟩ := Prod.mk.inj branch
    have sibling : state.node n ((key >>> n) ^^^ 1) = map.node n (beside key n) := by
      rw [← beside_eq_xor, nodes, if_neg]
      rintro ⟨_, same⟩
      exact div_ne_beside key n same.symm
    have bit : (key >>> n).testBit 0 = key.testBit n := by rw [Nat.testBit_shiftRight, Nat.add_zero]
    have above : key >>> n >>> 1 = key >>> (n + 1) := (Nat.shiftRight_add key n 1).symm
    simp only [raise, sibling, bit, above]
    refine ⟨rfl, keys, heights, fun h i => ?_⟩
    rw [node_setNode, nodes, Nat.shiftRight_eq_div_pow]
    by_cases top : h = n + 1
    · subst top
      by_cases on : i = key / 2 ^ (n + 1)
      · subst on
        simp [climb]
      · rw [if_neg (by omega), if_neg (by omega), if_neg (by omega)]
    · rw [if_neg (by omega)]
      by_cases low : h ≤ n
      · simp only [low, true_and, show h ≤ n + 1 by omega]
      · rw [if_neg (by omega), if_neg (by omega)]

/-- A key's path in the map of some entries: its count and chain, and the subtrees beside its leaf's branch. -/
theorem Holds.path (holds : map.Holds entries) (small : key < 2 ^ 32) :
    map.path key = .ok ⟨(keyEntries entries key).length, chainOf (keyEntries entries key),
      (List.range mapDepth).map fun l => subtree (fun _ => mapNode) (leafOf entries) l (beside key l)⟩ := by
  have siblings : ((List.range mapDepth).map fun l => map.node l ((key >>> l) ^^^ 1)) =
      (List.range mapDepth).map fun l => subtree (fun _ => mapNode) (leafOf entries) l (beside key l) := by
    refine List.map_congr_left fun l member => ?_
    rw [← beside_eq_xor, holds.nodes l (List.mem_range.mp member).le]
  rw [SubjectMap.path, decide_eq_true small, siblings, holds.keys]
  by_cases none_ : keyEntries entries key = []
  · rw [if_pos none_, none_]
    rfl
  · rw [if_neg none_]
    rfl

/-- A key's state, where it has none yet the empty one. -/
theorem Holds.state (holds : map.Holds entries) (key : Nat) : (get? map.keys key).getD ⟨0, 0, []⟩ =
    ⟨(keyEntries entries key).length, chainOf (keyEntries entries key), keyEntries entries key⟩ := by
  rw [holds.keys]
  by_cases none_ : keyEntries entries key = []
  · rw [if_pos none_, none_]
    rfl
  · rw [if_neg none_]
    rfl

/-- An entry appended makes the map of the entries and it. -/
theorem Holds.append (holds : map.Holds entries) (sized : entry.subject.length = 32) :
    ∃ next, map.append entry = .ok next ∧ next.Holds (entries ++ [entry]) ∧ next.height = map.height := by
  refine ⟨_, by
    rw [SubjectMap.append, subjectKey_eq sized]
    simp only [bind, Except.bind, holds.state, entryChain_eq sized]
    rfl, ⟨fun key => ?_, fun h within i => ?_⟩, ?_⟩
  · rw [setLeaf, (raised _ _ _ _).2.1]
    simp only
    rw [get?_set, keyEntries_append, holds.keys]
    by_cases same : entry.key = key
    · subst same
      rw [if_pos rfl, if_pos rfl, if_neg (by simp), List.length_append, chainOf_append]
      rfl
    · rw [if_neg same, if_neg same]
  · rw [setLeaf, (raised _ _ _ _).2.2.2, leafOf_append, ← subtree_branch holds.nodes _ within]
    simp only [within, true_and]
    rfl
  · exact (raised _ _ _ _).2.2.1

end SubjectMap

end

end Moe
