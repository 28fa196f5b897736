import Moe.Lib.RadixTrie
import Moe.Pool.SpentSet

namespace Moe

theorem splitAt_le (a b : Nat) : splitAt a b ≤ 256 := by
  unfold splitAt
  cases found : (List.range 256).find? fun bit => rightAt a bit != rightAt b bit with
  | none => exact le_rfl
  | some first =>
    have inside := List.mem_range.mp (List.mem_of_find?_eq_some found)
    exact inside.le

theorem splitAt_agree {a b j : Nat} (before : j < splitAt a b) : rightAt a j = rightAt b j := by
  have inside := before.trans_le (splitAt_le a b)
  by_contra differ
  unfold splitAt at before
  cases found : (List.range 256).find? fun bit => rightAt a bit != rightAt b bit with
  | none =>
    have none_ := List.find?_eq_none.mp found j (List.mem_range.mpr inside)
    exact none_ (by simpa using differ)
  | some first =>
    rw [found, Option.getD_some] at before
    have earlier := (List.find?_range_eq_some.mp found).2.2 j before
    simp [differ] at earlier

theorem splitAt_differ {a b : Nat} (inside : splitAt a b < 256) : rightAt a (splitAt a b) ≠ rightAt b (splitAt a b) := by
  unfold splitAt at inside ⊢
  cases found : (List.range 256).find? fun bit => rightAt a bit != rightAt b bit with
  | none => simp [found] at inside
  | some first => simpa using List.find?_some found

/-- Two keys have one first differing bit. -/
theorem splitAt_eq {a b i : Nat} (inside : i < 256) (same : ∀ j < i, rightAt a j = rightAt b j)
    (differ : rightAt a i ≠ rightAt b i) : splitAt a b = i := by
  refine Nat.le_antisymm ?_ ?_
  · by_contra past
    exact differ (splitAt_agree (Nat.lt_of_not_le past))
  · by_contra before
    have first := Nat.lt_of_not_le before
    exact splitAt_differ (first.trans inside) (same _ first)

theorem splitAt_self (a : Nat) : splitAt a a = 256 := by
  by_contra inside
  exact splitAt_differ (lt_of_le_of_ne (splitAt_le a a) inside) rfl

/-- A compressed trie of stored keys. -/
abbrev SpentTrie (t : Trie Nat) : Prop := Trie.Radix rightAt 256 t

/-- Keys of a trie agree with any of theirs up to its first branch. -/
theorem top_le_splitAt {t : Trie Nat} (radix : SpentTrie t) {a b : Nat} (memberA : a ∈ t.keys)
    (memberB : b ∈ t.keys) : t.top 256 ≤ splitAt a b := by
  by_contra before
  have first := Nat.lt_of_not_le before
  have inside : splitAt a b < 256 := by
    refine first.trans_le ?_
    cases t with
    | leaf key => exact le_rfl
    | branch i left right =>
      obtain ⟨-, -, inside, -, -, -⟩ := radix.branch_inv
      exact inside.le
  exact splitAt_differ inside (radix.agree a memberA b memberB _ first)

namespace RadixSpentSet

/-- A shift by less than nothing is a shift left, whose low bit is 0. -/
protected def rightAt (key bit : Nat) : Bool := bit ≤ 255 && (key >>> (255 - bit)) &&& 1 == 1

/-- 256 less the number of binary digits in which the keys differ; 0 has one digit. -/
protected def splitAt (a b : Nat) : Nat := 256 - (Nat.log2 (a ^^^ b) + 1)

theorem rightAt_eq (key : Nat) {bit : Nat} (inside : bit < 256) : RadixSpentSet.rightAt key bit = rightAt key bit := by
  have low : bit ≤ 255 := Nat.le_of_lt_succ inside
  simp only [RadixSpentSet.rightAt, rightAt, Nat.testBit, Nat.and_comm, low, decide_true, Bool.true_and]
  rcases Nat.mod_two_eq_zero_or_one (key >>> (255 - bit)) with even | odd
  · simp [Nat.one_and_eq_mod_two, even]
  · simp [Nat.one_and_eq_mod_two, odd]

theorem splitAt_of_ne {a b : Nat} (boundA : a < keyBound) (boundB : b < keyBound) (differ : a ≠ b) :
    RadixSpentSet.splitAt a b = splitAt a b := by
  have apart : a ^^^ b ≠ 0 := fun same => differ (Nat.xor_eq_zero_iff.mp same)
  have width : (a ^^^ b).log2 < 256 := (Nat.log2_lt apart).mpr (Nat.xor_lt_two_pow boundA boundB)
  refine (splitAt_eq (by unfold RadixSpentSet.splitAt; omega) ?_ ?_).symm
  · intro j before
    have high : (a ^^^ b).testBit (255 - j) = false := by
      refine Nat.testBit_lt_two_pow (Nat.lt_log2_self.trans_le (Nat.pow_le_pow_right (by decide) ?_))
      unfold RadixSpentSet.splitAt at before
      omega
    rw [Nat.testBit_xor] at high
    simpa [rightAt] using high
  · have first := Nat.testBit_log2 apart
    rw [Nat.testBit_xor] at first
    have place : 255 - RadixSpentSet.splitAt a b = (a ^^^ b).log2 := by unfold RadixSpentSet.splitAt; omega
    simpa [rightAt, place] using first

/-- A node under the key itself is never left. -/
theorem bit_eq {a b : Nat} (boundA : a < keyBound) (boundB : b < keyBound) :
    (if a = b then 256 else RadixSpentSet.splitAt a b) = splitAt a b := by
  by_cases same : a = b
  · rw [if_pos same, same, splitAt_self]
  · rw [if_neg same, splitAt_of_ne boundA boundB same]

end RadixSpentSet

section

variable [Crypto]

def spentLeafFrame (key : Nat) : Bytes := tag "moe/pool/v3/spent/leaf" ++ toBytes 32 key

def spentBranchFrame (bit : Nat) (left right : Bytes) : Bytes :=
  tag "moe/pool/v3/spent/node" ++ toBytes 2 bit ++ left ++ right

/-- The root of a compressed trie of keys. -/
def trieRoot (t : Trie Nat) : Bytes := t.digest spentLeafFrame spentBranchFrame sha256

@[simp] theorem trieRoot_leaf (key : Nat) : trieRoot (.leaf key) = spentLeafHash key := rfl

@[simp] theorem trieRoot_branch (i : Nat) (left right : Trie Nat) :
    trieRoot (.branch i left right) = spentBranchHash i (trieRoot left) (trieRoot right) := rfl

/-- A node of the spent set held in memory, its branch under the key of its left side. -/
inductive RadixTree
  | leaf (key : Nat) (hash : Bytes)
  | branch (key bit : Nat) (left right : RadixTree) (hash : Bytes)

namespace RadixTree

def key : RadixTree → Nat
  | leaf key _ => key
  | branch key _ _ _ _ => key

def hash : RadixTree → Bytes
  | leaf _ hash => hash
  | branch _ _ _ _ hash => hash

end RadixTree

/-- The spent set held in memory. -/
structure RadixSpentSet where
  tree : Option RadixTree := none
  size : Nat := 0
  hashes : Nat := 0

namespace RadixSpentSet

def keyOf (input : Bytes) : Except Failure Nat := do
  require (input.length = 32) (.typeError "a spent-set key is 32 bytes")
  return ofBytes input

def branch (bit : Nat) (left right : RadixTree) : RadixTree :=
  .branch left.key bit left right (spentBranchHash bit left.hash right.hash)

/-- The leaf a key's bits lead to. -/
def terminal (key : Nat) : RadixTree → RadixTree
  | .leaf held hash => .leaf held hash
  | .branch _ bit left right _ => if RadixSpentSet.rightAt key bit then terminal key right else terminal key left

def beside (bit key : Nat) (fresh node : RadixTree) : RadixTree :=
  if RadixSpentSet.rightAt key bit then branch bit node fresh else branch bit fresh node

/-- The tree with a new leaf, and how many branches were hashed for it. -/
def insertLeaf (key : Nat) (fresh : RadixTree) : RadixTree → RadixTree × Nat
  | .leaf held hash =>
    let bit := if held = key then 256 else RadixSpentSet.splitAt held key
    (beside bit key fresh (.leaf held hash), 1)
  | .branch held at_ left right hash =>
    let bit := if held = key then 256 else RadixSpentSet.splitAt held key
    if bit < at_ then (beside bit key fresh (.branch held at_ left right hash), 1)
    else if RadixSpentSet.rightAt key at_ then
      let (child, hashes) := insertLeaf key fresh right
      (branch at_ left child, hashes + 1)
    else
      let (child, hashes) := insertLeaf key fresh left
      (branch at_ child right, hashes + 1)

def root (set : RadixSpentSet) : Bytes := (set.tree.map RadixTree.hash).getD emptySpent

def has (set : RadixSpentSet) (input : Bytes) : Except Failure Bool := do
  let key ← keyOf input
  return set.tree.any fun tree => (terminal key tree).key = key

protected def insert (set : RadixSpentSet) (input : Bytes) : Except Failure RadixSpentSet := do
  let key ← keyOf input
  require (!set.tree.any fun tree => (terminal key tree).key = key) (.error "nullifier already in the spent set")
  let fresh := RadixTree.leaf key (sha256 (tag "moe/pool/v3/spent/leaf" ++ input))
  match set.tree with
  | none => return { tree := some fresh, size := set.size + 1, hashes := set.hashes + 1 }
  | some tree =>
    let (tree, hashes) := insertLeaf key fresh tree
    return { tree := some tree, size := set.size + 1, hashes := set.hashes + (hashes + 1) }

end RadixSpentSet

namespace RadixTree

def trie : RadixTree → Trie Nat
  | leaf key _ => .leaf key
  | branch _ bit left right _ => .branch bit left.trie right.trie

/-- Each node has its own hash, each branch the key of its left side. -/
def Hashed : RadixTree → Prop
  | leaf key hash => hash = spentLeafHash key
  | branch key bit left right hash =>
    key = left.key ∧ hash = spentBranchHash bit left.hash right.hash ∧ left.Hashed ∧ right.Hashed

theorem Hashed.root {node : RadixTree} (hashed : node.Hashed) : node.hash = trieRoot node.trie := by
  induction node with
  | leaf key hash => exact hashed
  | branch key bit left right hash ihLeft ihRight =>
    obtain ⟨-, same, hashedL, hashedR⟩ := hashed
    rw [trie, trieRoot_branch, ← ihLeft hashedL, ← ihRight hashedR]
    exact same

theorem Hashed.key_mem {node : RadixTree} (hashed : node.Hashed) : node.key ∈ node.trie.keys := by
  induction node with
  | leaf key hash => exact Finset.mem_singleton_self key
  | branch key bit left right hash ihLeft _ =>
    obtain ⟨same, -, hashedL, -⟩ := hashed
    exact Finset.mem_union_left _ (same ▸ ihLeft hashedL)

omit [Crypto] in
/-- The leaf a key leads to holds it exactly where the tree does. -/
theorem terminal_key {node : RadixTree} {key : Nat} (radix : SpentTrie node.trie) :
    (RadixSpentSet.terminal key node).key = key ↔ key ∈ node.trie.keys := by
  induction node with
  | leaf held hash => rw [trie, Trie.keys, Finset.mem_singleton]; exact eq_comm
  | branch held bit left right hash ihLeft ihRight =>
    obtain ⟨radixL, radixR, inside, -, -, -⟩ := radix.branch_inv
    rw [RadixSpentSet.terminal, RadixSpentSet.rightAt_eq key inside]
    cases goes : rightAt key bit
    · rw [if_neg Bool.false_ne_true, ihLeft radixL]
      exact ⟨Finset.mem_union_left _, fun member => radix.mem_left member goes⟩
    · rw [if_pos rfl, ihRight radixR]
      exact ⟨Finset.mem_union_right _, fun member => radix.mem_right member goes⟩

theorem beside_trie {bit key : Nat} (inside : bit < 256) (fresh : Bytes) (node : RadixTree) :
    (RadixSpentSet.beside bit key (.leaf key fresh) node).trie = Trie.beside rightAt bit key node.trie := by
  rw [RadixSpentSet.beside, RadixSpentSet.rightAt_eq key inside, Trie.beside]
  cases rightAt key bit <;> rfl

theorem beside_hashed {bit key : Nat} {node : RadixTree} (hashed : node.Hashed) :
    (RadixSpentSet.beside bit key (.leaf key (spentLeafHash key)) node).Hashed := by
  unfold RadixSpentSet.beside
  split
  · exact ⟨rfl, rfl, hashed, rfl⟩
  · exact ⟨rfl, rfl, rfl, hashed⟩

/-- What an insertion leaves: the keys and the new one, in a radix tree whose hashes are its own. -/
def Grown (key : Nat) (node grown : RadixTree) : Prop :=
  SpentTrie grown.trie ∧ grown.Hashed ∧ grown.trie.keys = insert key node.trie.keys

theorem Grown.beside {node : RadixTree} {key : Nat} (radix : SpentTrie node.trie) (hashed : node.Hashed)
    (before : splitAt node.key key < node.trie.top 256) (inside : splitAt node.key key < 256) :
    Grown key node (RadixSpentSet.beside (splitAt node.key key) key (.leaf key (spentLeafHash key)) node) := by
  refine ⟨?_, beside_hashed hashed, ?_⟩
  · rw [beside_trie inside]
    exact radix.beside hashed.key_mem before inside (fun j => splitAt_agree) (splitAt_differ inside)
  · rw [beside_trie inside, Trie.beside_keys]

/-- A new key goes in where it leaves the others, and every node on its path is hashed again. -/
theorem insertLeaf_grown {node : RadixTree} {key : Nat} (radix : SpentTrie node.trie) (hashed : node.Hashed)
    (held : ∀ k ∈ node.trie.keys, k < keyBound) (bound : key < keyBound) (absent : key ∉ node.trie.keys) :
    Grown key node (RadixSpentSet.insertLeaf key (.leaf key (spentLeafHash key)) node).1 := by
  have inside : ∀ k ∈ node.trie.keys, splitAt k key < 256 := by
    intro k member
    by_contra same
    exact absent (eq_of_splitAt (held k member) bound same ▸ member)
  induction node with
  | leaf k hash =>
    have member := hashed.key_mem
    simp only [RadixSpentSet.insertLeaf, RadixSpentSet.bit_eq (held k member) bound]
    exact Grown.beside radix hashed (inside k member) (inside k member)
  | branch k bit left right hash ihLeft ihRight =>
    obtain ⟨radixL, radixR, below, -, -, -⟩ := radix.branch_inv
    have member := hashed.key_mem
    simp only [RadixSpentSet.insertLeaf, RadixSpentSet.bit_eq (held k member) bound]
    by_cases before : splitAt k key < bit
    · rw [if_pos before]
      exact Grown.beside radix hashed before (inside k member)
    · rw [if_neg before, RadixSpentSet.rightAt_eq key below]
      obtain ⟨same, -, hashedL, hashedR⟩ := hashed
      have agree : ∀ j < bit, rightAt k j = rightAt key j :=
        fun j first => splitAt_agree (first.trans_le (Nat.le_of_not_lt before))
      cases goes : rightAt key bit
      · obtain ⟨radix', hashed', keys⟩ := ihLeft radixL hashedL (fun x inLeft => held x (Finset.mem_union_left _ inLeft))
          (fun inLeft => absent (Finset.mem_union_left _ inLeft)) (fun x inLeft => inside x (Finset.mem_union_left _ inLeft))
        rw [if_neg Bool.false_ne_true]
        refine ⟨radix.grow_left radix' keys goes member agree, ⟨rfl, rfl, hashed', hashedR⟩, ?_⟩
        rw [RadixSpentSet.branch, trie, trie, Trie.keys, Trie.keys, keys, Finset.insert_union]
      · obtain ⟨radix', hashed', keys⟩ := ihRight radixR hashedR (fun x inRight => held x (Finset.mem_union_right _ inRight))
          (fun inRight => absent (Finset.mem_union_right _ inRight)) (fun x inRight => inside x (Finset.mem_union_right _ inRight))
        rw [if_pos rfl]
        refine ⟨radix.grow_right radix' keys goes member agree, ⟨rfl, rfl, hashedL, hashed'⟩, ?_⟩
        rw [RadixSpentSet.branch, trie, trie, Trie.keys, Trie.keys, keys, Finset.union_insert]

end RadixTree

/-- The key set an in-memory spent set holds. -/
structure RadixSpentSet.Holds (set : RadixSpentSet) (keys : Finset Nat) : Prop where
  bound : ∀ key ∈ keys, key < keyBound
  empty : set.tree = none → keys = ∅
  tree : ∀ node, set.tree = some node → SpentTrie node.trie ∧ node.Hashed ∧ node.trie.keys = keys

theorem RadixSpentSet.holds_empty : RadixSpentSet.Holds {} ∅ where
  bound key member := absurd member (Finset.notMem_empty key)
  empty _ := rfl
  tree node held := by cases held

omit [Crypto] in
theorem RadixSpentSet.keyOf_toBytes {key : Nat} (bound : key < keyBound) : keyOf (toBytes 32 key) = .ok key := by
  have short : ofBytes (toBytes 32 key) = key := ofBytes_toBytes bound
  rw [keyOf, toBytes_length, short]
  rfl

theorem RadixSpentSet.Holds.member {set : RadixSpentSet} {keys : Finset Nat} (holds : set.Holds keys) (key : Nat) :
    (set.tree.any fun node => (terminal key node).key = key) = decide (key ∈ keys) := by
  cases tree : set.tree with
  | none => simp [holds.empty tree]
  | some node =>
    obtain ⟨radix, -, same⟩ := holds.tree node tree
    simp only [Option.any_some, RadixTree.terminal_key radix, same]

/-- A key is had exactly where it was inserted. -/
theorem RadixSpentSet.Holds.has {set : RadixSpentSet} {keys : Finset Nat} (holds : set.Holds keys) {key : Nat}
    (bound : key < keyBound) : set.has (toBytes 32 key) = .ok (decide (key ∈ keys)) := by
  rw [RadixSpentSet.has, keyOf_toBytes bound, ← holds.member key]
  rfl

theorem RadixSpentSet.Holds.refused {set : RadixSpentSet} {keys : Finset Nat} (holds : set.Holds keys) {key : Nat}
    (member : key ∈ keys) : set.insert (toBytes 32 key) = .error (.error "nullifier already in the spent set") := by
  rw [RadixSpentSet.insert, keyOf_toBytes (holds.bound key member)]
  simp only [bind, Except.bind, holds.member key, member, decide_true]
  rfl

theorem RadixSpentSet.Holds.inserted {set : RadixSpentSet} {keys : Finset Nat} (holds : set.Holds keys) {key : Nat}
    (bound : key < keyBound) (absent : key ∉ keys) :
    ∃ grown, set.insert (toBytes 32 key) = .ok grown ∧ grown.Holds (insert key keys) := by
  have bounds : ∀ k ∈ insert key keys, k < keyBound := by
    intro k member
    rcases Finset.mem_insert.mp member with rfl | old
    · exact bound
    · exact holds.bound k old
  have fresh : require (!set.tree.any fun node => (terminal key node).key = key)
      (.error "nullifier already in the spent set") = .ok () := by
    simp [holds.member key, absent]
  obtain ⟨_ | node, size, hashes⟩ := set
  · refine ⟨_, bind_eq_ok.mpr ⟨key, keyOf_toBytes bound, bind_unit_eq_ok.mpr ⟨fresh, rfl⟩⟩, bounds, ?_, ?_⟩
    · intro none
      cases none
    · rintro node ⟨⟩
      rw [holds.empty rfl]
      exact ⟨.leaf key, rfl, rfl⟩
  · obtain ⟨radix, hashed, same⟩ := holds.tree node rfl
    refine ⟨_, bind_eq_ok.mpr ⟨key, keyOf_toBytes bound, bind_unit_eq_ok.mpr ⟨fresh, rfl⟩⟩, bounds, ?_, ?_⟩
    · intro none
      cases none
    · rintro grown ⟨⟩
      have held : ∀ k ∈ node.trie.keys, k < keyBound := fun k member => holds.bound k (same ▸ member)
      obtain ⟨radix', hashed', keys'⟩ := RadixTree.insertLeaf_grown radix hashed held bound (same ▸ absent)
      exact ⟨radix', hashed', keys'.trans (by rw [same])⟩

/-- Distinct keys, none of them held, all go in. -/
theorem RadixSpentSet.Holds.insertAll {set : RadixSpentSet} {keys : Finset Nat} (holds : set.Holds keys) {order : List Nat}
    (bound : ∀ key ∈ order, key < keyBound) (distinct : order.Nodup) (absent : ∀ key ∈ order, key ∉ keys) :
    ∃ grown, (order.map (toBytes 32)).foldlM RadixSpentSet.insert set = .ok grown ∧ grown.Holds (keys ∪ order.toFinset) := by
  induction order generalizing set keys with
  | nil => exact ⟨set, rfl, by simpa using holds⟩
  | cons key rest ih =>
    obtain ⟨lone, distinct⟩ := List.nodup_cons.mp distinct
    obtain ⟨first, run, held⟩ := holds.inserted (bound key List.mem_cons_self) (absent key List.mem_cons_self)
    have later : ∀ k ∈ rest, k ∉ insert key keys := by
      intro k member inside
      rcases Finset.mem_insert.mp inside with rfl | old
      · exact lone member
      · exact absent k (List.mem_cons_of_mem _ member) old
    obtain ⟨grown, runs, final⟩ := ih held (fun k member => bound k (List.mem_cons_of_mem _ member)) distinct later
    refine ⟨grown, bind_eq_ok.mpr ⟨first, run, runs⟩, ?_⟩
    rwa [List.toFinset_cons, Finset.union_insert, ← Finset.insert_union]

end

end Moe
