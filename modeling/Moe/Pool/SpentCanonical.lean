import Moe.Pool.SpentRows

namespace Moe

theorem eq_of_rightAt {a b : Nat} (boundA : a < keyBound) (boundB : b < keyBound)
    (same : ∀ j < 256, rightAt a j = rightAt b j) : a = b :=
  eq_of_splitAt boundA boundB fun inside => splitAt_differ inside (same _ inside)

/-- The path-compressed binary trie of some keys. -/
def spentTrie (keys : List Nat) : Option (Trie Nat) := Trie.compress rightAt 256 0 keys

theorem spentTrie_spec {keys : List Nat} (bound : ∀ key ∈ keys, key < keyBound) :
    (keys = [] ∧ spentTrie keys = none) ∨ ∃ t, spentTrie keys = some t ∧ SpentTrie t ∧ t.keys = keys.toFinset :=
  Trie.compress_radix rfl (fun a memberA b memberB => eq_of_rightAt (bound a memberA) (bound b memberB))
    (fun _ _ _ _ _ below => absurd below (Nat.not_lt_zero _))

theorem spentFrame_kinds (key i : Nat) (left right : Bytes) : spentLeafFrame key ≠ spentBranchFrame i left right := by
  intro same
  have leaf : (spentLeafFrame key).take 22 = tag "moe/pool/v3/spent/leaf" := List.take_left' rfl
  have node : (spentBranchFrame i left right).take 22 = tag "moe/pool/v3/spent/node" := by
    rw [spentBranchFrame, List.append_assoc, List.append_assoc]
    exact List.take_left' rfl
  rw [same, node] at leaf
  exact absurd leaf (by decide)

section

variable [Crypto]

/-- The root of a set of keys: its trie's, or the empty set's. -/
def spentRootOf (keys : List Nat) : Bytes := (spentTrie keys).elim emptySpent trieRoot

/-- The frames a set of keys hashes. -/
def spentFrames (keys : List Nat) : List Bytes :=
  (spentTrie keys).elim [] (Trie.frames spentLeafFrame spentBranchFrame sha256)

/-- Any trie of the keys has their root. -/
theorem spentRootOf_eq {keys : List Nat} (bound : ∀ key ∈ keys, key < keyBound) {t : Trie Nat} (radix : SpentTrie t)
    (same : t.keys = keys.toFinset) : spentRootOf keys = trieRoot t := by
  rcases spentTrie_spec bound with ⟨rfl, -⟩ | ⟨s, found, radix', same'⟩
  · have member := t.rep_mem
    simp [same] at member
  · rw [spentRootOf, found, radix.unique radix' (same.trans same'.symm)]
    rfl

theorem SpentTable.Holds.root {table : SpentTable} {keys : List Nat} (holds : table.Holds keys.toFinset) :
    table.root = .ok (spentRootOf keys) := by
  have bound : ∀ key ∈ keys, key < keyBound := fun key member => holds.bound key (List.mem_toFinset.mpr member)
  cases above : table.top with
  | none =>
    obtain rfl : keys = [] := List.toFinset_eq_empty_iff keys |>.mp (holds.empty above)
    rw [SpentTable.root, above]
    rfl
  | some top =>
    obtain ⟨t, ids, radix, same, stored, -⟩ := holds.tree top above
    obtain ⟨row, found, hash, -⟩ := stored.row
    rw [SpentTable.root, above, spentRootOf_eq bound radix same, ← hash]
    exact bind_eq_ok.mpr ⟨row, known_eq_ok.mpr found, rfl⟩

theorem RadixSpentSet.Holds.root {set : RadixSpentSet} {keys : List Nat} (holds : set.Holds keys.toFinset) :
    set.root = spentRootOf keys := by
  have bound : ∀ key ∈ keys, key < keyBound := fun key member => holds.bound key (List.mem_toFinset.mpr member)
  cases above : set.tree with
  | none =>
    obtain rfl : keys = [] := List.toFinset_eq_empty_iff keys |>.mp (holds.empty above)
    rw [RadixSpentSet.root, above]
    rfl
  | some node =>
    obtain ⟨radix, hashed, same⟩ := holds.tree node above
    rw [RadixSpentSet.root, above, spentRootOf_eq bound radix same, ← hashed.root]
    rfl

/-- Distinct keys, none of them held, all go in. -/
theorem SpentTable.Holds.insertAll {table : SpentTable} {keys : Finset Nat} (holds : table.Holds keys) {order : List Nat}
    (bound : ∀ key ∈ order, key < keyBound) (distinct : order.Nodup) (absent : ∀ key ∈ order, key ∉ keys) :
    ∃ grown, table.insertAll (order.map (toBytes 32)) = .ok grown ∧ grown.Holds (keys ∪ order.toFinset) := by
  induction order generalizing table keys with
  | nil => exact ⟨table, rfl, by simpa using holds⟩
  | cons key rest ih =>
    obtain ⟨lone, distinct⟩ := List.nodup_cons.mp distinct
    obtain ⟨first, run, held⟩ := holds.inserted (bound key List.mem_cons_self) (absent key List.mem_cons_self)
    have later : ∀ k ∈ rest, k ∉ insert key keys := by
      intro k member inside
      rcases Finset.mem_insert.mp inside with rfl | old
      · exact lone member
      · exact absent k (List.mem_cons_of_mem _ member) old
    obtain ⟨grown, runs, final⟩ := ih held (fun k member => bound k (List.mem_cons_of_mem _ member)) distinct later
    refine ⟨grown, bind_eq_ok.mpr ⟨first, ?_, runs⟩, ?_⟩
    · simp only [run]
      rfl
    · rwa [List.toFinset_cons, Finset.union_insert, ← Finset.insert_union]

/-- No frame of one set is another of the other's under one hash, and none has the empty set's. -/
structure Collisionless (keys other : List Nat) : Prop where
  frames : ∀ x ∈ spentFrames keys, ∀ y ∈ spentFrames other, sha256 x = sha256 y → x = y
  empty : ∀ x ∈ spentFrames keys ++ spentFrames other, sha256 x ≠ emptySpent

theorem spentBranchFrame_inj {i j : Nat} (insideI : i < 256) (insideJ : j < 256) {a b c d : Bytes}
    (same : spentBranchFrame i (sha256 a) (sha256 b) = spentBranchFrame j (sha256 c) (sha256 d)) :
    i = j ∧ sha256 a = sha256 c ∧ sha256 b = sha256 d := by
  simp only [spentBranchFrame, List.append_assoc, List.append_cancel_left_eq] at same
  obtain ⟨bits, rest⟩ := List.append_inj same (by simp)
  obtain ⟨lefts, rights⟩ := List.append_inj rest (by rw [Crypto.sha256_length, Crypto.sha256_length])
  exact ⟨toBytes_inj (insideI.trans_le (by decide)) (insideJ.trans_le (by decide)) bits, lefts, rights⟩

/-- Sets that hash no two frames to one digest have one root only where they are one set. -/
theorem spentRootOf_injective {keys other : List Nat} (bound : ∀ key ∈ keys, key < keyBound)
    (boundOther : ∀ key ∈ other, key < keyBound) (apart : Collisionless keys other)
    (same : spentRootOf keys = spentRootOf other) (key : Nat) : key ∈ keys ↔ key ∈ other := by
  have single : ∀ {s : Trie Nat}, ∃ frame ∈ s.frames spentLeafFrame spentBranchFrame sha256, trieRoot s = sha256 frame :=
    fun {s} => s.digest_mem spentLeafFrame spentBranchFrame sha256
  obtain ⟨frames, empty⟩ := apart
  rcases spentTrie_spec bound with ⟨rfl, none⟩ | ⟨s, found, radix, keys_⟩ <;>
    rcases spentTrie_spec boundOther with ⟨rfl, none'⟩ | ⟨t, found', radix', keys'⟩
  · exact Iff.rfl
  · obtain ⟨frame, member, root⟩ := @single t
    simp only [spentRootOf, none, found', Option.elim] at same
    refine absurd (root.symm.trans same.symm) (empty frame ?_)
    rw [List.mem_append, spentFrames, spentFrames, found']
    exact .inr member
  · obtain ⟨frame, member, root⟩ := @single s
    simp only [spentRootOf, found, none', Option.elim] at same
    refine absurd (root.symm.trans same) (empty frame ?_)
    rw [List.mem_append, spentFrames, found]
    exact .inl member
  · simp only [spentRootOf, spentFrames, found, found', Option.elim] at same frames
    have one := radix.digest_injective radix' frames
      (fun a memberA b memberB leaf => toBytes_inj (bound a (by simpa [keys_] using memberA)) (boundOther b (by simpa [keys'] using memberB))
        (List.append_cancel_left leaf))
      (fun i insideI j insideJ a b c d => spentBranchFrame_inj insideI insideJ) spentFrame_kinds same
    rw [← List.mem_toFinset, ← List.mem_toFinset, ← keys_, ← keys', one]

namespace SpentNode

def trie : SpentNode → Trie Nat
  | leaf key _ => .leaf key
  | branch _ bit left right _ => .branch bit left.trie right.trie

def held : SpentNode → Nat
  | leaf key _ => key
  | branch key _ _ _ _ => key

/-- Each node has its own hash, each branch the key of some leaf below it. -/
def Hashed : SpentNode → Prop
  | leaf key hash => hash = spentLeafHash key
  | branch key bit left right hash =>
    key ∈ left.trie.keys ∪ right.trie.keys ∧ hash = spentBranchHash bit left.hash right.hash ∧ left.Hashed ∧ right.Hashed

theorem Hashed.root {node : SpentNode} (hashed : node.Hashed) : node.hash = trieRoot node.trie := by
  induction node with
  | leaf key hash => exact hashed
  | branch key bit left right hash ihLeft ihRight =>
    obtain ⟨-, same, hashedL, hashedR⟩ := hashed
    rw [trie, trieRoot_branch, ← ihLeft hashedL, ← ihRight hashedR]
    exact same

theorem Hashed.held_mem {node : SpentNode} (hashed : node.Hashed) : node.held ∈ node.trie.keys := by
  cases node with
  | leaf key hash => exact Finset.mem_singleton_self key
  | branch key bit left right hash => exact hashed.1

theorem split_trie (node : SpentNode) (held key : Nat) (bit : Fin 256) :
    (node.split held key bit).trie = Trie.beside rightAt bit key node.trie := by
  unfold split Trie.beside
  cases rightAt key bit <;> rfl

theorem split_hashed {node : SpentNode} (hashed : node.Hashed) (key : Nat) (bit : Fin 256) :
    (node.split node.held key bit).Hashed := by
  unfold split
  split
  · exact ⟨Finset.mem_union_left _ hashed.held_mem, rfl, hashed, rfl⟩
  · exact ⟨Finset.mem_union_right _ hashed.held_mem, rfl, rfl, hashed⟩

/-- What an insertion leaves: the keys and the new one, in a radix tree whose hashes are its own. -/
def Grown (key : Nat) (node grown : SpentNode) : Prop :=
  SpentTrie grown.trie ∧ grown.Hashed ∧ grown.trie.keys = Insert.insert key node.trie.keys

theorem Grown.split {node : SpentNode} {key : Nat} (radix : SpentTrie node.trie) (hashed : node.Hashed)
    (before : splitAt node.held key < node.trie.top 256) (inside : splitAt node.held key < 256) :
    Grown key node (node.split node.held key ⟨splitAt node.held key, inside⟩) := by
  refine ⟨?_, split_hashed hashed key _, ?_⟩
  · rw [split_trie]
    exact radix.beside hashed.held_mem before inside (fun j => splitAt_agree) (splitAt_differ inside)
  · rw [split_trie, Trie.beside_keys]

/-- An accepted key goes in where it leaves the others, and every node on its path is hashed again. -/
theorem insert_grown {node grown : SpentNode} {key : Nat} (radix : SpentTrie node.trie) (hashed : node.Hashed)
    (run : node.insert key = .ok grown) : Grown key node grown := by
  induction node generalizing grown with
  | leaf k hash =>
    simp only [SpentNode.insert] at run
    split at run
    · rename_i inside
      cases run
      exact Grown.split radix hashed inside inside
    · cases run
  | branch k bit left right hash ihLeft ihRight =>
    obtain ⟨radixL, radixR, below, -, -, -⟩ := radix.branch_inv
    simp only [SpentNode.insert] at run
    split at run
    · rename_i before
      rw [dif_pos (before.trans bit.isLt)] at run
      cases run
      exact Grown.split radix hashed before (before.trans bit.isLt)
    · rename_i past
      have agree : ∀ j < (bit : Nat), rightAt k j = rightAt key j :=
        fun j first => splitAt_agree (first.trans_le (Nat.le_of_not_lt past))
      have member := hashed.held_mem
      obtain ⟨-, -, hashedL, hashedR⟩ := hashed
      split at run
      · rename_i goes
        obtain ⟨child, below, done⟩ := bind_eq_ok.mp run
        cases done
        obtain ⟨radix', hashed', keys'⟩ := ihRight radixR hashedR below
        have keys : (Trie.branch bit left.trie child.trie).keys =
            Insert.insert key (branch k bit left right hash).trie.keys := by
          rw [trie, Trie.keys, Trie.keys, keys', Finset.union_insert]
        have kept : k ∈ (Trie.branch bit left.trie child.trie).keys := keys ▸ Finset.mem_insert_of_mem member
        exact ⟨radix.grow_right radix' keys' goes member agree, ⟨kept, rfl, hashedL, hashed'⟩, keys⟩
      · rename_i goes
        obtain ⟨child, below, done⟩ := bind_eq_ok.mp run
        cases done
        obtain ⟨radix', hashed', keys'⟩ := ihLeft radixL hashedL below
        have keys : (Trie.branch bit child.trie right.trie).keys =
            Insert.insert key (branch k bit left right hash).trie.keys := by
          rw [trie, Trie.keys, Trie.keys, keys', Finset.insert_union]
        have kept : k ∈ (Trie.branch bit child.trie right.trie).keys := keys ▸ Finset.mem_insert_of_mem member
        exact ⟨radix.grow_left radix' keys' (eq_false_of_ne_true goes) member agree, ⟨kept, rfl, hashed', hashedR⟩, keys⟩

omit [Crypto] in
theorem mem_keys {node : SpentNode} {key : Nat} : key ∈ node.trie.keys ↔ key ∈ node.keys := by
  induction node with
  | leaf k hash => simp [trie, Trie.keys, keys]
  | branch k bit left right hash ihLeft ihRight => simp [trie, Trie.keys, keys, ihLeft, ihRight]

end SpentNode

/-- A spent set a replay can hold: the radix tree of its keys. -/
def SpentSet.Sound (set : SpentSet) : Prop :=
  (∀ key ∈ set.keys, key < keyBound) ∧ ∀ node, set = some node → SpentTrie node.trie ∧ node.Hashed

theorem SpentSet.Sound.insert {set grown : SpentSet} {key : Nat} (sound : set.Sound) (run : set.insert key = .ok grown) :
    grown.Sound := by
  refine ⟨fun k member => ?_, ?_⟩
  · rcases (SpentSet.insert_keys run k).mp member with rfl | old
    · exact SpentSet.insert_bound run
    · exact sound.1 k old
  · obtain ⟨-, done⟩ := bind_unit_eq_ok.mp run
    cases set with
    | none =>
      cases done
      rintro node ⟨⟩
      exact ⟨.leaf key, rfl⟩
    | some node =>
      obtain ⟨child, inserted, done⟩ := bind_eq_ok.mp done
      cases done
      obtain ⟨radix, hashed⟩ := sound.2 node rfl
      rintro next ⟨⟩
      obtain ⟨radix', hashed', -⟩ := SpentNode.insert_grown radix hashed inserted
      exact ⟨radix', hashed'⟩

theorem SpentSet.Sound.root {set : SpentSet} (sound : set.Sound) : set.root = spentRootOf set.keys := by
  cases set with
  | none => rfl
  | some node =>
    obtain ⟨radix, hashed⟩ := sound.2 node rfl
    have same : node.trie.keys = node.keys.toFinset := by
      ext key
      rw [List.mem_toFinset, SpentNode.mem_keys]
    exact hashed.root.trans (spentRootOf_eq sound.1 radix same).symm

/-- What the stored spent set and the one in memory answer once both hold some keys. -/
structure Canonical (keys : List Nat) (table : SpentTable) (set : RadixSpentSet) : Prop where
  stored : table.root = .ok (spentRootOf keys)
  root : set.root = spentRootOf keys
  refused : ∀ key ∈ keys, set.insert (toBytes 32 key) = .error (.error "nullifier already in the spent set")
  storedRefused : ∀ key ∈ keys, (table.insert (toBytes 32 key)).2 = .error (.error "nullifier already in the spent set") ∧
    (table.insert (toBytes 32 key)).1.root = table.root
  has : ∀ key < keyBound, set.has (toBytes 32 key) = .ok (decide (key ∈ keys))
  binding : ∀ other : List Nat, (∀ key ∈ other, key < keyBound) → Collisionless keys other →
    spentRootOf keys = spentRootOf other → ∀ key, key ∈ keys ↔ key ∈ other

/-- A set of keys has one spent root, stored or in memory, in whatever order its keys went in. -/
theorem spentSet_canonical {keys imported run order : List Nat} (bound : ∀ key ∈ keys, key < keyBound) (distinct : keys.Nodup)
    (stored : (imported ++ run).Perm keys) (held : order.Perm keys) :
    ∃ opened table set, SpentTable.insertAll {} (imported.map (toBytes 32)) = .ok opened ∧
      opened.insertAll (run.map (toBytes 32)) = .ok table ∧
      (order.map (toBytes 32)).foldlM RadixSpentSet.insert {} = .ok set ∧ Canonical keys table set := by
  have nodup := stored.nodup_iff.mpr distinct
  obtain ⟨nodupI, nodupR, apart⟩ := List.nodup_append'.mp nodup
  have inKeys : ∀ key ∈ imported ++ run, key < keyBound := fun key member => bound key (stored.mem_iff.mp member)
  obtain ⟨opened, opening, first⟩ := SpentTable.holds_empty.insertAll (fun key member => inKeys key (List.mem_append_left _ member))
    nodupI (fun key _ => Finset.notMem_empty key)
  rw [Finset.empty_union] at first
  obtain ⟨table, replay, second⟩ := first.insertAll (fun key member => inKeys key (List.mem_append_right _ member)) nodupR
    (fun key member inside => List.disjoint_left.mp apart (List.mem_toFinset.mp inside) member)
  obtain ⟨set, filling, third⟩ := RadixSpentSet.holds_empty.insertAll (fun key member => bound key (held.mem_iff.mp member))
    (held.nodup_iff.mpr distinct) (fun key _ => Finset.notMem_empty key)
  have tableHolds : table.Holds keys.toFinset := by
    rw [← List.toFinset_append, List.toFinset_eq_of_perm _ _ stored] at second
    exact second
  have setHolds : set.Holds keys.toFinset := by
    rw [Finset.empty_union, List.toFinset_eq_of_perm _ _ held] at third
    exact third
  refine ⟨opened, table, set, opening, replay, filling, ?_⟩
  constructor
  case stored => exact tableHolds.root
  case root => exact setHolds.root
  case refused => exact fun key member => setHolds.refused (List.mem_toFinset.mpr member)
  case storedRefused =>
    intro key member
    rw [tableHolds.refused (List.mem_toFinset.mpr member)]
    exact ⟨rfl, (tableHolds.withLeaf key).root.trans tableHolds.root.symm⟩
  case has =>
    intro key small
    rw [setHolds.has small]
    simp only [List.mem_toFinset]
  case binding => exact fun other boundOther collisionless same => spentRootOf_injective bound boundOther collisionless same

end

local instance canonicalCrypto : Crypto := sampleCrypto

/-- Three keys, two of them imported, in two orders; and one key no run of the set confuses them with. -/
theorem sampleSpentSet_canonical :
    (Collisionless [5, 6, 2 ^ 255] [9]) ∧
    ∃ opened table set, SpentTable.insertAll {} ([6, 2 ^ 255].map (toBytes 32)) = .ok opened ∧
      opened.insertAll ([5].map (toBytes 32)) = .ok table ∧
      ([2 ^ 255, 5, 6].map (toBytes 32)).foldlM RadixSpentSet.insert {} = .ok set ∧ Canonical [5, 6, 2 ^ 255] table set :=
  ⟨⟨by decide +kernel, by decide +kernel⟩, spentSet_canonical (by decide) (by decide) (by decide) (by decide)⟩

end Moe
