import Moe.Lib.OrderedMap
import Moe.Pool.SpentRadix

namespace Moe

theorem toBytes_getD {width n i : Nat} (inside : i < width) :
    ((toBytes width n).getD i 0).toNat = n / 256 ^ (width - 1 - i) % 256 := by
  induction width generalizing n with
  | zero => omega
  | succ width ih =>
    rw [toBytes]
    rcases Nat.lt_succ_iff_lt_or_eq.mp inside with before | rfl
    · have depth : width + 1 - 1 - i = (width - 1 - i).succ := by omega
      rw [List.getD_append _ _ _ _ (by simpa using before), ih before, Nat.div_div_eq_div_mul, ← Nat.pow_succ', depth]
    · rw [List.getD_append_right _ _ _ _ (by simp)]
      simp

/-- The bits of a key's bytes are the key's, the most significant first. -/
theorem toBytes_testBit (n : Nat) {i j : Nat} (inside : i < 32) (low : j < 8) :
    (((toBytes 32 n).getD i 0).toNat).testBit (7 - j) = rightAt n (i * 8 + j) := by
  have power : (256 : Nat) ^ (31 - i) = 2 ^ (8 * (31 - i)) := by rw [Nat.pow_mul]
  have width : (256 : Nat) = 2 ^ 8 := rfl
  rw [toBytes_getD inside, show 32 - 1 - i = 31 - i by omega, power]
  rw [show n / 2 ^ (8 * (31 - i)) % 256 = n / 2 ^ (8 * (31 - i)) % 2 ^ 8 from rfl, Nat.testBit_mod_two_pow, Nat.testBit_div_two_pow]
  have place : 7 - j + 8 * (31 - i) = 255 - (i * 8 + j) := by omega
  have kept : 7 - j < 8 := by omega
  simp only [place, kept, decide_true, Bool.true_and, rightAt]

/-- A stored node of a namespace's spent set. -/
structure SpentRow where
  key : Bytes
  bit : Option Nat
  l : Option Nat
  r : Option Nat
  hash : Bytes

namespace SpentRow

protected def rightAt (key : Bytes) (bit : Nat) : Bool :=
  ((key.getD (bit / 8) 0).toNat >>> (7 - bit % 8)) &&& 1 == 1

/-- The leading zeros of a 32-bit word. -/
def clz32 (x : Nat) : Nat := if x = 0 then 32 else 31 - x.log2

protected def splitAt (a b : Bytes) : Nat :=
  match (List.range 32).find? fun i => (a.getD i 0).toNat ^^^ (b.getD i 0).toNat ≠ 0 with
  | some i => i * 8 + clz32 ((a.getD i 0).toNat ^^^ (b.getD i 0).toNat) - 24
  | none => 256

theorem rightAt_toBytes (n : Nat) {bit : Nat} (inside : bit < 256) : SpentRow.rightAt (toBytes 32 n) bit = rightAt n bit := by
  have place : bit / 8 * 8 + bit % 8 = bit := by omega
  have same := toBytes_testBit n (show bit / 8 < 32 by omega) (Nat.mod_lt bit (by decide : 0 < 8))
  rw [place] at same
  rw [← same, SpentRow.rightAt, Nat.testBit, Nat.and_comm]
  simp [Nat.one_and_eq_mod_two]

theorem splitAt_toBytes (a b : Nat) : SpentRow.splitAt (toBytes 32 a) (toBytes 32 b) = splitAt a b := by
  unfold SpentRow.splitAt
  split
  · rename_i i found
    obtain ⟨differ, inside, earlier⟩ := List.find?_range_eq_some.mp found
    have inside := List.mem_range.mp inside
    have differ : ((toBytes 32 a).getD i 0).toNat ^^^ ((toBytes 32 b).getD i 0).toNat ≠ 0 := by simpa using differ
    have bits : ∀ j < 8, (((toBytes 32 a).getD i 0).toNat ^^^ ((toBytes 32 b).getD i 0).toNat).testBit (7 - j) =
        (rightAt a (i * 8 + j) ^^ rightAt b (i * 8 + j)) := by
      intro j low
      rw [Nat.testBit_xor, toBytes_testBit a inside low, toBytes_testBit b inside low]
    have small : (((toBytes 32 a).getD i 0).toNat ^^^ ((toBytes 32 b).getD i 0).toNat).log2 < 8 :=
      (Nat.log2_lt differ).mpr (Nat.xor_lt_two_pow (UInt8.toNat_lt _) (UInt8.toNat_lt _))
    have first := Nat.testBit_log2 differ
    have above : ∀ k, (((toBytes 32 a).getD i 0).toNat ^^^ ((toBytes 32 b).getD i 0).toNat).log2 < k →
        (((toBytes 32 a).getD i 0).toNat ^^^ ((toBytes 32 b).getD i 0).toNat).testBit k = false := fun k past =>
      Nat.testBit_lt_two_pow (Nat.lt_log2_self.trans_le (Nat.pow_le_pow_right (by decide) past))
    rw [clz32, if_neg differ]
    generalize ((toBytes 32 a).getD i 0).toNat ^^^ ((toBytes 32 b).getD i 0).toNat = x at *
    have place : i * 8 + (31 - x.log2) - 24 = i * 8 + (7 - x.log2) := by omega
    rw [place]
    refine (splitAt_eq (by omega) ?_ ?_).symm
    · intro k before
      rcases Nat.lt_or_ge k (i * 8) with earlierByte | sameByte
      · have byte := earlier (k / 8) (by omega)
        have equal : ((toBytes 32 a).getD (k / 8) 0).toNat = ((toBytes 32 b).getD (k / 8) 0).toNat := by
          simpa [Nat.xor_eq_zero_iff] using byte
        have left := toBytes_testBit a (show k / 8 < 32 by omega) (Nat.mod_lt k (by decide : 0 < 8))
        have right := toBytes_testBit b (show k / 8 < 32 by omega) (Nat.mod_lt k (by decide : 0 < 8))
        rw [show k / 8 * 8 + k % 8 = k by omega] at left right
        rw [← left, ← right, equal]
      · have same := bits (k - i * 8) (by omega)
        rw [above _ (by omega), show i * 8 + (k - i * 8) = k by omega] at same
        simpa using same.symm
    · have differs := bits (7 - x.log2) (by omega)
      rw [show 7 - (7 - x.log2) = x.log2 by omega, first] at differs
      simpa using differs.symm
  · rename_i none
    by_contra differ
    have inside : splitAt a b < 256 := lt_of_le_of_ne (splitAt_le a b) fun full => differ full.symm
    have byte := List.find?_eq_none.mp none (splitAt a b / 8) (List.mem_range.mpr (by omega))
    have equal : ((toBytes 32 a).getD (splitAt a b / 8) 0).toNat = ((toBytes 32 b).getD (splitAt a b / 8) 0).toNat := by
      simpa [Nat.xor_eq_zero_iff] using byte
    have left := rightAt_toBytes a inside
    have right := rightAt_toBytes b inside
    rw [SpentRow.rightAt, equal] at left
    rw [SpentRow.rightAt] at right
    exact splitAt_differ inside (left.symm.trans right)

end SpentRow

/-- A namespace's spent set as its rows hold it: the top node, the next node's id, the nodes by id. -/
structure SpentTable where
  top : Option Nat := none
  next : Nat := 1
  rows : OrderedMap Nat SpentRow := []

namespace SpentTable

def get (table : SpentTable) (id : Nat) : Except Failure SpentRow := known (table.rows.get? id)

def put (table : SpentTable) (id : Nat) (node : SpentRow) : SpentTable :=
  { table with rows := table.rows.set id node }

@[simp] theorem put_top (table : SpentTable) (id : Nat) (node : SpentRow) : (table.put id node).top = table.top := rfl

@[simp] theorem put_next (table : SpentTable) (id : Nat) (node : SpentRow) : (table.put id node).next = table.next := rfl

theorem put_get? (table : SpentTable) (id other : Nat) (node : SpentRow) :
    (table.put id node).rows.get? other = if id = other then some node else table.rows.get? other :=
  OrderedMap.get?_set ..

end SpentTable

section

variable [Crypto]

namespace SpentTable

def root (table : SpentTable) : Except Failure Bytes :=
  match table.top with
  | none => .ok emptySpent
  | some top => do return (← table.get top).hash

/-- A branch over the new leaf and the node it leaves at `bit`; where no branch stands above, it is the top. -/
def attach (table : SpentTable) (atTop : Bool) (leafId : Nat) (hash key : Bytes) (bit id : Nat) (node : SpentRow) :
    Nat × Bytes × SpentTable :=
  let branchId := table.next
  let right := SpentRow.rightAt key bit
  let h := if right then spentBranchHash bit node.hash hash else spentBranchHash bit hash node.hash
  let row : SpentRow :=
    { key := node.key, bit := some bit, l := some (if right then id else leafId), r := some (if right then leafId else id), hash := h }
  (branchId, h, { table with next := branchId + 1, top := if atTop then some branchId else table.top }.put branchId row)

/-- Down the key's path to the node it leaves, then back up it: each branch passed is stored again over the child below
it. The bits of a stored tree rise on the way down, so it passes at most 256 of them. -/
def place (table : SpentTable) (leafId : Nat) (hash key : Bytes) : Nat → Bool → Nat → Except Failure (Nat × Bytes × SpentTable)
  | 0, _, _ => .error (.error "no leaf")
  | steps + 1, atTop, id => do
    let node ← table.get id
    let bit := SpentRow.splitAt node.key key
    match node.bit with
    | none =>
      require (bit ≠ 256) (.error "nullifier already in the spent set")
      return table.attach atTop leafId hash key bit id node
    | some at_ =>
      if bit < at_ then
        require (bit ≠ 256) (.error "nullifier already in the spent set")
        return table.attach atTop leafId hash key bit id node
      else
        let right := SpentRow.rightAt key at_
        let below ← known (if right then node.r else node.l)
        let (child, h, table) ← table.place leafId hash key steps false below
        let beside ← known (if right then node.l else node.r)
        let other ← table.get beside
        let h := if right then spentBranchHash at_ other.hash h else spentBranchHash at_ h other.hash
        let row := { node with l := if right then node.l else some child, r := if right then some child else node.r, hash := h }
        return (id, h, table.put id row)

/-- Insert a key. Its leaf is stored first: the leaf row of a key the set holds stays where the rest is refused. -/
protected def insert (table : SpentTable) (key : Bytes) : SpentTable × Except Failure Unit :=
  let leafId := table.next
  let hash := sha256 (tag "moe/pool/v3/spent/leaf" ++ key)
  let held := { table with next := leafId + 1 }.put leafId { key, bit := none, l := none, r := none, hash }
  match table.top with
  | none => ({ held with top := some leafId }, .ok ())
  | some top =>
    match held.place leafId hash key 257 true top with
    | .ok (_, _, grown) => (grown, .ok ())
    | .error failure => (held, .error failure)

/-- Insert each of some keys, as one opening or one record does; the first refusal throws. -/
def insertAll (table : SpentTable) (keys : List Bytes) : Except Failure SpentTable :=
  keys.foldlM (fun table key => do let (table, done) := table.insert key; done; return table) table

end SpentTable

/-- The rows under a node's id are a trie's: each branch under the key of some leaf below it, each node with its own hash,
and no row under two nodes. -/
inductive Stored (rows : OrderedMap Nat SpentRow) : Nat → Trie Nat → Finset Nat → Prop
  | leaf {id key : Nat} :
      rows.get? id = some { key := toBytes 32 key, bit := none, l := none, r := none, hash := spentLeafHash key } →
      Stored rows id (.leaf key) {id}
  | branch {id held bit l r : Nat} {left right : Trie Nat} {lefts rights : Finset Nat} :
      rows.get? id = some { key := toBytes 32 held, bit := some bit, l := some l, r := some r, hash := trieRoot (.branch bit left right) } →
      held ∈ (Trie.branch bit left right).keys → Stored rows l left lefts → Stored rows r right rights → Disjoint lefts rights →
      id ∉ lefts ∪ rights → Stored rows id (.branch bit left right) (insert id (lefts ∪ rights))

/-- Rows written elsewhere leave a stored trie as it was. -/
theorem Stored.frame {rows rows' : OrderedMap Nat SpentRow} {id : Nat} {t : Trie Nat} {ids : Finset Nat}
    (stored : Stored rows id t ids) (same : ∀ i ∈ ids, rows'.get? i = rows.get? i) : Stored rows' id t ids := by
  induction stored with
  | leaf row =>
    refine .leaf ?_
    rw [same _ (Finset.mem_singleton_self _)]
    exact row
  | branch row member _ _ apart outside ihLeft ihRight =>
    refine .branch ?_ member (ihLeft fun i inLeft => same i ?_) (ihRight fun i inRight => same i ?_) apart outside
    · rw [same _ (Finset.mem_insert_self _ _)]
      exact row
    · exact Finset.mem_insert_of_mem (Finset.mem_union_left _ inLeft)
    · exact Finset.mem_insert_of_mem (Finset.mem_union_right _ inRight)

theorem Stored.row {rows : OrderedMap Nat SpentRow} {id : Nat} {t : Trie Nat} {ids : Finset Nat}
    (stored : Stored rows id t ids) : ∃ row, rows.get? id = some row ∧ row.hash = trieRoot t ∧
      ∃ held ∈ t.keys, row.key = toBytes 32 held := by
  cases stored with
  | leaf row => exact ⟨_, row, rfl, _, Finset.mem_singleton_self _, rfl⟩
  | branch row member => exact ⟨_, row, rfl, _, member, rfl⟩

/-- A branch row put over two stored tries. -/
theorem Stored.put (table : SpentTable) {id held bit l r : Nat} {left right : Trie Nat} {lefts rights : Finset Nat}
    (storedL : Stored table.rows l left lefts) (storedR : Stored table.rows r right rights) (apart : Disjoint lefts rights)
    (fresh : id ∉ lefts ∪ rights) (member : held ∈ (Trie.branch bit left right).keys) :
    Stored (table.put id ⟨toBytes 32 held, some bit, some l, some r, trieRoot (.branch bit left right)⟩).rows id
      (.branch bit left right) (insert id (lefts ∪ rights)) := by
  have others : ∀ i ∈ lefts ∪ rights, id ≠ i := fun i inside same => fresh (same ▸ inside)
  refine .branch ?_ member (storedL.frame fun i inLeft => ?_) (storedR.frame fun i inRight => ?_) apart fresh
  · rw [SpentTable.put_get?, if_pos rfl]
  · rw [SpentTable.put_get?, if_neg (others i (Finset.mem_union_left _ inLeft))]
  · rw [SpentTable.put_get?, if_neg (others i (Finset.mem_union_right _ inRight))]

/-- What placing a leaf made of the trie under a node: the trie and its key, in the rows it had, the leaf's and one more. -/
structure SpentTable.Placed (table : SpentTable) (leafId key id : Nat) (t : Trie Nat) (ids : Finset Nat) (atTop : Bool)
    (child : Nat) (t' : Trie Nat) (ids' : Finset Nat) (grown : SpentTable) : Prop where
  radix : SpentTrie t'
  keys : t'.keys = insert key t.keys
  stored : Stored grown.rows child t' ids'
  within : ids' ⊆ insert leafId (insert table.next ids)
  next : grown.next = table.next + 1
  top : child = id ∧ grown.top = table.top ∨ grown.top = if atTop then some child else table.top
  others : ∀ i, i ∉ ids → i ≠ table.next → grown.rows.get? i = table.rows.get? i

/-- A node and a leaf apart from it, both stored below the next id. -/
structure SpentTable.Apart (table : SpentTable) (leafId key id : Nat) (t : Trie Nat) (ids : Finset Nat) : Prop where
  stored : Stored table.rows id t ids
  leaf : Stored table.rows leafId (.leaf key) {leafId}
  outside : leafId ∉ ids
  below : ∀ i ∈ ids, i < table.next
  leafBelow : leafId < table.next

theorem SpentTable.Apart.attach {table : SpentTable} {leafId key id : Nat} {t : Trie Nat} {ids : Finset Nat}
    (apart : table.Apart leafId key id t ids) (atTop : Bool) {node : SpentRow} (row : table.rows.get? id = some node)
    (radix : SpentTrie t) {held : Nat} (member : held ∈ t.keys) (before : splitAt held key < t.top 256)
    (inside : splitAt held key < 256) (rowKey : node.key = toBytes 32 held) :
    ∃ child t' ids' grown, table.attach atTop leafId (spentLeafHash key) (toBytes 32 key) (splitAt held key) id node =
      (child, trieRoot t', grown) ∧ table.Placed leafId key id t ids atTop child t' ids' grown := by
  obtain ⟨stored, leaf, outside, below, leafBelow⟩ := apart
  obtain ⟨_, row', hash, -⟩ := stored.row
  cases row.symm.trans row'
  have radix' := radix.beside member before inside (fun j => splitAt_agree) (splitAt_differ inside)
  have keys' := Trie.beside_keys rightAt (splitAt held key) key t
  have branch : Trie.beside rightAt (splitAt held key) key t =
      if rightAt key (splitAt held key) then .branch (splitAt held key) t (.leaf key)
      else .branch (splitAt held key) (.leaf key) t := rfl
  have held' : held ∈ (Trie.beside rightAt (splitAt held key) key t).keys := keys' ▸ Finset.mem_insert_of_mem member
  have fresh : table.next ∉ insert leafId ids := by
    intro inside
    rcases Finset.mem_insert.mp inside with same | old
    · exact Nat.ne_of_gt leafBelow same
    · exact Nat.lt_irrefl _ (below _ old)
  have within : insert table.next (insert leafId ids) ⊆ insert leafId (insert table.next ids) := by
    rw [Finset.insert_comm]
  have others : ∀ (row : SpentRow) (top : Option Nat) i, i ∉ ids → i ≠ table.next →
      ({ table with next := table.next + 1, top := top }.put table.next row).rows.get? i = table.rows.get? i := by
    intro row top i _ other
    rw [SpentTable.put_get?, if_neg (Ne.symm other)]
  simp only [SpentTable.attach, SpentRow.rightAt_toBytes key inside, hash, rowKey]
  cases goes : rightAt key (splitAt held key)
  · rw [goes, if_neg Bool.false_ne_true] at branch
    rw [branch] at radix' keys' held'
    have union : ({leafId} ∪ ids : Finset Nat) = insert leafId ids := rfl
    refine ⟨_, _, insert table.next ({leafId} ∪ ids), _, rfl, radix', keys', ?_, union ▸ within, rfl, .inr rfl, others _ _⟩
    exact Stored.put { table with next := table.next + 1, top := if atTop then some table.next else table.top }
      leaf stored (Finset.disjoint_singleton_left.mpr outside) (union ▸ fresh) held'
  · rw [goes, if_pos rfl] at branch
    rw [branch] at radix' keys' held'
    have union : ids ∪ {leafId} = insert leafId ids := Finset.union_comm _ _
    refine ⟨_, _, insert table.next (ids ∪ {leafId}), _, rfl, radix', keys', ?_, union ▸ within, rfl, .inr rfl, others _ _⟩
    exact Stored.put { table with next := table.next + 1, top := if atTop then some table.next else table.top }
      stored leaf (Finset.disjoint_singleton_right.mpr outside) (union ▸ fresh) held'

theorem SpentTable.Placed.away {table grown : SpentTable} {leafId key id child x : Nat} {t t' : Trie Nat} {ids ids' : Finset Nat}
    {atTop : Bool} (placed : table.Placed leafId key id t ids atTop child t' ids' grown) (outside : x ∉ ids)
    (leaf : x ≠ leafId) (next : x ≠ table.next) : x ∉ ids' := by
  intro inside
  have within := placed.within inside
  simp only [Finset.mem_insert, leaf, next, false_or] at within
  exact outside within

theorem SpentTable.Placed.top_same {table grown : SpentTable} {leafId key id child : Nat} {t t' : Trie Nat} {ids ids' : Finset Nat}
    (placed : table.Placed leafId key id t ids false child t' ids' grown) : grown.top = table.top := by
  rcases placed.top with ⟨-, same⟩ | same
  · exact same
  · exact same

theorem SpentTable.place_left {table grown : SpentTable} {leafId key steps id held bit l r child : Nat} {hash h : Bytes}
    (atTop : Bool) {other : SpentRow} {hashed : Bytes} (row : table.rows.get? id = some ⟨toBytes 32 held, some bit, some l, some r, hashed⟩)
    (past : ¬splitAt held key < bit) (width : bit < 256) (goes : rightAt key bit = false)
    (run : table.place leafId hash (toBytes 32 key) steps false l = .ok (child, h, grown))
    (beside : grown.rows.get? r = some other) :
    table.place leafId hash (toBytes 32 key) (steps + 1) atTop id = .ok (id, spentBranchHash bit h other.hash,
      grown.put id ⟨toBytes 32 held, some bit, some child, some r, spentBranchHash bit h other.hash⟩) := by
  rw [place]
  refine bind_eq_ok.mpr ⟨_, known_eq_ok.mpr row, ?_⟩
  simp only [SpentRow.splitAt_toBytes, SpentRow.rightAt_toBytes key width, if_neg past, goes, Bool.false_eq_true, if_false]
  refine bind_eq_ok.mpr ⟨l, rfl, bind_eq_ok.mpr ⟨_, run, bind_eq_ok.mpr ⟨r, rfl, bind_eq_ok.mpr ⟨other, known_eq_ok.mpr beside, rfl⟩⟩⟩⟩

theorem SpentTable.place_right {table grown : SpentTable} {leafId key steps id held bit l r child : Nat} {hash h : Bytes}
    (atTop : Bool) {other : SpentRow} {hashed : Bytes} (row : table.rows.get? id = some ⟨toBytes 32 held, some bit, some l, some r, hashed⟩)
    (past : ¬splitAt held key < bit) (width : bit < 256) (goes : rightAt key bit = true)
    (run : table.place leafId hash (toBytes 32 key) steps false r = .ok (child, h, grown))
    (beside : grown.rows.get? l = some other) :
    table.place leafId hash (toBytes 32 key) (steps + 1) atTop id = .ok (id, spentBranchHash bit other.hash h,
      grown.put id ⟨toBytes 32 held, some bit, some l, some child, spentBranchHash bit other.hash h⟩) := by
  rw [place]
  refine bind_eq_ok.mpr ⟨_, known_eq_ok.mpr row, ?_⟩
  simp only [SpentRow.splitAt_toBytes, SpentRow.rightAt_toBytes key width, if_neg past, goes, if_true]
  refine bind_eq_ok.mpr ⟨r, rfl, bind_eq_ok.mpr ⟨_, run, bind_eq_ok.mpr ⟨l, rfl, bind_eq_ok.mpr ⟨other, known_eq_ok.mpr beside, rfl⟩⟩⟩⟩

/-- A branch and a leaf apart from it, with what is stored under each of its sides. -/
structure SpentTable.Parted (table : SpentTable) (leafId key id held bit l r : Nat) (left right : Trie Nat)
    (lefts rights : Finset Nat) : Prop where
  radix : SpentTrie (.branch bit left right)
  row : table.rows.get? id = some ⟨toBytes 32 held, some bit, some l, some r, trieRoot (.branch bit left right)⟩
  member : held ∈ (Trie.branch bit left right).keys
  storedL : Stored table.rows l left lefts
  storedR : Stored table.rows r right rights
  disjoint : Disjoint lefts rights
  fresh : id ∉ lefts ∪ rights
  leaf : Stored table.rows leafId (.leaf key) {leafId}
  outside : leafId ∉ insert id (lefts ∪ rights)
  below : ∀ i ∈ insert id (lefts ∪ rights), i < table.next
  leafBelow : leafId < table.next
  past : bit ≤ splitAt held key

namespace SpentTable.Parted

variable {table grown : SpentTable} {leafId key id held bit l r steps child : Nat} {left right t' : Trie Nat}
  {lefts rights ids' : Finset Nat} {atTop : Bool}

omit [Crypto] in
theorem mem_left {i : Nat} (inside : i ∈ lefts) : i ∈ insert id (lefts ∪ rights) :=
  Finset.mem_insert_of_mem (Finset.mem_union_left _ inside)

omit [Crypto] in
theorem mem_right {i : Nat} (inside : i ∈ rights) : i ∈ insert id (lefts ∪ rights) :=
  Finset.mem_insert_of_mem (Finset.mem_union_right _ inside)

theorem left_apart (parted : table.Parted leafId key id held bit l r left right lefts rights) :
    table.Apart leafId key l left lefts where
  stored := parted.storedL
  leaf := parted.leaf
  outside inside := parted.outside (mem_left inside)
  below i inside := parted.below i (mem_left inside)
  leafBelow := parted.leafBelow

theorem right_apart (parted : table.Parted leafId key id held bit l r left right lefts rights) :
    table.Apart leafId key r right rights where
  stored := parted.storedR
  leaf := parted.leaf
  outside inside := parted.outside (mem_right inside)
  below i inside := parted.below i (mem_right inside)
  leafBelow := parted.leafBelow

theorem mine (parted : table.Parted leafId key id held bit l r left right lefts rights) {i : Nat}
    (inside : i ∈ insert id (lefts ∪ rights)) : i ≠ leafId ∧ i ≠ table.next :=
  ⟨fun same => parted.outside (same ▸ inside), (parted.below i inside).ne⟩

theorem agree (parted : table.Parted leafId key id held bit l r left right lefts rights) :
    ∀ j < bit, rightAt held j = rightAt key j :=
  fun _ first => splitAt_agree (first.trans_le parted.past)

/-- A leaf placed on the left: the branch is stored again over the new side. -/
theorem grow_left (parted : table.Parted leafId key id held bit l r left right lefts rights) (goes : rightAt key bit = false)
    (run : table.place leafId (spentLeafHash key) (toBytes 32 key) steps false l = .ok (child, trieRoot t', grown))
    (placed : table.Placed leafId key l left lefts false child t' ids' grown) :
    ∃ child t' ids' grown, table.place leafId (spentLeafHash key) (toBytes 32 key) (steps + 1) atTop id = .ok (child, trieRoot t', grown) ∧
      table.Placed leafId key id (.branch bit left right) (insert id (lefts ∪ rights)) atTop child t' ids' grown := by
  obtain ⟨-, -, width, -, -, -⟩ := parted.radix.branch_inv
  have apart : ∀ i ∈ rights, i ∉ lefts := fun i inRight => Finset.disjoint_right.mp parted.disjoint inRight
  have same : ∀ i ∈ rights, grown.rows.get? i = table.rows.get? i := fun i inRight =>
    placed.others i (apart i inRight) (parted.mine (mem_right inRight)).2
  have storedR := parted.storedR.frame same
  obtain ⟨other, beside, hash, -⟩ := storedR.row
  have ran := place_left atTop parted.row (Nat.not_lt.mpr parted.past) width goes run beside
  rw [hash] at ran
  have keys : (Trie.branch bit t' right).keys = insert key (Trie.branch bit left right).keys := by
    rw [Trie.keys, Trie.keys, placed.keys, Finset.insert_union]
  have fresh : id ∉ ids' ∪ rights := by
    obtain ⟨notLeaf, notNext⟩ := parted.mine (Finset.mem_insert_self id _)
    intro inside
    rcases Finset.mem_union.mp inside with inLeft | inRight
    · exact placed.away (fun old => parted.fresh (Finset.mem_union_left _ old)) notLeaf notNext inLeft
    · exact parted.fresh (Finset.mem_union_right _ inRight)
  refine ⟨id, .branch bit t' right, insert id (ids' ∪ rights), _, ran, ?_, keys, ?_, ?_, placed.next, .inl ⟨rfl, placed.top_same⟩, ?_⟩
  · exact parted.radix.grow_left placed.radix placed.keys goes parted.member parted.agree
  · refine Stored.put grown placed.stored storedR (Finset.disjoint_right.mpr fun i inRight => ?_) fresh
      (keys ▸ Finset.mem_insert_of_mem parted.member)
    exact placed.away (apart i inRight) (parted.mine (mem_right inRight)).1 (parted.mine (mem_right inRight)).2
  · intro i inside
    have within := @placed.within i
    simp only [Finset.mem_insert, Finset.mem_union] at inside within ⊢
    tauto
  · intro i out other
    rw [put_get?, if_neg (fun same : id = i => out (same ▸ Finset.mem_insert_self _ _))]
    exact placed.others i (fun inLeft => out (mem_left inLeft)) other

/-- A leaf placed on the right: the branch is stored again over the new side. -/
theorem grow_right (parted : table.Parted leafId key id held bit l r left right lefts rights) (goes : rightAt key bit = true)
    (run : table.place leafId (spentLeafHash key) (toBytes 32 key) steps false r = .ok (child, trieRoot t', grown))
    (placed : table.Placed leafId key r right rights false child t' ids' grown) :
    ∃ child t' ids' grown, table.place leafId (spentLeafHash key) (toBytes 32 key) (steps + 1) atTop id = .ok (child, trieRoot t', grown) ∧
      table.Placed leafId key id (.branch bit left right) (insert id (lefts ∪ rights)) atTop child t' ids' grown := by
  obtain ⟨-, -, width, -, -, -⟩ := parted.radix.branch_inv
  have apart : ∀ i ∈ lefts, i ∉ rights := fun i inLeft => Finset.disjoint_left.mp parted.disjoint inLeft
  have same : ∀ i ∈ lefts, grown.rows.get? i = table.rows.get? i := fun i inLeft =>
    placed.others i (apart i inLeft) (parted.mine (mem_left inLeft)).2
  have storedL := parted.storedL.frame same
  obtain ⟨other, beside, hash, -⟩ := storedL.row
  have ran := place_right atTop parted.row (Nat.not_lt.mpr parted.past) width goes run beside
  rw [hash] at ran
  have keys : (Trie.branch bit left t').keys = insert key (Trie.branch bit left right).keys := by
    rw [Trie.keys, Trie.keys, placed.keys, Finset.union_insert]
  have fresh : id ∉ lefts ∪ ids' := by
    obtain ⟨notLeaf, notNext⟩ := parted.mine (Finset.mem_insert_self id _)
    intro inside
    rcases Finset.mem_union.mp inside with inLeft | inRight
    · exact parted.fresh (Finset.mem_union_left _ inLeft)
    · exact placed.away (fun old => parted.fresh (Finset.mem_union_right _ old)) notLeaf notNext inRight
  refine ⟨id, .branch bit left t', insert id (lefts ∪ ids'), _, ran, ?_, keys, ?_, ?_, placed.next, .inl ⟨rfl, placed.top_same⟩, ?_⟩
  · exact parted.radix.grow_right placed.radix placed.keys goes parted.member parted.agree
  · refine Stored.put grown storedL placed.stored (Finset.disjoint_left.mpr fun i inLeft => ?_) fresh
      (keys ▸ Finset.mem_insert_of_mem parted.member)
    exact placed.away (apart i inLeft) (parted.mine (mem_left inLeft)).1 (parted.mine (mem_left inLeft)).2
  · intro i inside
    have within := @placed.within i
    simp only [Finset.mem_insert, Finset.mem_union] at inside within ⊢
    tauto
  · intro i out other
    rw [put_get?, if_neg (fun same : id = i => out (same ▸ Finset.mem_insert_self _ _))]
    exact placed.others i (fun inRight => out (mem_right inRight)) other

end SpentTable.Parted

/-- A new key's leaf is placed: the branches above it are stored again over the trie it made. -/
theorem SpentTable.Apart.place {table : SpentTable} {leafId key : Nat} (bound : key < keyBound) {steps : Nat} {atTop : Bool}
    {id : Nat} {t : Trie Nat} {ids : Finset Nat} (apart : table.Apart leafId key id t ids) (radix : SpentTrie t)
    (held : ∀ k ∈ t.keys, k < keyBound) (absent : key ∉ t.keys) (room : 257 ≤ steps + t.top 256) :
    ∃ child t' ids' grown, table.place leafId (spentLeafHash key) (toBytes 32 key) steps atTop id = .ok (child, trieRoot t', grown) ∧
      table.Placed leafId key id t ids atTop child t' ids' grown := by
  have inside : ∀ k ∈ t.keys, splitAt k key < 256 := by
    intro k member
    by_contra same
    exact absent (eq_of_splitAt (held k member) bound same ▸ member)
  induction steps generalizing atTop id t ids with
  | zero =>
    have top := radix.top_le
    omega
  | succ steps ih =>
    have leaves : ∀ {node : SpentRow} {k : Nat}, table.rows.get? id = some node → k ∈ t.keys → node.key = toBytes 32 k →
        splitAt k key < t.top 256 → ∃ child t' ids' grown, (do
          require (SpentRow.splitAt node.key (toBytes 32 key) ≠ 256) (.error "nullifier already in the spent set")
          return table.attach atTop leafId (spentLeafHash key) (toBytes 32 key) (SpentRow.splitAt node.key (toBytes 32 key)) id node) =
            .ok (child, trieRoot t', grown) ∧ table.Placed leafId key id t ids atTop child t' ids' grown := by
      intro node k row member rowKey before
      obtain ⟨child, t', ids', grown, attached, placed⟩ := apart.attach atTop row radix member before (inside k member) rowKey
      refine ⟨child, t', ids', grown, ?_, placed⟩
      have below := inside k member
      rw [rowKey, SpentRow.splitAt_toBytes, attached]
      exact bind_unit_eq_ok.mpr ⟨by simpa using below.ne, rfl⟩
    have read : ∀ {node : SpentRow}, table.rows.get? id = some node → table.get id = .ok node := fun row => known_eq_ok.mpr row
    obtain ⟨stored, leaf, outside, below, leafBelow⟩ := apart
    cases stored with
    | @leaf id k row =>
      obtain ⟨child, t', ids', grown, run, placed⟩ := leaves row (Finset.mem_singleton_self k) rfl (inside k (Finset.mem_singleton_self k))
      exact ⟨child, t', ids', grown, bind_eq_ok.mpr ⟨_, read row, run⟩, placed⟩
    | @branch id k bit l r left right lefts rights row member storedL storedR disjoint fresh =>
      by_cases before : splitAt k key < bit
      · obtain ⟨child, t', ids', grown, run, placed⟩ := leaves row member rfl before
        refine ⟨child, t', ids', grown, bind_eq_ok.mpr ⟨_, read row, ?_⟩, placed⟩
        simp only [SpentRow.splitAt_toBytes, if_pos before] at run ⊢
        exact run
      · have parted : table.Parted leafId key id k bit l r left right lefts rights :=
          ⟨radix, row, member, storedL, storedR, disjoint, fresh, leaf, outside, below, leafBelow, Nat.le_of_not_lt before⟩
        obtain ⟨radixL, radixR, -, -, -, -⟩ := radix.branch_inv
        rw [Trie.top] at room
        cases goes : rightAt key bit
        · have lower := radix.lt_left
          obtain ⟨child, left', lefts', grown, run, placed⟩ := @ih false l left lefts parted.left_apart radixL
            (fun k inLeft => held k (Finset.mem_union_left _ inLeft)) (fun inLeft => absent (Finset.mem_union_left _ inLeft))
            (by omega) (fun k inLeft => inside k (Finset.mem_union_left _ inLeft))
          exact parted.grow_left goes run placed
        · have lower := radix.lt_right
          obtain ⟨child, right', rights', grown, run, placed⟩ := @ih false r right rights parted.right_apart radixR
            (fun k inRight => held k (Finset.mem_union_right _ inRight)) (fun inRight => absent (Finset.mem_union_right _ inRight))
            (by omega) (fun k inRight => inside k (Finset.mem_union_right _ inRight))
          exact parted.grow_right goes run placed

/-- The key set a namespace's stored nodes hold. -/
structure SpentTable.Holds (table : SpentTable) (keys : Finset Nat) : Prop where
  bound : ∀ key ∈ keys, key < keyBound
  empty : table.top = none → keys = ∅
  tree : ∀ top, table.top = some top →
    ∃ t ids, SpentTrie t ∧ t.keys = keys ∧ Stored table.rows top t ids ∧ ∀ i ∈ ids, i < table.next

theorem SpentTable.holds_empty : SpentTable.Holds {} ∅ where
  bound key member := absurd member (Finset.notMem_empty key)
  empty _ := rfl
  tree top held := by cases held

/-- The table an insertion has after its first write. -/
def SpentTable.withLeaf (table : SpentTable) (key : Nat) : SpentTable :=
  { table with next := table.next + 1 }.put table.next ⟨toBytes 32 key, none, none, none, spentLeafHash key⟩

theorem SpentTable.withLeaf_apart {table : SpentTable} {key top : Nat} {t : Trie Nat} {ids : Finset Nat}
    (stored : Stored table.rows top t ids) (below : ∀ i ∈ ids, i < table.next) :
    (table.withLeaf key).Apart table.next key top t ids where
  stored := by
    refine stored.frame fun i inside => ?_
    rw [withLeaf, put_get?, if_neg (below i inside).ne']
  leaf := by
    refine .leaf ?_
    rw [withLeaf, put_get?, if_pos rfl]
  outside inside := Nat.lt_irrefl _ (below _ inside)
  below i inside := (below i inside).trans (Nat.lt_succ_self _)
  leafBelow := Nat.lt_succ_self _

theorem SpentTable.Holds.withLeaf {table : SpentTable} {keys : Finset Nat} (holds : table.Holds keys) (key : Nat) :
    (table.withLeaf key).Holds keys where
  bound := holds.bound
  empty := holds.empty
  tree top held := by
    obtain ⟨t, ids, radix, same, stored, below⟩ := holds.tree top held
    have apart := @SpentTable.withLeaf_apart _ table key top t ids stored below
    exact ⟨t, ids, radix, same, apart.stored, apart.below⟩

theorem SpentTable.insert_first {table : SpentTable} (above : table.top = none) (key : Nat) :
    table.insert (toBytes 32 key) = ({ table.withLeaf key with top := some table.next }, .ok ()) := by
  rw [SpentTable.insert, above]
  rfl

theorem SpentTable.insert_placed {table grown : SpentTable} {key top child : Nat} {h : Bytes} (above : table.top = some top)
    (run : (table.withLeaf key).place table.next (spentLeafHash key) (toBytes 32 key) 257 true top = .ok (child, h, grown)) :
    table.insert (toBytes 32 key) = (grown, .ok ()) := by
  simp only [withLeaf, spentLeafHash, above] at run
  simp only [SpentTable.insert, above, run]

theorem SpentTable.insert_refused {table : SpentTable} {key top : Nat} {failure : Failure} (above : table.top = some top)
    (run : (table.withLeaf key).place table.next (spentLeafHash key) (toBytes 32 key) 257 true top = .error failure) :
    table.insert (toBytes 32 key) = (table.withLeaf key, .error failure) := by
  have held : table.withLeaf key = _ := rfl
  simp only [withLeaf, spentLeafHash, above] at run held ⊢
  simp only [SpentTable.insert, above, run]

theorem SpentTable.Holds.inserted {table : SpentTable} {keys : Finset Nat} (holds : table.Holds keys) {key : Nat}
    (bound : key < keyBound) (absent : key ∉ keys) :
    ∃ grown, table.insert (toBytes 32 key) = (grown, .ok ()) ∧ grown.Holds (insert key keys) := by
  have bounds : ∀ k ∈ insert key keys, k < keyBound := by
    intro k member
    rcases Finset.mem_insert.mp member with rfl | old
    · exact bound
    · exact holds.bound k old
  cases above : table.top with
  | none =>
    refine ⟨_, SpentTable.insert_first above key, bounds, fun none => absurd none (Option.some_ne_none _), ?_⟩
    rintro top ⟨⟩
    rw [holds.empty above]
    refine ⟨.leaf key, {table.next}, .leaf key, rfl, .leaf ?_, ?_⟩
    · rw [SpentTable.withLeaf, put_get?, if_pos rfl]
    · intro i inside
      rw [Finset.mem_singleton.mp inside]
      exact Nat.lt_succ_self _
  | some top =>
    obtain ⟨t, ids, radix, same, stored, below⟩ := holds.tree top above
    have held : ∀ k ∈ t.keys, k < keyBound := fun k member => holds.bound k (same ▸ member)
    have apart := @SpentTable.withLeaf_apart _ table key top t ids stored below
    obtain ⟨child, t', ids', grown, run, placed⟩ := @SpentTable.Apart.place _ _ _ _ bound 257 true _ _ _ apart radix held
      (same ▸ absent) (by omega)
    have topmost : grown.top = some child := by
      rcases placed.top with ⟨rfl, kept⟩ | new
      · exact kept.trans above
      · exact new
    refine ⟨grown, SpentTable.insert_placed above run, bounds, ?_, ?_⟩
    · intro none
      rw [none] at topmost
      cases topmost
    · intro id atTop
      obtain rfl : child = id := Option.some.inj (topmost.symm.trans atTop)
      refine ⟨t', ids', placed.radix, by rw [placed.keys, same], placed.stored, ?_⟩
      intro i inside
      have within := placed.within inside
      rw [placed.next]
      simp only [Finset.mem_insert] at within
      rcases within with rfl | rfl | old
      · exact apart.leafBelow.trans (Nat.lt_succ_self _)
      · exact Nat.lt_succ_self _
      · exact (apart.below i old).trans (Nat.lt_succ_self _)

/-- The path of a key a stored trie holds ends at its leaf, where it is refused. -/
theorem Stored.refused {table : SpentTable} {key leafId steps id : Nat} {hash : Bytes} {atTop : Bool} {t : Trie Nat} {ids : Finset Nat}
    (stored : Stored table.rows id t ids) (radix : SpentTrie t) (member : key ∈ t.keys) (room : 257 ≤ steps + t.top 256) :
    table.place leafId hash (toBytes 32 key) steps atTop id = .error (.error "nullifier already in the spent set") := by
  induction steps generalizing atTop id t ids with
  | zero =>
    have top := radix.top_le
    omega
  | succ steps ih =>
    have read : ∀ {node : SpentRow}, table.rows.get? id = some node → table.get id = .ok node := fun row => known_eq_ok.mpr row
    cases stored with
    | @leaf id k row =>
      obtain rfl := Finset.mem_singleton.mp member
      rw [SpentTable.place, read row]
      simp only [bind, Except.bind, SpentRow.splitAt_toBytes, splitAt_self]
      rfl
    | @branch id k bit l r left right lefts rights row held storedL storedR disjoint fresh =>
      obtain ⟨radixL, radixR, width, -, -, -⟩ := radix.branch_inv
      have past : ¬splitAt k key < bit := Nat.not_lt.mpr (top_le_splitAt radix held member)
      rw [Trie.top] at room
      rw [SpentTable.place, read row]
      simp only [bind, Except.bind, SpentRow.splitAt_toBytes, SpentRow.rightAt_toBytes key width, if_neg past]
      cases goes : rightAt key bit
      · have lower := radix.lt_left
        simp only [Bool.false_eq_true, if_false, known, ih storedL radixL (radix.mem_left member goes) (by omega)]
      · have lower := radix.lt_right
        simp only [if_true, known, ih storedR radixR (radix.mem_right member goes) (by omega)]

/-- A key the set holds is refused; only a leaf row no node points at is left of it. -/
theorem SpentTable.Holds.refused {table : SpentTable} {keys : Finset Nat} (holds : table.Holds keys) {key : Nat}
    (member : key ∈ keys) :
    table.insert (toBytes 32 key) = (table.withLeaf key, .error (.error "nullifier already in the spent set")) := by
  cases above : table.top with
  | none => simp [holds.empty above] at member
  | some top =>
    obtain ⟨t, ids, radix, same, stored, below⟩ := holds.tree top above
    have apart := @SpentTable.withLeaf_apart _ table key top t ids stored below
    exact SpentTable.insert_refused above (apart.stored.refused radix (same ▸ member) (by omega))

end

end Moe
