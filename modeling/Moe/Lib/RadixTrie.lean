import Mathlib.Data.Finset.Basic
import Mathlib.Data.Finset.Lattice.Lemmas

namespace Moe

/-- A binary trie without one-sided levels: full keys at its leaves, and at each branch the bit its sides split at. -/
inductive Trie (κ : Type*)
  | leaf (key : κ)
  | branch (split : Nat) (left right : Trie κ)

namespace Trie

variable {κ : Type*}

section Digest

variable {φ δ : Type*} (leafFrame : κ → φ) (branchFrame : Nat → δ → δ → φ) (hash : φ → δ)

def digest : Trie κ → δ
  | leaf key => hash (leafFrame key)
  | branch i left right => hash (branchFrame i left.digest right.digest)

/-- Every frame a trie hashes. -/
def frames : Trie κ → List φ
  | leaf key => [leafFrame key]
  | branch i left right => branchFrame i (left.digest leafFrame branchFrame hash) (right.digest leafFrame branchFrame hash) ::
      (left.frames ++ right.frames)

theorem digest_mem (t : Trie κ) :
    ∃ frame ∈ t.frames leafFrame branchFrame hash, t.digest leafFrame branchFrame hash = hash frame := by
  cases t with
  | leaf key => exact ⟨_, List.mem_singleton_self _, rfl⟩
  | branch i left right => exact ⟨_, List.mem_cons_self, rfl⟩

end Digest

variable [DecidableEq κ]

def keys : Trie κ → Finset κ
  | leaf key => {key}
  | branch _ left right => left.keys ∪ right.keys

/-- The key a node is compared by: its leftmost. -/
def rep : Trie κ → κ
  | leaf key => key
  | branch _ left _ => left.rep

theorem rep_mem (t : Trie κ) : t.rep ∈ t.keys := by
  induction t with
  | leaf key => exact Finset.mem_singleton_self key
  | branch split left right ihLeft _ => exact Finset.mem_union_left _ ihLeft

section Radix

variable (bit : κ → Nat → Bool) (width : Nat)

/-- Keys that agree at every bit before one. -/
def Agree (keys : Finset κ) (i : Nat) : Prop := ∀ a ∈ keys, ∀ b ∈ keys, ∀ j < i, bit a j = bit b j

/-- A trie whose branches each split, at the first bit its keys differ at, those that go left from those that go right. -/
inductive Radix : Trie κ → Prop
  | leaf (key : κ) : Radix (leaf key)
  | branch {i : Nat} {left right : Trie κ} : Radix left → Radix right → i < width → (∀ key ∈ left.keys, bit key i = false) →
      (∀ key ∈ right.keys, bit key i = true) → Agree bit (left.keys ∪ right.keys) i → Radix (branch i left right)

variable {bit width}

theorem Radix.branch_inv {i : Nat} {left right : Trie κ} (radix : Radix bit width (.branch i left right)) :
    Radix bit width left ∧ Radix bit width right ∧ i < width ∧ (∀ key ∈ left.keys, bit key i = false) ∧
      (∀ key ∈ right.keys, bit key i = true) ∧ Agree bit (left.keys ∪ right.keys) i := by
  cases radix with
  | branch first second below zeros ones agree => exact ⟨first, second, below, zeros, ones, agree⟩

/-- The keys of a side are those of the branch that go to it. -/
theorem Radix.sides {i : Nat} {left right : Trie κ} (radix : Radix bit width (.branch i left right)) :
    left.keys = (left.keys ∪ right.keys).filter (bit · i = false) ∧
      right.keys = (left.keys ∪ right.keys).filter (bit · i = true) := by
  obtain ⟨-, -, -, zeros, ones, -⟩ := radix.branch_inv
  constructor
  all_goals
    ext key
    simp only [Finset.mem_filter, Finset.mem_union]
    constructor
  · exact fun member => ⟨.inl member, zeros key member⟩
  · rintro ⟨inLeft | inRight, zero⟩
    · exact inLeft
    · rw [ones key inRight] at zero
      cases zero
  · exact fun member => ⟨.inr member, ones key member⟩
  · rintro ⟨inLeft | inRight, one⟩
    · rw [zeros key inLeft] at one
      cases one
    · exact inRight

/-- Two tries of the same keys branch at the same bit. -/
theorem Radix.split_le {i j : Nat} {left right : Trie κ} (radix : Radix bit width (.branch i left right))
    {keys : Finset κ} (same : left.keys ∪ right.keys = keys) (agree : Agree bit keys j) : j ≤ i := by
  obtain ⟨-, -, -, zeros, ones, -⟩ := radix.branch_inv
  by_contra past
  have inLeft : left.rep ∈ keys := same ▸ Finset.mem_union_left _ left.rep_mem
  have inRight : right.rep ∈ keys := same ▸ Finset.mem_union_right _ right.rep_mem
  have equal := agree _ inLeft _ inRight i (Nat.lt_of_not_le past)
  rw [zeros _ left.rep_mem, ones _ right.rep_mem] at equal
  cases equal

theorem Radix.not_singleton {i : Nat} {left right : Trie κ} (radix : Radix bit width (.branch i left right)) {key : κ} :
    left.keys ∪ right.keys ≠ {key} := by
  intro same
  obtain ⟨-, -, -, zeros, ones, -⟩ := radix.branch_inv
  have inLeft : left.rep = key := Finset.mem_singleton.mp (same ▸ Finset.mem_union_left _ left.rep_mem)
  have inRight : right.rep = key := Finset.mem_singleton.mp (same ▸ Finset.mem_union_right _ right.rep_mem)
  have zero := zeros _ left.rep_mem
  rw [inLeft, ← inRight, ones _ right.rep_mem] at zero
  cases zero

/-- A set of keys has one radix trie. -/
theorem Radix.unique {s t : Trie κ} (first : Radix bit width s) (second : Radix bit width t) (same : s.keys = t.keys) :
    s = t := by
  induction s generalizing t with
  | leaf key =>
    cases t with
    | leaf other => rw [Finset.singleton_inj.mp same]
    | branch i left right => exact absurd same.symm second.not_singleton
  | branch i left right ihLeft ihRight =>
    cases t with
    | leaf other => exact absurd same first.not_singleton
    | branch j left' right' =>
      obtain ⟨l, r, -, -, -, agree⟩ := first.branch_inv
      obtain ⟨l', r', -, -, -, agree'⟩ := second.branch_inv
      have union : left.keys ∪ right.keys = left'.keys ∪ right'.keys := same
      obtain rfl : i = j := Nat.le_antisymm (second.split_le union.symm agree) (first.split_le union agree')
      obtain ⟨zeros, ones⟩ := first.sides
      obtain ⟨zeros', ones'⟩ := second.sides
      rw [ihLeft l l' (by rw [zeros, zeros', union]), ihRight r r' (by rw [ones, ones', union])]

/-- The bit the keys of a trie are first told apart at; one key is told apart at none. -/
def top (width : Nat) : Trie κ → Nat
  | leaf _ => width
  | branch i _ _ => i

theorem Radix.agree {t : Trie κ} (radix : Radix bit width t) : Agree bit t.keys (t.top width) := by
  cases t with
  | leaf key =>
    intro a memberA b memberB j below
    rw [Finset.mem_singleton.mp memberA, Finset.mem_singleton.mp memberB]
  | branch i left right =>
    obtain ⟨-, -, -, -, -, agree⟩ := radix.branch_inv
    exact agree

theorem Radix.top_le {t : Trie κ} (radix : Radix bit width t) : t.top width ≤ width := by
  cases radix with
  | leaf key => exact le_rfl
  | branch _ _ inside _ _ _ => exact inside.le

/-- Keys that agree at a bit too are parted after it. -/
theorem Radix.lt_top {t : Trie κ} (radix : Radix bit width t) {i : Nat} {side : Bool} (inside : i < width)
    (agree : Agree bit t.keys i) (goes : ∀ key ∈ t.keys, bit key i = side) : i < t.top width := by
  cases t with
  | leaf key => exact inside
  | branch j left right =>
    refine radix.split_le rfl fun a memberA b memberB k below => ?_
    rcases Nat.lt_succ_iff_lt_or_eq.mp below with before | rfl
    · exact agree a memberA b memberB k before
    · rw [goes a memberA, goes b memberB]

theorem Radix.lt_left {i : Nat} {left right : Trie κ} (radix : Radix bit width (.branch i left right)) :
    i < left.top width := by
  obtain ⟨radixL, -, inside, zeros, -, agree⟩ := radix.branch_inv
  exact radixL.lt_top inside (fun a memberA b memberB =>
    agree a (Finset.mem_union_left _ memberA) b (Finset.mem_union_left _ memberB)) zeros

theorem Radix.lt_right {i : Nat} {left right : Trie κ} (radix : Radix bit width (.branch i left right)) :
    i < right.top width := by
  obtain ⟨-, radixR, inside, -, ones, agree⟩ := radix.branch_inv
  exact radixR.lt_top inside (fun a memberA b memberB =>
    agree a (Finset.mem_union_right _ memberA) b (Finset.mem_union_right _ memberB)) ones

theorem Radix.mem_left {i : Nat} {left right : Trie κ} (radix : Radix bit width (.branch i left right)) {key : κ}
    (member : key ∈ (Trie.branch i left right).keys) (zero : bit key i = false) : key ∈ left.keys := by
  rw [radix.sides.1, Finset.mem_filter]
  exact ⟨member, zero⟩

theorem Radix.mem_right {i : Nat} {left right : Trie κ} (radix : Radix bit width (.branch i left right)) {key : κ}
    (member : key ∈ (Trie.branch i left right).keys) (one : bit key i = true) : key ∈ right.keys := by
  rw [radix.sides.2, Finset.mem_filter]
  exact ⟨member, one⟩

/-- One more key agrees with the others where it agrees with any one of them. -/
theorem Agree.grow {keys : Finset κ} {i : Nat} (agree : Agree bit keys i) {a key : κ} (member : a ∈ keys)
    (same : ∀ j < i, bit a j = bit key j) : Agree bit (insert key keys) i := by
  have held : ∀ b ∈ insert key keys, ∀ j < i, bit a j = bit b j := by
    intro b memberB j below
    rcases Finset.mem_insert.mp memberB with rfl | inKeys
    · exact same j below
    · exact agree a member b inKeys j below
  intro b memberB c memberC j below
  rw [← held b memberB j below, held c memberC j below]

/-- A new leaf beside a trie, on the side its key goes to. -/
def beside (bit : κ → Nat → Bool) (i : Nat) (key : κ) (t : Trie κ) : Trie κ :=
  if bit key i then branch i t (leaf key) else branch i (leaf key) t

theorem beside_keys (bit : κ → Nat → Bool) (i : Nat) (key : κ) (t : Trie κ) :
    (beside bit i key t).keys = insert key t.keys := by
  cases side : bit key i
  · simp only [beside, side, Bool.false_eq_true, if_false, keys]
    rfl
  · simp only [beside, side, if_true, keys, Finset.union_comm t.keys]
    rfl

/-- A key that leaves a trie's keys before they part goes beside it. -/
theorem Radix.beside {t : Trie κ} (radix : Radix bit width t) {a key : κ} {i : Nat} (member : a ∈ t.keys)
    (before : i < t.top width) (inside : i < width) (same : ∀ j < i, bit a j = bit key j) (differ : bit a i ≠ bit key i) :
    Radix bit width (beside bit i key t) := by
  have side : ∀ b ∈ t.keys, bit b i = !bit key i := by
    intro b memberB
    rw [radix.agree b memberB a member i before]
    cases atA : bit a i <;> cases atKey : bit key i <;> simp_all
  have agree : Agree bit (insert key t.keys) i :=
    Agree.grow (fun b memberB c memberC j below => radix.agree b memberB c memberC j (below.trans before)) member same
  have alone : ∀ b ∈ (Trie.leaf key).keys, b = key := fun b memberB => Finset.mem_singleton.mp memberB
  cases goes : bit key i
  · rw [Trie.beside, goes, if_neg Bool.false_ne_true]
    refine .branch (.leaf key) radix inside (fun b memberB => alone b memberB ▸ goes) (fun b memberB => ?_) agree
    rw [side b memberB, goes, Bool.not_false]
  · rw [Trie.beside, goes, if_pos rfl]
    refine .branch radix (.leaf key) inside (fun b memberB => ?_) (fun b memberB => alone b memberB ▸ goes) ?_
    · rw [side b memberB, goes, Bool.not_true]
    · rw [Finset.union_comm]
      exact agree

theorem Radix.grow_left {i : Nat} {left right grown : Trie κ} (radix : Radix bit width (.branch i left right))
    (more : Radix bit width grown) {a key : κ} (keys : grown.keys = insert key left.keys) (zero : bit key i = false)
    (member : a ∈ (Trie.branch i left right).keys) (same : ∀ j < i, bit a j = bit key j) :
    Radix bit width (.branch i grown right) := by
  obtain ⟨-, other, inside, zeros, ones, agree⟩ := radix.branch_inv
  refine .branch more other inside (fun b memberB => ?_) ones ?_
  · rcases Finset.mem_insert.mp (keys ▸ memberB) with rfl | old
    · exact zero
    · exact zeros b old
  · rw [keys, Finset.insert_union]
    exact agree.grow member same

theorem Radix.grow_right {i : Nat} {left right grown : Trie κ} (radix : Radix bit width (.branch i left right))
    (more : Radix bit width grown) {a key : κ} (keys : grown.keys = insert key right.keys) (one : bit key i = true)
    (member : a ∈ (Trie.branch i left right).keys) (same : ∀ j < i, bit a j = bit key j) :
    Radix bit width (.branch i left grown) := by
  obtain ⟨other, -, inside, zeros, ones, agree⟩ := radix.branch_inv
  refine .branch other more inside zeros (fun b memberB => ?_) ?_
  · rcases Finset.mem_insert.mp (keys ▸ memberB) with rfl | old
    · exact one
    · exact ones b old
  · rw [keys, Finset.union_insert]
    exact agree.grow member same

end Radix

section Injective

variable {φ δ : Type*} {leafFrame : κ → φ} {branchFrame : Nat → δ → δ → φ} {hash : φ → δ} {bit : κ → Nat → Bool} {width : Nat}

/-- Tries that hash no two frames to one digest have one digest only where they are one trie. -/
theorem Radix.digest_injective {s t : Trie κ} (first : Radix bit width s) (second : Radix bit width t)
    (apart : ∀ x ∈ s.frames leafFrame branchFrame hash, ∀ y ∈ t.frames leafFrame branchFrame hash, hash x = hash y → x = y)
    (leaves : ∀ a ∈ s.keys, ∀ b ∈ t.keys, leafFrame a = leafFrame b → a = b)
    (branches : ∀ i < width, ∀ j < width, ∀ a b c d, branchFrame i (hash a) (hash b) = branchFrame j (hash c) (hash d) →
      i = j ∧ hash a = hash c ∧ hash b = hash d)
    (kinds : ∀ key i l r, leafFrame key ≠ branchFrame i l r)
    (same : s.digest leafFrame branchFrame hash = t.digest leafFrame branchFrame hash) : s = t := by
  induction s generalizing t with
  | leaf key =>
    cases t with
    | leaf other =>
      have frame := apart _ (List.mem_singleton_self _) _ (List.mem_singleton_self _) same
      rw [leaves key (Finset.mem_singleton_self key) other (Finset.mem_singleton_self other) frame]
    | branch j left' right' => exact absurd (apart _ (List.mem_singleton_self _) _ List.mem_cons_self same) (kinds _ _ _ _)
  | branch i left right ihLeft ihRight =>
    cases t with
    | leaf other => exact absurd (apart _ List.mem_cons_self _ (List.mem_singleton_self _) same).symm (kinds _ _ _ _)
    | branch j left' right' =>
      obtain ⟨radixL, radixR, inside, -, -, -⟩ := first.branch_inv
      obtain ⟨radixL', radixR', inside', -, -, -⟩ := second.branch_inv
      obtain ⟨a, -, hashA⟩ := left.digest_mem leafFrame branchFrame hash
      obtain ⟨b, -, hashB⟩ := right.digest_mem leafFrame branchFrame hash
      obtain ⟨c, -, hashC⟩ := left'.digest_mem leafFrame branchFrame hash
      obtain ⟨d, -, hashD⟩ := right'.digest_mem leafFrame branchFrame hash
      have frame := apart _ List.mem_cons_self _ List.mem_cons_self same
      rw [hashA, hashB, hashC, hashD] at frame
      obtain ⟨rfl, lefts, rights⟩ := branches i inside j inside' a b c d frame
      rw [ihLeft radixL radixL' (fun x memberX y memberY => apart x ?_ y ?_) (fun a memberA b memberB => leaves a ?_ b ?_)
        (by rw [hashA, hashC, lefts])]
      · rw [ihRight radixR radixR' (fun x memberX y memberY => apart x ?_ y ?_) (fun a memberA b memberB => leaves a ?_ b ?_)
          (by rw [hashB, hashD, rights])]
        · exact List.mem_cons_of_mem _ (List.mem_append_right _ memberX)
        · exact List.mem_cons_of_mem _ (List.mem_append_right _ memberY)
        · exact Finset.mem_union_right _ memberA
        · exact Finset.mem_union_right _ memberB
      · exact List.mem_cons_of_mem _ (List.mem_append_left _ memberX)
      · exact List.mem_cons_of_mem _ (List.mem_append_left _ memberY)
      · exact Finset.mem_union_left _ memberA
      · exact Finset.mem_union_left _ memberB

end Injective

section Compress

variable (bit : κ → Nat → Bool)

/-- The two sides of a level as one trie; a level with one side is left out. -/
def join (i : Nat) : Option (Trie κ) → Option (Trie κ) → Option (Trie κ)
  | none, right => right
  | left, none => left
  | some left, some right => some (branch i left right)

/-- The path-compressed binary trie of some keys, by their bits from `i` on. -/
def compress : Nat → Nat → List κ → Option (Trie κ)
  | 0, _, keys => keys.head?.map leaf
  | rest + 1, i, keys =>
    if keys.isEmpty then none
    else join i (compress rest (i + 1) (keys.filter (!bit · i))) (compress rest (i + 1) (keys.filter (bit · i)))

variable {bit} {width : Nat}

/-- Keys told apart by their bits below a width have a radix trie: their compressed one. -/
theorem compress_radix {rest i : Nat} {keys : List κ} (full : i + rest = width)
    (apart : ∀ a ∈ keys, ∀ b ∈ keys, (∀ j < width, bit a j = bit b j) → a = b) (agree : Agree bit keys.toFinset i) :
    (keys = [] ∧ compress bit rest i keys = none) ∨
      ∃ t, compress bit rest i keys = some t ∧ Radix bit width t ∧ t.keys = keys.toFinset := by
  induction rest generalizing i keys with
  | zero =>
    cases keys with
    | nil => exact .inl ⟨rfl, rfl⟩
    | cons key others =>
      refine .inr ⟨leaf key, rfl, .leaf key, ?_⟩
      have one : ∀ other ∈ key :: others, other = key := by
        intro other member
        refine apart other member key List.mem_cons_self fun j below => ?_
        exact agree other (List.mem_toFinset.mpr member) key (List.mem_toFinset.mpr List.mem_cons_self) j (by omega)
      ext other
      rw [Trie.keys, Finset.mem_singleton, List.mem_toFinset]
      constructor
      · rintro rfl
        exact List.mem_cons_self
      · exact one other
  | succ rest ih =>
    have deeper : ∀ (side : Bool) (part : List κ), (∀ key ∈ part, key ∈ keys ∧ bit key i = side) →
        Agree bit part.toFinset (i + 1) := by
      intro side part inside a memberA b memberB j below
      obtain ⟨inA, sideA⟩ := inside a (List.mem_toFinset.mp memberA)
      obtain ⟨inB, sideB⟩ := inside b (List.mem_toFinset.mp memberB)
      rcases Nat.lt_succ_iff_lt_or_eq.mp below with before | rfl
      · exact agree a (List.mem_toFinset.mpr inA) b (List.mem_toFinset.mpr inB) j before
      · rw [sideA, sideB]
    have zeros : ∀ key ∈ keys.filter (!bit · i), key ∈ keys ∧ bit key i = false := by simp
    have ones : ∀ key ∈ keys.filter (bit · i), key ∈ keys ∧ bit key i = true := by simp
    have both : (keys.filter (!bit · i)).toFinset ∪ (keys.filter (bit · i)).toFinset = keys.toFinset := by
      ext key
      cases side : bit key i <;> simp [side]
    have left := @ih (i + 1) (keys.filter (!bit · i)) (by omega)
      (fun a memberA b memberB => apart a (zeros a memberA).1 b (zeros b memberB).1) (deeper false _ zeros)
    have right := @ih (i + 1) (keys.filter (bit · i)) (by omega)
      (fun a memberA b memberB => apart a (ones a memberA).1 b (ones b memberB).1) (deeper true _ ones)
    by_cases empty : keys = []
    · exact .inl ⟨empty, by rw [compress, empty]; rfl⟩
    rw [compress, if_neg (by simpa using empty)]
    rcases left with ⟨noLeft, none⟩ | ⟨l, someLeft, radixL, keysL⟩ <;>
      rcases right with ⟨noRight, none'⟩ | ⟨r, someRight, radixR, keysR⟩
    · left
      rw [none, none']
      refine ⟨List.eq_nil_iff_forall_not_mem.mpr fun key member => ?_, rfl⟩
      rw [← List.mem_toFinset, ← both, noLeft, noRight] at member
      simp at member
    · right
      rw [none, someRight]
      refine ⟨r, rfl, radixR, ?_⟩
      rw [keysR, ← both, noLeft]
      simp
    · right
      rw [none', someLeft]
      refine ⟨l, rfl, radixL, ?_⟩
      rw [keysL, ← both, noRight]
      simp
    · right
      rw [someLeft, someRight]
      refine ⟨branch i l r, rfl, .branch radixL radixR (by omega) ?_ ?_ ?_, ?_⟩
      · intro key member
        rw [keysL, List.mem_toFinset] at member
        exact (zeros key member).2
      · intro key member
        rw [keysR, List.mem_toFinset] at member
        exact (ones key member).2
      · rw [keysL, keysR, both]
        exact agree
      · rw [Trie.keys, keysL, keysR, both]

end Compress

end Trie

end Moe
