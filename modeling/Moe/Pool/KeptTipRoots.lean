import Moe.Pool.KeptTip

namespace Moe

open HashTree

variable [Crypto]

section Slots

omit [Crypto]

theorem Ommers.at_slot {ommers : Ommers} {h value : Nat} (held : ommers.slot h = some value) : ommers.at h = value := by
  unfold Ommers.slot at held
  rw [Ommers.at, held, Option.getD_some]

theorem Ommers.slot_set {ommers : Ommers} {h : Nat} (inside : h < ommers.length) (value : Option Nat) (k : Nat) :
    Ommers.slot (ommers.set h value) k = if h = k then value else ommers.slot k := by
  unfold Ommers.slot
  by_cases same : h = k
  · subst same
    simp [inside]
  · simp [same]

/-- The slots in use are those of the leaf count's bits. -/
def Ommers.Standing (leaves : Nat) (ommers : Ommers) : Prop := ∀ h ≤ noteTreeDepth, (ommers.slot h).isSome = leaves.testBit h

theorem standing_empty : Ommers.Standing 0 emptyOmmers := by
  intro h inside
  have unused : emptyOmmers.slot h = none := by
    have within : h < noteTreeDepth + 1 := Nat.lt_succ_of_le inside
    rw [Ommers.slot, emptyOmmers, List.getElem?_replicate, if_pos within]
    rfl
  rw [unused, Nat.zero_testBit]
  rfl

/-- The lowest clear bit of a count is set in the next. -/
theorem succ_testBit_at {n t : Nat} (ones : ∀ k < t, n.testBit k) (clear : n.testBit t = false) : (n + 1).testBit t = true := by
  have even : n / 2 ^ t % 2 = 0 := by
    have unset := (testBit_iff n t).not.mp (by simp [clear])
    omega
  rw [succ_of_carry ones, testBit_iff, Nat.mul_div_cancel_left _ (Nat.two_pow_pos t)]
  omega

end Slots

/-- A leaf's carry empties the slots it passes and fills the one it stops at, as the count's bits change. -/
theorem Ommers.carry_standing {leaf : Nat} (room : leaf < noteTreeCapacity) {fuel h node : Nat} {ommers : Ommers}
    (full : h + fuel = noteTreeDepth) (length : ommers.length = noteTreeDepth + 1) (ones : ∀ k < h, leaf.testBit k)
    (passed : ∀ k < h, ommers.slot k = none) (above : ∀ k, h ≤ k → k ≤ noteTreeDepth → (ommers.slot k).isSome = leaf.testBit k) :
    Ommers.Standing (leaf + 1) (ommers.carry leaf fuel h node).1 := by
  have stop : ∀ {ommers : Ommers} {h node : Nat}, h ≤ noteTreeDepth → ommers.length = noteTreeDepth + 1 → (∀ k < h, leaf.testBit k) →
      leaf.testBit h = false → (∀ k < h, ommers.slot k = none) →
      (∀ k, h ≤ k → k ≤ noteTreeDepth → (ommers.slot k).isSome = leaf.testBit k) →
      Ommers.Standing (leaf + 1) (ommers.set h (some node)) := by
    intro ommers h node inside length ones clear passed above k within
    rw [Ommers.slot_set (by omega)]
    rcases Nat.lt_trichotomy k h with below | rfl | past
    · rw [if_neg (by omega), passed k below, succ_testBit_below ones below]
      rfl
    · rw [if_pos rfl, succ_testBit_at ones clear]
      rfl
    · rw [if_neg (by omega), above k past.le within, succ_testBit_above ones clear past]
  induction fuel generalizing h node ommers with
  | zero =>
    obtain rfl : h = noteTreeDepth := full
    exact stop le_rfl length ones (Nat.testBit_lt_two_pow room) passed above
  | succ fuel ih =>
    rw [Ommers.carry]
    by_cases right : leaf.testBit h = true
    · rw [if_pos right]
      have inside : h < ommers.length := by omega
      refine ih (by omega) ?_ (fun k below => ?_) (fun k below => ?_) (fun k past within => ?_)
      · rw [List.length_set]
        exact length
      · rcases Nat.lt_succ_iff_lt_or_eq.mp below with under | rfl
        · exact ones k under
        · exact right
      · rw [Ommers.slot_set inside]
        rcases Nat.lt_succ_iff_lt_or_eq.mp below with under | rfl
        · rw [if_neg (by omega), passed k under]
        · rw [if_pos rfl]
      · rw [Ommers.slot_set inside, if_neg (by omega)]
        exact above k (by omega) within
    · rw [if_neg right]
      exact stop (by omega) length ones (eq_false_of_ne_true right) passed above

theorem Ommers.Standing.push {leaf : Nat} {ommers : Ommers} (stands : ommers.Standing leaf) (room : leaf < noteTreeCapacity)
    (length : ommers.length = noteTreeDepth + 1) (cm : Nat) : Ommers.Standing (leaf + 1) (ommers.push leaf cm).1 :=
  Ommers.carry_standing room (Nat.zero_add _) length (fun k below => absurd below (Nat.not_lt_zero k))
    (fun k below => absurd below (Nat.not_lt_zero k)) fun k _ within => stands k within

theorem Ommers.Standing.appended {outputs cms : List Nat} {ommers : Ommers} (stands : ommers.Standing outputs.length) (of : ommers.Of outputs)
    (room : outputs.length + cms.length ≤ noteTreeCapacity) (noteRoot : Nat) :
    Ommers.Standing (outputs.length + cms.length) (appendNotes cms ommers outputs.length noteRoot).ommers := by
  induction cms generalizing outputs ommers noteRoot with
  | nil => exact stands
  | cons cm rest ih =>
    rw [List.length_cons] at room
    obtain ⟨t, after, -, -, -, run, next⟩ := of.push cm (by omega)
    have pushed := stands.push (by omega) of.length cm
    have length : (outputs ++ [cm]).length = outputs.length + 1 := by simp
    rw [run] at pushed
    have tail := @ih (outputs ++ [cm]) after (by rw [length]; exact pushed) next (by rw [length]; omega) (ommers.rootFrom outputs.length cm)
    rw [length] at tail
    simp only [appendNotes, run]
    rw [List.length_cons, Nat.add_comm rest.length 1, ← Nat.add_assoc]
    exact tail

/-- The nodes waiting are canonical where the outputs are. -/
theorem Ommers.Of.canonical {outputs : List Nat} {ommers : Ommers} (of : ommers.Of outputs) (stands : ommers.Standing outputs.length)
    (fields : ∀ cm ∈ outputs, isField cm = true) : ommers.Canonical := by
  intro value member
  obtain ⟨h, inside, same⟩ := List.mem_iff_getElem.mp member
  have held : ommers.slot h = some value := by
    rw [Ommers.slot, List.getElem?_eq_getElem inside, same]
    rfl
  have set := stands h (by have length := of.length; omega)
  rw [held, Option.isSome_some] at set
  rw [← Ommers.at_slot held, of.frontier h set.symm]
  exact noteBlock_isField fields h _

theorem frontierStep_eq {leaves : Nat} {ommers : Ommers} {below : Option Nat} {h : Nat} :
    frontierStep leaves ommers below h =
      if (ommers.slot h).isSome = leaves.testBit h then
        some ((children noteNode 0 h (ommers.slot h) below).map fun pair => noteNode h pair.1 pair.2)
      else none := by
  unfold frontierStep
  rw [emptyNoteSubtree_eq]
  cases ommers.slot h <;> cases below <;> rfl

/-- The fold's heights agree with the leaf count's bits, and it has gathered the blocks waiting below. -/
theorem frontierFold_eq_some {leaves : Nat} {ommers : Ommers} {height : Nat} {below : Option Nat} :
    (List.range height).foldlM (frontierStep leaves ommers) none = some below ↔
      (∀ h < height, (ommers.slot h).isSome = leaves.testBit h) ∧ below = gather noteNode 0 ommers.slot height := by
  induction height generalizing below with
  | zero =>
    simp only [List.range_zero, List.foldlM_nil, Nat.not_lt_zero, false_implies, implies_true, true_and, gather]
    exact ⟨fun same => (Option.some.inj same).symm, fun same => congrArg some same.symm⟩
  | succ h ih =>
    have step : ∀ held, frontierStep leaves ommers held h = some below ↔
        (ommers.slot h).isSome = leaves.testBit h ∧
          below = (children noteNode 0 h (ommers.slot h) held).map fun pair => noteNode h pair.1 pair.2 := by
      intro held
      rw [frontierStep_eq]
      split
      · rename_i agrees
        rw [Option.some.injEq]
        exact ⟨fun same => ⟨agrees, same.symm⟩, fun same => same.2.symm⟩
      · rename_i differs
        exact ⟨fun none_ => absurd none_ (Option.some_ne_none _).symm, fun same => absurd same.1 differs⟩
    rw [List.range_succ, List.foldlM_append, Option.bind_eq_bind, Option.bind_eq_some_iff]
    simp only [List.foldlM_cons, List.foldlM_nil, Option.bind_eq_bind, Option.pure_def, ih]
    constructor
    · rintro ⟨held, ⟨waits, rfl⟩, last⟩
      obtain ⟨agrees, rfl⟩ := (step _).mp (by simpa using last)
      refine ⟨fun k under => ?_, rfl⟩
      rcases Nat.lt_succ_iff_lt_or_eq.mp under with lower | rfl
      · exact waits k lower
      · exact agrees
    · rintro ⟨waits, rfl⟩
      refine ⟨_, ⟨fun k under => waits k (under.trans (Nat.lt_succ_self h)), rfl⟩, ?_⟩
      simpa using (step _).mpr ⟨waits h (Nat.lt_succ_self h), rfl⟩

/-- A frontier has a root where its slots are the leaf count's: a full tree's is the whole tree's slot, another's the waiting
blocks', or the empty tree's where none waits. -/
theorem frontierRoot_eq_some {leaves : Nat} {ommers : Ommers} {root : Nat} :
    frontierRoot leaves ommers = some root ↔
      (∀ h < noteTreeDepth, (ommers.slot h).isSome = leaves.testBit h) ∧
        if leaves = noteTreeCapacity then gather noteNode 0 ommers.slot noteTreeDepth = none ∧ ommers.slot noteTreeDepth = some root
        else leaves < noteTreeCapacity ∧ ommers.slot noteTreeDepth = none ∧
          root = (gather noteNode 0 ommers.slot noteTreeDepth).getD emptyNoteRoot := by
  have high : leaves >>> noteTreeDepth ≠ 0 ↔ ¬leaves < noteTreeCapacity := by
    rw [Nat.shiftRight_eq_div_pow, Ne, Nat.div_eq_zero_iff]
    simp [noteTreeDepth, noteTreeCapacity]
  rw [frontierRoot, Option.bind_eq_bind, Option.bind_eq_some_iff]
  simp only [frontierFold_eq_some]
  constructor
  · rintro ⟨below, ⟨waits, rfl⟩, found⟩
    refine ⟨waits, ?_⟩
    split at found
    · rename_i whole
      rw [if_pos whole]
      split at found
      · rename_i none_
        exact ⟨Option.isNone_iff_eq_none.mp none_, found⟩
      · cases found
    · rename_i partial_
      rw [if_neg partial_]
      split at found
      · cases found
      · rename_i inside
        rw [high, not_or, not_not, Option.not_isSome_iff_eq_none] at inside
        exact ⟨inside.1, inside.2, (Option.some.inj found).symm⟩
  · rintro ⟨waits, found⟩
    refine ⟨_, ⟨waits, rfl⟩, ?_⟩
    split at found
    · rename_i whole
      rw [if_pos whole, if_pos (Option.isNone_iff_eq_none.mpr found.1), found.2]
    · rename_i partial_
      obtain ⟨inside, unused, rfl⟩ := found
      rw [if_neg partial_, if_neg]
      rw [high, not_or, not_not, Option.not_isSome_iff_eq_none]
      exact ⟨inside, unused⟩

/-- The frontier some outputs leave has their whole tree's root, at every count up to a full tree. -/
theorem Ommers.Of.frontierRoot {outputs : List Nat} {ommers : Ommers} (of : ommers.Of outputs) (stands : ommers.Standing outputs.length)
    (room : outputs.length ≤ noteTreeCapacity) : frontierRoot outputs.length ommers = some (wholeRoot outputs) := by
  have holds : ∀ h value, ommers.slot h = some value → h ≤ noteTreeDepth →
      value = block noteNode 0 outputs h (outputs.length / 2 ^ h - 1) := by
    intro h value held inside
    have set := stands h inside
    rw [held, Option.isSome_some] at set
    rw [← Ommers.at_slot held, of.frontier h set.symm]
  have past : ∀ h value, ommers.slot h = some value → h ≤ noteTreeDepth := by
    intro h value held
    by_contra above
    rw [Ommers.slot, List.getElem?_eq_none (by have length := of.length; omega)] at held
    cases held
  have waits : ∀ h < noteTreeDepth, (ommers.slot h).isSome = outputs.length.testBit h := fun h below => stands h below.le
  have gathered := gather_eq waits fun h value held => holds h value held (past h value held)
  have last := stands noteTreeDepth le_rfl
  refine frontierRoot_eq_some.mpr ⟨waits, ?_⟩
  rcases Nat.lt_or_ge outputs.length noteTreeCapacity with inside | full
  · have clear : outputs.length.testBit noteTreeDepth = false := Nat.testBit_lt_two_pow inside
    have quotient : outputs.length / 2 ^ noteTreeDepth = 0 := Nat.div_eq_of_lt inside
    have remainder : outputs.length % 2 ^ noteTreeDepth = outputs.length := Nat.mod_eq_of_lt inside
    rw [if_neg inside.ne]
    rw [clear, Option.isSome_eq_false_iff, Option.isNone_iff_eq_none] at last
    refine ⟨inside, last, ?_⟩
    rw [gathered, quotient, remainder]
    split
    · rename_i none_
      rw [List.length_eq_zero_iff.mp none_, wholeRoot_nil]
      rfl
    · rfl
  · obtain whole : outputs.length = noteTreeCapacity := Nat.le_antisymm room full
    have set : outputs.length.testBit noteTreeDepth = true := by
      rw [whole]
      decide
    rw [set] at last
    obtain ⟨root, held⟩ := Option.isSome_iff_exists.mp last
    have first : outputs.length / 2 ^ noteTreeDepth - 1 = 0 := by
      rw [whole]
      decide
    have empty : outputs.length % 2 ^ noteTreeDepth = 0 := by
      rw [whole]
      decide
    rw [if_pos whole]
    refine ⟨by rw [gathered, if_pos empty], ?_⟩
    rw [held, holds noteTreeDepth root held le_rfl, first]
    rfl

/-- A frontier has a root at one leaf count only. -/
theorem frontierRoot_leaves {leaves leaves' : Nat} {ommers : Ommers} {root root' : Nat} (first : frontierRoot leaves ommers = some root)
    (second : frontierRoot leaves' ommers = some root') : leaves = leaves' := by
  obtain ⟨waits, top⟩ := frontierRoot_eq_some.mp first
  obtain ⟨waits', top'⟩ := frontierRoot_eq_some.mp second
  split at top
  · rename_i whole
    split at top'
    · rename_i whole'
      exact whole.trans whole'.symm
    · rw [top.2] at top'
      exact absurd top'.2.1 (Option.some_ne_none _)
  · split at top'
    · rw [top'.2] at top
      exact absurd top.2.1 (Option.some_ne_none _)
    · refine Nat.eq_of_testBit_eq fun h => ?_
      rcases Nat.lt_or_ge h noteTreeDepth with below | above
      · rw [← waits h below, waits' h below]
      · have wide : noteTreeCapacity ≤ 2 ^ h := Nat.pow_le_pow_right (by decide) above
        rw [Nat.testBit_lt_two_pow (top.1.trans_le wide), Nat.testBit_lt_two_pow (top'.1.trans_le wide)]

/-- The frames hashed for a frontier's root. -/
def frontierFrames (ommers : Ommers) : List (List Nat) :=
  (gatherPairs noteNode 0 ommers.slot noteTreeDepth).map fun pair => [1004, pair.1, pair.2.1, pair.2.2]

/-- Frontiers of one leaf count and one root hold the same nodes, where no frame of the one is confused with one of the other's. -/
theorem frontierRoot_inj {leaves root : Nat} {ommers ommers' : Ommers}
    (apart : ∀ x ∈ frontierFrames ommers, ∀ y ∈ frontierFrames ommers', poseidon2Hash x = poseidon2Hash y → x = y)
    (first : frontierRoot leaves ommers = some root) (second : frontierRoot leaves ommers' = some root) :
    ∀ h ≤ noteTreeDepth, ommers.slot h = ommers'.slot h := by
  obtain ⟨waits, top⟩ := frontierRoot_eq_some.mp first
  obtain ⟨waits', top'⟩ := frontierRoot_eq_some.mp second
  have presence : ∀ h < noteTreeDepth, (ommers.slot h).isSome = (ommers'.slot h).isSome := fun h below =>
    (waits h below).trans (waits' h below).symm
  have pairs : ∀ h a b c d, (h, a, b) ∈ gatherPairs noteNode 0 ommers.slot noteTreeDepth →
      (h, c, d) ∈ gatherPairs noteNode 0 ommers'.slot noteTreeDepth → noteNode h a b = noteNode h c d → a = c ∧ b = d := by
    intro h a b c d left right same
    have frames := apart [1004, h, a, b] (List.mem_map.mpr ⟨(h, a, b), left, rfl⟩) [1004, h, c, d]
      (List.mem_map.mpr ⟨(h, c, d), right, rfl⟩) same
    simpa using frames
  have gathered : gather noteNode 0 ommers.slot noteTreeDepth = gather noteNode 0 ommers'.slot noteTreeDepth ∧
      ommers.slot noteTreeDepth = ommers'.slot noteTreeDepth := by
    split at top
    · rename_i whole
      rw [if_pos whole] at top'
      exact ⟨top.1.trans top'.1.symm, top.2.trans top'.2.symm⟩
    · rename_i partial_
      rw [if_neg partial_] at top'
      refine ⟨?_, top.2.1.trans top'.2.1.symm⟩
      have held := @gather_isSome _ noteNode 0 _ _ _ presence
      have same := top.2.2.symm.trans top'.2.2
      cases below : gather noteNode 0 ommers.slot noteTreeDepth with
      | none =>
        rw [below] at held
        exact (Option.isNone_iff_eq_none.mp (Option.isSome_eq_false_iff.mp held.symm)).symm
      | some node =>
        rw [below] at held
        obtain ⟨node', below'⟩ := Option.isSome_iff_exists.mp held.symm
        rw [below, below', Option.getD_some, Option.getD_some] at same
        rw [below', same]
  intro h inside
  rcases Nat.lt_or_eq_of_le inside with below | rfl
  · exact gather_inj presence pairs gathered.1 h below
  · exact gathered.2

/-- The root a stored spent set's top keeps is recomputed from its children. -/
theorem SpentTable.Holds.rootFromChildren {table : SpentTable} {keys : Finset Nat} (holds : table.Holds keys) :
    table.rootFromChildren = table.root := by
  unfold SpentTable.rootFromChildren SpentTable.root
  cases above : table.top with
  | none => rfl
  | some top =>
    obtain ⟨t, ids, -, -, stored, -⟩ := holds.tree top above
    have read : ∀ {id node}, table.rows.get? id = some node → table.get id = .ok node := fun row => known_eq_ok.mpr row
    cases stored with
    | leaf row => simp only [read row, bind, Except.bind, pure, Except.pure, spentLeafHash]
    | branch row _ left right _ _ =>
      obtain ⟨leftRow, atLeft, leftHash, -⟩ := left.row
      obtain ⟨rightRow, atRight, rightHash, -⟩ := right.row
      simp only [read row, read atLeft, read atRight, bind, Except.bind, pure, Except.pure, known, leftHash, rightHash, trieRoot_branch]

/-- Nodes stored by insertions hold the keys inserted. -/
theorem SpentTable.Holds.of_insertAll {table grown : SpentTable} {keys : Finset Nat} (holds : table.Holds keys) {order : List Nat}
    (bound : ∀ key ∈ order, key < keyBound) (run : table.insertAll (order.map (toBytes 32)) = .ok grown) :
    grown.Holds (keys ∪ order.toFinset) := by
  induction order generalizing table keys with
  | nil =>
    obtain rfl := pure_eq_ok.mp run
    simpa using holds
  | cons key rest ih =>
    obtain ⟨first, placed, runs⟩ := bind_eq_ok.mp run
    have fresh : key ∉ keys := by
      intro member
      simp only [holds.refused member] at placed
      cases placed
    obtain ⟨next, inserted, held⟩ := holds.inserted (bound key List.mem_cons_self) fresh
    simp only [inserted] at placed
    obtain rfl := pure_eq_ok.mp placed
    have final := ih held (fun k member => bound k (List.mem_cons_of_mem _ member)) runs
    rwa [List.toFinset_cons, Finset.union_insert, ← Finset.insert_union]

end Moe
