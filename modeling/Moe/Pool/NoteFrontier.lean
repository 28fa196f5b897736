import Moe.Lib.HashTree
import Moe.Pool.NotePath

namespace Moe

open HashTree

variable [Crypto]

/-- The node over the `i`-th block of `2 ^ h` outputs, those not in use the empty leaf. -/
def noteBlock (outputs : List Nat) (h i : Nat) : Nat := block noteNode 0 outputs h i

/-- The depth-32 root of a list of outputs. -/
def wholeRoot (outputs : List Nat) : Nat := noteBlock outputs noteTreeDepth 0

theorem emptyNoteSubtree_eq (h : Nat) : emptyNoteSubtree h = emptyBlock noteNode 0 h := by
  induction h with
  | zero => rfl
  | succ h ih => rw [emptyNoteSubtree, emptyBlock, ih]

theorem wholeRoot_nil : wholeRoot [] = emptyNoteRoot := by
  rw [wholeRoot, noteBlock, emptyNoteRoot, emptyNoteSubtree_eq]
  exact block_empty (Nat.zero_le _)

/-- The frontier of some outputs: 33 slots, each waiting block's node where it waits. -/
structure Ommers.Of (outputs : List Nat) (ommers : Ommers) : Prop where
  length : ommers.length = noteTreeDepth + 1
  frontier : Frontier noteNode 0 outputs ommers.at

omit [Crypto] in
theorem Ommers.at_set {ommers : Ommers} {h : Nat} (inside : h < ommers.length) (value : Option Nat) (k : Nat) :
    Ommers.at (ommers.set h value) k = if h = k then value.getD 0 else ommers.at k := by
  unfold Ommers.at
  by_cases same : h = k
  · subst same
    simp [inside]
  · simp [same]

/-- The blocks a leaf completes, from one height up to another. -/
def completedBlocks (outputs : List Nat) (leaf start stop : Nat) : List CompletedBlock :=
  (List.range' start (stop - start)).map fun k => ⟨k, leaf / 2 ^ k, noteBlock outputs k (leaf / 2 ^ k)⟩

/-- A carry stops at the lowest clear bit of the leaf's number, having completed every block below it. -/
theorem Ommers.Of.carry {outputs : List Nat} {ommers : Ommers} (of : ommers.Of outputs) (cm : Nat)
    (room : outputs.length < noteTreeCapacity) {fuel h : Nat} (full : h + fuel = noteTreeDepth)
    (ones : ∀ k < h, outputs.length.testBit k) {current : Ommers} (width : current.length = noteTreeDepth + 1)
    (same : ∀ k, h ≤ k → current.at k = ommers.at k) :
    ∃ t, h ≤ t ∧ t ≤ noteTreeDepth ∧ (∀ k < t, outputs.length.testBit k) ∧ outputs.length.testBit t = false ∧
      ∃ after : Ommers, current.carry outputs.length fuel h (noteBlock (outputs ++ [cm]) h (outputs.length / 2 ^ h)) =
        (after, completedBlocks (outputs ++ [cm]) outputs.length (h + 1) (t + 1)) ∧
      after.length = noteTreeDepth + 1 ∧ after.at t = noteBlock (outputs ++ [cm]) t (outputs.length / 2 ^ t) ∧
      ∀ k, t < k → after.at k = ommers.at k := by
  have stop : ∀ {current : Ommers} {h : Nat}, h ≤ noteTreeDepth → current.length = noteTreeDepth + 1 →
      (∀ k, h ≤ k → current.at k = ommers.at k) →
      ∃ after : Ommers, (current.set h (some (noteBlock (outputs ++ [cm]) h (outputs.length / 2 ^ h))), ([] : List CompletedBlock)) =
        (after, completedBlocks (outputs ++ [cm]) outputs.length (h + 1) (h + 1)) ∧
      after.length = noteTreeDepth + 1 ∧ after.at h = noteBlock (outputs ++ [cm]) h (outputs.length / 2 ^ h) ∧
      ∀ k, h < k → after.at k = ommers.at k := by
    intro current h top width same
    refine ⟨current.set h (some (noteBlock (outputs ++ [cm]) h (outputs.length / 2 ^ h))), ?_, ?_, ?_, fun k above => ?_⟩
    · rw [completedBlocks, Nat.sub_self]
      rfl
    · rw [List.length_set]
      exact width
    · rw [Ommers.at_set (by omega), if_pos rfl]
      rfl
    · rw [Ommers.at_set (by omega), if_neg (by omega)]
      exact same k above.le
  induction fuel generalizing h current with
  | zero =>
    obtain rfl : h = noteTreeDepth := full
    exact ⟨noteTreeDepth, le_rfl, le_rfl, ones, Nat.testBit_lt_two_pow room, stop le_rfl width same⟩
  | succ fuel ih =>
    rw [Ommers.carry]
    by_cases right : outputs.length.testBit h = true
    · have node := of.frontier.carry cm right
      have below : ∀ k < h + 1, outputs.length.testBit k := by
        intro k inside
        rcases Nat.lt_succ_iff_lt_or_eq.mp inside with old | rfl
        · exact ones k old
        · exact right
      have cleared : ∀ k, h + 1 ≤ k → Ommers.at (current.set h none) k = ommers.at k := by
        intro k above
        rw [Ommers.at_set (by omega), if_neg (by omega)]
        exact same k (by omega)
      obtain ⟨t, past, top, lower, clear, after, run, length, atT, others⟩ :=
        ih (by omega) below (show (current.set h none).length = _ by rw [List.length_set]; exact width) cleared
      refine ⟨t, by omega, top, lower, clear, after, ?_, length, atT, others⟩
      rw [if_pos right, same h le_rfl]
      simp only [noteBlock] at run node ⊢
      rw [node, run]
      have blocks : t + 1 - (h + 1) = t + 1 - (h + 1 + 1) + 1 := by omega
      simp only [completedBlocks, blocks, List.range'_succ, List.map_cons, Nat.shiftRight_eq_div_pow, noteBlock]
    · rw [if_neg right]
      exact ⟨h, le_rfl, by omega, ones, eq_false_of_ne_true right, stop (by omega) width same⟩

/-- A leaf pushed on the frontier: the frontier of one more, and every block the leaf completes. -/
theorem Ommers.Of.push {outputs : List Nat} {ommers : Ommers} (of : ommers.Of outputs) (cm : Nat)
    (room : outputs.length < noteTreeCapacity) :
    ∃ t after, (∀ k < t, outputs.length.testBit k) ∧ outputs.length.testBit t = false ∧ t ≤ noteTreeDepth ∧
      ommers.push outputs.length cm = (after, completedBlocks (outputs ++ [cm]) outputs.length 0 (t + 1)) ∧
      Ommers.Of (outputs ++ [cm]) after := by
  have leaf : noteBlock (outputs ++ [cm]) 0 (outputs.length / 2 ^ 0) = cm := by simp [noteBlock, block]
  obtain ⟨t, -, top, ones, clear, after, run, length, atT, others⟩ :=
    of.carry cm room (Nat.zero_add _) (fun k below => absurd below (Nat.not_lt_zero k)) of.length (fun _ _ => rfl)
  refine ⟨t, after, ones, clear, top, ?_, length, of.frontier.push cm ones clear atT others⟩
  rw [leaf] at run
  rw [Ommers.push, run]
  simp only [completedBlocks, Nat.sub_zero, List.range'_succ, List.map_cons, Nat.zero_add, Nat.add_sub_cancel, leaf]
  simp

/-- The siblings the frontier gives the next free leaf. -/
def Ommers.siblingAt (ommers : Ommers) (leaf h : Nat) : Nat := if leaf.testBit h then ommers.at h else emptyNoteSubtree h

theorem Ommers.siblingAt_eq (ommers : Ommers) (leaf : Nat) :
    ommers.siblingAt leaf = fun h => if leaf.testBit h then ommers.at h else emptyBlock noteNode 0 h := by
  funext h
  rw [Ommers.siblingAt, emptyNoteSubtree_eq]

theorem Ommers.foldl_siblingAt (ommers : Ommers) (leaf value height : Nat) :
    (List.range height).foldl (fun node h => if leaf.testBit h then noteNode h (ommers.at h) node
      else noteNode h node (emptyNoteSubtree h)) value = climb noteNode leaf.testBit (ommers.siblingAt leaf) height value := by
  rw [← foldl_climb]
  congr 1
  funext node h
  by_cases right : leaf.testBit h = true
  · rw [if_pos right, if_pos right, siblingAt, if_pos right]
  · rw [if_neg right, if_neg right, siblingAt, if_neg right]

/-- The root folded from a new output is the whole tree's. -/
theorem Ommers.Of.rootFrom {outputs : List Nat} {ommers : Ommers} (of : ommers.Of outputs) (cm : Nat)
    (room : outputs.length < noteTreeCapacity) : ommers.rootFrom outputs.length cm = wholeRoot (outputs ++ [cm]) := by
  rw [Ommers.rootFrom, ommers.foldl_siblingAt, ommers.siblingAt_eq]
  exact of.frontier.root cm room

/-- At each height the filling node is the node of the block holding the next free leaf. -/
theorem Ommers.Of.filling {outputs : List Nat} {ommers : Ommers} (of : ommers.Of outputs) {h : Nat} (below : h < noteTreeDepth) :
    (fillingNodes outputs.length ommers).getD h 0 = noteBlock outputs h (outputs.length / 2 ^ h) := by
  have nodes : ∀ steps, (List.range steps).foldl (fun nodes k =>
      nodes ++ [if outputs.length.testBit k then noteNode k (ommers.at k) (nodes.getD k 0)
        else noteNode k (nodes.getD k 0) (emptyNoteSubtree k)]) [emptyNoteSubtree 0] =
      (List.range (steps + 1)).map fun h => climb noteNode outputs.length.testBit (ommers.siblingAt outputs.length) h 0 := by
    intro steps
    induction steps with
    | zero => rfl
    | succ steps ih =>
      have last : ((List.range (steps + 1)).map fun h =>
          climb noteNode outputs.length.testBit (ommers.siblingAt outputs.length) h 0).getD steps 0 =
          climb noteNode outputs.length.testBit (ommers.siblingAt outputs.length) steps 0 := by
        simp [List.getD_eq_getElem?_getD]
      rw [List.range_succ, List.foldl_append, ih, @List.range_succ (steps + 1), List.map_append, List.foldl_cons, List.foldl_nil, last]
      congr 2
      simp only [climb]
      by_cases right : outputs.length.testBit steps = true
      · rw [if_pos right, if_pos right, siblingAt, if_pos right]
      · rw [if_neg right, if_neg right, siblingAt, if_neg right]
  have folded := of.frontier.filling h
  rw [fillingNodes, nodes, noteBlock, ← folded, ← ommers.siblingAt_eq]
  have inside : h < noteTreeDepth - 1 + 1 := by
    rw [noteTreeDepth] at below ⊢
    exact below
  simp [List.getD_eq_getElem?_getD, inside]

/-- What is stored of a leaf's path at its birth: the full blocks on its left, nothing on its right. -/
structure BornAt (outputs : List Nat) (leaf : Nat) (siblings : List Nat) : Prop where
  length : siblings.length = noteTreeDepth
  left : ∀ h < noteTreeDepth, leaf.testBit h → siblings.getD h 0 = noteBlock outputs h (leaf / 2 ^ h - 1)

/-- The blocks a record's outputs complete, each with its node in the whole tree. -/
structure Completes (before after : List Nat) (completed : List CompletedBlock) : Prop where
  node : ∀ c ∈ completed, c.node = noteBlock after c.height c.block
  every : ∀ h ≤ noteTreeDepth, ∀ b, before.length < (b + 1) * 2 ^ h → (b + 1) * 2 ^ h ≤ after.length →
    ∃ c ∈ completed, c.height = h ∧ c.block = b

theorem noteBlock_append {outputs : List Nat} {h i : Nat} (full : (i + 1) * 2 ^ h ≤ outputs.length) (more : List Nat) :
    noteBlock (outputs ++ more) h i = noteBlock outputs h i := block_append full more

theorem Ommers.Of.born {outputs : List Nat} {ommers : Ommers} (of : ommers.Of outputs) :
    BornAt outputs outputs.length (ommers.siblings outputs.length) where
  length := by simp [siblings]
  left h below right := by
    have sibling : (ommers.siblings outputs.length).getD h 0 = ommers.at h := by
      simp [siblings, List.getD_eq_getElem?_getD, below, right]
    rw [sibling]
    exact of.frontier h right

omit [Crypto] in
/-- The left block of a leaf in use is full. -/
theorem left_full {outputs : List Nat} {leaf h : Nat} (used : leaf ≤ outputs.length) (right : leaf.testBit h) :
    (leaf / 2 ^ h - 1 + 1) * 2 ^ h ≤ outputs.length := by
  have odd := (testBit_iff leaf h).mp right
  have positive : 0 < leaf / 2 ^ h := Nat.pos_of_ne_zero fun none => by simp [none] at odd
  rw [Nat.sub_add_cancel positive]
  exact (Nat.div_mul_le_self leaf (2 ^ h)).trans used

theorem BornAt.append {outputs : List Nat} {leaf : Nat} {siblings : List Nat} (born : BornAt outputs leaf siblings)
    (used : leaf ≤ outputs.length) (more : List Nat) : BornAt (outputs ++ more) leaf siblings where
  length := born.length
  left h below right := by rw [born.left h below right, noteBlock_append (left_full used right)]

/-- The blocks one leaf completes are those its carry passed. -/
theorem completes_push {outputs : List Nat} (cm : Nat) {t : Nat} (ones : ∀ k < t, outputs.length.testBit k)
    (clear : outputs.length.testBit t = false) :
    Completes outputs (outputs ++ [cm]) (completedBlocks (outputs ++ [cm]) outputs.length 0 (t + 1)) where
  node c member := by
    obtain ⟨k, -, rfl⟩ := List.mem_map.mp member
    rfl
  every h _ b past full := by
    rw [List.length_append, List.length_singleton] at full
    have whole : (b + 1) * 2 ^ h = outputs.length + 1 := by omega
    have block : outputs.length / 2 ^ h = b := by
      rw [show outputs.length = b * 2 ^ h + (2 ^ h - 1) by have := Nat.two_pow_pos h; rw [Nat.add_mul] at whole; omega,
        Nat.mul_comm, Nat.mul_add_div (Nat.two_pow_pos h), Nat.div_eq_of_lt (by have := Nat.two_pow_pos h; omega), Nat.add_zero]
    have inside : h ≤ t := by
      by_contra above
      have same := succ_div_of_carry ones clear (Nat.lt_of_not_le above)
      rw [← whole, Nat.mul_div_cancel _ (Nat.two_pow_pos h), block] at same
      omega
    refine ⟨⟨h, outputs.length / 2 ^ h, _⟩, List.mem_map.mpr ⟨h, ?_, rfl⟩, rfl, block⟩
    rw [List.mem_range'_1]
    omega

theorem Completes.trans {first second third : List Nat} {completed more : List CompletedBlock}
    (before : Completes first second completed) (after : Completes second third more) {grown : List Nat}
    (appended : third = second ++ grown) (within : ∀ c ∈ completed, (c.block + 1) * 2 ^ c.height ≤ second.length) :
    Completes first third (completed ++ more) where
  node c member := by
    rcases List.mem_append.mp member with old | new
    · rw [before.node c old, appended, noteBlock_append (within c old)]
    · exact after.node c new
  every h small b past full := by
    by_cases early : (b + 1) * 2 ^ h ≤ second.length
    · obtain ⟨c, member, same⟩ := before.every h small b past early
      exact ⟨c, List.mem_append_left _ member, same⟩
    · obtain ⟨c, member, same⟩ := after.every h small b (Nat.lt_of_not_le early) full
      exact ⟨c, List.mem_append_right _ member, same⟩

theorem completedBlocks_within {outputs : List Nat} (cm : Nat) {t : Nat} (ones : ∀ k < t, outputs.length.testBit k) :
    ∀ c ∈ completedBlocks (outputs ++ [cm]) outputs.length 0 (t + 1), (c.block + 1) * 2 ^ c.height ≤ (outputs ++ [cm]).length := by
  intro c member
  obtain ⟨k, inside, rfl⟩ := List.mem_map.mp member
  rw [List.mem_range'_1] at inside
  have carried := succ_of_carry (n := outputs.length) (t := k) fun j below => ones j (by omega)
  rw [List.length_append, List.length_singleton, carried, Nat.mul_comm]

/-- What appending a record's outputs leaves, in terms of the whole tree. -/
structure Appended (outputs cms : List Nat) (noteRoot : Nat) (notes : NoteAppend) : Prop where
  ommers : notes.ommers.Of (outputs ++ cms)
  root : notes.noteRoot = if cms = [] then noteRoot else wholeRoot (outputs ++ cms)
  leaves : notes.born.map (·.1) = List.range' outputs.length cms.length
  born : ∀ entry ∈ notes.born, BornAt (outputs ++ cms) entry.1 entry.2
  completes : Completes outputs (outputs ++ cms) notes.completed
  within : ∀ c ∈ notes.completed, (c.block + 1) * 2 ^ c.height ≤ (outputs ++ cms).length

theorem Ommers.Of.appended {outputs : List Nat} {ommers : Ommers} (of : ommers.Of outputs) {cms : List Nat}
    (room : outputs.length + cms.length ≤ noteTreeCapacity) (noteRoot : Nat) :
    Appended outputs cms noteRoot (appendNotes cms ommers outputs.length noteRoot) := by
  induction cms generalizing outputs ommers noteRoot with
  | nil =>
    refine ⟨by rw [List.append_nil]; exact of, rfl, rfl, by simp [appendNotes], ⟨by simp [appendNotes], ?_⟩, by simp [appendNotes]⟩
    intro h _ b past full
    rw [List.append_nil] at full
    omega
  | cons cm rest ih =>
    rw [List.length_cons] at room
    obtain ⟨t, after, ones, clear, -, run, next⟩ := of.push cm (by omega)
    have length : (outputs ++ [cm]).length = outputs.length + 1 := by simp
    have tail := ih next (by omega) (ommers.rootFrom outputs.length cm)
    rw [length] at tail
    obtain ⟨last, root, leaves, born, completes, within⟩ := tail
    have whole : outputs ++ [cm] ++ rest = outputs ++ cm :: rest := by simp
    rw [whole] at last root born completes within
    simp only [appendNotes, run]
    refine ⟨last, ?_, ?_, ?_, ?_, ?_⟩
    · rw [if_neg (List.cons_ne_nil _ _), root]
      by_cases none : rest = []
      · rw [if_pos none, of.rootFrom cm (by omega), none]
      · rw [if_neg none]
    · rw [List.map_cons, leaves, length, List.length_cons, List.range'_succ]
    · rintro entry (_ | ⟨_, member⟩)
      · exact of.born.append le_rfl _
      · exact born entry member
    · exact (completes_push cm ones clear).trans completes whole.symm (completedBlocks_within cm ones)
    · intro c member
      rcases List.mem_append.mp member with old | new
      · have inside := completedBlocks_within cm ones c old
        simp only [List.length_append, List.length_cons, List.length_nil] at inside ⊢
        omega
      · exact within c new

end Moe

namespace Moe

open HashTree

variable [Crypto]

/-- The whole tree some outputs make, a call at a time. -/
inductive NoteTree.Built : List Nat → NoteTree → Prop
  | empty : Built [] {}
  | append {outputs cms : List Nat} {tree grown : NoteTree} : Built outputs tree → tree.appendAll cms = .ok grown →
      Built (outputs ++ cms) grown

namespace NoteTree

/-- A tree over new leaves, its nodes those of the new leaves up to a level and of the old ones above it. -/
structure Level (tree : NoteTree) (before after : List Nat) (level : Nat) : Prop where
  leaves : tree.leafList = after
  below : ∀ l ≤ level, ∀ i, tree.node l i = noteBlock after l i
  above : ∀ l, level < l → l ≤ noteTreeDepth → ∀ i, tree.node l i = noteBlock before l i

theorem node_setNode (tree : NoteTree) (level index value l i : Nat) :
    (tree.setNode (level + 1) index value).node l i = if l = level + 1 ∧ i = index then value else tree.node l i := by
  unfold node setNode
  by_cases zero : l = 0
  · have other : ¬(l = level + 1 ∧ i = index) := by omega
    rw [if_pos zero, if_neg other, if_pos zero]
  · rw [if_neg zero, if_neg zero]
    simp only [OrderedMap.get?_set, Prod.mk.injEq]
    by_cases same : l = level + 1 ∧ i = index
    · rw [if_pos same, if_pos ⟨same.1.symm, same.2.symm⟩, Option.getD_some]
    · rw [if_neg same, if_neg fun eq => same ⟨eq.1.symm, eq.2.symm⟩]

/-- A level's changed parents are hashed again; every other node stays. -/
theorem rehash_parents (tree : NoteTree) (level : Nat) (indices : List Nat) :
    let after := indices.foldl (fun tree index =>
      tree.setNode (level + 1) index (noteNode level (tree.node level (2 * index)) (tree.node level (2 * index + 1)))) tree
    after.leafList = tree.leafList ∧ ∀ l i, after.node l i =
      if l = level + 1 ∧ i ∈ indices then noteNode level (tree.node level (2 * i)) (tree.node level (2 * i + 1)) else tree.node l i := by
  induction indices generalizing tree with
  | nil => simp
  | cons first rest ih =>
    obtain ⟨leaves, nodes⟩ := ih (tree.setNode (level + 1) first
      (noteNode level (tree.node level (2 * first)) (tree.node level (2 * first + 1))))
    refine ⟨leaves, fun l i => ?_⟩
    have other : ∀ k, ¬(level = level + 1 ∧ k = first) := fun k both => by omega
    rw [List.foldl_cons, nodes, node_setNode, node_setNode, if_neg (other _), if_neg (other _), node_setNode]
    by_cases parent : l = level + 1
    · by_cases later : i ∈ rest
      · rw [if_pos ⟨parent, later⟩, if_pos ⟨parent, List.mem_cons_of_mem _ later⟩]
      · by_cases here : i = first
        · rw [if_neg (fun both => later both.2), if_pos ⟨parent, here⟩, if_pos ⟨parent, here ▸ List.mem_cons_self⟩, here]
        · have outside : i ∉ first :: rest := by simp [here, later]
          rw [if_neg (fun both => later both.2), if_neg (fun both => here both.2), if_neg (fun both => outside both.2)]
    · rw [if_neg (fun both => parent both.1), if_neg (fun both => parent both.1), if_neg (fun both => parent both.1)]

/-- A node with no changed leaf under it is the old leaves' and the new ones'. -/
theorem noteBlock_unchanged {before more : List Nat} (some_ : more ≠ []) {l i : Nat}
    (outside : ¬(before.length / 2 ^ l ≤ i ∧ i ≤ ((before ++ more).length - 1) / 2 ^ l)) :
    noteBlock (before ++ more) l i = noteBlock before l i := by
  have positive := Nat.two_pow_pos l
  have nonempty := List.length_pos_iff.mpr some_
  by_cases left : i < before.length / 2 ^ l
  · exact noteBlock_append (pow_mul_le_div left) more
  · have right : ((before ++ more).length - 1) / 2 ^ l < i := by
      by_contra inside
      exact outside ⟨Nat.le_of_not_lt left, Nat.le_of_not_lt inside⟩
    have past : (before ++ more).length - 1 < i * 2 ^ l := (Nat.div_lt_iff_lt_mul positive).mp right
    have grown : before.length ≤ (before ++ more).length - 1 := by
      rw [List.length_append]
      omega
    rw [noteBlock, noteBlock, block_empty (by omega), block_empty (by omega)]

/-- Rehashing the parents of a level's changed nodes brings the level above to the new leaves. -/
theorem Level.rehashLevel {tree : NoteTree} {before more : List Nat} {level : Nat} (at_ : tree.Level before (before ++ more) level)
    (some_ : more ≠ []) (small : level < noteTreeDepth) :
    (tree.rehashLevel level (before.length / 2 ^ level) (((before ++ more).length - 1) / 2 ^ level)).Level
      before (before ++ more) (level + 1) := by
  obtain ⟨leaves, below, above⟩ := at_
  obtain ⟨leaves', nodes⟩ := tree.rehash_parents level (List.range' (before.length / 2 ^ level / 2)
    (((before ++ more).length - 1) / 2 ^ level / 2 + 1 - before.length / 2 ^ level / 2))
  refine ⟨leaves'.trans leaves, fun l upto i => ?_, fun l past depth i => ?_⟩
  · rw [NoteTree.rehashLevel, nodes]
    by_cases parent : l = level + 1
    · by_cases changed : i ∈ List.range' (before.length / 2 ^ level / 2)
          (((before ++ more).length - 1) / 2 ^ level / 2 + 1 - before.length / 2 ^ level / 2)
      · rw [if_pos ⟨parent, changed⟩, below level le_rfl, below level le_rfl, parent]
        rfl
      · rw [if_neg (fun both => changed both.2), above l (by omega) (by omega), parent]
        rw [List.mem_range'_1, ← div_pow_succ, ← div_pow_succ] at changed
        refine (noteBlock_unchanged some_ fun inside => changed ⟨inside.1, ?_⟩).symm
        generalize before.length / 2 ^ (level + 1) = x at *
        generalize ((before ++ more).length - 1) / 2 ^ (level + 1) = y at *
        omega
    · rw [if_neg (fun both => parent both.1), below l (by omega)]
  · rw [NoteTree.rehashLevel, nodes, if_neg (by omega), above l (by omega) depth]

theorem Level.rehash {tree : NoteTree} {before more : List Nat} (at_ : tree.Level before (before ++ more) 0) (some_ : more ≠ []) :
    (tree.rehash before.length ((before ++ more).length - 1)).Level before (before ++ more) noteTreeDepth := by
  have steps : ∀ level ≤ noteTreeDepth, ((List.range level).foldl (fun tree level =>
      tree.rehashLevel level (before.length / 2 ^ level) (((before ++ more).length - 1) / 2 ^ level)) tree).Level
        before (before ++ more) level := by
    intro level small
    induction level with
    | zero => exact at_
    | succ level ih =>
      rw [List.range_succ, List.foldl_append]
      exact (ih (by omega)).rehashLevel some_ (by omega)
  exact steps noteTreeDepth le_rfl

/-- A tree built of some outputs has their blocks for its nodes. -/
theorem Built.nodes {outputs : List Nat} {tree : NoteTree} (built : Built outputs tree) :
    tree.leafList = outputs ∧ ∀ l ≤ noteTreeDepth, ∀ i, tree.node l i = noteBlock outputs l i := by
  induction built with
  | empty =>
    refine ⟨rfl, fun l _ i => ?_⟩
    have none : noteBlock [] l i = emptyNoteSubtree l := by
      rw [emptyNoteSubtree_eq]
      exact block_empty (Nat.zero_le _)
    rw [none, node]
    by_cases zero : l = 0
    · rw [if_pos zero, zero]
      rfl
    · rw [if_neg zero]
      rfl
  | @append outputs cms tree grown _ run ih =>
    obtain ⟨leaves, nodes⟩ := ih
    obtain ⟨_, -, run⟩ := bind_eq_ok.mp run
    obtain ⟨-, run⟩ := bind_unit_eq_ok.mp run
    by_cases none : cms = []
    · rw [if_pos none] at run
      obtain rfl := pure_eq_ok.mp run
      rw [none, List.append_nil]
      exact ⟨leaves, nodes⟩
    · rw [if_neg none] at run
      obtain rfl := pure_eq_ok.mp run
      have start : Level { tree with leafList := tree.leafList ++ cms } outputs (outputs ++ cms) 0 := by
        refine ⟨by rw [leaves], fun l zero i => ?_, fun l past depth i => ?_⟩
        · obtain rfl := Nat.le_zero.mp zero
          rw [node, if_pos rfl, leaves]
          rfl
        · rw [← nodes l depth, node, node, if_neg past.ne', if_neg past.ne']
      have done := start.rehash none
      rw [← leaves] at done ⊢
      exact ⟨done.leaves, done.below⟩

theorem Built.root {outputs : List Nat} {tree : NoteTree} (built : Built outputs tree) : tree.root = wholeRoot outputs :=
  built.nodes.2 noteTreeDepth le_rfl 0

end NoteTree

end Moe
