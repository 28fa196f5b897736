import Mathlib.Data.List.Flatten
import Mathlib.Data.List.Induction
import Mathlib.Data.Nat.Bitwise
import Mathlib.Tactic.Ring

namespace Moe

/-- A hash tree whose nodes have two children, or one where none stands on its right. -/
inductive LoneTree (α : Type*)
  | leaf (value : α)
  | one (child : LoneTree α)
  | two (left right : LoneTree α)

namespace LoneTree

section Pairs

variable {δ : Type*} (one : δ → δ) (two : δ → δ → δ)

/-- The level above one: each two nodes under one, a last one alone. -/
def pairUp : List δ → List δ
  | [] => []
  | [last] => [one last]
  | left :: right :: rest => two left right :: pairUp rest

/-- The levels above one, at least one of them, up to a single node. -/
def levels : Nat → List δ → List δ
  | 0, level => level
  | fuel + 1, level =>
    let next := pairUp one two level
    if 1 < next.length then levels fuel next else next

variable {one two}

theorem pairUp_length (level : List δ) : (pairUp one two level).length = (level.length + 1) / 2 := by
  induction level using pairUp.induct with
  | case1 => simp [pairUp]
  | case2 last => simp [pairUp]
  | case3 left right rest ih =>
    simp only [pairUp, List.length_cons, ih]
    omega

theorem pairUp_forall {P : δ → Prop} (ones : ∀ a, P (one a)) (twos : ∀ a b, P (two a b)) (level : List δ) :
    ∀ node ∈ pairUp one two level, P node := by
  induction level using pairUp.induct with
  | case1 => simp [pairUp]
  | case2 last => simpa [pairUp] using ones last
  | case3 left right rest ih =>
    intro node member
    rcases List.mem_cons.mp member with rfl | later
    · exact twos left right
    · exact ih node later

theorem pairUp_map {ε : Type*} {one' : ε → ε} {two' : ε → ε → ε} (f : δ → ε) (ones : ∀ a, f (one a) = one' (f a))
    (twos : ∀ a b, f (two a b) = two' (f a) (f b)) (level : List δ) :
    (pairUp one two level).map f = pairUp one' two' (level.map f) := by
  induction level using pairUp.induct with
  | case1 => rfl
  | case2 last => simp [pairUp, ones]
  | case3 left right rest ih => simp [pairUp, twos, ih]

theorem levels_map {ε : Type*} {one' : ε → ε} {two' : ε → ε → ε} (f : δ → ε) (ones : ∀ a, f (one a) = one' (f a))
    (twos : ∀ a b, f (two a b) = two' (f a) (f b)) (fuel : Nat) (level : List δ) :
    (levels one two fuel level).map f = levels one' two' fuel (level.map f) := by
  induction fuel generalizing level with
  | zero => rfl
  | succ fuel ih =>
    have next := pairUp_map f ones twos level
    have length : (pairUp one' two' (level.map f)).length = (pairUp one two level).length := by rw [← next, List.length_map]
    simp only [levels, length]
    split
    · rw [ih, next]
    · exact next

/-- Levels of some nodes come to one. -/
theorem levels_length {fuel : Nat} {level : List δ} (some_ : level ≠ []) (room : level.length ≤ fuel) :
    (levels one two fuel level).length = 1 := by
  have positive := List.length_pos_iff.mpr some_
  induction fuel generalizing level with
  | zero => omega
  | succ fuel ih =>
    have length := @pairUp_length _ one two level
    simp only [levels]
    split
    · rename_i more
      exact ih (List.ne_nil_of_length_pos (by omega)) (by omega) (by omega)
    · omega

/-- A node of the level above: its two below it, or the last one alone. -/
theorem pairUp_get {level : List δ} {i : Nat} {node : δ} (at_ : (pairUp one two level)[i]? = some node) :
    (∃ left right, level[2 * i]? = some left ∧ level[2 * i + 1]? = some right ∧ node = two left right) ∨
      ∃ last, level[2 * i]? = some last ∧ level[2 * i + 1]? = none ∧ node = one last := by
  induction level using pairUp.induct generalizing i with
  | case1 => simp [pairUp] at at_
  | case2 last =>
    cases i with
    | zero =>
      obtain rfl : one last = node := by simpa [pairUp] using at_
      exact .inr ⟨last, rfl, rfl, rfl⟩
    | succ i => simp [pairUp] at at_
  | case3 left right rest ih =>
    cases i with
    | zero =>
      obtain rfl : two left right = node := by simpa [pairUp] using at_
      exact .inl ⟨left, right, rfl, rfl, rfl⟩
    | succ i =>
      have below := ih (by simpa [pairUp] using at_)
      have place : 2 * (i + 1) = 2 * i + 1 + 1 := by ring
      rw [place]
      simpa using below

end Pairs

section Tree

variable {α : Type*}

def leaves : LoneTree α → List α
  | leaf value => [value]
  | one child => child.leaves
  | two left right => left.leaves ++ right.leaves

/-- A tree with every leaf at one depth and no lone child. -/
inductive Full : Nat → LoneTree α → Prop
  | leaf (value : α) : Full 0 (.leaf value)
  | two {d : Nat} {left right : LoneTree α} : Full d left → Full d right → Full (d + 1) (.two left right)

/-- A tree with every leaf at one depth, filled from the left. -/
inductive Filled : Nat → LoneTree α → Prop
  | leaf (value : α) : Filled 0 (.leaf value)
  | one {d : Nat} {child : LoneTree α} : Filled d child → Filled (d + 1) (.one child)
  | two {d : Nat} {left right : LoneTree α} : Full d left → Filled d right → Filled (d + 1) (.two left right)

theorem Full.leaves_length {d : Nat} {t : LoneTree α} (full : Full d t) : t.leaves.length = 2 ^ d := by
  induction full with
  | leaf value => rfl
  | two _ _ ihLeft ihRight => rw [leaves, List.length_append, ihLeft, ihRight, Nat.pow_succ]; ring

theorem Full.filled {d : Nat} {t : LoneTree α} (full : Full d t) : Filled d t := by
  induction full with
  | leaf value => exact .leaf value
  | two left _ _ ihRight => exact .two left ihRight

/-- The leaf a number's bits lead to, its highest first; a lone child has no right side. -/
def follow (j : Nat) : LoneTree α → Nat → Option α
  | leaf value, 0 => some value
  | one child, k + 1 => if j.testBit k then none else child.follow j k
  | two left right, k + 1 => if j.testBit k then right.follow j k else left.follow j k
  | _, _ => none

theorem mod_pow_succ_of_testBit {j k : Nat} (set : j.testBit k) : j % 2 ^ (k + 1) = 2 ^ k + j % 2 ^ k := by
  have odd : j / 2 ^ k % 2 = 1 := by simpa [Nat.testBit_eq_decide_div_mod_eq] using set
  rw [Nat.mod_pow_succ, odd]
  ring

theorem mod_pow_succ_of_clear {j k : Nat} (clear : ¬j.testBit k = true) : j % 2 ^ (k + 1) = j % 2 ^ k := by
  have even : j / 2 ^ k % 2 = 0 := by simpa [Nat.testBit_eq_decide_div_mod_eq] using clear
  rw [Nat.mod_pow_succ, even, Nat.mul_zero, Nat.add_zero]

/-- Bits lead to a leaf exactly as many levels down as the leaves are, and there to the leaf of their number. -/
theorem Filled.follow {d : Nat} {t : LoneTree α} (filled : Filled d t) {j k : Nat} {value : α} (found : t.follow j k = some value) :
    k = d ∧ t.leaves[j % 2 ^ k]? = some value := by
  induction t generalizing d k with
  | leaf held =>
    cases filled
    cases k with
    | zero => exact ⟨rfl, by simpa [LoneTree.follow, leaves, Nat.mod_one] using found⟩
    | succ k => simp [LoneTree.follow] at found
  | one child ih =>
    cases filled with
    | one below =>
      cases k with
      | zero => simp [LoneTree.follow] at found
      | succ k =>
        simp only [LoneTree.follow] at found
        split at found
        · cases found
        · rename_i clear
          obtain ⟨rfl, at_⟩ := ih below found
          exact ⟨rfl, by rw [mod_pow_succ_of_clear clear]; exact at_⟩
  | two left right ihLeft ihRight =>
    cases filled with
    | two full below =>
      cases k with
      | zero => simp [LoneTree.follow] at found
      | succ k =>
        simp only [LoneTree.follow] at found
        split at found
        · rename_i set
          obtain ⟨rfl, at_⟩ := ihRight below found
          refine ⟨rfl, ?_⟩
          rw [mod_pow_succ_of_testBit set, leaves, ← full.leaves_length, List.getElem?_append_right (Nat.le_add_right _ _),
            Nat.add_sub_cancel_left, full.leaves_length]
          exact at_
        · rename_i clear
          obtain ⟨rfl, at_⟩ := ihLeft full.filled found
          refine ⟨rfl, ?_⟩
          rw [mod_pow_succ_of_clear clear, leaves, List.getElem?_append_left]
          · exact at_
          · rw [full.leaves_length]
            exact Nat.mod_lt _ (Nat.two_pow_pos k)

/-- A level: full trees of one depth, the last perhaps filled only from the left. -/
def IsLevel (d : Nat) (level : List (LoneTree α)) : Prop :=
  ∃ front last, level = front ++ [last] ∧ (∀ t ∈ front, Full d t) ∧ Filled d last

theorem IsLevel.pairUp {d : Nat} {level : List (LoneTree α)} (isLevel : IsLevel d level) :
    IsLevel (d + 1) (pairUp one two level) ∧ (LoneTree.pairUp one two level).flatMap leaves = level.flatMap leaves := by
  obtain ⟨front, last, rfl, full, filled⟩ := isLevel
  induction front using LoneTree.pairUp.induct with
  | case1 => exact ⟨⟨[], .one last, rfl, by simp, .one filled⟩, by simp [LoneTree.pairUp, leaves]⟩
  | case2 only =>
    refine ⟨⟨[], .two only last, rfl, by simp, .two (full only (by simp)) filled⟩, by simp [LoneTree.pairUp, leaves]⟩
  | case3 left right rest ih =>
    obtain ⟨⟨front', last', same, full', filled'⟩, leaves'⟩ := ih fun t member => full t (by simp [member])
    refine ⟨⟨.two left right :: front', last', ?_, ?_, filled'⟩, ?_⟩
    · simp only [List.cons_append, LoneTree.pairUp, same]
    · intro t member
      rcases List.mem_cons.mp member with rfl | later
      · exact .two (full left (by simp)) (full right (by simp))
      · exact full' t later
    · simp only [List.cons_append, LoneTree.pairUp, List.flatMap_cons, leaves', leaves, List.append_assoc]

/-- The tree over some values: one filled from the left, with those values for its leaves. -/
theorem levels_tree {fuel d : Nat} {level : List (LoneTree α)} (isLevel : IsLevel d level) (room : level.length ≤ fuel) :
    ∃ t d', levels one two fuel level = [t] ∧ Filled d' t ∧ t.leaves = level.flatMap leaves := by
  obtain ⟨front, last, same, -⟩ := id isLevel
  have some_ : level ≠ [] := by simp [same]
  have single := @levels_length _ LoneTree.one LoneTree.two _ _ some_ room
  have walk : ∀ fuel {d} {level : List (LoneTree α)}, IsLevel d level →
      ∃ d', IsLevel d' (levels one two fuel level) ∧ (levels one two fuel level).flatMap leaves = level.flatMap leaves := by
    intro fuel
    induction fuel with
    | zero => exact fun isLevel => ⟨_, isLevel, rfl⟩
    | succ fuel ih =>
      intro d level isLevel
      obtain ⟨next, same⟩ := isLevel.pairUp
      simp only [levels]
      split
      · obtain ⟨d', last, leaves'⟩ := ih next
        exact ⟨d', last, leaves'.trans same⟩
      · exact ⟨d + 1, next, same⟩
  obtain ⟨d', ⟨front', t, whole, -, filled⟩, leaves'⟩ := walk fuel isLevel
  rw [whole] at single leaves' ⊢
  have none : front' = [] := by simpa using single
  rw [none] at leaves' ⊢
  exact ⟨t, d', rfl, filled, by simpa using leaves'⟩

end Tree

section Digest

variable {α φ δ : Type*} (leafFrame : α → φ) (oneFrame : δ → φ) (twoFrame : δ → δ → φ) (hash : φ → δ)

def digest : LoneTree α → δ
  | leaf value => hash (leafFrame value)
  | one child => hash (oneFrame child.digest)
  | two left right => hash (twoFrame left.digest right.digest)

/-- The frame a tree's top hashes. -/
def frame : LoneTree α → φ
  | leaf value => leafFrame value
  | one child => oneFrame (child.digest leafFrame oneFrame twoFrame hash)
  | two left right => twoFrame (left.digest leafFrame oneFrame twoFrame hash) (right.digest leafFrame oneFrame twoFrame hash)

/-- Every frame a tree hashes, its top's first. -/
def frames : LoneTree α → List φ
  | leaf value => [leafFrame value]
  | one child => frame leafFrame oneFrame twoFrame hash (one child) :: child.frames
  | two left right => frame leafFrame oneFrame twoFrame hash (two left right) :: (left.frames ++ right.frames)

/-- The frame a step of a path hashes at height `l`; a lone child on the right is none. -/
def stepFrame (j l : Nat) (current : δ) : Option δ → Option φ
  | none => if j.testBit l then none else some (oneFrame current)
  | some sibling => some (if j.testBit l then twoFrame sibling current else twoFrame current sibling)

/-- The root a path gives from the node at height `l` on. -/
def recompute (j : Nat) : Nat → δ → List (Option δ) → Option δ
  | _, current, [] => some current
  | l, current, step :: rest => (stepFrame oneFrame twoFrame j l current step).bind fun frame => recompute j (l + 1) (hash frame) rest

/-- The frames a path hashes. -/
def pathFrames (j : Nat) : Nat → δ → List (Option δ) → List φ
  | _, _, [] => []
  | l, current, step :: rest =>
    match stepFrame oneFrame twoFrame j l current step with
    | none => []
    | some frame => frame :: pathFrames j (l + 1) (hash frame) rest

/-- The siblings of a node's path up from a level, none where it stands alone. -/
def pathTo : Nat → List δ → Nat → List (Option δ)
  | 0, _, _ => []
  | fuel + 1, level, i =>
    let sibling := if i % 2 = 0 then level[i + 1]? else level[i - 1]?
    let next := pairUp (fun a => hash (oneFrame a)) (fun a b => hash (twoFrame a b)) level
    sibling :: if 1 < next.length then pathTo fuel next (i / 2) else []

/-- Frames that tell their kind and their parts, the parts being digests of one shape. -/
structure Framing (sized : δ → Prop) : Prop where
  hashed : ∀ frame, sized (hash frame)
  leaf : ∀ a b, leafFrame a = leafFrame b → a = b
  one : ∀ a b, sized a → sized b → oneFrame a = oneFrame b → a = b
  two : ∀ a b c d, sized a → sized b → sized c → sized d → twoFrame a b = twoFrame c d → a = c ∧ b = d
  leaf_one : ∀ a b, leafFrame a ≠ oneFrame b
  leaf_two : ∀ a b c, leafFrame a ≠ twoFrame b c
  one_two : ∀ a b c, sized a → sized b → sized c → oneFrame a ≠ twoFrame b c

end Digest

section Binding

variable {α φ δ : Type*} {leafFrame : α → φ} {oneFrame : δ → φ} {twoFrame : δ → δ → φ} {hash : φ → δ} {sized : δ → Prop}

theorem digest_frame (t : LoneTree α) : t.digest leafFrame oneFrame twoFrame hash = hash (t.frame leafFrame oneFrame twoFrame hash) := by
  cases t <;> rfl

theorem frame_mem (t : LoneTree α) : t.frame leafFrame oneFrame twoFrame hash ∈ t.frames leafFrame oneFrame twoFrame hash := by
  cases t <;> exact List.mem_cons_self

theorem Framing.sized_digest (framing : Framing leafFrame oneFrame twoFrame hash sized) (t : LoneTree α) :
    sized (t.digest leafFrame oneFrame twoFrame hash) := by
  rw [digest_frame]
  exact framing.hashed _

/-- Trees that hash no two frames to one digest have one digest only where they are one tree. -/
theorem Framing.digest_injective (framing : Framing leafFrame oneFrame twoFrame hash sized) {s t : LoneTree α}
    (apart : ∀ x ∈ s.frames leafFrame oneFrame twoFrame hash, ∀ y ∈ t.frames leafFrame oneFrame twoFrame hash, hash x = hash y → x = y)
    (same : s.digest leafFrame oneFrame twoFrame hash = t.digest leafFrame oneFrame twoFrame hash) : s = t := by
  have top : ∀ {s t : LoneTree α}, (∀ x ∈ s.frames leafFrame oneFrame twoFrame hash, ∀ y ∈ t.frames leafFrame oneFrame twoFrame hash,
      hash x = hash y → x = y) → s.digest leafFrame oneFrame twoFrame hash = t.digest leafFrame oneFrame twoFrame hash →
      s.frame leafFrame oneFrame twoFrame hash = t.frame leafFrame oneFrame twoFrame hash := by
    intro s t apart same
    rw [digest_frame, digest_frame] at same
    exact apart _ s.frame_mem _ t.frame_mem same
  induction s generalizing t with
  | leaf a =>
    have frames := top apart same
    cases t with
    | leaf b => rw [framing.leaf a b frames]
    | one child => exact absurd frames (framing.leaf_one _ _)
    | two left right => exact absurd frames (framing.leaf_two _ _ _)
  | one child ih =>
    have frames := top apart same
    cases t with
    | leaf b => exact absurd frames.symm (framing.leaf_one _ _)
    | one other =>
      have below := framing.one _ _ (framing.sized_digest child) (framing.sized_digest other) frames
      rw [ih (fun x inS y inT => apart x (List.mem_cons_of_mem _ inS) y (List.mem_cons_of_mem _ inT)) below]
    | two left right =>
      exact absurd frames (framing.one_two _ _ _ (framing.sized_digest child) (framing.sized_digest left) (framing.sized_digest right))
  | two left right ihLeft ihRight =>
    have frames := top apart same
    cases t with
    | leaf b => exact absurd frames.symm (framing.leaf_two _ _ _)
    | one other =>
      exact absurd frames.symm (framing.one_two _ _ _ (framing.sized_digest other) (framing.sized_digest left) (framing.sized_digest right))
    | two left' right' =>
      obtain ⟨lefts, rights⟩ := framing.two _ _ _ _ (framing.sized_digest left) (framing.sized_digest right)
        (framing.sized_digest left') (framing.sized_digest right') frames
      rw [ihLeft (fun x inS y inT => apart x (List.mem_cons_of_mem _ (List.mem_append_left _ inS)) y
          (List.mem_cons_of_mem _ (List.mem_append_left _ inT))) lefts,
        ihRight (fun x inS y inT => apart x (List.mem_cons_of_mem _ (List.mem_append_right _ inS)) y
          (List.mem_cons_of_mem _ (List.mem_append_right _ inT))) rights]

/-- The last step of a path, and the path before it. -/
theorem recompute_concat {j l : Nat} {current root : δ} {steps : List (Option δ)} {step : Option δ}
    (run : recompute oneFrame twoFrame hash j l current (steps ++ [step]) = some root) :
    ∃ mid frame, recompute oneFrame twoFrame hash j l current steps = some mid ∧
      stepFrame oneFrame twoFrame j (l + steps.length) mid step = some frame ∧ root = hash frame ∧
      frame ∈ pathFrames oneFrame twoFrame hash j l current (steps ++ [step]) ∧
      ∀ x ∈ pathFrames oneFrame twoFrame hash j l current steps, x ∈ pathFrames oneFrame twoFrame hash j l current (steps ++ [step]) := by
  induction steps generalizing l current with
  | nil =>
    obtain ⟨frame, made, done⟩ := Option.bind_eq_some_iff.mp run
    refine ⟨current, frame, rfl, made, (Option.some.inj done).symm, ?_, by simp [pathFrames]⟩
    simp [pathFrames, made]
  | cons first rest ih =>
    obtain ⟨frame, made, done⟩ := Option.bind_eq_some_iff.mp run
    obtain ⟨mid, last, before, final, same, member, inside⟩ := ih done
    refine ⟨mid, last, ?_, ?_, same, ?_, ?_⟩
    · rw [recompute, made]
      exact before
    · rw [List.length_cons, Nat.add_comm rest.length 1, ← Nat.add_assoc]
      exact final
    · simp only [List.cons_append, pathFrames, made]
      exact List.mem_cons_of_mem _ member
    · simp only [List.cons_append, pathFrames, made, List.mem_cons]
      rintro x (rfl | later)
      · exact .inl rfl
      · exact .inr (inside x later)

theorem Framing.sized_recompute (framing : Framing leafFrame oneFrame twoFrame hash sized) {j l : Nat} {current root : δ}
    {steps : List (Option δ)} (start : sized current) (run : recompute oneFrame twoFrame hash j l current steps = some root) :
    sized root := by
  induction steps generalizing l current with
  | nil => exact Option.some.inj run ▸ start
  | cons step rest ih =>
    obtain ⟨frame, -, done⟩ := Option.bind_eq_some_iff.mp run
    exact ih (framing.hashed frame) done

/-- A path to a tree's digest that hashes none of its frames' digests anew leads to its leaf. -/
theorem Framing.follow (framing : Framing leafFrame oneFrame twoFrame hash sized) {j : Nat} {value : α} {steps : List (Option δ)}
    (siblings : ∀ sibling, some sibling ∈ steps → sized sibling) {t : LoneTree α}
    (run : recompute oneFrame twoFrame hash j 0 (hash (leafFrame value)) steps = some (t.digest leafFrame oneFrame twoFrame hash))
    (apart : ∀ x ∈ t.frames leafFrame oneFrame twoFrame hash,
      ∀ y ∈ leafFrame value :: pathFrames oneFrame twoFrame hash j 0 (hash (leafFrame value)) steps, hash x = hash y → x = y) :
    t.follow j steps.length = some value := by
  induction steps using List.reverseRecOn generalizing t with
  | nil =>
    have same := Option.some.inj run
    rw [digest_frame] at same
    have frames := apart _ t.frame_mem _ List.mem_cons_self same.symm
    cases t with
    | leaf a => rw [framing.leaf a value frames]; rfl
    | one child => exact absurd frames.symm (framing.leaf_one _ _)
    | two left right => exact absurd frames.symm (framing.leaf_two _ _ _)
  | append_singleton steps step ih =>
    obtain ⟨mid, frame, before, final, same, member, inside⟩ := recompute_concat run
    rw [digest_frame] at same
    have frames := apart _ t.frame_mem _ (List.mem_cons_of_mem _ member) same
    have sizedMid := framing.sized_recompute (framing.hashed _) before
    have earlier := fun sibling (inSteps : some sibling ∈ steps) => siblings sibling (List.mem_append_left _ inSteps)
    have below : ∀ {child : LoneTree α}, child.digest leafFrame oneFrame twoFrame hash = mid →
        (∀ x ∈ child.frames leafFrame oneFrame twoFrame hash, x ∈ t.frames leafFrame oneFrame twoFrame hash) →
        child.follow j steps.length = some value := by
      intro child digest within
      refine ih earlier (digest ▸ before) fun x inChild y inPath => apart x (within x inChild) y ?_
      rcases List.mem_cons.mp inPath with rfl | later
      · exact List.mem_cons_self
      · exact List.mem_cons_of_mem _ (inside y later)
    rw [Nat.zero_add] at final
    rw [List.length_append, List.length_singleton]
    cases step with
    | none =>
      simp only [stepFrame] at final
      split at final
      · cases final
      · rename_i clear
        obtain rfl := Option.some.inj final
        cases t with
        | leaf a => exact absurd frames (framing.leaf_one _ _)
        | one child =>
          have digest := framing.one _ _ (framing.sized_digest child) sizedMid frames
          rw [LoneTree.follow, if_neg clear]
          exact below digest fun x inChild => List.mem_cons_of_mem _ inChild
        | two left right =>
          exact absurd frames.symm (framing.one_two _ _ _ sizedMid (framing.sized_digest left) (framing.sized_digest right))
    | some sibling =>
      have sizedSibling := siblings sibling (List.mem_append_right _ (List.mem_singleton_self _))
      obtain rfl := Option.some.inj final
      cases t with
      | leaf a =>
        split at frames
        · exact absurd frames (framing.leaf_two _ _ _)
        · exact absurd frames (framing.leaf_two _ _ _)
      | one child =>
        split at frames
        · exact absurd frames (framing.one_two _ _ _ (framing.sized_digest child) sizedSibling sizedMid)
        · exact absurd frames (framing.one_two _ _ _ (framing.sized_digest child) sizedMid sizedSibling)
      | two left right =>
        rw [LoneTree.follow]
        by_cases right_ : j.testBit steps.length = true
        · rw [if_pos right_] at frames ⊢
          obtain ⟨-, digest⟩ := framing.two _ _ _ _ (framing.sized_digest left) (framing.sized_digest right) sizedSibling sizedMid frames
          exact below digest fun x inChild => List.mem_cons_of_mem _ (List.mem_append_right _ inChild)
        · rw [if_neg right_] at frames ⊢
          obtain ⟨digest, -⟩ := framing.two _ _ _ _ (framing.sized_digest left) (framing.sized_digest right) sizedMid sizedSibling frames
          exact below digest fun x inChild => List.mem_cons_of_mem _ (List.mem_append_left _ inChild)

/-- A node's path up from its level comes to the node over it where the levels end. -/
theorem recompute_pathTo {fuel j l i : Nat} {level : List δ} {current : δ} (at_ : level[i]? = some current) (bits : j / 2 ^ l = i) :
    ∃ root, recompute oneFrame twoFrame hash j l current (pathTo oneFrame twoFrame hash fuel level i) = some root ∧
      (levels (fun a => hash (oneFrame a)) (fun a b => hash (twoFrame a b)) fuel level)[i / 2 ^ (pathTo oneFrame twoFrame hash fuel level i).length]? =
        some root := by
  induction fuel generalizing l i level current with
  | zero => exact ⟨current, rfl, by simpa [pathTo, levels] using at_⟩
  | succ fuel ih =>
    have inside := (List.getElem?_eq_some_iff.mp at_).1
    have bit : j.testBit l = decide (i % 2 = 1) := by rw [Nat.testBit_eq_decide_div_mod_eq, bits]
    have length := @pairUp_length _ (fun a => hash (oneFrame a)) (fun a b => hash (twoFrame a b)) level
    obtain ⟨parent, above⟩ : ∃ parent, (pairUp (fun a => hash (oneFrame a)) (fun a b => hash (twoFrame a b)) level)[i / 2]? = some parent :=
      ⟨_, List.getElem?_eq_getElem (by omega)⟩
    have up : ∃ frame, stepFrame oneFrame twoFrame j l current (if i % 2 = 0 then level[i + 1]? else level[i - 1]?) = some frame ∧
        parent = hash frame := by
      rcases pairUp_get above with ⟨left, right, atLeft, atRight, rfl⟩ | ⟨last, atLast, past, rfl⟩
      · by_cases even : i % 2 = 0
        · rw [show 2 * (i / 2) = i by omega] at atLeft atRight
          obtain rfl := Option.some.inj (atLeft.symm.trans at_)
          rw [if_pos even, atRight]
          exact ⟨_, rfl, by rw [bit, if_neg (by simp; omega)]⟩
        · rw [show 2 * (i / 2) = i - 1 by omega] at atLeft atRight
          rw [show i - 1 + 1 = i by omega] at atRight
          obtain rfl := Option.some.inj (atRight.symm.trans at_)
          rw [if_neg even, atLeft]
          exact ⟨_, rfl, by rw [bit, if_pos (by simp; omega)]⟩
      · have last_ := List.getElem?_eq_none_iff.mp past
        rw [show 2 * (i / 2) = i by omega] at atLast past
        obtain rfl := Option.some.inj (atLast.symm.trans at_)
        rw [if_pos (by omega), past]
        exact ⟨_, by rw [stepFrame, bit, if_neg (by simp; omega)], rfl⟩
    obtain ⟨frame, made, rfl⟩ := up
    simp only [pathTo, levels, recompute, made, Option.bind_some]
    by_cases more : 1 < (pairUp (fun a => hash (oneFrame a)) (fun a b => hash (twoFrame a b)) level).length
    · rw [if_pos more, if_pos more]
      have halved : j / 2 ^ (l + 1) = i / 2 := by rw [Nat.pow_succ, ← Nat.div_div_eq_div_mul, bits]
      obtain ⟨root, run, top⟩ := ih above halved
      refine ⟨root, run, ?_⟩
      rw [List.length_cons, Nat.pow_succ', ← Nat.div_div_eq_div_mul]
      exact top
    · rw [if_neg more, if_neg more]
      refine ⟨_, rfl, ?_⟩
      rw [List.length_singleton, Nat.pow_one]
      exact above

theorem pathTo_length {d fuel i : Nat} {level : List δ} (room : level.length ≤ 2 ^ (d + 1)) :
    (pathTo oneFrame twoFrame hash fuel level i).length ≤ d + 1 := by
  induction fuel generalizing d i level with
  | zero => exact Nat.zero_le _
  | succ fuel ih =>
    have length := @pairUp_length _ (fun a => hash (oneFrame a)) (fun a b => hash (twoFrame a b)) level
    simp only [pathTo, List.length_cons]
    split
    · rename_i more
      cases d with
      | zero => omega
      | succ d =>
        have half : (pairUp (fun a => hash (oneFrame a)) (fun a b => hash (twoFrame a b)) level).length ≤ 2 ^ (d + 1) := by
          rw [Nat.pow_succ] at room
          omega
        exact Nat.succ_le_succ (ih half)
    · exact Nat.succ_le_succ (Nat.zero_le _)

/-- A path's siblings are nodes of its levels. -/
theorem pathTo_sized (hashed : ∀ frame, sized (hash frame)) {fuel i : Nat} {level : List δ} (nodes : ∀ node ∈ level, sized node) :
    ∀ sibling, some sibling ∈ pathTo oneFrame twoFrame hash fuel level i → sized sibling := by
  induction fuel generalizing i level with
  | zero => simp [pathTo]
  | succ fuel ih =>
    intro sibling member
    have above := pairUp_forall (fun a => hashed (oneFrame a)) (fun a b => hashed (twoFrame a b)) level
    simp only [pathTo, List.mem_cons] at member
    rcases member with here | later
    · split at here
      · exact nodes sibling (List.mem_of_getElem? here.symm)
      · exact nodes sibling (List.mem_of_getElem? here.symm)
    · split at later
      · exact ih above sibling later
      · simp at later

end Binding

end LoneTree

end Moe
