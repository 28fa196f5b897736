import Moe.Pool.Audit
import Moe.Pool.NoteRun
import Moe.Pool.NoteFrontier
import Moe.Pool.ScopeTree

namespace Moe

open HashTree

namespace NoteTree

variable [Crypto] {tree grown : NoteTree} {outputs cms : List Nat}

/-- Append one commitment. -/
def append (tree : NoteTree) (commitment : Nat) : Except Failure NoteTree := tree.appendAll [commitment]

/-- What a call may append: fresh nonzero field elements, within the capacity. -/
structure Appendable (outputs cms : List Nat) : Prop where
  each : ∀ cm ∈ cms, isField cm = true ∧ cm ≠ 0 ∧ cm ∉ outputs
  apart : cms.Nodup
  room : outputs.length + cms.length ≤ noteTreeCapacity

omit [Crypto] in
theorem checkFresh_eq_ok {fresh next : List Nat} {cm : Nat} : tree.checkFresh fresh cm = .ok next ↔
    isField cm = true ∧ cm ≠ 0 ∧ cm ∉ tree.leafList ∧ cm ∉ fresh ∧ next = cm :: fresh := by
  unfold checkFresh requireField
  simp only [bind_eq_ok, require_eq_ok, pure_eq_ok, Bool.and_eq_true, decide_eq_true_eq]
  constructor
  · rintro ⟨_, ⟨_, field, rfl⟩, _, nonzero, _, ⟨new, apart⟩, rfl⟩
    exact ⟨field, nonzero, new, apart, rfl⟩
  · rintro ⟨field, nonzero, new, apart, rfl⟩
    exact ⟨_, ⟨(), field, rfl⟩, (), nonzero, (), ⟨new, apart⟩, rfl⟩

omit [Crypto] in
theorem foldlM_checkFresh_eq_ok {fresh : List Nat} : (∃ done, cms.foldlM tree.checkFresh fresh = .ok done) ↔
    (∀ cm ∈ cms, isField cm = true ∧ cm ≠ 0 ∧ cm ∉ tree.leafList ∧ cm ∉ fresh) ∧ cms.Nodup := by
  induction cms generalizing fresh with
  | nil => simp [pure, Except.pure]
  | cons cm rest ih =>
    have step : (∃ done, (cm :: rest).foldlM tree.checkFresh fresh = .ok done) ↔
        (isField cm = true ∧ cm ≠ 0 ∧ cm ∉ tree.leafList ∧ cm ∉ fresh) ∧ ∃ done, rest.foldlM tree.checkFresh (cm :: fresh) = .ok done := by
      constructor
      · rintro ⟨done, run⟩
        rw [List.foldlM_cons] at run
        obtain ⟨next, checked, run⟩ := bind_eq_ok.mp run
        obtain ⟨field, nonzero, new, apart, rfl⟩ := checkFresh_eq_ok.mp checked
        exact ⟨⟨field, nonzero, new, apart⟩, done, run⟩
      · rintro ⟨⟨field, nonzero, new, apart⟩, done, run⟩
        refine ⟨done, ?_⟩
        rw [List.foldlM_cons]
        exact bind_eq_ok.mpr ⟨_, checkFresh_eq_ok.mpr ⟨field, nonzero, new, apart, rfl⟩, run⟩
    rw [step, ih, List.forall_mem_cons, List.nodup_cons]
    constructor
    · rintro ⟨own, each, apart⟩
      refine ⟨⟨own, fun other member => ?_⟩, fun inside => (each cm inside).2.2.2 List.mem_cons_self, apart⟩
      obtain ⟨field, nonzero, new, past⟩ := each other member
      exact ⟨field, nonzero, new, fun inside => past (List.mem_cons_of_mem _ inside)⟩
    · rintro ⟨⟨own, each⟩, outside, apart⟩
      refine ⟨own, fun other member => ?_, apart⟩
      obtain ⟨field, nonzero, new, past⟩ := each other member
      refine ⟨field, nonzero, new, fun inside => ?_⟩
      rcases List.mem_cons.mp inside with rfl | older
      · exact outside member
      · exact past older

/-- A call is refused exactly where a commitment of it may not be appended. -/
theorem appendAll_ok_iff : (∃ grown, tree.appendAll cms = .ok grown) ↔ Appendable tree.leafList cms := by
  have fresh : (∃ done, cms.foldlM tree.checkFresh [] = .ok done) ↔
      (∀ cm ∈ cms, isField cm = true ∧ cm ≠ 0 ∧ cm ∉ tree.leafList ∧ cm ∉ []) ∧ cms.Nodup := foldlM_checkFresh_eq_ok
  constructor
  · rintro ⟨grown, run⟩
    obtain ⟨done, checked, run⟩ := bind_eq_ok.mp run
    obtain ⟨room, run⟩ := bind_unit_eq_ok.mp run
    obtain ⟨each, apart⟩ := fresh.mp ⟨done, checked⟩
    exact ⟨fun cm member => ⟨(each cm member).1, (each cm member).2.1, (each cm member).2.2.1⟩, apart, of_decide_eq_true (require_eq_ok.mp room)⟩
  · intro may
    obtain ⟨done, checked⟩ := fresh.mpr ⟨fun cm member => ⟨(may.each cm member).1, (may.each cm member).2.1, (may.each cm member).2.2,
      List.not_mem_nil⟩, may.apart⟩
    have room := decide_eq_true may.room
    by_cases none : cms = []
    · exact ⟨tree, bind_eq_ok.mpr ⟨done, checked, bind_unit_eq_ok.mpr ⟨require_eq_ok.mpr room, by rw [if_pos none]; rfl⟩⟩⟩
    · exact ⟨_, bind_eq_ok.mpr ⟨done, checked, bind_unit_eq_ok.mpr ⟨require_eq_ok.mpr room, by rw [if_neg none]; rfl⟩⟩⟩

theorem Built.leaves (built : Built outputs tree) : tree.leafList = outputs := built.nodes.1

/-- The outputs of a built tree are fresh nonzero field elements, within the capacity. -/
theorem Built.fields (built : Built outputs tree) : (∀ cm ∈ outputs, isField cm = true ∧ cm ≠ 0) ∧ outputs.length ≤ noteTreeCapacity := by
  induction built with
  | empty => exact ⟨fun cm member => (by cases member), Nat.zero_le _⟩
  | @append outputs cms tree grown before run ih =>
    obtain ⟨each, -, room⟩ := appendAll_ok_iff.mp ⟨grown, run⟩
    rw [before.leaves] at room
    refine ⟨fun cm member => ?_, by rw [List.length_append]; exact room⟩
    rcases List.mem_append.mp member with old | new
    · exact ih.1 cm old
    · exact ⟨(each cm new).1, (each cm new).2.1⟩

/-- A level's changed parents are the nodes set; every other key is as it was. -/
theorem isSome_parents (tree : NoteTree) (level : Nat) (indices : List Nat) (l i : Nat) :
    ((indices.foldl (fun tree index =>
      tree.setNode (level + 1) index (noteNode level (tree.node level (2 * index)) (tree.node level (2 * index + 1)))) tree).nodes.get? (l, i)).isSome ↔
      (tree.nodes.get? (l, i)).isSome ∨ l = level + 1 ∧ i ∈ indices := by
  induction indices generalizing tree with
  | nil => simp
  | cons first rest ih =>
    rw [List.foldl_cons, ih, setNode, OrderedMap.get?_set, List.mem_cons]
    by_cases own : (level + 1, first) = (l, i)
    · obtain ⟨rfl, rfl⟩ := Prod.mk.inj own
      simp
    · rw [if_neg own]
      have other : ¬(l = level + 1 ∧ i = first) := fun both => own (by rw [both.1, both.2])
      constructor
      · rintro (old | ⟨height, later⟩)
        · exact .inl old
        · exact .inr ⟨height, .inr later⟩
      · rintro (old | ⟨height, rfl | later⟩)
        · exact .inl old
        · exact absurd ⟨height, rfl⟩ other
        · exact .inr ⟨height, later⟩

/-- Over all levels the nodes set are those over the changed leaves. -/
theorem isSome_rehash (tree : NoteTree) {low high : Nat} (ordered : low ≤ high) (l i : Nat) :
    ((tree.rehash low high).nodes.get? (l, i)).isSome ↔
      (tree.nodes.get? (l, i)).isSome ∨ (1 ≤ l ∧ l ≤ noteTreeDepth) ∧ low / 2 ^ l ≤ i ∧ i ≤ high / 2 ^ l := by
  have steps : ∀ k, (((List.range k).foldl (fun tree level => tree.rehashLevel level (low / 2 ^ level) (high / 2 ^ level)) tree).nodes.get? (l, i)).isSome ↔
      (tree.nodes.get? (l, i)).isSome ∨ (1 ≤ l ∧ l ≤ k) ∧ low / 2 ^ l ≤ i ∧ i ≤ high / 2 ^ l := by
    intro k
    induction k with
    | zero =>
      refine ⟨.inl, ?_⟩
      rintro (old | ⟨inside, -⟩)
      · exact old
      · omega
    | succ k ih =>
      rw [List.range_succ, List.foldl_append, List.foldl_cons, List.foldl_nil, rehashLevel, isSome_parents, ih, List.mem_range'_1,
        ← div_pow_succ, ← div_pow_succ, or_assoc]
      refine or_congr_right ?_
      have le := @Nat.div_le_div_right low high (2 ^ (k + 1)) ordered
      constructor
      · rintro (⟨inside, within⟩ | ⟨rfl, within⟩)
        · exact ⟨by omega, within⟩
        · exact ⟨by omega, by omega⟩
      · rintro ⟨inside, within⟩
        rcases Nat.lt_or_ge k l with top | below
        · obtain rfl : l = k + 1 := by omega
          exact .inr ⟨rfl, by omega⟩
        · exact .inl ⟨by omega, within⟩
  exact steps noteTreeDepth

/-- The nodes a built tree holds are those over its leaves. -/
theorem Built.stored (built : Built outputs tree) (l i : Nat) :
    (tree.nodes.get? (l, i)).isSome ↔ (1 ≤ l ∧ l ≤ noteTreeDepth) ∧ i * 2 ^ l < outputs.length := by
  induction built with
  | empty => simp
  | @append outputs cms tree grown before run ih =>
    obtain ⟨_, -, run⟩ := bind_eq_ok.mp run
    obtain ⟨-, run⟩ := bind_unit_eq_ok.mp run
    by_cases none : cms = []
    · rw [if_pos none] at run
      obtain rfl := pure_eq_ok.mp run
      rw [none, List.append_nil]
      exact ih
    · rw [if_neg none] at run
      obtain rfl := pure_eq_ok.mp run
      have more := List.length_pos_iff.mpr none
      rw [before.leaves, List.length_append, isSome_rehash _ (by omega)]
      have positive := Nat.two_pow_pos l
      have held : (({ tree with leafList := outputs ++ cms } : NoteTree).nodes.get? (l, i)).isSome ↔
          (1 ≤ l ∧ l ≤ noteTreeDepth) ∧ i * 2 ^ l < outputs.length := ih
      rw [held, Nat.le_div_iff_mul_le positive, ← and_or_left]
      refine and_congr_right fun _ => ?_
      constructor
      · rintro (old | ⟨-, high⟩)
        · omega
        · omega
      · intro inside
        rcases Nat.lt_or_ge (i * 2 ^ l) outputs.length with old | new
        · exact .inl old
        · exact .inr ⟨(Nat.div_le_div_right new).trans_eq (Nat.mul_div_cancel _ positive), by omega⟩

/-- Two trees built of the same outputs are the same in leaves, nodes, root and paths. -/
theorem Built.same {other : NoteTree} (built : Built outputs tree) (built' : Built outputs other) :
    tree.leafList = other.leafList ∧ tree.root = other.root ∧ (∀ key, tree.nodes.get? key = other.nodes.get? key) ∧
      ∀ position, tree.path position = other.path position := by
  have leaves : tree.leafList = other.leafList := built.leaves.trans built'.leaves.symm
  have nodes : ∀ l ≤ noteTreeDepth, ∀ i, tree.node l i = other.node l i := fun l inside i => by
    rw [built.nodes.2 l inside, built'.nodes.2 l inside]
  refine ⟨leaves, nodes noteTreeDepth (Nat.le_refl _) 0, fun (l, i) => ?_, fun position => ?_⟩
  · have held := built.stored l i
    have held' := built'.stored l i
    cases own : tree.nodes.get? (l, i) with
    | none =>
      rw [own] at held
      have absent := (not_congr held).mp Bool.false_ne_true
      exact (Option.not_isSome_iff_eq_none.mp ((not_congr held').mpr absent)).symm
    | some value =>
      rw [own] at held
      have inside := held.mp rfl
      obtain ⟨value', own'⟩ := Option.isSome_iff_exists.mp (held'.mpr inside)
      have node := nodes l inside.1.2 i
      have positive : l ≠ 0 := by omega
      rw [NoteTree.node, NoteTree.node, if_neg positive, if_neg positive, own, own', Option.getD_some, Option.getD_some] at node
      rw [own', node]
  · unfold NoteTree.path
    rw [leaves]
    refine bind_congr fun _ => ?_
    have siblings : ((List.range noteTreeDepth).map fun level => tree.node level (if position / 2 ^ level % 2 = 1 then position / 2 ^ level - 1
        else position / 2 ^ level + 1)) = (List.range noteTreeDepth).map fun level =>
          other.node level (if position / 2 ^ level % 2 = 1 then position / 2 ^ level - 1 else position / 2 ^ level + 1) :=
      List.map_congr_left fun level member => nodes level (Nat.le_of_lt (List.mem_range.mp member)) _
    dsimp only
    rw [siblings]

omit [Crypto] in
theorem appendable_cons {cm : Nat} : Appendable outputs (cm :: cms) ↔ Appendable outputs [cm] ∧ Appendable (outputs ++ [cm]) cms := by
  constructor
  · rintro ⟨each, apart, room⟩
    rw [List.nodup_cons] at apart
    rw [List.length_cons] at room
    refine ⟨⟨fun other member => ?_, List.nodup_singleton _, ?_⟩, fun other member => ?_, apart.2, ?_⟩
    · rw [List.mem_singleton.mp member]
      exact each cm List.mem_cons_self
    · rw [List.length_singleton]
      omega
    · obtain ⟨field, nonzero, new⟩ := each other (List.mem_cons_of_mem _ member)
      refine ⟨field, nonzero, fun inside => ?_⟩
      rcases List.mem_append.mp inside with old | own
      · exact new old
      · exact apart.1 (List.mem_singleton.mp own ▸ member)
    · rw [List.length_append, List.length_singleton]
      omega
  · rintro ⟨first, ⟨each, apart, room⟩⟩
    rw [List.length_append, List.length_singleton] at room
    refine ⟨fun other member => ?_, List.nodup_cons.mpr ⟨fun member => ?_, apart⟩, by rw [List.length_cons]; omega⟩
    · rcases List.mem_cons.mp member with rfl | later
      · exact first.each _ List.mem_cons_self
      · obtain ⟨field, nonzero, new⟩ := each other later
        exact ⟨field, nonzero, fun old => new (List.mem_append_left _ old)⟩
    · exact (each cm member).2.2 (List.mem_append_right _ List.mem_cons_self)

/-- What may be appended in one call may be appended one by one, and the other way round. -/
theorem Built.one_by_one (built : Built outputs tree) :
    (∃ grown, tree.appendAll cms = .ok grown) ↔ ∃ single, cms.foldlM NoteTree.append tree = .ok single := by
  rw [appendAll_ok_iff, built.leaves]
  induction cms generalizing outputs tree with
  | nil => exact ⟨fun _ => ⟨tree, rfl⟩, fun _ => ⟨fun cm member => (by cases member), .nil, built.fields.2⟩⟩
  | cons cm rest ih =>
    rw [appendable_cons]
    constructor
    · rintro ⟨first, later⟩
      rw [← built.leaves] at first
      obtain ⟨grown, run⟩ := appendAll_ok_iff.mpr first
      obtain ⟨single, rest⟩ := (ih (built.append run)).mp later
      refine ⟨single, ?_⟩
      rw [List.foldlM_cons]
      exact bind_eq_ok.mpr ⟨grown, run, rest⟩
    · rintro ⟨single, run⟩
      rw [List.foldlM_cons] at run
      obtain ⟨grown, first, run⟩ := bind_eq_ok.mp run
      have own := appendAll_ok_iff.mp ⟨grown, first⟩
      rw [built.leaves] at own
      exact ⟨own, (ih (built.append first)).mpr ⟨single, run⟩⟩

/-- A tree appended to one by one is built of the outputs in order. -/
theorem Built.foldlM (built : Built outputs tree) {single : NoteTree} (run : cms.foldlM NoteTree.append tree = .ok single) : Built (outputs ++ cms) single := by
  induction cms generalizing outputs tree with
  | nil =>
    cases run
    rwa [List.append_nil]
  | cons cm rest ih =>
    rw [List.foldlM_cons] at run
    obtain ⟨grown, first, run⟩ := bind_eq_ok.mp run
    have done := ih (built.append first) run
    rwa [List.append_assoc, List.singleton_append] at done

/-- A held leaf's path folds to the root. -/
theorem Built.path_root (built : Built outputs tree) {position leaf : Nat} (member : tree.leafList[position]? = some leaf) :
    ∃ path, tree.path position = .ok path ∧ noteRootOf leaf path = .ok tree.root := by
  have output : outputs[position]? = some leaf := by rwa [← built.leaves]
  obtain ⟨each, room⟩ := built.fields
  have inside : position < tree.leafList.length := (List.getElem?_eq_some_iff.mp member).1
  have besides : ∀ h < noteTreeDepth, tree.node h (if position / 2 ^ h % 2 = 1 then position / 2 ^ h - 1 else position / 2 ^ h + 1) =
      noteBlock outputs h (beside position h) := by
    intro h small
    rw [built.nodes.2 h (Nat.le_of_lt small), beside]
    congr 1
    by_cases right : position.testBit h = true
    · rw [if_pos right, if_pos ((testBit_iff position h).mp right)]
    · rw [if_neg right, if_neg fun odd => right ((testBit_iff position h).mpr odd)]
  have folded := noteRootOf_besides (fun cm inside => (each cm inside).1) room output besides
  have bits : (fun h => decide (position / 2 ^ h % 2 = 1)) = position.testBit := by
    funext h
    rw [Bool.eq_iff_iff, decide_eq_true_eq, testBit_iff]
  refine ⟨_, bind_unit_eq_ok.mpr ⟨require_eq_ok.mpr (decide_eq_true inside), rfl⟩, ?_⟩
  rw [built.root, ← folded, ← bits]

end NoteTree

section

variable [Crypto]

/-- A scope has its leaves where each entry has its own. -/
theorem exists_leaves {entries : List ScopeEntry} : (∃ leaves, List.Forall₂ (fun entry leaf => scopeLeaf entry = .ok leaf) entries leaves) ↔
    ∀ entry ∈ entries, ∃ leaf, scopeLeaf entry = .ok leaf := by
  induction entries with
  | nil => exact ⟨fun _ entry member => (by cases member), fun _ => ⟨[], .nil⟩⟩
  | cons entry rest ih =>
    rw [List.forall_mem_cons, ← ih]
    constructor
    · rintro ⟨leaves, all⟩
      cases all with
      | cons own others => exact ⟨⟨_, own⟩, _, others⟩
    · rintro ⟨⟨leaf, own⟩, leaves, others⟩
      exact ⟨leaf :: leaves, .cons own others⟩

/-- Scope paths fold from each entry's leaf to the scope's root, places invert the order, and scopes of different backings have different roots;
a note tree appended to in one call is the one appended to one by one, and each held leaf's path folds to its root. -/
theorem scope_and_note_trees :
    (∀ entries, (∃ tree, ScopeTree.of entries = .ok tree) ↔
      isCanonicalScope entries = true ∧ ∀ entry ∈ entries, ∃ leaf, scopeLeaf entry = .ok leaf) ∧
    (∀ entries tree, ScopeTree.of entries = .ok tree → scopeRoot entries = .ok tree.root ∧
      (∀ i entry, entries[i]? = some entry → ∃ leaf path, scopeLeaf entry = .ok leaf ∧ tree.path i = .ok path ∧ scopeRootOf leaf path = .ok tree.root) ∧
      ∀ backing i, tree.indexOf backing = some i ↔ (entries[i]?).map (·.backing) = some backing) ∧
    (∀ first second tree tree', ScopeTree.of first = .ok tree → ScopeTree.of second = .ok tree' → ScopeTree.FramesApart tree tree' →
      first.map (·.backing) ≠ second.map (·.backing) → tree.root ≠ tree'.root) ∧
    ∀ outputs tree, NoteTree.Built outputs tree →
      (∀ cms, ((∃ batch, tree.appendAll cms = .ok batch) ↔ ∃ single, cms.foldlM NoteTree.append tree = .ok single) ∧
        ∀ batch single, tree.appendAll cms = .ok batch → cms.foldlM NoteTree.append tree = .ok single →
          batch.leafList = single.leafList ∧ batch.root = single.root ∧ (∀ key, batch.nodes.get? key = single.nodes.get? key) ∧
            ∀ position, batch.path position = single.path position) ∧
      ∀ position leaf, tree.leafList[position]? = some leaf → ∃ path, tree.path position = .ok path ∧ noteRootOf leaf path = .ok tree.root := by
  refine ⟨fun entries => ?_, fun entries tree made => ?_, fun first second tree tree' made made' apart other same => ?_, fun outputs tree built => ?_⟩
  · constructor
    · rintro ⟨tree, made⟩
      obtain ⟨leaves, built⟩ := ScopeTree.of_eq_ok.mp made
      exact ⟨built.canonical, exists_leaves.mp ⟨leaves, built.leaf⟩⟩
    · rintro ⟨canonical, each⟩
      obtain ⟨leaves, leaf⟩ := exists_leaves.mpr each
      exact ⟨_, ScopeTree.of_eq_ok.mpr ⟨leaves, canonical, leaf, rfl⟩⟩
  · obtain ⟨leaves, built⟩ := ScopeTree.of_eq_ok.mp made
    refine ⟨bind_eq_ok.mpr ⟨tree, made, rfl⟩, fun i entry member => ?_, fun backing i => built.indexOf⟩
    obtain ⟨inside, rfl⟩ := List.getElem?_eq_some_iff.mp member
    have inside' : i < leaves.length := by rwa [built.length]
    obtain ⟨path, read, folded⟩ := built.path (List.getElem?_eq_getElem inside')
    exact ⟨_, path, built.leaf.get inside inside', read, folded⟩
  · obtain ⟨leaves, built⟩ := ScopeTree.of_eq_ok.mp made
    obtain ⟨leaves', built'⟩ := ScopeTree.of_eq_ok.mp made'
    exact other (congrArg _ (built.scope_inj built' apart same))
  · refine ⟨fun cms => ⟨built.one_by_one, fun batch single run run' => ?_⟩, fun position leaf member => built.path_root member⟩
    exact (built.append run).same (built.foldlM run')

end

section Sample

local instance scopesCrypto : Crypto := sampleCrypto

/-- A scope of one backing. -/
def sampleScope (byte : UInt8) : List ScopeEntry := [⟨sampleName byte, sampleName 2⟩]

/-- Its tree. -/
def sampleScopeTree (byte : UInt8) : ScopeTree := (ScopeTree.of (sampleScope byte)).toOption.getD ⟨[], [], []⟩

theorem eq_ok_of_isOk {α : Type} {run : Except Failure α} (made : run.isOk = true) (other : α) : run = .ok (run.toOption.getD other) := by
  cases run with
  | ok value => rfl
  | error failure => cases made

theorem sampleScopeTree_apart : ScopeTree.FramesApart (sampleScopeTree 1) (sampleScopeTree 3) := by
  unfold ScopeTree.FramesApart
  decide +kernel

theorem sampleScope_ne : (sampleScope 1).map (·.backing) ≠ (sampleScope 3).map (·.backing) := by decide +kernel

theorem scope_and_note_trees_sample : (sampleScopeTree 1).root ≠ (sampleScopeTree 3).root ∧ (sampleScopeTree 1).indexOf (sampleName 1) = some 0 ∧
    ∃ batch single, ({} : NoteTree).appendAll [5, 6, 7] = .ok batch ∧ [5, 6, 7].foldlM NoteTree.append {} = .ok single ∧ batch.root = single.root := by
  have first : ScopeTree.of (sampleScope 1) = .ok (sampleScopeTree 1) := eq_ok_of_isOk (by decide +kernel) _
  have second : ScopeTree.of (sampleScope 3) = .ok (sampleScopeTree 3) := eq_ok_of_isOk (by decide +kernel) _
  obtain ⟨-, trees, roots, notes⟩ := scope_and_note_trees
  obtain ⟨batches, -⟩ := notes [] {} .empty
  obtain ⟨both, same⟩ := batches [5, 6, 7]
  obtain ⟨batch, run⟩ : ∃ batch, ({} : NoteTree).appendAll [5, 6, 7] = .ok batch := NoteTree.appendAll_ok_iff.mpr ⟨by decide, by decide, by decide⟩
  obtain ⟨single, run'⟩ := both.mp ⟨batch, run⟩
  have place : ((sampleScope 1)[0]?).map (·.backing) = some (sampleName 1) := rfl
  exact ⟨roots _ _ _ _ first second sampleScopeTree_apart sampleScope_ne, ((trees _ _ first).2.2 (sampleName 1) 0).mpr place, batch, single, run, run',
    (same batch single run run').2.1⟩

end Sample

end Moe
