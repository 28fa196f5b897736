import Mathlib
import Moe.Ergo.Section
import Moe.Pool.Field

namespace Moe

open LoneTree

/-- The rule a section's root is taken under: its ids alone, or its ids and then its witness ids. -/
inductive RootRule
  | idsOnly | idsThenWitnesses
  deriving DecidableEq

def RootRule.leaves : RootRule → List CommittedTransaction → List Bytes
  | idsOnly, transactions => transactions.map (·.id)
  | idsThenWitnesses, transactions => transactions.map (·.id) ++ transactions.map (·.witnessId)

/-- A section whose every id and witness id has its own width. -/
def Committed (transactions : List CommittedTransaction) : Prop :=
  ∀ t ∈ transactions, t.id.length = 32 ∧ t.witnessId.length = 31

theorem committedLeaves_eq {transactions : List CommittedTransaction} (committed : Committed transactions) :
    committedLeaves transactions = some (transactions.map (·.id), transactions.map (·.witnessId)) := by
  rw [committedLeaves, if_pos]
  simp only [Bool.and_eq_true, List.all_eq_true, decide_eq_true_eq]
  exact ⟨fun t member => (committed t member).1, fun t member => (committed t member).2⟩

theorem committedLeaves_none {transactions : List CommittedTransaction} (malformed : ¬Committed transactions) :
    committedLeaves transactions = none := by
  rw [committedLeaves, if_neg]
  simp only [Bool.and_eq_true, List.all_eq_true, decide_eq_true_eq]
  exact fun both => malformed fun t member => ⟨both.1 t member, both.2 t member⟩

theorem RootRule.leaves_ne {rule : RootRule} {transactions : List CommittedTransaction} (some_ : transactions ≠ []) :
    rule.leaves transactions ≠ [] := by
  cases rule <;> simp [RootRule.leaves, some_]

/-- Under the ids-only rule no leaf is as short as a witness id. -/
theorem rules_apart {s t : List CommittedTransaction} (some_ : t ≠ []) (committedS : Committed s) (committedT : Committed t) :
    s.map (·.id) ≠ t.map (·.id) ++ t.map (·.witnessId) := by
  intro same
  obtain ⟨first, member⟩ := List.exists_mem_of_ne_nil t some_
  have inIds : first.witnessId ∈ s.map (·.id) := same ▸ List.mem_append_right _ (List.mem_map_of_mem member)
  obtain ⟨other, memberS, equal⟩ := List.mem_map.mp inIds
  have wide := (committedS other memberS).1
  have narrow := (committedT first member).2
  rw [equal] at wide
  omega

/-- Leaves of two widths tell which rule they are under, and which ids they start with. -/
theorem leaves_injective {s t : List CommittedTransaction} (someS : s ≠ []) (someT : t ≠ []) (committedS : Committed s)
    (committedT : Committed t) {rule rule' : RootRule} (same : rule.leaves s = rule'.leaves t) :
    s.map (·.id) = t.map (·.id) ∧ rule = rule' := by
  cases rule <;> cases rule' <;> simp only [RootRule.leaves] at same
  · exact ⟨same, rfl⟩
  · exact absurd same (rules_apart someT committedS committedT)
  · exact absurd same.symm (rules_apart someS committedT committedS)
  · have lengths := congrArg List.length same
    simp only [List.length_append, List.length_map] at lengths
    exact ⟨(List.append_inj same (by simp; omega)).1, rfl⟩

section

variable [Blake]

/-- The hash tree over some leaves. -/
def sectionTree (leaves : List Bytes) : Option (LoneTree Bytes) :=
  (levels LoneTree.one LoneTree.two leaves.length (leaves.map .leaf))[0]?

/-- The frames hashed for the root of some leaves. -/
def rootFrames (leaves : List Bytes) : List Bytes := (sectionTree leaves).elim [] (frames leafFrame loneFrame pairFrame blake2b)

/-- The frames hashed along an inclusion path. -/
def inclusionFrames (id : Bytes) (j : Nat) (steps : List InclusionStep) : List Bytes :=
  leafFrame id :: pathFrames loneFrame pairFrame blake2b j 0 (blake2b (leafFrame id)) steps

/-- No frame of one computation and another of a second have one hash. -/
def NoCollision (first second : List Bytes) : Prop := ∀ x ∈ first, ∀ y ∈ second, blake2b x = blake2b y → x = y

/-- The framings of leaves, lone children and pairs are told apart by their first byte and their length. -/
theorem blake_framing : Framing leafFrame loneFrame pairFrame blake2b (fun digest : Bytes => digest.length = 32) where
  hashed := Blake.blake2b_length
  leaf a b same := (List.cons.inj same).2
  one a b _ _ same := (List.cons.inj same).2
  two a b c d sizedA _ sizedC _ same := List.append_inj (List.cons.inj same).2 (sizedA.trans sizedC.symm)
  leaf_one a b same := absurd (List.cons.inj same).1 (by decide)
  leaf_two a b c same := absurd (List.cons.inj same).1 (by decide)
  one_two a b c sizedA sizedB sizedC same := by
    have lengths := congrArg List.length same
    simp only [loneFrame, pairFrame, List.length_cons, List.length_append] at lengths
    omega

/-- The tree over some leaves: filled from the left, its digest their root. -/
theorem sectionTree_spec {leaves : List Bytes} (some_ : leaves ≠ []) :
    ∃ t d, sectionTree leaves = some t ∧ Filled d t ∧ t.leaves = leaves ∧
      merkleRoot leaves = .ok (t.digest leafFrame loneFrame pairFrame blake2b) := by
  have start : IsLevel 0 (leaves.map LoneTree.leaf) := by
    obtain ⟨front, last, same⟩ := (List.eq_nil_or_concat' leaves).resolve_left some_
    refine ⟨front.map .leaf, .leaf last, by simp [same], ?_, .leaf last⟩
    intro t member
    obtain ⟨value, -, rfl⟩ := List.mem_map.mp member
    exact .leaf value
  obtain ⟨t, d, single, filled, kept⟩ := @levels_tree _ leaves.length _ _ start (by simp)
  have digests := @levels_map _ LoneTree.one LoneTree.two _ loneNode pairNode (digest leafFrame loneFrame pairFrame blake2b)
    (fun _ => rfl) (fun _ _ => rfl) leaves.length (leaves.map LoneTree.leaf)
  rw [single, List.map_map] at digests
  refine ⟨t, d, by rw [sectionTree, single]; rfl, filled, ?_, ?_⟩
  · rw [kept, List.flatMap_map]
    simp [LoneTree.leaves]
  · have level : leaves.map (digest leafFrame loneFrame pairFrame blake2b ∘ LoneTree.leaf) = leaves.map fun leaf => blake2b (leafFrame leaf) := rfl
    rw [merkleRoot, ← level, ← digests]
    simp [some_, require]

/-- A section matches a root under a rule. -/
def MatchesUnder (rule : RootRule) (transactions : List CommittedTransaction) (root : Bytes) : Prop :=
  Committed transactions ∧ transactions ≠ [] ∧ merkleRoot (rule.leaves transactions) = .ok root

/-- A section matches a root exactly where it does under either rule. -/
theorem sectionMatchesRoot_iff {transactions : List CommittedTransaction} (some_ : transactions ≠ []) {root : Bytes} :
    sectionMatchesRoot transactions root = .ok true ↔ ∃ rule, MatchesUnder rule transactions root := by
  by_cases committed : Committed transactions
  · obtain ⟨t, -, -, -, -, ids⟩ := sectionTree_spec (RootRule.idsOnly.leaves_ne some_)
    obtain ⟨t', -, -, -, -, both⟩ := sectionTree_spec (RootRule.idsThenWitnesses.leaves_ne some_)
    have first : merkleRoot (transactions.map (·.id)) = _ := ids
    have second : merkleRoot (transactions.map (·.id) ++ transactions.map (·.witnessId)) = _ := both
    rw [sectionMatchesRoot, committedLeaves_eq committed]
    simp only [first, second, bind, Except.bind, pure, Except.pure]
    constructor
    · intro run
      by_cases under : t.digest leafFrame loneFrame pairFrame blake2b = root
      · exact ⟨.idsOnly, committed, some_, ids.trans (by rw [under])⟩
      · rw [if_neg under] at run
        have under' : t'.digest leafFrame loneFrame pairFrame blake2b = root := by simpa using run
        exact ⟨.idsThenWitnesses, committed, some_, both.trans (by rw [under'])⟩
    · rintro ⟨rule, -, -, matches_⟩
      cases rule with
      | idsOnly =>
        have under := Except.ok.inj (ids.symm.trans matches_)
        rw [if_pos under]
      | idsThenWitnesses =>
        have under := Except.ok.inj (both.symm.trans matches_)
        split
        · rfl
        · simp [under]
  · rw [sectionMatchesRoot, committedLeaves_none committed]
    constructor
    · intro run
      cases run
    · rintro ⟨_, committed', -⟩
      exact absurd committed' committed

/-- Sections of one root are of one rule and one id sequence. -/
theorem MatchesUnder.binding {s t : List CommittedTransaction} {rule rule' : RootRule} {root : Bytes} (first : MatchesUnder rule s root)
    (second : MatchesUnder rule' t root) (apart : NoCollision (rootFrames (rule.leaves s)) (rootFrames (rule'.leaves t))) :
    s.map (·.id) = t.map (·.id) ∧ rule = rule' := by
  obtain ⟨committedS, someS, rootS⟩ := first
  obtain ⟨committedT, someT, rootT⟩ := second
  obtain ⟨treeS, -, foundS, -, leavesS, digestS⟩ := sectionTree_spec (rule.leaves_ne someS)
  obtain ⟨treeT, -, foundT, -, leavesT, digestT⟩ := sectionTree_spec (rule'.leaves_ne someT)
  rw [rootFrames, rootFrames, foundS, foundT] at apart
  have one : treeS = treeT := blake_framing.digest_injective apart
    (Except.ok.inj ((digestS.symm.trans rootS).trans (rootT.symm.trans digestT)))
  refine leaves_injective someS someT committedS committedT ?_
  rw [← leavesS, ← leavesT, one]

theorem inclusionRoot_eq_some {id root : Bytes} {j : Nat} {steps : List InclusionStep} :
    inclusionRoot id j steps = some root ↔ id.length = 32 ∧ j < 2 ^ 32 ∧ steps ≠ [] ∧ steps.length ≤ maxInclusionSteps ∧
      j < 2 ^ steps.length ∧ (∀ sibling, some sibling ∈ steps → sibling.length = 32) ∧
      recompute loneFrame pairFrame blake2b j 0 (blake2b (leafFrame id)) steps = some root := by
  have shifted : j >>> steps.length ≠ 0 ↔ ¬j < 2 ^ steps.length := by
    rw [Nat.shiftRight_eq_div_pow, Ne, Nat.div_eq_zero_iff]
    have positive := Nat.two_pow_pos steps.length
    omega
  have malformed : (steps.any (fun step => step.any (·.length ≠ 32))) = true ↔
      ¬∀ sibling, some sibling ∈ steps → sibling.length = 32 := by
    rw [List.any_eq_true]
    constructor
    · rintro ⟨_ | sibling, member, wrong⟩ siblings
      · cases wrong
      · simp [siblings sibling member] at wrong
    · intro wrong
      push Not at wrong
      obtain ⟨sibling, member, wrong⟩ := wrong
      exact ⟨some sibling, member, by simpa using wrong⟩
  rw [inclusionRoot]
  split
  · rename_i refused
    constructor
    · intro made
      cases made
    · rintro ⟨wide, small, some_, short, below, siblings, -⟩
      rcases refused with narrow | large | none | long | above | wrong
      · exact absurd wide narrow
      · omega
      · exact absurd none some_
      · omega
      · exact absurd below (shifted.mp above)
      · exact absurd siblings (malformed.mp wrong)
  · rename_i accepted
    simp only [not_or, shifted, malformed, not_not, not_le, not_lt] at accepted
    obtain ⟨wide, small, some_, short, below, siblings⟩ := accepted
    constructor
    · exact fun run => ⟨wide, small, some_, short, below, siblings, run⟩
    · exact fun all => all.2.2.2.2.2.2

/-- A path to a section's root is its transaction's at that position. -/
theorem MatchesUnder.included {s : List CommittedTransaction} {rule : RootRule} {root id : Bytes} {j : Nat} {steps : List InclusionStep}
    (matches_ : MatchesUnder rule s root) (included : inclusionRoot id j steps = some root)
    (apart : NoCollision (rootFrames (rule.leaves s)) (inclusionFrames id j steps)) : (s.map (·.id))[j]? = some id := by
  obtain ⟨committed, some_, same⟩ := matches_
  obtain ⟨t, d, found, filled, leaves, digest⟩ := sectionTree_spec (rule.leaves_ne some_)
  obtain ⟨wide, -, -, -, below, siblings, run⟩ := inclusionRoot_eq_some.mp included
  rw [rootFrames, found] at apart
  have root_ := Except.ok.inj (same.symm.trans digest)
  have followed := blake_framing.follow siblings (root_ ▸ run) apart
  obtain ⟨-, at_⟩ := filled.follow followed
  rw [leaves, Nat.mod_eq_of_lt below] at at_
  cases rule with
  | idsOnly => exact at_
  | idsThenWitnesses =>
    rcases Nat.lt_or_ge j (s.map (·.id)).length with inside | past
    · rwa [RootRule.leaves, List.getElem?_append_left inside] at at_
    -- a witness id is a byte short of an id
    · rw [RootRule.leaves, List.getElem?_append_right past] at at_
      obtain ⟨t, member, equal⟩ := List.mem_map.mp (List.mem_of_getElem? at_)
      have narrow := (committed t member).2
      rw [equal] at narrow
      omega

/-- A section whose leaf lists are arrays. -/
def Held (transactions : List CommittedTransaction) : Prop := (RootRule.idsThenWitnesses.leaves transactions).length < 2 ^ 32

omit [Blake] in
theorem Held.short {s : List CommittedTransaction} (held : Held s) (rule : RootRule) : s.length < 2 ^ 31 ∧ (rule.leaves s).length < 2 ^ 32 := by
  simp only [Held, RootRule.leaves, List.length_append, List.length_map] at held
  refine ⟨by omega, ?_⟩
  cases rule <;> simp only [RootRule.leaves, List.length_append, List.length_map] <;> omega

/-- Below 2^31 the siblings read are those of the path up. -/
theorem siblingsFrom_eq {fuel j : Nat} {level : List Bytes} (small : j < 2 ^ 31) :
    siblingsFrom fuel level j = pathTo loneFrame pairFrame blake2b fuel level j := by
  induction fuel generalizing j level with
  | zero => rfl
  | succ fuel ih =>
    have half : halved j = ((j / 2 : Nat) : Int) := by
      rw [halved, Int.bmod_eq_of_le_mul_two (by omega) (by omega)]
      omega
    have next : pairUp (fun a => blake2b (loneFrame a)) (fun a b => blake2b (pairFrame a b)) level = pairUp loneNode pairNode level := rfl
    simp only [siblingsFrom, pathTo, next, half, ih (show j / 2 < 2 ^ 31 by omega)]
    refine congrArg (· :: _) ?_
    by_cases even : j % 2 = 0
    · rw [if_pos (by omega), if_pos even, nodeAt, if_neg (by omega), show ((j : Int) + 1).toNat = j + 1 by omega]
    · rw [if_neg (by omega), if_neg even, nodeAt, if_neg (by omega), show ((j : Int) - 1).toNat = j - 1 by omega]

/-- The path built for a leaf gives the root of its leaves. -/
theorem inclusionPath_root {leaves : List Bytes} {j : Nat} {id root : Bytes} (at_ : leaves[j]? = some id) (wide : id.length = 32)
    (small : j < 2 ^ 31) (fits : leaves.length < 2 ^ 32) (same : merkleRoot leaves = .ok root) :
    ∃ steps, inclusionPath leaves j = .ok steps ∧ inclusionRoot id j steps = some root := by
  have inside := (List.getElem?_eq_some_iff.mp at_).1
  have some_ : leaves ≠ [] := List.ne_nil_of_length_pos (by omega)
  obtain ⟨fuel, positive⟩ : ∃ fuel, leaves.length = fuel + 1 := ⟨leaves.length - 1, by omega⟩
  have level : (leaves.map fun leaf => blake2b (leafFrame leaf))[j]? = some (blake2b (leafFrame id)) := by
    rw [List.getElem?_map, at_]
    rfl
  obtain ⟨top, run, above⟩ := @recompute_pathTo _ _ loneFrame pairFrame blake2b leaves.length j 0 j _ _ level (by simp)
  have single : (levels loneNode pairNode leaves.length (leaves.map fun leaf => blake2b (leafFrame leaf))).length = 1 :=
    levels_length (by simpa using some_) (by simp)
  have short : (pathTo loneFrame pairFrame blake2b leaves.length (leaves.map fun leaf => blake2b (leafFrame leaf)) j).length ≤ 31 + 1 :=
    pathTo_length (by rw [List.length_map]; omega)
  have siblings := @pathTo_sized _ _ loneFrame pairFrame blake2b (fun digest : Bytes => digest.length = 32) Blake.blake2b_length
    leaves.length j (leaves.map fun leaf => blake2b (leafFrame leaf)) (by simp [Blake.blake2b_length])
  have path : inclusionPath leaves j = .ok (pathTo loneFrame pairFrame blake2b leaves.length
      (leaves.map fun leaf => blake2b (leafFrame leaf)) j) := by
    rw [inclusionPath, siblingsFrom_eq small]
    simp [require, inside, bind, Except.bind, pure, Except.pure]
  have some_steps : pathTo loneFrame pairFrame blake2b leaves.length (leaves.map fun leaf => blake2b (leafFrame leaf)) j ≠ [] := by
    rw [positive]
    exact List.cons_ne_nil _ _
  refine ⟨_, path, ?_⟩
  generalize pathTo loneFrame pairFrame blake2b leaves.length (leaves.map fun leaf => blake2b (leafFrame leaf)) j = steps at *
  have bottom := (List.getElem?_eq_some_iff.mp above).1
  have zero : j / 2 ^ steps.length = 0 := Nat.lt_one_iff.mp (lt_of_lt_of_eq bottom single)
  have below : j < 2 ^ steps.length := (Nat.div_eq_zero_iff.mp zero).resolve_left (Nat.two_pow_pos _).ne'
  have top_ : top = root := by
    rw [zero] at above
    rw [merkleRoot] at same
    simp only [require, some_, ne_eq, not_false_eq_true, bind, Except.bind, pure, Except.pure] at same
    rw [← Except.ok.inj same, List.getD_eq_getElem?_getD]
    exact (congrArg (Option.getD · []) above).symm
  rw [inclusionRoot_eq_some, ← top_]
  exact ⟨wide, by omega, some_steps, short, below, siblings, run⟩

theorem MatchesUnder.path {s : List CommittedTransaction} {rule : RootRule} {root id : Bytes} {j : Nat} (matches_ : MatchesUnder rule s root)
    (at_ : (s.map (·.id))[j]? = some id) (held : Held s) :
    ∃ steps, inclusionPath (rule.leaves s) j = .ok steps ∧ inclusionRoot id j steps = some root := by
  obtain ⟨committed, -, same⟩ := matches_
  obtain ⟨few, fits⟩ := held.short rule
  have inside := (List.getElem?_eq_some_iff.mp at_).1
  have wide : id.length = 32 := by
    obtain ⟨t, member, rfl⟩ := List.mem_map.mp (List.mem_of_getElem? at_)
    exact (committed t member).1
  have leaf : (rule.leaves s)[j]? = some id := by
    cases rule with
    | idsOnly => exact at_
    | idsThenWitnesses => rw [RootRule.leaves, List.getElem?_append_left inside, at_]
  rw [List.length_map] at inside
  exact inclusionPath_root leaf wide (by omega) fits same

theorem inclusionPath_ok {leaves : List Bytes} {j : Nat} (inside : j < leaves.length) : ∃ steps, inclusionPath leaves j = .ok steps :=
  ⟨siblingsFrom leaves.length (leaves.map fun leaf => blake2b (leafFrame leaf)) j,
    by simp [inclusionPath, require, inside, bind, Except.bind, pure, Except.pure]⟩

/-- A section's path is defined exactly where the section matches. -/
theorem sectionInclusionPath_iff {s : List ErgoTransactionView} {root : Bytes} {j : Nat} (inside : j < s.length) (held : Held (committed s)) :
    (∃ steps, sectionInclusionPath s root j = .ok (some steps)) ↔ sectionMatchesRoot (committed s) root = .ok true := by
  have length : (committed s).length = s.length := by rw [committed, List.length_map]
  have some_ : committed s ≠ [] := List.ne_nil_of_length_pos (by omega)
  constructor
  · rintro ⟨steps, found⟩
    rw [sectionInclusionPath] at found
    cases matches_ : sectionMatchesRoot (committed s) root with
    | error failure => rw [matches_] at found; cases found
    | ok matched =>
      cases matched with
      | false => rw [matches_] at found; cases found
      | true => rfl
  · intro matches_
    obtain ⟨rule, under⟩ := (sectionMatchesRoot_iff some_).mp matches_
    obtain ⟨read, at_⟩ : ∃ read, (committed s)[j]? = some read := ⟨_, List.getElem?_eq_getElem (by omega)⟩
    obtain ⟨steps, path, accepted⟩ := under.path (by rw [List.getElem?_map, at_]; rfl) held
    obtain ⟨first, idsPath⟩ := inclusionPath_ok (show j < ((committed s).map (·.id)).length by simpa [length] using inside)
    simp only [sectionInclusionPath, matches_, at_, Option.map_some, Option.getD_some, bind, Except.bind, pathUnder, idsPath]
    by_cases early : inclusionRoot read.id j first = some root
    · exact ⟨first, by simp [early, pure, Except.pure]⟩
    · cases rule with
      | idsOnly =>
        rw [RootRule.leaves, idsPath] at path
        exact absurd (Except.ok.inj path ▸ accepted) early
      | idsThenWitnesses =>
        rw [RootRule.leaves] at path
        exact ⟨steps, by simp [early, path, accepted, pure, Except.pure]⟩

/-- A transactions root binds its section and every inclusion. -/
theorem section_binding :
    (∀ (s : List CommittedTransaction) (root : Bytes), s ≠ [] → (sectionMatchesRoot s root = .ok true ↔ ∃ rule, MatchesUnder rule s root)) ∧
    (∀ (s t : List CommittedTransaction) (rule rule' : RootRule) (root : Bytes), MatchesUnder rule s root → MatchesUnder rule' t root →
      NoCollision (rootFrames (rule.leaves s)) (rootFrames (rule'.leaves t)) → s.map (·.id) = t.map (·.id) ∧ rule = rule') ∧
    (∀ (s : List CommittedTransaction) (rule : RootRule) (root id : Bytes) (j : Nat) (steps : List InclusionStep),
      MatchesUnder rule s root → inclusionRoot id j steps = some root →
      NoCollision (rootFrames (rule.leaves s)) (inclusionFrames id j steps) → (s.map (·.id))[j]? = some id) ∧
    (∀ (s : List CommittedTransaction) (rule : RootRule) (root : Bytes) (j : Nat) (id : Bytes), MatchesUnder rule s root →
      (s.map (·.id))[j]? = some id → Held s →
      ∃ steps, inclusionPath (rule.leaves s) j = .ok steps ∧ inclusionRoot id j steps = some root) ∧
    (∀ (s : List ErgoTransactionView) (root : Bytes) (j : Nat), j < s.length → Held (committed s) →
      ((∃ steps, sectionInclusionPath s root j = .ok (some steps)) ↔ sectionMatchesRoot (committed s) root = .ok true)) :=
  ⟨fun _ _ some_ => sectionMatchesRoot_iff some_, fun _ _ _ _ _ first second apart => first.binding second apart,
    fun _ _ _ _ _ _ matches_ included apart => matches_.included included apart,
    fun _ _ _ _ _ matches_ at_ held => matches_.path at_ held,
    fun _ _ _ inside held => sectionInclusionPath_iff inside held⟩

end

def sectionDigest (bytes : Bytes) : Bytes := toBytes 32 (sampleDigest 7 (bytes.map (·.toNat)))

theorem sectionDigest_length (bytes : Bytes) : (sectionDigest bytes).length = 32 := toBytes_length ..

local instance sectionBlake : Blake where
  blake2b := sectionDigest
  blake2b_length := sectionDigest_length

def sampleViews (witness : UInt8) : List ErgoTransactionView := [[1], [2], [3]].map fun unsigned => ⟨unsigned, List.replicate 31 witness⟩

def sampleRoot : Bytes := ((merkleRoot (RootRule.idsOnly.leaves (committed (sampleViews 4)))).toOption).getD []

def sampleSteps : List InclusionStep := ((inclusionPath (RootRule.idsOnly.leaves (committed (sampleViews 4))) 2).toOption).getD []

/-- Three transactions under the ids-only rule, with two sets of witness ids; the third stands alone on its level. -/
theorem sampleSection_binding :
    (sectionMatchesRoot (committed (sampleViews 4)) sampleRoot = .ok true ∧
      ∃ rule, MatchesUnder rule (committed (sampleViews 4)) sampleRoot) ∧
    (committed (sampleViews 4)).map (·.id) = (committed (sampleViews 5)).map (·.id) ∧
    ((committed (sampleViews 4)).map (·.id))[2]? = some (blake2b [3]) ∧
    (∃ steps, inclusionPath (RootRule.idsOnly.leaves (committed (sampleViews 4))) 2 = .ok steps ∧
      inclusionRoot (blake2b [3]) 2 steps = some sampleRoot) ∧
    ∃ steps, sectionInclusionPath (sampleViews 4) sampleRoot 2 = .ok (some steps) := by
  have under : ∀ witness : UInt8, witness = 4 ∨ witness = 5 → MatchesUnder .idsOnly (committed (sampleViews witness)) sampleRoot := by
    rintro witness (rfl | rfl)
    · exact ⟨by unfold Committed; decide +kernel, by decide +kernel, by decide +kernel⟩
    · exact ⟨by unfold Committed; decide +kernel, by decide +kernel, by decide +kernel⟩
  have matched : sectionMatchesRoot (committed (sampleViews 4)) sampleRoot = .ok true := by decide +kernel
  have accepted : inclusionRoot (blake2b [3]) 2 sampleSteps = some sampleRoot := by decide +kernel
  have held : Held (committed (sampleViews 4)) := by unfold Held; decide +kernel
  obtain ⟨rules, binding, inclusion, path, defined⟩ := @section_binding sectionBlake
  refine ⟨⟨matched, (rules _ _ (by decide +kernel)).mp matched⟩, ?_, ?_, ?_, ?_⟩
  · exact (binding _ _ _ _ _ (under 4 (.inl rfl)) (under 5 (.inr rfl)) (by unfold NoCollision; decide +kernel)).1
  · exact inclusion _ _ _ _ _ _ (under 4 (.inl rfl)) accepted (by unfold NoCollision; decide +kernel)
  · exact path _ _ _ _ _ (under 4 (.inl rfl)) (by decide +kernel) held
  · exact (defined _ _ _ (by decide) held).mpr matched

end Moe
