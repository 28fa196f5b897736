import Moe.Ergo.ScanSpacing
import Moe.Ergo.SubjectMapTree

namespace Moe

open OrderedMap HashTree

section

variable [Crypto]

variable {map : SubjectMap} {entries : List MapEntry} {entry : MapEntry} {key : Nat}

theorem foldSiblings_eq (key node : Nat) (siblings : List Nat) :
    foldSiblings key node siblings = climb (fun _ => mapNode) key.testBit (siblings.getD · 0) mapDepth node :=
  foldl_climb key.testBit (siblings.getD · 0) node mapDepth

/-- A key's path where its entries are these. -/
def pathOf (entries : List MapEntry) (key : Nat) : MapPath :=
  ⟨(keyEntries entries key).length, chainOf (keyEntries entries key),
    (List.range mapDepth).map fun l => subtree (fun _ => mapNode) (leafOf entries) l (beside key l)⟩

/-- A value along a key's siblings comes to the root of the tree with that leaf. -/
theorem fold_pathOf (entries : List MapEntry) (small : key < 2 ^ 32) (value : Nat) :
    foldSiblings key value (pathOf entries key).siblings = subtree (fun _ => mapNode) (Function.update (leafOf entries) key value) mapDepth 0 := by
  have climbed : climb (fun _ => mapNode) key.testBit (fun h => subtree (fun _ => mapNode) (leafOf entries) h (beside key h)) mapDepth
      (Function.update (leafOf entries) key value key) =
        subtree (fun _ => mapNode) (Function.update (leafOf entries) key value) mapDepth (key / 2 ^ mapDepth) :=
    climb_subtree fun h _ => (subtree_update_of_ne value (div_ne_beside key h)).symm
  rw [Function.update_self, Nat.div_eq_of_lt (show key < 2 ^ mapDepth from small)] at climbed
  rw [foldSiblings_eq, ← climbed]
  refine climb_congr (fun _ _ => rfl) fun h below => ?_
  rw [pathOf, List.getD_eq_getElem?_getD, List.getElem?_map, List.getElem?_range below]
  rfl

theorem fold_pathOf_own (entries : List MapEntry) (small : key < 2 ^ 32) :
    foldSiblings key (mapLeaf (pathOf entries key).count (pathOf entries key).chain) (pathOf entries key).siblings = treeRoot entries := by
  rw [fold_pathOf entries small, treeRoot]
  exact congrArg (fun leaf => subtree (fun _ => mapNode) leaf mapDepth 0) (Function.update_eq_self key (leafOf entries))

/-- A key's path gives the root exactly where the key has fewer than 2^64 entries. -/
theorem pathRoot_pathOf (entries : List MapEntry) (small : key < 2 ^ 32) :
    pathRoot key (pathOf entries key) = if (keyEntries entries key).length < 2 ^ 64 then some (treeRoot entries) else none := by
  have zero : ¬((pathOf entries key).count = 0 ∧ (pathOf entries key).chain ≠ 0) := by
    rintro ⟨none_, some_⟩
    refine some_ ?_
    show chainOf _ = 0
    rw [List.length_eq_zero_iff.mp none_]
    rfl
  have siblings : (pathOf entries key).siblings.length = mapDepth ∧ (pathOf entries key).siblings.all isField = true := by
    refine ⟨by simp [pathOf], List.all_eq_true.mpr fun value member => ?_⟩
    obtain ⟨l, _, rfl⟩ := List.mem_map.mp member
    exact subtree_isField entries l _
  rw [pathRoot, fold_pathOf_own entries small]
  by_cases short : (keyEntries entries key).length < 2 ^ 64
  · rw [if_pos short, if_pos ⟨small, short, chainOf_isField _, zero, siblings⟩]
  · rw [if_neg short, if_neg fun formed => short formed.2.1]

/-- An update of the next entry after some: its key's count and chain, the root before it, where the count is one a path states, and the
root after it. -/
structure MapUpdate.After (update : MapUpdate) (entries : List MapEntry) : Prop where
  count : update.before.count = (keyEntries entries update.entry.key).length
  chain : update.before.chain = chainOf (keyEntries entries update.entry.key)
  before : update.before.count < 2 ^ 64 → pathRoot update.entry.key update.before = some (treeRoot entries)
  root : update.root = .ok (treeRoot (entries ++ [update.entry]))

theorem MapUpdate.after_pathOf (sized : entry.subject.length = 32) : MapUpdate.After ⟨entry, pathOf entries entry.key⟩ entries where
  count := rfl
  chain := rfl
  before short := by
    rw [pathRoot_pathOf entries (MapEntry.key_lt sized)]
    exact if_pos short
  root := by
    rw [MapUpdate.root, subjectKey_eq sized]
    simp only [bind, Except.bind, entryChain_eq sized]
    rw [fold_pathOf entries (MapEntry.key_lt sized), treeRoot, leafOf_append]
    rfl

/-- Entries appended in order make the map of all of them, and each update is of the next entry. -/
theorem SubjectMap.Holds.appendEntries (holds : map.Holds entries) {new : List MapEntry} (sized : ∀ entry ∈ new, entry.subject.length = 32) :
    ∃ updates next, map.appendEntries new = .ok (updates, next) ∧ next.Holds (entries ++ new) ∧ next.height = map.height ∧
      updates.map (·.entry) = new ∧ ∀ i (update : MapUpdate), updates[i]? = some update → update.After (entries ++ new.take i) := by
  induction new generalizing map entries with
  | nil => exact ⟨[], map, rfl, by rwa [List.append_nil], rfl, rfl, by simp⟩
  | cons entry rest ih =>
    obtain ⟨own, later⟩ := List.forall_mem_cons.mp sized
    obtain ⟨middle, appended, holds', height⟩ := holds.append own
    obtain ⟨updates, next, run, last, height', names, told⟩ := ih holds' later
    refine ⟨⟨entry, pathOf entries entry.key⟩ :: updates, next, ?_, ?_, height'.trans height, by rw [List.map_cons, names], ?_⟩
    · rw [SubjectMap.appendEntries, subjectKey_eq own]
      simp only [bind, Except.bind, holds.path (MapEntry.key_lt own), appended, run]
      rfl
    · rwa [List.append_assoc] at last
    · rintro (_ | i) update found
      · cases found
        rw [List.take_zero, List.append_nil]
        exact MapUpdate.after_pathOf own
      · have step := told i update found
        rwa [List.append_assoc] at step

end

/-- A scanned subject is 32 bytes. -/
theorem scanFrom_sized (s : ScanState) (bytes : Bytes) : ∀ found ∈ scanFrom s bytes, found.subject.length = 32 := by
  induction bytes generalizing s with
  | nil => simp [scanFrom]
  | cons byte rest ih =>
    intro found member
    have own : ∀ found ∈ (if (scanStep s byte).2 then
        [(⟨s.outputs, limbBytes (scanStep s byte).1.hi ++ limbBytes (scanStep s byte).1.lo⟩ : ScannedOutput)] else []),
        found.subject.length = 32 := by
      intro found member
      split at member
      · obtain rfl := List.mem_singleton.mp member
        simp [limbBytes]
      · cases member
    simp only [scanFrom] at member
    split at member
    · exact own found member
    · rcases List.mem_append.mp member with here | later
      · exact own found here
      · exact ih _ found later

theorem mem_blockEntries {height : Nat} {transactions : List Bytes} {entry : MapEntry} (member : entry ∈ blockEntries height transactions) :
    entry.subject.length = 32 ∧ entry.height = height := by
  obtain ⟨own, _, listed⟩ := List.mem_flatMap.mp member
  obtain ⟨found, scanned, rfl⟩ := List.mem_map.mp listed
  exact ⟨scanFrom_sized _ _ found scanned, rfl⟩

/-- The entries of a sequence of blocks above a height, one height after another; a call refused for its id or its height adds none. -/
def entriesFrom (height : Nat) : List (Bytes × List Bytes) → List MapEntry
  | [] => []
  | (id, transactions) :: rest =>
    if id.length = 32 ∧ height + 1 < 2 ^ 32 then blockEntries (height + 1) transactions ++ entriesFrom (height + 1) rest
    else entriesFrom height rest

section

variable [Crypto]

variable {map : SubjectMap} {entries : List MapEntry} {key : Nat}

/-- A block is refused for its id or its height alone, and appended is the map of the entries and its own. -/
theorem SubjectMap.Holds.appendBlock (holds : map.Holds entries) (id : Bytes) (transactions : List Bytes) :
    (¬(id.length = 32 ∧ map.height + 1 < 2 ^ 32) ∧ ∃ failure, map.appendBlock id transactions = .error failure) ∨
      (id.length = 32 ∧ map.height + 1 < 2 ^ 32) ∧ ∃ updates next, map.appendBlock id transactions = .ok (updates, next) ∧
        next.height = map.height + 1 ∧ next.Holds (entries ++ blockEntries (map.height + 1) transactions) ∧
        updates.map (·.entry) = blockEntries (map.height + 1) transactions ∧
        ∀ i (update : MapUpdate), updates[i]? = some update → update.After (entries ++ (blockEntries (map.height + 1) transactions).take i) := by
  by_cases named : id.length = 32
  · by_cases within : map.height + 1 < 2 ^ 32
    · obtain ⟨updates, next, run, last, _, names, told⟩ := holds.appendEntries fun entry member =>
        (@mem_blockEntries (map.height + 1) transactions _ member).1
      refine .inr ⟨⟨named, within⟩, updates, { next with id, height := map.height + 1 }, ?_, rfl, ⟨last.keys, last.nodes⟩, names, told⟩
      rw [SubjectMap.appendBlock, decide_eq_true named, decide_eq_true within]
      simp only [require, bind, Except.bind, run]
      rfl
    · refine .inl ⟨fun both => within both.2, .encoding "exhaustion height out of range", ?_⟩
      rw [SubjectMap.appendBlock, decide_eq_true named, decide_eq_false within]
      rfl
  · refine .inl ⟨fun both => named both.1, .encoding "invalid exhaustion block", ?_⟩
    rw [SubjectMap.appendBlock, decide_eq_false named]
    rfl

/-- Every sequence of blocks makes the map of its entries, and each update is of the next of them. -/
theorem SubjectMap.Holds.run (holds : map.Holds entries) (calls : List (Bytes × List Bytes)) :
    (map.run calls).2.Holds (entries ++ entriesFrom map.height calls) ∧ (map.run calls).1.map (·.entry) = entriesFrom map.height calls ∧
      ∀ i (update : MapUpdate), (map.run calls).1[i]? = some update → update.After (entries ++ (entriesFrom map.height calls).take i) := by
  induction calls generalizing map entries with
  | nil => exact ⟨by rwa [entriesFrom, List.append_nil], rfl, by simp [SubjectMap.run]⟩
  | cons call rest ih =>
    obtain ⟨id, transactions⟩ := call
    rw [SubjectMap.run, entriesFrom]
    rcases holds.appendBlock id transactions with ⟨refused, failure, run⟩ | ⟨accepted, updates, next, run, height, last, names, told⟩
    · rw [run, if_neg refused]
      exact ih holds
    · rw [run, if_pos accepted]
      obtain ⟨last', names', told'⟩ := ih last
      rw [height] at last' names' told'
      refine ⟨by rwa [List.append_assoc] at last', by rw [List.map_append, names, names'], fun i update found => ?_⟩
      have length : updates.length = (blockEntries (map.height + 1) transactions).length := by rw [← names, List.length_map]
      rcases Nat.lt_or_ge i updates.length with inside | past
      · rw [List.getElem?_append_left inside] at found
        rw [List.take_append_of_le_length (by omega)]
        exact told i update found
      · rw [List.getElem?_append_right past] at found
        have step := told' _ update found
        rwa [List.append_assoc, ← List.take_length_add_append, ← length, Nat.add_sub_cancel' past] at step

end

end Moe
