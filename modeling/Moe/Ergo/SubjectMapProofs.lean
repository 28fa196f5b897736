import Moe.Ergo.SubjectMapRuns

namespace Moe

open OrderedMap HashTree

section

variable [Crypto]

variable {map : SubjectMap} {entries : List MapEntry} {key : Nat}

/-- A leaf's frame; a key with no entry has none. -/
def MapPath.leafFrame (path : MapPath) : List Nat := if path.count = 0 then [] else [1011, path.count, path.chain]

/-- The frames hashed along a path, from its leaf's up. -/
def MapPath.frames (key : Nat) (path : MapPath) : List (List Nat) :=
  path.leafFrame :: (List.range mapDepth).map fun l =>
    [1012, (pairAt (fun _ => mapNode) key.testBit (path.siblings.getD · 0) (mapLeaf path.count path.chain) l).1,
      (pairAt (fun _ => mapNode) key.testBit (path.siblings.getD · 0) (mapLeaf path.count path.chain) l).2]

/-- A frame's hash; no frame's is the empty leaf's zero. -/
def frameHash (frame : List Nat) : Nat := if frame = [] then 0 else poseidon2Hash frame

/-- No level's frames of the two paths have one hash and differ. -/
def PathsApart (key : Nat) (first second : MapPath) : Prop :=
  ∀ pair ∈ (first.frames key).zip (second.frames key), frameHash pair.1 = frameHash pair.2 → pair.1 = pair.2

theorem frameHash_leafFrame (path : MapPath) : frameHash path.leafFrame = mapLeaf path.count path.chain := by
  rw [MapPath.leafFrame, mapLeaf]
  split <;> rfl

/-- The frames at a level above the leaf are apart. -/
theorem PathsApart.level {first second : MapPath} (apart : PathsApart key first second) {l : Nat} (below : l < mapDepth) :
    mapNode (pairAt (fun _ => mapNode) key.testBit (first.siblings.getD · 0) (mapLeaf first.count first.chain) l).1
        (pairAt (fun _ => mapNode) key.testBit (first.siblings.getD · 0) (mapLeaf first.count first.chain) l).2 =
      mapNode (pairAt (fun _ => mapNode) key.testBit (second.siblings.getD · 0) (mapLeaf second.count second.chain) l).1
        (pairAt (fun _ => mapNode) key.testBit (second.siblings.getD · 0) (mapLeaf second.count second.chain) l).2 →
    pairAt (fun _ => mapNode) key.testBit (first.siblings.getD · 0) (mapLeaf first.count first.chain) l =
      pairAt (fun _ => mapNode) key.testBit (second.siblings.getD · 0) (mapLeaf second.count second.chain) l := by
  intro same
  have listed : ([1012, (pairAt (fun _ => mapNode) key.testBit (first.siblings.getD · 0) (mapLeaf first.count first.chain) l).1,
        (pairAt (fun _ => mapNode) key.testBit (first.siblings.getD · 0) (mapLeaf first.count first.chain) l).2],
      [1012, (pairAt (fun _ => mapNode) key.testBit (second.siblings.getD · 0) (mapLeaf second.count second.chain) l).1,
        (pairAt (fun _ => mapNode) key.testBit (second.siblings.getD · 0) (mapLeaf second.count second.chain) l).2]) ∈
      (first.frames key).zip (second.frames key) := by
    rw [MapPath.frames, MapPath.frames, List.zip_cons_cons, List.zip_map']
    exact List.mem_cons_of_mem _ (List.mem_map.mpr ⟨l, List.mem_range.mpr below, rfl⟩)
  have frames := apart _ listed same
  simp only [List.cons.injEq, true_and, and_true] at frames
  exact Prod.ext frames.1 frames.2

/-- A path that gives the root of a map for a key states the key's own count and chain. -/
theorem pathRoot_binds {given : MapPath} (small : key < 2 ^ 32) (accepted : pathRoot key given = some (treeRoot entries))
    (apart : PathsApart key given (pathOf entries key)) :
    given.count = (keyEntries entries key).length ∧ given.chain = chainOf (keyEntries entries key) := by
  rw [pathRoot] at accepted
  split at accepted
  · rename_i formed
    obtain ⟨_, _, _, zero, _⟩ := formed
    have roots := (Option.some.inj accepted).trans (fold_pathOf_own entries small).symm
    rw [foldSiblings_eq, foldSiblings_eq] at roots
    have leaves := climb_inj (fun l below => apart.level below) roots
    have frames : given.leafFrame = (pathOf entries key).leafFrame := by
      refine apart (given.leafFrame, (pathOf entries key).leafFrame) List.mem_cons_self ?_
      rw [frameHash_leafFrame, frameHash_leafFrame, leaves]
    simp only [MapPath.leafFrame] at frames
    split at frames <;> split at frames
    · rename_i none_ none'
      have empty : keyEntries entries key = [] := List.length_eq_zero_iff.mp none'
      refine ⟨none_.trans none'.symm, ?_⟩
      rw [empty]
      exact Decidable.byContradiction fun some_ => zero ⟨none_, some_⟩
    · cases frames
    · cases frames
    · simp only [List.cons.injEq, true_and, and_true] at frames
      exact frames
  · cases accepted

/-- What a subject map tells of some entries: the root over every key's leaf; for every key the path that states its count and chain, and
gives the root where they are fewer than 2^64; of every update the root before and after it; and that no other path gives the root. -/
structure SubjectMap.Tells (map : SubjectMap) (updates : List MapUpdate) (entries : List MapEntry) : Prop where
  ordered : entries.Pairwise MapEntry.Before
  root : map.root = subtree (fun _ => mapNode) (fun key => mapLeaf (keyEntries entries key).length (chainOf (keyEntries entries key))) 32 0
  path : ∀ key < 2 ^ 32, ∃ own, map.path key = .ok own ∧ own.count = (keyEntries entries key).length ∧
    own.chain = chainOf (keyEntries entries key) ∧ pathRoot key own = if own.count < 2 ^ 64 then some map.root else none
  names : updates.map (·.entry) = entries
  updated : ∀ i (update : MapUpdate), updates[i]? = some update → update.After (entries.take i)
  binds : ∀ key < 2 ^ 32, ∀ own given, map.path key = .ok own → pathRoot key given = some map.root → PathsApart key given own →
    given.count = own.count ∧ given.chain = own.chain

theorem SubjectMap.Holds.tells {updates : List MapUpdate} (holds : map.Holds entries) (ordered : entries.Pairwise MapEntry.Before)
    (names : updates.map (·.entry) = entries)
    (told : ∀ i (update : MapUpdate), updates[i]? = some update → update.After (entries.take i)) : map.Tells updates entries where
  ordered := ordered
  root := holds.root
  path key small := ⟨_, holds.path small, rfl, rfl, by rw [holds.root]; exact pathRoot_pathOf entries small⟩
  names := names
  updated := told
  binds key small own given found accepted apart := by
    obtain rfl : pathOf entries key = own := Except.ok.inj ((holds.path small).symm.trans found)
    rw [holds.root] at accepted
    exact pathRoot_binds small accepted apart

end

section Samples

local instance subjectCrypto : Crypto := sampleCrypto

end Samples

end Moe
