import Mathlib.Data.List.Nodup
import Moe.Lib.HashTree
import Moe.Pool.Succinct

namespace Moe

namespace Succinct

/-- The aligned spans a record's leaf completes, from a height's own up to the first left one. -/
def spansFrom (h index : Nat) : List (Nat × Nat) :=
  (h, index) :: if index % 2 = 0 then [] else spansFrom (h + 1) (index / 2)
termination_by index
decreasing_by omega

/-- The aligned spans of the first records, in the order they are completed. -/
def spansOf (n : Nat) : List (Nat × Nat) := (List.range n).flatMap (spansFrom 0)

theorem spansFrom_even {h index : Nat} (even : index % 2 = 0) : spansFrom h index = [(h, index)] := by rw [spansFrom, if_pos even]

theorem spansFrom_odd {h index : Nat} (odd : ¬index % 2 = 0) : spansFrom h index = (h, index) :: spansFrom (h + 1) (index / 2) := by
  rw [spansFrom, if_neg odd]

theorem mem_spansFrom {h index : Nat} {s : Nat × Nat} : s ∈ spansFrom h index ↔ ∃ k, s.1 = h + k ∧ (s.2 + 1) * 2 ^ k = index + 1 := by
  induction index using Nat.strong_induction_on generalizing h with | _ index ih => ?_
  by_cases even : index % 2 = 0
  · rw [spansFrom_even even, List.mem_singleton]
    constructor
    · rintro rfl
      exact ⟨0, rfl, by simp⟩
    · rintro ⟨k, height, ends⟩
      cases k with
      | zero => exact Prod.ext height (by simpa using ends)
      | succ k =>
        rw [Nat.pow_succ, ← Nat.mul_assoc] at ends
        omega
  · rw [spansFrom_odd even, List.mem_cons, ih (index / 2) (by omega)]
    constructor
    · rintro (rfl | ⟨k, height, ends⟩)
      · exact ⟨0, rfl, by simp⟩
      · refine ⟨k + 1, by omega, ?_⟩
        rw [Nat.pow_succ, ← Nat.mul_assoc, ends]
        omega
    · rintro ⟨k, height, ends⟩
      cases k with
      | zero => exact .inl (Prod.ext height (by simpa using ends))
      | succ k =>
        rw [Nat.pow_succ, ← Nat.mul_assoc] at ends
        exact .inr ⟨k, by omega, by omega⟩

/-- They are exactly the aligned spans that end among these records. -/
theorem mem_spansOf {n : Nat} {s : Nat × Nat} : s ∈ spansOf n ↔ (s.2 + 1) * 2 ^ s.1 ≤ n := by
  rw [spansOf, List.mem_flatMap]
  constructor
  · rintro ⟨last, inside, member⟩
    obtain ⟨k, height, ends⟩ := mem_spansFrom.mp member
    rw [List.mem_range] at inside
    rw [Nat.zero_add] at height
    rw [height, ends]
    exact inside
  · intro inside
    have positive : 0 < (s.2 + 1) * 2 ^ s.1 := Nat.mul_pos (Nat.succ_pos _) (Nat.two_pow_pos _)
    refine ⟨(s.2 + 1) * 2 ^ s.1 - 1, List.mem_range.mpr (by omega), mem_spansFrom.mpr ⟨s.1, by omega, by omega⟩⟩

theorem spansFrom_nodup (h index : Nat) : (spansFrom h index).Nodup := by
  induction index using Nat.strong_induction_on generalizing h with | _ index ih => ?_
  by_cases even : index % 2 = 0
  · rw [spansFrom_even even]
    exact List.nodup_singleton _
  · rw [spansFrom_odd even]
    refine List.nodup_cons.mpr ⟨fun member => ?_, ih (index / 2) (by omega) _⟩
    obtain ⟨k, height, -⟩ := mem_spansFrom.mp member
    omega

/-- Each is completed once. -/
theorem spansOf_nodup (n : Nat) : (spansOf n).Nodup := by
  refine List.nodup_flatMap.mpr ⟨fun last _ => spansFrom_nodup 0 last, List.nodup_range.imp_of_mem fun _ _ apart s first second => apart ?_⟩
  obtain ⟨k, height, ends⟩ := mem_spansFrom.mp first
  obtain ⟨k', height', ends'⟩ := mem_spansFrom.mp second
  have same : k = k' := by omega
  rw [same, ends'] at ends
  omega

theorem spansOf_succ (n : Nat) : spansOf (n + 1) = spansOf n ++ spansFrom 0 n := by
  rw [spansOf, List.range_succ, List.flatMap_append, List.flatMap_singleton]
  rfl

/-- What a walk that visits spans in order has kept: nothing of a span with no cover or with one held, else a cover of it made. -/
inductive Walked (held : Held) (digest : Nat × Nat → Option Nat) : List (Nat × Nat) → List Cover → Prop
  | start : Walked held digest [] []
  | absent {spans : List (Nat × Nat)} {kept : List Cover} {s : Nat × Nat} (walked : Walked held digest spans kept) (none : digest s = none) :
      Walked held digest (spans ++ [s]) kept
  | found {spans : List (Nat × Nat)} {kept : List Cover} {s : Nat × Nat} {own : Nat} (walked : Walked held digest spans kept)
      (covered : digest s = some own) (found : (held kept own).isSome) : Walked held digest (spans ++ [s]) kept
  | made {spans : List (Nat × Nat)} {kept : List Cover} {s : Nat × Nat} {cover : Cover} (walked : Walked held digest spans kept)
      (covered : digest s = some cover.digest) (fresh : held kept cover.digest = none) : Walked held digest (spans ++ [s]) (kept ++ [cover])

section Walked

variable {held : Held} {digest other : Nat × Nat → Option Nat} {spans : List (Nat × Nat)} {kept : List Cover}

theorem Walked.congr (walked : Walked held digest spans kept) (same : ∀ s ∈ spans, digest s = other s) : Walked held other spans kept := by
  induction walked with
  | start => exact .start
  | absent walked none ih =>
    have own := same _ (List.mem_append_right _ List.mem_cons_self)
    exact .absent (ih fun s member => same s (List.mem_append_left _ member)) (own ▸ none)
  | found walked covered found ih =>
    have own := same _ (List.mem_append_right _ List.mem_cons_self)
    exact .found (ih fun s member => same s (List.mem_append_left _ member)) (own ▸ covered) found
  | made walked covered fresh ih =>
    have own := same _ (List.mem_append_right _ List.mem_cons_self)
    exact .made (ih fun s member => same s (List.mem_append_left _ member)) (own ▸ covered) fresh

/-- Every visited span that has a cover has one kept, or one was held when it was visited. -/
theorem Walked.covered (walked : Walked held digest spans kept) {s : Nat × Nat} {own : Nat} (member : s ∈ spans) (covered : digest s = some own) :
    own ∈ kept.map (·.digest) ∨ ∃ before, before <+: kept ∧ (held before own).isSome := by
  induction walked with
  | start => cases member
  | @absent spans kept last walked none ih =>
    rcases List.mem_append.mp member with old | new
    · exact ih old
    · rw [List.mem_singleton.mp new, none] at covered
      cases covered
  | @found spans kept last digest walked own found ih =>
    rcases List.mem_append.mp member with old | new
    · exact ih old
    · rw [List.mem_singleton.mp new, own] at covered
      cases covered
      exact .inr ⟨_, List.prefix_rfl, found⟩
  | @made spans kept last cover walked own fresh ih =>
    rcases List.mem_append.mp member with old | new
    · rcases ih old with already | ⟨before, start, found⟩
      · exact .inl (by simp only [List.map_append, List.mem_append]; exact .inl already)
      · exact .inr ⟨before, start.trans (List.prefix_append _ _), found⟩
    · rw [List.mem_singleton.mp new, own] at covered
      cases covered
      exact .inl (by simp)

/-- The covers kept are of visited spans, in order and of each at most once. -/
theorem Walked.made_once (walked : Walked held digest spans kept) :
    ∃ made : List (Nat × Nat), made.Sublist spans ∧ made.map digest = kept.map fun cover => some cover.digest := by
  induction walked with
  | start => exact ⟨[], List.Sublist.refl _, rfl⟩
  | absent walked none ih =>
    obtain ⟨made, part, same⟩ := ih
    exact ⟨made, part.trans (List.sublist_append_left _ _), same⟩
  | found walked covered found ih =>
    obtain ⟨made, part, same⟩ := ih
    exact ⟨made, part.trans (List.sublist_append_left _ _), same⟩
  | @made spans kept s cover walked covered fresh ih =>
    obtain ⟨made, part, same⟩ := ih
    refine ⟨made ++ [s], part.append (List.Sublist.refl _), ?_⟩
    rw [List.map_append, List.map_append, same, List.map_singleton, List.map_singleton, covered]

/-- None of them was held when it was made. -/
theorem Walked.fresh (walked : Walked held digest spans kept) {before after : List Cover} {cover : Cover} (made : kept = before ++ cover :: after) :
    held before cover.digest = none := by
  induction walked generalizing after with
  | start => simp at made
  | absent walked none ih => exact ih made
  | found walked covered found ih => exact ih made
  | @made spans kept s last walked covered fresh ih =>
    rcases List.eq_nil_or_concat after with rfl | ⟨rest, final, rfl⟩
    · obtain ⟨rfl, same⟩ := List.append_inj' made rfl
      obtain rfl := List.singleton_inj.mp same
      exact fresh
    · rw [List.concat_eq_append, ← List.cons_append, ← List.append_assoc] at made
      exact ih (List.append_inj' made rfl).1

end Walked

section

variable [Crypto]

/-- The digest over two spans that have one. -/
def bothDigest (left right : Option Nat) : Option Nat := left.bind fun left => right.map (nodeDigest left)

/-- The digest of a span's cover, its height and number given: none where a record of it has no leaf cover. -/
def spanCover (leaves : List (Option Nat)) (s : Nat × Nat) : Option Nat := HashTree.block (fun _ => bothDigest) none leaves s.1 s.2

theorem spanCover_append {leaves : List (Option Nat)} {s : Nat × Nat} (inside : s ∈ spansOf leaves.length) (more : List (Option Nat)) :
    spanCover (leaves ++ more) s = spanCover leaves s := HashTree.block_append (mem_spansOf.mp inside) more

/-- What a prover promises: leaves of proofs of the cover's length over their statements, and nodes over their two spans. -/
structure SpanProver.Sound (prover : SpanProver) : Prop where
  leaf : ∀ record cover, prover.leaf record = .ok (some cover) → record.proof.length = coverProofBytes ∧
    statementLeafDigest record.kind record.publicInputs (sha256 record.proof) = .ok cover.digest
  node : ∀ left right cover, prover.node left right = .ok cover → cover.digest = nodeDigest left.digest right.digest

/-- A record's leaf as a walk numbers it: the digest its cover has, or none where the prover gave none. -/
structure SpanProver.LeafOf (prover : SpanProver) (record : Record) (leaf : Option Nat) : Prop where
  digest : ∀ own, leaf = some own → statementLeafDigest record.kind record.publicInputs (sha256 record.proof) = .ok own
  none : leaf = none → prover.leaf record = .ok none

variable {prover : SpanProver} {held : Held} {run next : CoverWalk} {digest : Nat × Nat → Option Nat} {spans : List (Nat × Nat)}
  {s : Nat × Nat}

/-- What one more span visited leaves: the rest of the walk as it was, and what is kept a walk of one span more. -/
structure Visits (held : Held) (digest : Nat × Nat → Option Nat) (s : Nat × Nat) (run next : CoverWalk) : Prop where
  pending : next.pending = run.pending
  proved : next.proved = run.proved
  walked : ∀ spans, Walked held digest spans run.kept → Walked held digest (spans ++ [s]) next.kept

omit [Crypto] in
theorem visits_absent (none : digest s = none) : Visits held digest s run run :=
  ⟨rfl, rfl, fun _ walked => .absent walked none⟩

omit [Crypto] in
theorem visits_found {own : Nat} (covered : digest s = some own) (found : (held run.kept own).isSome) : Visits held digest s run run :=
  ⟨rfl, rfl, fun _ walked => .found walked covered found⟩

omit [Crypto] in
theorem visits_made {cover : Cover} (covered : digest s = some cover.digest) (fresh : held run.kept cover.digest = none) :
    Visits held digest s run (run.keep cover) := ⟨rfl, rfl, fun _ walked => .made walked covered fresh⟩

theorem heldLeaf_eq_ok {record : Record} {cover : Option Cover} : heldLeaf held record run = .ok cover ↔
    (record.proof.length = coverProofBytes ∧ ∃ own, statementLeafDigest record.kind record.publicInputs (sha256 record.proof) = .ok own ∧
      cover = (held run.kept own).map fun proof => ⟨some record.kind, own, proof⟩) ∨ record.proof.length ≠ coverProofBytes ∧ cover = none := by
  unfold heldLeaf
  split
  · rename_i length
    rw [bind_eq_ok]
    constructor
    · rintro ⟨own, digested, made⟩
      exact .inl ⟨length, own, digested, (Except.ok.inj made).symm⟩
    · rintro (⟨-, own, digested, rfl⟩ | ⟨other, -⟩)
      · exact ⟨own, digested, rfl⟩
      · exact absurd length other
  · rename_i length
    constructor
    · intro made
      exact .inr ⟨length, (Except.ok.inj made).symm⟩
    · rintro (⟨same, -⟩ | ⟨-, rfl⟩)
      · exact absurd same length
      · rfl

/-- A record's leaf, under any numbering that gives its span the digest found. -/
theorem coverLeaf_spec (sound : prover.Sound) {record : Record} {cover : Option Cover} (given : coverLeaf prover held record run = .ok (cover, next)) :
    prover.LeafOf record (cover.map (·.digest)) ∧
      ∀ digest : Nat × Nat → Option Nat, digest s = cover.map (·.digest) → Visits held digest s run next := by
  unfold coverLeaf at given
  obtain ⟨first, looked, given⟩ := bind_eq_ok.mp given
  cases first with
  | some cover' =>
    simp only [pure_eq_ok, Prod.mk.injEq] at given
    obtain ⟨rfl, rfl⟩ := given
    rcases heldLeaf_eq_ok.mp looked with ⟨-, own, digested, found⟩ | ⟨-, absent⟩
    · obtain ⟨proof, kept, rfl⟩ := Option.map_eq_some_iff.mp found.symm
      refine ⟨⟨fun own' same => ?_, fun absent => by cases absent⟩, fun digest same => visits_found same (by simp [kept])⟩
      cases same
      exact digested
    · cases absent
  | none =>
    obtain ⟨leaf, proved, given⟩ := bind_eq_ok.mp given
    cases leaf with
    | none =>
      simp only [pure_eq_ok, Prod.mk.injEq] at given
      obtain ⟨rfl, rfl⟩ := given
      exact ⟨⟨fun own same => (by cases same), fun _ => proved⟩, fun digest same => visits_absent same⟩
    | some leaf =>
      simp only [pure_eq_ok, Prod.mk.injEq] at given
      obtain ⟨rfl, rfl⟩ := given
      obtain ⟨length, digested⟩ := sound.leaf record leaf proved
      refine ⟨⟨fun own same => ?_, fun absent => by cases absent⟩, fun digest same => visits_made same ?_⟩
      · cases same
        exact digested
      · rcases heldLeaf_eq_ok.mp looked with ⟨-, own, digested', found⟩ | ⟨other, -⟩
        · cases digested.symm.trans digested'
          simpa using found.symm
        · exact absurd length other

theorem coverNode_spec (sound : prover.Sound) {left cover above : Option Cover} (given : coverNode prover held left cover run = .ok (above, next))
    (both : digest s = bothDigest (left.map (·.digest)) (cover.map (·.digest))) :
    digest s = above.map (·.digest) ∧ Visits held digest s run next := by
  unfold coverNode at given
  split at given
  · rename_i left right
    simp only [Option.map_some, bothDigest, Option.bind_some] at both
    dsimp only at given
    split at given
    · rename_i proof found
      cases given
      exact ⟨both, visits_found both (by simp [found])⟩
    · rename_i fresh
      obtain ⟨node, proved, given⟩ := bind_eq_ok.mp given
      simp only [pure_eq_ok, Prod.mk.injEq] at given
      obtain ⟨rfl, rfl⟩ := given
      have own := sound.node left right node proved
      rw [← own] at both fresh
      exact ⟨both, visits_made both fresh⟩
  · rename_i absent
    cases given
    have none : digest s = none := by
      rw [both]
      cases left with
      | none => rfl
      | some left =>
        cases cover with
        | none => rfl
        | some cover => exact absurd rfl (absent left cover rfl)
    exact ⟨none, visits_absent none⟩

omit [Crypto] in
theorem Pending.at_set (pending : Pending) (h k : Nat) (cover : Option Cover) :
    (pending.set h cover).at k = if k = h then cover else pending.at k := by
  unfold Pending.set Pending.at
  rw [List.getElem?_set, List.length_append, List.length_replicate]
  by_cases same : h = k
  · subst same
    rw [if_pos rfl, if_pos rfl, if_pos (by omega)]
    rfl
  · rw [if_neg same, if_neg (Ne.symm same)]
    by_cases own : k < pending.length
    · rw [List.getElem?_append_left own]
    · rw [List.getElem?_append_right (by omega), List.getElem?_replicate, List.getElem?_eq_none (by omega)]
      split <;> rfl

/-- The digests of the covers that wait. -/
def CoverWalk.waiting (run : CoverWalk) (h : Nat) : Option Nat := (run.pending.at h).map (·.digest)

/-- A walk stands after its leaves: a cover waits at each bit of their count, and the spans among them are visited. -/
structure CoverWalk.Standing (held : Held) (leaves : List (Option Nat)) (run : CoverWalk) : Prop where
  proved : run.proved = leaves.length
  waiting : HashTree.Frontier (fun _ => bothDigest) none leaves run.waiting
  walked : Walked held (spanCover leaves) (spansOf leaves.length) run.kept

theorem carryCover_spec (sound : prover.Sound) {leaves : List (Option Nat)} {leaf : Option Nat} {ommers : Nat → Option Nat}
    (frontier : HashTree.Frontier (fun _ => bothDigest) none leaves ommers) {h index : Nat} {cover : Option Cover}
    (ones : ∀ k < h, leaves.length.testBit k) (place : index = leaves.length / 2 ^ h)
    (own : spanCover (leaves ++ [leaf]) (h, index) = cover.map (·.digest)) (waits : ∀ k, h ≤ k → run.waiting k = ommers k)
    (walked : Walked held (spanCover (leaves ++ [leaf])) (spans ++ [(h, index)]) run.kept)
    (carried : carryCover prover held h index cover run = .ok next) :
    HashTree.Frontier (fun _ => bothDigest) none (leaves ++ [leaf]) next.waiting ∧ next.proved = run.proved ∧
      Walked held (spanCover (leaves ++ [leaf])) (spans ++ spansFrom h index) next.kept := by
  induction index using Nat.strong_induction_on generalizing h cover run spans with | _ index ih => ?_
  unfold carryCover at carried
  by_cases even : index % 2 = 0
  · rw [if_pos even] at carried
    cases carried
    have clear : leaves.length.testBit h = false := by
      rw [Bool.eq_false_iff, ne_eq, HashTree.testBit_iff, ← place]
      omega
    rw [spansFrom_even even]
    refine ⟨frontier.push leaf ones clear ?_ fun k above => ?_, rfl, walked⟩
    · rw [CoverWalk.waiting, Pending.at_set, if_pos rfl, ← own, place]
      rfl
    · rw [CoverWalk.waiting, Pending.at_set, if_neg (by omega)]
      exact waits k (by omega)
  · rw [if_neg even] at carried
    obtain ⟨⟨above, middle⟩, noded, carried⟩ := bind_eq_ok.mp carried
    have right : leaves.length.testBit h = true := by
      rw [HashTree.testBit_iff, ← place]
      omega
    have up : index / 2 = leaves.length / 2 ^ (h + 1) := by rw [HashTree.div_pow_succ, place]
    have both : spanCover (leaves ++ [leaf]) (h + 1, index / 2) = bothDigest ((run.pending.at h).map (·.digest)) (cover.map (·.digest)) := by
      rw [← own, ← CoverWalk.waiting, waits h (Nat.le_refl _), up, spanCover, spanCover, place]
      exact (frontier.carry leaf right).symm
    obtain ⟨same, visits⟩ := coverNode_spec sound noded both
    have walked' := visits.walked _ walked
    have waits' : ∀ k, h + 1 ≤ k → middle.waiting k = ommers k := by
      intro k above
      rw [CoverWalk.waiting, visits.pending, Pending.at_set, if_neg (by omega)]
      exact waits k (by omega)
    have ones' : ∀ k < h + 1, leaves.length.testBit k := by
      intro k below
      rcases Nat.lt_succ_iff_lt_or_eq.mp below with old | rfl
      · exact ones k old
      · exact right
    obtain ⟨pushed, proved, visited⟩ := ih (index / 2) (by omega) ones' up same waits' walked' carried
    rw [spansFrom_odd even]
    rw [List.append_assoc, List.singleton_append] at visited
    exact ⟨pushed, proved.trans visits.proved, visited⟩

theorem coverRecord_spec (sound : prover.Sound) {leaves : List (Option Nat)} (standing : run.Standing held leaves) {record : Record}
    (covered : coverRecord prover held record run = .ok next) :
    ∃ leaf, prover.LeafOf record leaf ∧ next.Standing held (leaves ++ [leaf]) := by
  unfold coverRecord at covered
  obtain ⟨⟨cover, middle⟩, given, covered⟩ := bind_eq_ok.mp covered
  obtain ⟨last, carried, covered⟩ := bind_eq_ok.mp covered
  cases covered
  obtain ⟨leaf, visits⟩ := coverLeaf_spec (s := (0, leaves.length)) sound given
  have own : spanCover (leaves ++ [cover.map (·.digest)]) (0, leaves.length) = cover.map (·.digest) := by simp [spanCover, HashTree.block]
  have visited := visits (spanCover (leaves ++ [cover.map (·.digest)])) own
  have walked := visited.walked (spansOf leaves.length) (standing.walked.congr fun s inside => (spanCover_append inside _).symm)
  have waits : ∀ k, 0 ≤ k → middle.waiting k = run.waiting k := fun k _ => by rw [CoverWalk.waiting, CoverWalk.waiting, visited.pending]
  obtain ⟨frontier, proved, all⟩ := carryCover_spec sound standing.waiting (fun k below => absurd below (Nat.not_lt_zero k))
    (by rw [visited.proved, standing.proved, Nat.pow_zero, Nat.div_one]) (by rw [visited.proved, standing.proved]; exact own) waits
    (by rw [visited.proved, standing.proved]; exact walked) carried
  refine ⟨_, leaf, ⟨?_, frontier, ?_⟩⟩
  · rw [proved, visited.proved, standing.proved, List.length_append, List.length_singleton]
  · rw [List.length_append, List.length_singleton, spansOf_succ]
    rw [visited.proved, standing.proved] at all
    exact all

/-- No record stops a walk. -/
def never : Nat → Bool := fun _ => false

/-- One record read: a leaf more where it is proved. -/
theorem coverNext_spec (sound : prover.Sound) {leaves : List (Option Nat)} (standing : run.Standing held leaves) {bytes : Bytes}
    (covered : coverNext prover held bytes run = .ok next) :
    ∃ record more, decodeRecord bytes = .ok record ∧ List.Forall₂ prover.LeafOf (provedOf [record]) more ∧
      next.Standing held (leaves ++ more) := by
  unfold coverNext at covered
  obtain ⟨record, decoded, covered⟩ := bind_eq_ok.mp covered
  by_cases proved : provedKind record.kind = true
  · rw [if_pos proved] at covered
    obtain ⟨leaf, own, stands⟩ := coverRecord_spec sound standing covered
    refine ⟨record, [leaf], decoded, ?_, stands⟩
    rw [provedOf, List.filter_cons, if_pos proved]
    exact .cons own .nil
  · rw [if_neg proved] at covered
    cases covered
    refine ⟨record, [], decoded, ?_, by rwa [List.append_nil]⟩
    rw [provedOf, List.filter_cons, if_neg proved]
    exact .nil

/-- The records a walk reads from where it stands. -/
theorem foldlM_coverNext_spec (sound : prover.Sound) {leaves : List (Option Nat)} (standing : run.Standing held leaves) {records : List Bytes}
    (walked : records.foldlM (fun walk bytes => coverNext prover held bytes walk) run = .ok next) :
    ∃ decoded more, records.mapM decodeRecord = .ok decoded ∧ List.Forall₂ prover.LeafOf (provedOf decoded) more ∧
      next.Standing held (leaves ++ more) := by
  induction records generalizing run leaves with
  | nil =>
    cases walked
    exact ⟨[], [], rfl, .nil, by rwa [List.append_nil]⟩
  | cons bytes rest ih =>
    rw [List.foldlM_cons] at walked
    obtain ⟨middle, covered, walked⟩ := bind_eq_ok.mp walked
    obtain ⟨record, own, decoded, leaf, stands⟩ := coverNext_spec sound standing covered
    obtain ⟨others, more, decodes, leavesOf, final⟩ := ih stands walked
    refine ⟨record :: others, own ++ more, by rw [List.mapM_cons, decoded, decodes]; rfl, ?_, by rwa [List.append_assoc] at final⟩
    rw [provedOf, ← List.singleton_append, List.filter_append]
    exact List.rel_append leaf leavesOf

/-- A walk reads the records until it is stopped, one by one from where it stands. -/
theorem walkRecords_eq_ok {stop : Nat → Bool} {records : List Bytes} {before read : Nat} {stopped : Bool}
    (walked : walkRecords prover held stop records before run = .ok (next, read, stopped)) :
    ∃ n, n ≤ records.length ∧ read = before + n ∧ (stopped = false → n = records.length) ∧
      (records.take n).foldlM (fun walk bytes => coverNext prover held bytes walk) run = .ok next := by
  induction records generalizing before run with
  | nil =>
    cases walked
    exact ⟨0, Nat.le_refl _, rfl, fun _ => rfl, rfl⟩
  | cons bytes rest ih =>
    unfold walkRecords at walked
    by_cases stops : stop before = true
    · rw [if_pos stops] at walked
      cases walked
      exact ⟨0, Nat.zero_le _, rfl, fun going => (by cases going), rfl⟩
    · rw [if_neg stops] at walked
      obtain ⟨middle, covered, walked⟩ := bind_eq_ok.mp walked
      obtain ⟨n, inside, reads, whole, folded⟩ := ih walked
      refine ⟨n + 1, by rw [List.length_cons]; omega, by omega, fun going => by rw [whole going, List.length_cons], ?_⟩
      rw [List.take_succ_cons, List.foldlM_cons]
      exact bind_eq_ok.mpr ⟨middle, covered, folded⟩

/-- A walk that is not stopped. -/
theorem walkRecords_never {records : List Bytes} {before : Nat}
    (folded : records.foldlM (fun walk bytes => coverNext prover held bytes walk) run = .ok next) :
    walkRecords prover held never records before run = .ok (next, before + records.length, false) := by
  induction records generalizing before run with
  | nil =>
    cases folded
    rfl
  | cons bytes rest ih =>
    rw [List.foldlM_cons] at folded
    obtain ⟨middle, covered, folded⟩ := bind_eq_ok.mp folded
    unfold walkRecords
    rw [never, if_neg Bool.false_ne_true]
    refine bind_eq_ok.mpr ⟨middle, covered, ?_⟩
    rw [ih folded, List.length_cons, Nat.add_assoc, Nat.add_comm 1]

/-- Pieces come to where one walk of the records they read does. -/
theorem coverPieces_eq_ok {stops : List (Nat → Bool)} {records rest : List Bytes}
    (walked : coverPieces prover held stops records run = .ok (next, rest)) :
    ∃ front, records = front ++ rest ∧ front.foldlM (fun walk bytes => coverNext prover held bytes walk) run = .ok next := by
  induction stops generalizing records run with
  | nil =>
    cases walked
    exact ⟨[], rfl, rfl⟩
  | cons stop stops ih =>
    unfold coverPieces at walked
    obtain ⟨piece, covered, walked⟩ := bind_eq_ok.mp walked
    unfold coverTrail at covered
    obtain ⟨⟨middle, read, stopped⟩, stepped, covered⟩ := bind_eq_ok.mp covered
    cases covered
    obtain ⟨n, inside, reads, -, folded⟩ := walkRecords_eq_ok stepped
    obtain ⟨front, split, rest'⟩ := ih walked
    rw [Nat.zero_add] at reads
    refine ⟨records.take n ++ front, ?_, ?_⟩
    · rw [List.append_assoc, ← split, reads, List.take_append_drop]
    · rw [List.foldlM_append]
      exact bind_eq_ok.mpr ⟨middle, folded, rest'⟩

theorem standing_start : CoverWalk.start.Standing held [] :=
  ⟨rfl, fun h set => by simp at set, .start⟩

end

end Succinct

end Moe
