import Moe.Pool.CoverAsks
import Moe.Pool.CoverWalks

namespace Moe

namespace Succinct

section

variable [Crypto] {prover : SpanProver} {held : Held} {digests : List Nat} {leaves : List (Option Nat)} {kept : List Cover}

/-- A span of walked records each with a leaf cover. -/
structure CoveredSpan (leaves : List (Option Nat)) (s : Nat × Nat) : Prop where
  inside : (s.2 + 1) * 2 ^ s.1 ≤ leaves.length
  whole : ∀ k, s.2 * 2 ^ s.1 ≤ k → k < (s.2 + 1) * 2 ^ s.1 → (leaves.getD k none).isSome

/-- Leaf covers over the records' own digests. -/
def LeavesOf (digests : List Nat) (leaves : List (Option Nat)) : Prop := ∀ k own, leaves.getD k none = some own → digests.getD k 0 = own

/-- A span whose records each have a leaf cover has one over their digests, and no other has one. -/
theorem spanCover_eq_some (own : LeavesOf digests leaves) {h i : Nat} {digest : Nat} : spanCover leaves (h, i) = some digest ↔
    (∀ k, i * 2 ^ h ≤ k → k < (i + 1) * 2 ^ h → (leaves.getD k none).isSome) ∧ digest = spanDigest digests (h, i) := by
  induction h generalizing i digest with
  | zero =>
    simp only [spanCover, spanDigest, HashTree.block, Nat.pow_zero, Nat.mul_one]
    constructor
    · intro covered
      refine ⟨fun k low high => ?_, (own i digest covered).symm⟩
      obtain rfl : k = i := by omega
      rw [covered]
      rfl
    · rintro ⟨whole, rfl⟩
      obtain ⟨leaf, found⟩ := Option.isSome_iff_exists.mp (whole i (Nat.le_refl _) (Nat.lt_succ_self _))
      rw [found, own i leaf found]
  | succ h ih =>
    have step : spanCover leaves (h + 1, i) = bothDigest (spanCover leaves (h, 2 * i)) (spanCover leaves (h, 2 * i + 1)) := rfl
    have node : spanDigest digests (h + 1, i) = nodeDigest (spanDigest digests (h, 2 * i)) (spanDigest digests (h, 2 * i + 1)) := rfl
    have low : i * 2 ^ (h + 1) = 2 * i * 2 ^ h := by ring
    have middle : (2 * i + 1) * 2 ^ h = 2 * i * 2 ^ h + 2 ^ h := by ring
    have high : (i + 1) * 2 ^ (h + 1) = (2 * i + 1 + 1) * 2 ^ h := by ring
    have positive := Nat.two_pow_pos h
    rw [step, node, low, high]
    constructor
    · intro covered
      obtain ⟨left, onLeft, covered⟩ := Option.bind_eq_some_iff.mp covered
      obtain ⟨right, onRight, rfl⟩ := Option.map_eq_some_iff.mp covered
      obtain ⟨wholeLeft, rfl⟩ := ih.mp onLeft
      obtain ⟨wholeRight, rfl⟩ := ih.mp onRight
      refine ⟨fun k from_ until_ => ?_, rfl⟩
      by_cases before : k < (2 * i + 1) * 2 ^ h
      · exact wholeLeft k from_ before
      · exact wholeRight k (by omega) until_
    · rintro ⟨whole, rfl⟩
      have onLeft := ih.mpr ⟨fun k from_ until_ => whole k from_ (until_.trans (by rw [Nat.add_mul (2 * i + 1)]; omega)), rfl⟩
      have onRight := ih.mpr ⟨fun k from_ until_ => whole k (by omega) until_, rfl⟩
      rw [onLeft, onRight]
      rfl

/-- What a walk's covers are: each span covered is, its cover kept or held before, and what is kept is of such spans over their records'
digests, of each once and of none held. -/
structure TrailCovers (held : Held) (digests : List Nat) (leaves : List (Option Nat)) (kept : List Cover) : Prop where
  covered : ∀ s, CoveredSpan leaves s → spanDigest digests s ∈ kept.map (·.digest) ∨ ∃ before, before <+: kept ∧ (held before (spanDigest digests s)).isSome
  made : ∃ made : List (Nat × Nat), made.Nodup ∧ (∀ s ∈ made, CoveredSpan leaves s) ∧ kept.map (·.digest) = made.map (spanDigest digests)
  fresh : ∀ before cover after, kept = before ++ cover :: after → held before cover.digest = none

theorem Walked.trailCovers (own : LeavesOf digests leaves) (walked : Walked held (spanCover leaves) (spansOf leaves.length) kept) :
    TrailCovers held digests leaves kept := by
  refine ⟨fun s covered => ?_, ?_, fun before cover after made => walked.fresh made⟩
  · exact walked.covered (mem_spansOf.mpr covered.inside) ((spanCover_eq_some own).mpr ⟨covered.whole, rfl⟩)
  · obtain ⟨made, part, same⟩ := walked.made_once
    have each : ∀ s ∈ made, CoveredSpan leaves s ∧ spanCover leaves s = some (spanDigest digests s) := by
      intro s member
      have listed : spanCover leaves s ∈ kept.map fun cover => some cover.digest := same ▸ List.mem_map_of_mem member
      obtain ⟨cover, -, found⟩ := List.mem_map.mp listed
      obtain ⟨whole, digest⟩ := (spanCover_eq_some own).mp found.symm
      exact ⟨⟨mem_spansOf.mp (part.subset member), whole⟩, by rw [← found, digest]⟩
    refine ⟨made, part.nodup (spansOf_nodup _), fun s member => (each s member).1, ?_⟩
    have mapped : made.map (fun s => some (spanDigest digests s)) = kept.map fun cover => some cover.digest := by
      rw [← same]
      exact List.map_congr_left fun s member => (each s member).2.symm
    have injective : Function.Injective (List.map (some : Nat → Option Nat)) := List.map_injective_iff.mpr (Option.some_injective _)
    refine injective ?_
    rw [List.map_map, List.map_map]
    exact mapped.symm

theorem leavesOf_records {records : List Record} (leaf : List.Forall₂ prover.LeafOf records leaves) : LeavesOf (records.map recordLeaf) leaves := by
  induction leaf with
  | nil => exact fun k own found => by simp at found
  | @cons record leaf records leaves first rest ih =>
    intro k own found
    cases k with
    | zero =>
      have digested := first.digest own found
      rw [statementLeafDigest_record] at digested
      exact Except.ok.inj digested
    | succ k => exact ih k own found

/-- What a reader asks of records it numbers from those before: spans among the records walked, over their own digests. -/
theorem reader_asks {front forms : List Bytes} {decoded : List Record} (decodes : front.mapM decodeRecord = .ok decoded) {n after : Nat}
    (made : (front.take n).mapM proofFreeBytes = .ok forms) {segment : Bytes} {block : List Adopted} {chain : Option Bytes} {pass : FirstPass}
    (read : provedRecords ⟨segment, n, forms⟩ after block chain = .ok pass) {set : CheckSet} {supply : CheckSupply} {known : Nat → Found}
    {ask : SpanAsk} (asked : ask ∈ (partition set supply (provedOf (decoded.take after)).length (pass.proved.map (·.digest))
      (pass.proved.map (·.kind)) known).asked) :
    ∃ i, ask.first = i * 2 ^ ask.height ∧ (i + 1) * 2 ^ ask.height ≤ (provedOf (decoded.take n)).length ∧
      ask.digest = spanDigest ((provedOf decoded).map recordLeaf) (ask.height, i) := by
  unfold provedRecords at read
  obtain ⟨done, few, read⟩ := bind_eq_ok.mp read
  have inside : after ≤ n := by
    have both := require_eq_ok.mp few
    rw [Bool.and_eq_true, decide_eq_true_eq] at both
    exact both.1
  have forms' : ((front.take n).drop after).mapM proofFreeBytes = .ok (forms.drop after) :=
    mapM_eq_ok.mpr (List.forall₂_drop after (mapM_eq_ok.mp made))
  have records' : ((front.take n).drop after).mapM decodeRecord = .ok ((decoded.take n).drop after) :=
    mapM_eq_ok.mpr (List.forall₂_drop after (List.forall₂_take n (mapM_eq_ok.mp decodes)))
  have own := foldlM_readProved_spec forms' records' read
  rw [List.map_nil, List.nil_append] at own
  obtain ⟨i, aligned, room, digest⟩ := partition_asks asked
  have early : decoded.take after ++ (decoded.take n).drop after = decoded.take n := by
    have both := List.take_append_drop after (decoded.take n)
    rwa [List.take_take, Nat.min_eq_left inside] at both
  have taken : (provedOf (decoded.take after)).map recordLeaf ++ pass.proved.map (·.digest) = (provedOf (decoded.take n)).map recordLeaf := by
    rw [own, ← List.map_append, provedOf, provedOf, ← List.filter_append, early]
    rfl
  have whole : (provedOf decoded).map recordLeaf = (provedOf (decoded.take n)).map recordLeaf ++ (provedOf (decoded.drop n)).map recordLeaf := by
    rw [← List.map_append, provedOf, provedOf, provedOf, ← List.filter_append, List.take_append_drop]
  have length := congrArg List.length taken
  simp only [List.length_append, List.length_map] at length room
  have ends : (i + 1) * 2 ^ ask.height ≤ (provedOf (decoded.take n)).length := by
    rw [Nat.add_mul, Nat.one_mul, ← aligned]
    omega
  refine ⟨i, aligned, ends, ?_⟩
  rw [digest ((provedOf (decoded.take after)).map recordLeaf) (List.length_map _), taken, whole, spanDigest, spanDigest]
  exact (HashTree.block_append (by rwa [List.length_map]) _).symm

/-- A trail walked in any pieces has the covers one walk of it makes: of each aligned span of proved records with leaf covers, over its own
digests, proved once and never where held; and a reader asks for such spans alone, its top spans those of the canonical partition. -/
theorem trail_covers (prover : SpanProver) (sound : prover.Sound) (held : Held) (stops : List (Nat → Bool)) (records rest : List Bytes)
    (walk : CoverWalk) (walked : coverPieces prover held stops records .start = .ok (walk, rest)) :
    ∃ front decoded leaves, records = front ++ rest ∧
      coverTrail prover held never front .start = .ok ⟨walk, walk.kept.length, front.length, false⟩ ∧
      front.mapM decodeRecord = .ok decoded ∧ walk.proved = (provedOf decoded).length ∧ List.Forall₂ prover.LeafOf (provedOf decoded) leaves ∧
      TrailCovers held ((provedOf decoded).map recordLeaf) leaves walk.kept ∧
      (∀ n after forms segment block chain pass set supply known, (front.take n).mapM proofFreeBytes = .ok forms →
        provedRecords ⟨segment, n, forms⟩ after block chain = .ok pass →
        ∀ ask ∈ (partition set supply (provedOf (decoded.take after)).length (pass.proved.map (·.digest)) (pass.proved.map (·.kind)) known).asked,
          ∃ i, ask.first = i * 2 ^ ask.height ∧ (i + 1) * 2 ^ ask.height ≤ leaves.length ∧
            ask.digest = spanDigest ((provedOf decoded).map recordLeaf) (ask.height, i)) ∧
      ∀ start stop, start ≤ stop → (topSpans start stop).flatMap (fun s => List.range' s.1 (2 ^ s.2)) = List.range' start (stop - start) ∧
        ∀ s ∈ topSpans start stop, TopSpan start stop s := by
  obtain ⟨front, split, folded⟩ := coverPieces_eq_ok walked
  obtain ⟨decoded, leaves, decodes, leaf, standing⟩ := foldlM_coverNext_spec sound standing_start folded
  rw [List.nil_append] at standing
  have length := leaf.length_eq
  refine ⟨front, decoded, leaves, split, ?_, decodes, standing.proved.trans length.symm, leaf,
    standing.walked.trailCovers (leavesOf_records leaf), ?_, fun start stop ends => ⟨topSpans_tile ends, topSpans_spec⟩⟩
  · unfold coverTrail
    rw [walkRecords_never folded, Nat.zero_add]
    rfl
  · intro n after forms segment block chain pass set supply known made read ask asked
    obtain ⟨i, aligned, ends, digest⟩ := reader_asks decodes made read asked
    refine ⟨i, aligned, ends.trans ?_, digest⟩
    rw [← length]
    exact ((List.take_sublist n decoded).filter _).length_le

end

section Sample

local instance coversCrypto : Crypto := sampleCrypto

/-- An issue with a proof of the cover's length. -/
def sampleCovered : Record where
  toRecordBody := { sampleIssue with proof := List.replicate coverProofBytes 1 }
  valid := by
    obtain ⟨statement, -, rest⟩ := requireRecord_shape sampleIssue_valid
    have authorized : requireAuthorizationAndCapsules { sampleIssue with proof := List.replicate coverProofBytes 1 } = .ok () := rest
    simp only [requireRecord, bind_eq_ok, require_eq_ok]
    refine ⟨(), statement, (), ?_, authorized⟩
    rw [List.length_replicate]
    rfl

/-- A prover that checks a proof's length alone. -/
def sampleProver : SpanProver where
  leaf record := .ok (if record.proof.length = coverProofBytes then some ⟨some record.kind, recordLeaf record, []⟩ else none)
  node left right := .ok ⟨none, nodeDigest left.digest right.digest, []⟩

theorem sampleProver_sound : sampleProver.Sound where
  leaf record cover given := by
    have own := Except.ok.inj given
    split at own
    · rename_i length
      obtain rfl := Option.some.inj own
      exact ⟨length, statementLeafDigest_record⟩
    · cases own
  node left right cover given := by
    obtain rfl := Except.ok.inj given
    rfl

/-- Nothing held. -/
def holdsNone : Held := fun _ _ => none

def sampleLeaf : Cover := ⟨some 1, recordLeaf sampleCovered, []⟩
def sampleNode : Cover := ⟨none, nodeDigest (recordLeaf sampleCovered) (recordLeaf sampleCovered), []⟩

theorem ok_bind {α β : Type} (value : α) (rest : α → Except Failure β) : (Except.ok value >>= rest) = rest value := rfl

theorem coverLeaf_sample (walk : CoverWalk) : coverLeaf sampleProver holdsNone sampleCovered walk = .ok (some sampleLeaf, walk.keep sampleLeaf) := by
  have length : sampleCovered.proof.length = coverProofBytes := List.length_replicate
  have looked : heldLeaf holdsNone sampleCovered walk = .ok none := by
    rw [heldLeaf, if_pos length, statementLeafDigest_record, ok_bind]
    rfl
  have proved : sampleProver.leaf sampleCovered = .ok (some sampleLeaf) := congrArg Except.ok (if_pos length)
  unfold coverLeaf
  rw [looked, ok_bind]
  dsimp only
  rw [proved, ok_bind]
  rfl

theorem coverNext_sample (walk next : CoverWalk)
    (carried : carryCover sampleProver holdsNone 0 walk.proved (some sampleLeaf) (walk.keep sampleLeaf) = .ok next) :
    coverNext sampleProver holdsNone (encodeRecord sampleCovered.toRecordBody) walk = .ok { next with proved := next.proved + 1 } := by
  unfold coverNext
  have proved : provedKind sampleCovered.kind = true := rfl
  have same : (walk.keep sampleLeaf).proved = walk.proved := rfl
  rw [decodeRecord_eq_ok.mpr rfl, ok_bind, if_pos proved, coverRecord, coverLeaf_sample, ok_bind]
  dsimp only
  rw [same, carried, ok_bind]
  rfl

/-- The walk of two such records. -/
def sampleWalk : CoverWalk := ⟨2, [none, some sampleNode], [sampleLeaf, sampleLeaf, sampleNode]⟩

theorem coverNext_first : coverNext sampleProver holdsNone (encodeRecord sampleCovered.toRecordBody) .start = .ok ⟨1, [some sampleLeaf], [sampleLeaf]⟩ :=
  coverNext_sample .start ⟨0, [some sampleLeaf], [sampleLeaf]⟩ (by rw [carryCover, if_pos (by decide)]; rfl)

theorem coverNext_second : coverNext sampleProver holdsNone (encodeRecord sampleCovered.toRecordBody) ⟨1, [some sampleLeaf], [sampleLeaf]⟩ = .ok sampleWalk := by
  refine coverNext_sample ⟨1, [some sampleLeaf], [sampleLeaf]⟩ ⟨1, [none, some sampleNode], [sampleLeaf, sampleLeaf, sampleNode]⟩ ?_
  rw [carryCover, if_neg (by decide)]
  have noded : coverNode sampleProver holdsNone (some sampleLeaf) (some sampleLeaf) ⟨1, [none], [sampleLeaf, sampleLeaf]⟩ =
      .ok (some sampleNode, ⟨1, [none], [sampleLeaf, sampleLeaf, sampleNode]⟩) := rfl
  refine bind_eq_ok.mpr ⟨_, noded, ?_⟩
  dsimp only
  rw [carryCover, if_pos (by decide)]
  rfl

/-- A walk stopped after its first record. -/
def afterOne (read : Nat) : Bool := read = 1

theorem sampleBytes_decoded : [encodeRecord sampleCovered.toRecordBody, encodeRecord sampleCovered.toRecordBody].mapM decodeRecord =
    .ok [sampleCovered, sampleCovered] := by
  have decoded : decodeRecord (encodeRecord sampleCovered.toRecordBody) = .ok sampleCovered := decodeRecord_eq_ok.mpr rfl
  rw [List.mapM_cons, List.mapM_cons, decoded]
  rfl

/-- Two records walked in two pieces, the second from where the first stood. -/
theorem trail_covers_sample : ∃ leaves, TrailCovers holdsNone [recordLeaf sampleCovered, recordLeaf sampleCovered] leaves sampleWalk.kept := by
  have first : coverTrail sampleProver holdsNone afterOne
      [encodeRecord sampleCovered.toRecordBody, encodeRecord sampleCovered.toRecordBody] .start = .ok ⟨⟨1, [some sampleLeaf], [sampleLeaf]⟩, 1, 1, true⟩ := by
    unfold coverTrail
    rw [walkRecords, if_neg (by decide), coverNext_first]
    rfl
  have second : coverTrail sampleProver holdsNone never [encodeRecord sampleCovered.toRecordBody] ⟨1, [some sampleLeaf], [sampleLeaf]⟩ =
      .ok ⟨sampleWalk, 2, 1, false⟩ := by
    unfold coverTrail
    rw [walkRecords, if_neg (by decide), coverNext_second]
    rfl
  have pieces : coverPieces sampleProver holdsNone [afterOne, never]
      [encodeRecord sampleCovered.toRecordBody, encodeRecord sampleCovered.toRecordBody] .start = .ok (sampleWalk, []) := by
    refine bind_eq_ok.mpr ⟨_, first, bind_eq_ok.mpr ⟨_, second, rfl⟩⟩
  obtain ⟨front, decoded, leaves, split, -, decodes, -, -, covers, -⟩ := trail_covers sampleProver sampleProver_sound holdsNone _ _ _ _ pieces
  rw [List.append_nil] at split
  rw [← split, sampleBytes_decoded] at decodes
  cases decodes
  exact ⟨leaves, covers⟩

/-- A walk makes more covers than those of the canonical partition's spans: two records have a cover each and one over both. -/
theorem covers_nested : ¬∀ (prover : SpanProver) (held : Held) (records : List Bytes) (trail : CoverTrail) (decoded : List Record),
    prover.Sound → coverTrail prover held never records .start = .ok trail → records.mapM decodeRecord = .ok decoded →
      trail.walk.kept.map (·.digest) =
        (topSpans 0 trail.walk.proved).map fun s => spanDigest ((provedOf decoded).map recordLeaf) (s.2, s.1 / 2 ^ s.2) := by
  intro exactly
  have walked : coverTrail sampleProver holdsNone never
      [encodeRecord sampleCovered.toRecordBody, encodeRecord sampleCovered.toRecordBody] .start = .ok ⟨sampleWalk, 3, 2, false⟩ := by
    have folded : [encodeRecord sampleCovered.toRecordBody, encodeRecord sampleCovered.toRecordBody].foldlM
        (fun walk bytes => coverNext sampleProver holdsNone bytes walk) .start = .ok sampleWalk := by
      rw [List.foldlM_cons, coverNext_first, ok_bind, List.foldlM_cons, coverNext_second, ok_bind, List.foldlM_nil]
      rfl
    unfold coverTrail
    rw [walkRecords_never folded, ok_bind]
    rfl
  have same := congrArg List.length (exactly _ _ _ _ _ sampleProver_sound walked sampleBytes_decoded)
  have tops : topSpans 0 2 = [(0, 1)] := by
    simp [topSpans, spanHeight]
  rw [List.length_map, List.length_map] at same
  have counted : sampleWalk.kept.length = 3 ∧ sampleWalk.proved = 2 := ⟨rfl, rfl⟩
  rw [counted.1, counted.2, tops] at same
  cases same

end Sample

end Succinct

end Moe
