import Moe.Lib.HashTree
import Moe.Pool.SuccinctReader

namespace Moe

namespace HashTree

variable {α : Type*} {node : Nat → α → α → α} {zero : α}

/-- A block of leaves that stand in others from a whole number of blocks on. -/
theorem block_shift {leaves wider : List α} {h b j : Nat}
    (same : ∀ k < (j + 1) * 2 ^ h, leaves.getD k zero = wider.getD (b * 2 ^ h + k) zero) :
    block node zero leaves h j = block node zero wider h (b + j) := by
  induction h generalizing b j with
  | zero =>
    have own := same j (by omega)
    rwa [Nat.pow_zero, Nat.mul_one] at own
  | succ h ih =>
    have left := ih (b := 2 * b) (j := 2 * j) fun k below => ?_
    · have right := ih (b := 2 * b) (j := 2 * j + 1) fun k below => ?_
      · rw [block, block, left, right, Nat.mul_add, Nat.add_assoc]
      · rw [show 2 * b * 2 ^ h = b * 2 ^ (h + 1) by ring]
        exact same k (below.trans_eq (by ring))
    · rw [show 2 * b * 2 ^ h = b * 2 ^ (h + 1) by ring]
      exact same k (below.trans_le (by rw [Nat.pow_succ]; nlinarith [Nat.two_pow_pos h]))

end HashTree

namespace Succinct

section Levels

variable [Crypto]

/-- The digest of an aligned span of records, its height and number given. -/
def spanDigest (digests : List Nat) (s : Nat × Nat) : Nat := HashTree.block (fun _ => nodeDigest) 0 digests s.1 s.2

theorem pairNodes_getD {below : List Nat} {j : Nat} (inside : j < below.length / 2) :
    (pairNodes below).getD j 0 = nodeDigest (below.getD (2 * j) 0) (below.getD (2 * j + 1) 0) := by
  rw [pairNodes, List.getD_eq_getElem _ _ (by simpa using inside)]
  simp

theorem pairNodes_length (below : List Nat) : (pairNodes below).length = below.length / 2 := by simp [pairNodes]

theorem spanLevel_length (leaves : List Nat) (l : Nat) : (spanLevel leaves l).length = leaves.length / 2 ^ l := by
  induction l with
  | zero => simp [spanLevel]
  | succ l ih => rw [spanLevel, pairNodes_length, ih, HashTree.div_pow_succ]

/-- A top span's level made bottom up holds the digests of its aligned spans. -/
theorem spanLevel_getD {leaves : List Nat} {l j : Nat} (inside : j < leaves.length / 2 ^ l) :
    (spanLevel leaves l).getD j 0 = spanDigest leaves (l, j) := by
  induction l generalizing j with
  | zero => rfl
  | succ l ih =>
    have half : j < (spanLevel leaves l).length / 2 := by rwa [spanLevel_length, ← HashTree.div_pow_succ]
    rw [spanLevel_length] at half
    rw [spanLevel, pairNodes_getD (by rwa [spanLevel_length]), ih (by omega), ih (by omega)]
    rfl

omit [Crypto] in
theorem span_getD {values : List Nat} {index size k : Nat} (inside : k < size) :
    (span values index size).getD k 0 = values.getD (index + k) 0 := by
  simp [span, List.getD_eq_getElem?_getD, List.getElem?_drop, inside]

end Levels

section Tops

theorem spanHeight_spec (i stop s : Nat) (aligned : i % 2 ^ s = 0) (inside : i + 2 ^ s ≤ stop) :
    i % 2 ^ spanHeight i stop s = 0 ∧ i + 2 ^ spanHeight i stop s ≤ stop ∧
      ¬(i % 2 ^ (spanHeight i stop s + 1) = 0 ∧ i + 2 ^ (spanHeight i stop s + 1) ≤ stop) := by
  fun_induction spanHeight i stop s with
  | case1 s wider ih => exact ih wider.1 wider.2
  | case2 s widest => exact ⟨aligned, inside, widest⟩

/-- A top span is aligned and the widest at its number that ends in time. -/
structure TopSpan (start stop : Nat) (s : Nat × Nat) : Prop where
  aligned : s.1 % 2 ^ s.2 = 0
  inside : start ≤ s.1 ∧ s.1 + 2 ^ s.2 ≤ stop
  widest : ¬(s.1 % 2 ^ (s.2 + 1) = 0 ∧ s.1 + 2 ^ (s.2 + 1) ≤ stop)

theorem topSpans_spec {i stop : Nat} : ∀ s ∈ topSpans i stop, TopSpan i stop s := by
  fun_induction topSpans i stop with
  | case1 i before ih =>
    obtain ⟨aligned, inside, widest⟩ := spanHeight_spec i stop 0 (by simp [Nat.mod_one]) (by rw [Nat.pow_zero]; omega)
    intro s member
    rcases List.mem_cons.mp member with rfl | later
    · exact ⟨aligned, ⟨Nat.le_refl _, inside⟩, widest⟩
    · have own := ih s later
      exact ⟨own.aligned, ⟨(Nat.le_add_right _ _).trans own.inside.1, own.inside.2⟩, own.widest⟩
  | case2 i past => exact fun s member => absurd member (List.not_mem_nil)

/-- The top spans follow each other and partition the records. -/
theorem topSpans_tile {i stop : Nat} (ends : i ≤ stop) :
    (topSpans i stop).flatMap (fun s => List.range' s.1 (2 ^ s.2)) = List.range' i (stop - i) := by
  fun_induction topSpans i stop with
  | case1 i before ih =>
    obtain ⟨-, inside, -⟩ := spanHeight_spec i stop 0 (by simp [Nat.mod_one]) (by rw [Nat.pow_zero]; omega)
    rw [List.flatMap_cons, ih inside, List.range'_append_1]
    congr 1
    dsimp only at inside ⊢
    omega
  | case2 i past =>
    rw [show stop - i = 0 by omega]
    rfl

end Tops

section Asks

variable [Crypto] {set : CheckSet} {supply : CheckSupply} {p : PartitionOf} {first : Nat} {leaves : List Nat} {a : Asking} {ask : SpanAsk}

/-- An ask about a span under another of a top span. -/
structure AskUnder (p : PartitionOf) (first : Nat) (leaves : List Nat) (l j : Nat) (ask : SpanAsk) : Prop where
  lower : ask.height ≤ l
  place : ∃ i, j * 2 ^ (l - ask.height) ≤ i ∧ i < (j + 1) * 2 ^ (l - ask.height) ∧
    ask.first = p.start + (first - p.start + i * 2 ^ ask.height) ∧ ask.digest = (spanLevel leaves ask.height).getD i 0

theorem AskUnder.up {l j child : Nat} (half : child / 2 = j) (under : AskUnder p first leaves l child ask) :
    AskUnder p first leaves (l + 1) j ask := by
  obtain ⟨lower, i, low, high, own⟩ := under
  have below : j * 2 ≤ child := by omega
  have above : child + 1 ≤ (j + 1) * 2 := by omega
  refine ⟨Nat.le_succ_of_le lower, i, ?_, ?_, own⟩
  · rw [Nat.succ_sub lower, Nat.pow_succ]
    nlinarith [Nat.two_pow_pos (l - ask.height)]
  · rw [Nat.succ_sub lower, Nat.pow_succ]
    nlinarith [Nat.two_pow_pos (l - ask.height)]

theorem askUnder_own (p : PartitionOf) (first : Nat) (leaves : List Nat) (l j : Nat) : AskUnder p first leaves l j ⟨p.start + (first - p.start + j * 2 ^ l), l, (spanLevel leaves l).getD j 0⟩ :=
  ⟨Nat.le_refl _, j, by simp, by simp, rfl, rfl⟩

omit [Crypto] in
theorem asked_ask {first height digest : Nat} (asked : ask ∈ (a.ask first height digest).asked) : ask ∈ a.asked ∨ ask = ⟨first, height, digest⟩ := by
  rcases List.mem_append.mp asked with old | own
  · exact .inl old
  · exact .inr (List.mem_singleton.mp own)

/-- A span is asked about itself and those under it alone. -/
theorem askSpan_asks {l j : Nat} (asked : ask ∈ (askSpan set supply p first leaves l j a).asked) :
    ask ∈ a.asked ∨ AskUnder p first leaves l j ask := by
  induction l generalizing j a with
  | zero =>
    have own : ∀ own, ask ∈ (a.ask (p.start + (first - p.start + j)) 0 own).asked → own = (spanLevel leaves 0).getD j 0 →
        ask ∈ a.asked ∨ AskUnder p first leaves 0 j ask := by
      rintro own asked rfl
      rcases asked_ask asked with old | rfl
      · exact .inl old
      · exact .inr (by simpa using askUnder_own p first leaves 0 j)
    unfold askSpan at asked
    dsimp only at asked
    split at asked
    · exact .inl asked
    · split at asked
      · exact own _ asked rfl
      · exact own _ asked rfl
  | succ l ih =>
    have split : ∀ a' : Asking, ask ∈ (askSpan set supply p first leaves l (2 * j + 1) (askSpan set supply p first leaves l (2 * j) a')).asked →
        ask ∈ a'.asked ∨ AskUnder p first leaves (l + 1) j ask := by
      intro a' asked
      rcases ih asked with left | right
      · rcases ih left with old | own
        · exact .inl old
        · exact .inr (own.up (by omega))
      · exact .inr (right.up (by omega))
    have own : ask ∈ (a.ask (p.start + (first - p.start + j * 2 ^ (l + 1))) (l + 1) ((spanLevel leaves (l + 1)).getD j 0)).asked →
        ask ∈ a.asked ∨ AskUnder p first leaves (l + 1) j ask := by
      intro asked
      rcases asked_ask asked with old | rfl
      · exact .inl old
      · exact .inr (askUnder_own p first leaves _ j)
    unfold askSpan at asked
    dsimp only at asked
    split at asked
    · exact .inl asked
    · split at asked
      · exact split a asked
      · split at asked
        · exact own asked
        · split at asked
          · exact own asked
          · rcases split _ asked with old | under
            · exact own old
            · exact .inr under

/-- An ask about an aligned span of the records partitioned, over its records' digests. -/
structure AskOf (start : Nat) (digests : List Nat) (ask : SpanAsk) (i : Nat) : Prop where
  aligned : ask.first = i * 2 ^ ask.height
  inside : start ≤ ask.first ∧ ask.first + 2 ^ ask.height ≤ start + digests.length
  digest : ∀ front, front.length = start → ask.digest = spanDigest (front ++ digests) (ask.height, i)

theorem coverSpan_asks {s : Nat × Nat} (top : TopSpan p.start (p.start + p.digests.length) s)
    (asked : ask ∈ (coverSpan set supply p a s.1 s.2).asked) : ask ∈ a.asked ∨ ∃ i, AskOf p.start p.digests ask i := by
  rcases askSpan_asks asked with old | under
  · exact .inl old
  · right
    obtain ⟨lower, i, -, high, place, digest⟩ := under
    obtain ⟨b, own⟩ := Nat.dvd_of_mod_eq_zero top.aligned
    have parts : 2 ^ s.2 = 2 ^ (s.2 - ask.height) * 2 ^ ask.height := by rw [← Nat.pow_add, Nat.sub_add_cancel lower]
    have room : (i + 1) * 2 ^ ask.height ≤ 2 ^ s.2 := by
      rw [parts]
      exact Nat.mul_le_mul_right _ (by omega)
    have first : s.1 = b * 2 ^ (s.2 - ask.height) * 2 ^ ask.height := by
      rw [own, parts]
      ring
    have aligned : ask.first = (b * 2 ^ (s.2 - ask.height) + i) * 2 ^ ask.height := by
      have start := top.inside.1
      rw [Nat.add_mul, ← first, place]
      omega
    have whole : (span p.digests (s.1 - p.start) (2 ^ s.2)).length = 2 ^ s.2 := by
      have inside := top.inside
      rw [span, List.length_take, List.length_drop]
      omega
    refine ⟨b * 2 ^ (s.2 - ask.height) + i, aligned, ?_, fun front starts => ?_⟩
    · have inside := top.inside
      rw [Nat.add_mul, Nat.one_mul] at room
      omega
    · rw [digest, spanLevel_getD]
      · refine HashTree.block_shift fun k below => ?_
        have inside := top.inside.1
        rw [← first, span_getD (Nat.lt_of_lt_of_le below room), List.getD_append_right _ _ _ _ (by omega)]
        congr 1
        omega
      · rw [whole, parts, Nat.mul_div_cancel _ (Nat.two_pow_pos _)]
        omega

/-- A partition asks for covers of aligned spans of its records alone. -/
theorem partition_asks {start : Nat} {digests kinds : List Nat} {known : Nat → Found}
    (asked : ask ∈ (partition set supply start digests kinds known).asked) : ∃ i, AskOf start digests ask i := by
  unfold partition at asked
  dsimp only at asked
  have tops : ∀ s ∈ topSpans start (start + digests.length), TopSpan start (start + digests.length) s := topSpans_spec
  generalize topSpans start (start + digests.length) = spans at asked tops
  have run : ∀ (spans : List (Nat × Nat)) (a : Asking) (once : List Bool), (∀ s ∈ spans, TopSpan start (start + digests.length) s) →
      ask ∈ (spans.foldl (fun a s => coverSpan set supply ⟨start, digests, kinds, once⟩ a s.1 s.2) a).asked →
      ask ∈ a.asked ∨ ∃ i, AskOf start digests ask i := by
    intro spans
    induction spans with
    | nil => exact fun a once _ asked => .inl asked
    | cons s rest ih =>
      intro a once tops asked
      rcases ih _ once (fun s later => tops s (List.mem_cons_of_mem _ later)) asked with old | new
      · exact coverSpan_asks (p := ⟨start, digests, kinds, once⟩) (tops s List.mem_cons_self) old
      · exact .inr new
  rcases run spans _ _ tops asked with none | own
  · cases none
  · exact own

end Asks

section Forms

variable [Crypto] {record : Record} {form bytes : Bytes} {trail : ServedTrailOf} {block : List Adopted} {capacity : Nat} {pass final : FirstPass}

/-- A proved record's leaf digest, over its kind, its public inputs and its proof's hash. -/
def recordLeaf (record : Record) : Nat :=
  poseidon2Hash ([1008, record.kind] ++ record.publicInputs ++ [ofBytes ((sha256 record.proof).take 16), ofBytes ((sha256 record.proof).drop 16)])

theorem statementLeafDigest_record : statementLeafDigest record.kind record.publicInputs (sha256 record.proof) = .ok (recordLeaf record) := by
  simp [statementLeafDigest, limbsOf, Crypto.sha256_length, require, recordLeaf, bind, Except.bind, pure, Except.pure]

/-- A record's proof-free form is read back with its kind and, where it is proved, its leaf digest. -/
theorem proofFreeBytes_read (made : proofFreeBytes bytes = .ok form) (decoded : decodeRecord bytes = .ok record) :
    ∃ free, decodeProofFree form = .ok free ∧ free.kind = record.kind ∧ (provedKind record.kind = true → leafDigest free = .ok (recordLeaf record)) := by
  obtain ⟨record', own, made⟩ := bind_eq_ok.mp made
  cases decoded.symm.trans own
  obtain ⟨free, taken, written⟩ := bind_eq_ok.mp made
  obtain ⟨valid, rfl⟩ := encodeProofFree_eq_ok.mp written
  obtain ⟨-, same⟩ := proofFreeOf_eq_ok.mp taken
  refine ⟨free, decodeProofFree_eq_ok.mpr ⟨valid, rfl⟩, by rw [same], fun proved => ?_⟩
  have length := (requireRecord_shape record.valid).2.1
  have carried : record.proof.length ≠ 0 := by
    intro none
    rw [none, proofLengthHolds] at length
    have other : record.kind ≠ 5 := by
      intro withdrawal
      rw [withdrawal] at proved
      cases proved
    rw [if_neg other] at length
    cases length
  rw [leafDigest, same, hashEvidenceField, if_pos carried]
  exact statementLeafDigest_record

/-- The first pass reads a form's leaf where its record is proved. -/
theorem readProved_spec (made : proofFreeBytes bytes = .ok form) (decoded : decodeRecord bytes = .ok record)
    (read : readProved trail block capacity pass form = .ok final) :
    final.proved.map (·.digest) = pass.proved.map (·.digest) ++ (provedOf [record]).map recordLeaf := by
  obtain ⟨free, own, kind, leaf⟩ := proofFreeBytes_read made decoded
  unfold readProved at read
  rw [own] at read
  obtain ⟨free', same, read⟩ := bind_eq_ok.mp read
  cases same
  obtain ⟨chain, -, read⟩ := bind_eq_ok.mp read
  obtain ⟨held, -, read⟩ := bind_eq_ok.mp read
  rw [kind] at read
  split at read
  · rename_i request
    cases read
    rw [provedOf, List.filter_cons, request]
    split <;> simp [provedKind]
  · split at read
    · rename_i unproved
      cases read
      rw [provedOf, List.filter_cons, if_neg (by simpa using unproved)]
      simp
    · rename_i proved
      have proved : provedKind record.kind = true := by simpa using proved
      obtain ⟨-, -, read⟩ := bind_eq_ok.mp read
      obtain ⟨digest, digested, read⟩ := bind_eq_ok.mp read
      cases read
      cases (leaf proved).symm.trans digested
      simp [provedOf, proved]

/-- Over a trail's forms it reads the leaves of their proved records in order. -/
theorem foldlM_readProved_spec {records forms : List Bytes} {decoded : List Record} (made : records.mapM proofFreeBytes = .ok forms)
    (decodes : records.mapM decodeRecord = .ok decoded) (read : forms.foldlM (readProved trail block capacity) pass = .ok final) :
    final.proved.map (·.digest) = pass.proved.map (·.digest) ++ (provedOf decoded).map recordLeaf := by
  induction records generalizing forms decoded pass with
  | nil =>
    cases made
    cases decodes
    cases read
    simp [provedOf]
  | cons bytes rest ih =>
    rw [List.mapM_cons] at made decodes
    obtain ⟨form, first, made⟩ := bind_eq_ok.mp made
    obtain ⟨others, later, made⟩ := bind_eq_ok.mp made
    obtain ⟨record, own, decodes⟩ := bind_eq_ok.mp decodes
    obtain ⟨decoded', after, decodes⟩ := bind_eq_ok.mp decodes
    cases made
    cases decodes
    rw [List.foldlM_cons] at read
    obtain ⟨middle, step, read⟩ := bind_eq_ok.mp read
    rw [ih later after read, readProved_spec first own step, List.append_assoc, ← List.map_append, provedOf, provedOf, ← List.filter_append,
      List.singleton_append]
    rfl

end Forms

end Succinct

end Moe
