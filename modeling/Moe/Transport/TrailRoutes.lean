import Moe.Transport.TrailCodec

namespace Moe

namespace Transport

variable {f : TrailProfile} {total : Nat}

theorem check_steady (condition : Bool) (what : String) : (check condition what).Steady truncatedFrame := Pull.Steady.lift _

theorem readTerm_steady (keepLongTerms : Bool) (consumed : Nat) : (readTerm f total keepLongTerms consumed).Steady truncatedFrame := by
  refine (Pull.Steady.take 4).bind fun four => (check_steady _ _).bind fun _ => ?_
  split
  · exact (Pull.Steady.take _).bind fun _ => (Pull.Steady.take 64).bind fun _ => Pull.Steady.pure _
  · exact (pieces_steady (Nat.le_refl _) []).bind fun _ => (Pull.Steady.take 64).bind fun _ => Pull.Steady.pure _

theorem readTerms_steady (keepLongTerms : Bool) (count consumed : Nat) :
    (readTerms f total keepLongTerms count consumed).Steady truncatedFrame := by
  induction count generalizing consumed with
  | zero => exact Pull.Steady.pure _
  | succ count ih => exact (readTerm_steady _ _).bind fun _ => (ih _).bind fun _ => Pull.Steady.pure _

theorem readRecord_steady (consumed : Nat) : (readRecord f total consumed).Steady truncatedFrame :=
  (Pull.Steady.take 4).bind fun _ => (check_steady _ _).bind fun _ => (Pull.Steady.take _).bind fun _ => Pull.Steady.pure _

theorem readRecords_steady (count consumed : Nat) : (readRecords f total count consumed).Steady truncatedFrame := by
  induction count generalizing consumed with
  | zero => exact Pull.Steady.pure _
  | succ count ih => exact (readRecord_steady _).bind fun _ => (ih _).bind fun _ => Pull.Steady.pure _

theorem readHead_steady : (readHead f total).Steady truncatedFrame :=
  (check_steady _ _).bind fun _ => (Pull.Steady.take _).bind fun _ => (Pull.Steady.lift _).bind fun _ => (check_steady _ _).bind fun _ =>
    (Pull.Steady.take _).bind fun _ => (Pull.Steady.lift _).bind fun _ => (check_steady _ _).bind fun _ => (check_steady _ _).bind fun _ =>
      Pull.Steady.pure _

/-- The trail reader's answer never depends on how its frame is cut. -/
theorem readTrail_steady (options : TrailReading) : (readTrail f total options).Steady truncatedFrame :=
  readHead_steady.bind fun _ => (readTerms_steady _ _ _).bind fun _ => (check_steady _ _).bind fun _ => (Pull.Steady.take 8).bind fun _ =>
    (Pull.Steady.lift _).bind fun _ => (check_steady _ _).bind fun _ => (check_steady _ _).bind fun _ => (readRecords_steady _ _).bind fun _ =>
      (check_steady _ _).bind fun _ => (Pull.Steady.lift _).bind fun _ => Pull.Steady.pure _

/-- A terms field without the terms no root terms are as long as. -/
def ToldTerms.short (f : TrailProfile) (told : ToldTerms) : ToldTerms :=
  { told with terms := told.terms.filter fun terms => terms.length ≤ f.maxTermsBytes }

def ToldTrail.short (f : TrailProfile) (told : ToldTrail) : ToldTrail := { told with terms := told.terms.map (ToldTerms.short f) }

theorem take_bind_apply {α : Type} (count : Nat) (rest : Bytes → StateT Bytes (Except Failure) α) (input : Bytes) :
    (Pull.parse truncatedFrame (Pull.take count : FrameReader Bytes) >>= rest) input =
      if count ≤ input.length then rest (input.take count) (input.drop count) else .error truncatedFrame := by
  change (if count ≤ input.length then Except.ok (input.take count, input.drop count) else .error truncatedFrame) >>= _ = _
  split <;> rfl

theorem pieces_bind_apply {α : Type} (count : Nat) (rest : Bytes → StateT Bytes (Except Failure) α) (input : Bytes) :
    (Pull.parse truncatedFrame (pieces count count []) >>= rest) input =
      if count ≤ input.length then rest (input.take count) (input.drop count) else .error truncatedFrame := by
  change Pull.parse truncatedFrame (pieces count count []) input >>= _ = _
  rw [parse_pieces (Nat.le_refl _)]
  split <;> rfl

/-- A reader that skips long terms reads what one that keeps them does, and leaves those out. -/
theorem readTerm_short (consumed : Nat) :
    Pull.parse truncatedFrame (readTerm f total false consumed) =
      (fun read : ToldTerms × Nat => (read.1.short f, read.2)) <$> Pull.parse truncatedFrame (readTerm f total true consumed) := by
  simp only [readTerm, Pull.parse_bind, map_bind, Bool.false_or, Bool.true_or, if_true]
  refine bind_congr fun four => bind_congr fun _ => ?_
  funext input
  by_cases fits : ofBytes four ≤ f.maxTermsBytes
  · simp only [fits, decide_true, if_true, Pull.parse_bind, take_bind_apply]
    split
    · rename_i inside
      split
      · have kept : (input.take (ofBytes four)).length ≤ f.maxTermsBytes := by
          rw [List.length_take]
          omega
        have short : ToldTerms.short f ⟨some (input.take (ofBytes four)), (input.drop (ofBytes four)).take 64⟩ =
            ⟨some (input.take (ofBytes four)), (input.drop (ofBytes four)).take 64⟩ := by
          rw [ToldTerms.short, Option.filter_some, if_pos (decide_eq_true kept)]
        change _ = Except.ok ((ToldTerms.short f ⟨some (input.take (ofBytes four)), (input.drop (ofBytes four)).take 64⟩, _), _)
        rw [short]
        rfl
      · rfl
    · rfl
  · simp only [fits, decide_false, Bool.false_eq_true, if_false, Pull.parse_bind, take_bind_apply, pieces_bind_apply]
    split
    · rename_i inside
      split
      · have long : ¬ (input.take (ofBytes four)).length ≤ f.maxTermsBytes := by
          rw [List.length_take]
          omega
        have short : ToldTerms.short f ⟨some (input.take (ofBytes four)), (input.drop (ofBytes four)).take 64⟩ =
            ⟨none, (input.drop (ofBytes four)).take 64⟩ := by
          rw [ToldTerms.short, Option.filter_some, if_neg (by rw [decide_eq_true_eq]; exact long)]
        rw [← short]
        rfl
      · rfl
    · rfl

theorem readTerms_short (count consumed : Nat) :
    Pull.parse truncatedFrame (readTerms f total false count consumed) =
      (fun read : List ToldTerms × Nat => (read.1.map (ToldTerms.short f), read.2)) <$>
        Pull.parse truncatedFrame (readTerms f total true count consumed) := by
  induction count generalizing consumed with
  | zero => rfl
  | succ count ih =>
    simp only [readTerms, Pull.parse_bind, map_bind, readTerm_short, bind_map_left, ih]
    rfl

/-- However a reader treats long terms, it accepts and refuses the same trails. -/
theorem readTrail_short (budget : Option TrailLimits) (retained : Nat × Nat) :
    Pull.parse truncatedFrame (readTrail f total ⟨false, budget, retained⟩) =
      ToldTrail.short f <$> Pull.parse truncatedFrame (readTrail f total ⟨true, budget, retained⟩) := by
  simp only [readTrail, Pull.parse_bind, map_bind, readTerms_short, bind_map_left]
  rfl

theorem byteBudget_mono {small large : Nat} {budget : Option TrailLimits} (below : small ≤ large)
    (fits : byteBudget large budget = .ok ()) : byteBudget small budget = .ok () := by
  cases budget with
  | none => rfl
  | some bound =>
    simp only [byteBudget, require_eq_ok, decide_eq_true_eq] at fits ⊢
    omega

/-- Judged one after another under a budget their sizes are added to, all are judged under it at once. -/
theorem budgeted_eq_ok {α : Type} {own : Nat → α → Except Failure Nat} {sound : α → Prop} {measure : α → Nat} (within : Nat → Prop)
    (mono : ∀ {small large}, small ≤ large → within large → within small)
    (each : ∀ size a after, own size a = .ok after ↔ sound a ∧ within (size + measure a) ∧ after = size + measure a)
    {items : List α} {size after : Nat} (start : within size) :
    items.foldlM own size = .ok after ↔
      (∀ a ∈ items, sound a) ∧ within (size + (items.map measure).sum) ∧ after = size + (items.map measure).sum := by
  induction items generalizing size with
  | nil =>
    rw [List.foldlM_nil, pure_eq_ok]
    simp only [List.not_mem_nil, false_implies, implies_true, List.map_nil, List.sum_nil, Nat.add_zero, start, true_and, eq_comm]
  | cons a rest ih =>
    rw [List.foldlM_cons, bind_eq_ok, List.map_cons, List.sum_cons, List.forall_mem_cons, ← Nat.add_assoc]
    constructor
    · rintro ⟨_, first, run⟩
      obtain ⟨fine, fits, rfl⟩ := (each _ _ _).mp first
      obtain ⟨others, whole, rfl⟩ := (ih fits).mp run
      exact ⟨⟨fine, others⟩, whole, rfl⟩
    · rintro ⟨⟨fine, others⟩, whole, rfl⟩
      have fits := mono (Nat.le_add_right (size + measure a) (rest.map measure).sum) whole
      exact ⟨_, (each _ _ _).mpr ⟨fine, fits, rfl⟩, (ih fits).mpr ⟨others, whole, rfl⟩⟩

theorem ownTerm_eq_ok {budget : Option TrailLimits} (size : Nat) (term : TermField) (after : Nat) :
    ownTerm budget size term = .ok after ↔ term.Framed ∧ byteBudget (size + term.terms.length) budget = .ok () ∧
      after = size + term.terms.length := by
  simp only [ownTerm, bind_eq_ok, require_eq_ok, decide_eq_true_eq, pure_eq_ok]
  constructor
  · rintro ⟨_, signed, _, short, _, fits, rfl⟩
    exact ⟨⟨signed, by omega⟩, fits, rfl⟩
  · rintro ⟨⟨signed, short⟩, fits, rfl⟩
    exact ⟨(), signed, (), by omega, (), fits, rfl⟩

theorem ownTrailRecord_eq_ok {budget : Option TrailLimits} (size : Nat) (record : Bytes) (after : Nat) :
    ownTrailRecord f budget size record = .ok after ↔ record.length ≤ f.maxRecordBytes ∧ byteBudget (size + record.length) budget = .ok () ∧
      after = size + record.length := by
  simp only [ownTrailRecord, bind_eq_ok, require_eq_ok, decide_eq_true_eq, pure_eq_ok]
  constructor
  · rintro ⟨_, short, _, fits, rfl⟩
    exact ⟨short, fits, rfl⟩
  · rintro ⟨short, fits, rfl⟩
    exact ⟨(), short, (), fits, rfl⟩

/-- The encoder takes a trail whose frame holds, within its budget and what can be allocated. -/
theorem requireTrail_eq_ok {trail : ServedTrail} {budgetIn : Option TrailLimits} {size : Nat} :
    requireTrail f trail budgetIn = .ok size ↔ ∃ budget, budgetIn.mapM limits = .ok budget ∧ trail.Framed f ∧
      eventBudget trail.records.length budget = .ok () ∧ byteBudget (writeTrail f trail).length budget = .ok () ∧
        (writeTrail f trail).length ≤ maxSafeInteger ∧ size = (writeTrail f trail).length := by
  have records := writeRecords_length trail.records
  have whole := writeTrail_length (f := f) trail
  simp only [requireTrail, bind_eq_ok, require_eq_ok, decide_eq_true_eq, pure_eq_ok, Bool.and_eq_true]
  constructor
  · rintro ⟨budget, bounded, _, few, _, start, _, range, _, context, _, ⟨count, length⟩, _, same, after, terms, last, rest, _, safe, header,
      decoded, rfl⟩
    obtain ⟨framed, fits, rfl⟩ := (budgeted_eq_ok (byteBudget · budget = .ok ()) byteBudget_mono ownTerm_eq_ok start).mp terms
    obtain ⟨short, fits, rfl⟩ := (budgeted_eq_ok (byteBudget · budget = .ok ()) byteBudget_mono ownTrailRecord_eq_ok fits).mp rest
    have terms_ := writeTerms_length framed
    have size : f.fixed + trail.header.length + 68 * trail.terms.length + 4 * trail.records.length + (trail.terms.map (·.terms.length)).sum +
        (trail.records.map List.length).sum = (writeTrail f trail).length := by omega
    rw [size] at fits safe ⊢
    refine ⟨budget, bounded, ⟨⟨range, context, same, ?_, ?_⟩, framed, short, header, decoded⟩, few, fits, safe, rfl⟩
    · rw [same]
      exact count
    · rw [same]
      exact length
  · rintro ⟨budget, bounded, ⟨⟨range, context, same, count, length⟩, framed, short, header, decoded⟩, few, fits, safe, rfl⟩
    have terms_ := writeTerms_length framed
    have size : f.fixed + trail.header.length + 68 * trail.terms.length + 4 * trail.records.length + (trail.terms.map (·.terms.length)).sum +
        (trail.records.map List.length).sum = (writeTrail f trail).length := by omega
    have start := byteBudget_mono (by omega : f.fixed + trail.header.length + 68 * trail.terms.length + 4 * trail.records.length ≤
      (writeTrail f trail).length) fits
    have middle := byteBudget_mono (by omega : f.fixed + trail.header.length + 68 * trail.terms.length + 4 * trail.records.length +
      (trail.terms.map (·.terms.length)).sum ≤ (writeTrail f trail).length) fits
    rw [← size] at fits safe
    rw [same] at count length
    have terms := (budgeted_eq_ok (byteBudget · budget = .ok ()) byteBudget_mono ownTerm_eq_ok start).mpr ⟨framed, middle, rfl⟩
    have rest := (budgeted_eq_ok (byteBudget · budget = .ok ()) byteBudget_mono (ownTrailRecord_eq_ok (f := f)) middle).mpr ⟨short, fits, rfl⟩
    exact ⟨budget, bounded, (), few, (), start, (), range, (), context, (), ⟨count, length⟩, (), same, _, terms, _, rest,
      (), safe, header, decoded, size⟩

theorem encodeTrail_eq_ok {trail : ServedTrail} {budgetIn : Option TrailLimits} {bytes : Bytes} :
    encodeTrail f trail budgetIn = .ok bytes ↔ ∃ budget, budgetIn.mapM limits = .ok budget ∧ trail.Framed f ∧
      eventBudget trail.records.length budget = .ok () ∧ byteBudget (writeTrail f trail).length budget = .ok () ∧
        (writeTrail f trail).length ≤ maxSafeInteger ∧ bytes = writeTrail f trail := by
  simp only [encodeTrail, bind_eq_ok, requireTrail_eq_ok, pure_eq_ok]
  constructor
  · rintro ⟨_, ⟨budget, bounded, framed, few, fits, safe, -⟩, rfl⟩
    exact ⟨budget, bounded, framed, few, fits, safe, rfl⟩
  · rintro ⟨budget, bounded, framed, few, fits, safe, rfl⟩
    exact ⟨_, ⟨budget, bounded, framed, few, fits, safe, rfl⟩, rfl⟩

/-- The decoder takes the frames of such trails, and no other bytes. -/
theorem decodeTrail_eq_ok {trail : ServedTrail} {budgetIn : Option TrailLimits} {bytes : Bytes} :
    decodeTrail f bytes budgetIn = .ok trail ↔ ∃ budget, budgetIn.mapM limits = .ok budget ∧ trail.Framed f ∧ trail.records.length < 2 ^ 64 ∧
      eventBudget trail.records.length budget = .ok () ∧ byteBudget (writeTrail f trail).length budget = .ok () ∧
        bytes = writeTrail f trail := by
  have back (trail : ServedTrail) : (⟨trail.told.header, trail.told.terms.map fun term => ⟨term.terms.getD [], term.signature⟩,
      trail.told.records⟩ : ServedTrail) = trail := by
    simp only [ServedTrail.told, List.map_map]
    congr 1
    exact List.map_id _
  have read (budget : Option TrailLimits) : FrameFeed.read (readTrail f bytes.length ⟨true, budget, (0, 0)⟩) [bytes] =
      Pull.whole truncatedFrame trailingFrame (readTrail f bytes.length ⟨true, budget, (0, 0)⟩) bytes := by
    rw [FrameFeed.read_eq (readTrail_steady _), List.flatten_singleton]
  simp only [decodeTrail, bind_eq_ok, pure_eq_ok, read, Pull.whole_eq_ok, readTrail_eq_ok]
  constructor
  · rintro ⟨budget, bounded, _, fits, _, ⟨whole, rfl, framed, bound, few, length, same⟩, rfl⟩
    rw [back]
    rw [List.append_nil] at same
    rw [← length] at fits
    exact ⟨budget, bounded, framed, bound, few, fits, same⟩
  · rintro ⟨budget, bounded, framed, bound, few, fits, rfl⟩
    exact ⟨budget, bounded, (), fits, _, ⟨trail, rfl, framed, bound, few, rfl, (List.append_nil _).symm⟩, back trail⟩

/-- A trail's fields, read by the frame's own counts alone. -/
def readFields (f : TrailProfile) : Reader ServedTrail := do
  let _ ← Reader.raw f.context.length
  let header ← Reader.lengthPrefixed (maxHeaderBytes f.headerContext)
  let terms ← Reader.times (do
    let terms ← Reader.lengthPrefixed (2 ^ 32)
    let signature ← Reader.raw 64
    return (⟨terms, signature⟩ : TermField)) (u32At header (f.prefixBytes - 4))
  let events ← Reader.u64
  let records ← Reader.times (Reader.lengthPrefixed f.maxRecordBytes) events
  return ⟨header, terms, records⟩

theorem termField_inverts : Inverts (do
    let terms ← Reader.lengthPrefixed (2 ^ 32)
    let signature ← Reader.raw 64
    return (⟨terms, signature⟩ : TermField)) writeTerm TermField.Framed := by
  intro s term t
  simp only [read_bind_eq_ok, read_pure_eq_ok, Reader.lengthPrefixed_inverts _ _ _ _, Reader.raw_inverts _ _ _ _]
  constructor
  · rintro ⟨_, _, ⟨⟨_, short⟩, rfl⟩, _, _, ⟨signed, rfl⟩, rfl, rfl⟩
    exact ⟨⟨signed, short⟩, by rw [writeTerm, List.append_assoc]; rfl⟩
  · rintro ⟨⟨signed, short⟩, rfl⟩
    refine ⟨term.terms, _, ⟨⟨Nat.le_of_lt short, short⟩, ?_⟩, term.signature, t, ⟨signed, rfl⟩, rfl, rfl⟩
    rw [writeTerm, List.append_assoc]
    rfl

/-- A frame's fields are read back by its own counts, whatever follows it. -/
theorem readFields_writeTrail {trail : ServedTrail} (framed : trail.Framed f) (bound : trail.records.length < 2 ^ 64) (extra : Bytes) :
    readFields f (writeTrail f trail ++ extra) = .ok (trail, extra) := by
  obtain ⟨⟨range, -, same, -, -⟩, terms, short, -⟩ := framed
  have header : trail.header.length < 2 ^ 32 := Nat.lt_of_le_of_lt range.2 f.headerFits
  simp only [readFields, read_bind_eq_ok, read_pure_eq_ok, Reader.raw_inverts _ _ _ _, Reader.lengthPrefixed_inverts _ _ _ _,
    Reader.times_inverts termField_inverts _ _ _ _, Reader.u64_inverts _ _ _,
    Reader.times_inverts (Reader.lengthPrefixed_inverts f.maxRecordBytes) _ _ _ _]
  refine ⟨f.context, _, ⟨rfl, ?_⟩, trail.header, _, ⟨⟨range.2, header⟩, rfl⟩, trail.terms, _, ⟨⟨same, terms⟩, rfl⟩, trail.records.length, _,
    ⟨bound, rfl⟩, trail.records, extra, ⟨⟨rfl, fun record member => ?_⟩, rfl⟩, rfl, rfl⟩
  · simp only [writeTrail, headOf, id_eq, List.append_assoc]
  · have fits := short record member
    exact ⟨fits, Nat.lt_of_le_of_lt fits f.recordFits⟩

/-- Trails round-trip through every route: encoded and decoded, decoded and encoded again, streamed in whatever chunks and with
long terms kept or skipped; and no accepted frame goes on from another. -/
theorem trails_roundtrip (f : TrailProfile) :
    (∀ trail budget bytes, encodeTrail f trail budget = .ok bytes → decodeTrail f bytes budget = .ok trail) ∧
    (∀ trail budget bytes, bytes.length ≤ maxSafeInteger → decodeTrail f bytes budget = .ok trail →
      encodeTrail f trail budget = .ok bytes) ∧
    (∀ total options chunks, FrameFeed.read (readTrail f total options) chunks =
      FrameFeed.read (readTrail f total options) [chunks.flatten]) ∧
    (∀ total chunks told, FrameFeed.read (readTrail f total ⟨true, none, (0, 0)⟩) chunks = .ok told ↔
      chunks.flatten.length = total ∧ ∃ trail, decodeTrail f chunks.flatten none = .ok trail ∧ told = trail.told) ∧
    (∀ total chunks told, FrameFeed.read (readTrail f total ⟨false, none, (0, 0)⟩) chunks = .ok told ↔
      chunks.flatten.length = total ∧ ∃ trail, decodeTrail f chunks.flatten none = .ok trail ∧ told = trail.told.short f) ∧
    ∀ bytes extra budget budget' trail trail', decodeTrail f bytes budget = .ok trail →
      decodeTrail f (bytes ++ extra) budget' = .ok trail' → extra = [] := by
  have whole (total : Nat) (options : TrailReading) (chunks : List Bytes) (told : ToldTrail) :
      FrameFeed.read (readTrail f total options) chunks = .ok told ↔
        Pull.parse truncatedFrame (readTrail f total options) chunks.flatten = .ok (told, []) := by
    rw [FrameFeed.read_eq (readTrail_steady _), Pull.whole_eq_ok]
  have kept (total : Nat) (input : Bytes) (told : ToldTrail) :
      Pull.parse truncatedFrame (readTrail f total ⟨true, none, (0, 0)⟩) input = .ok (told, []) ↔
        input.length = total ∧ ∃ trail, decodeTrail f input none = .ok trail ∧ told = trail.told := by
    simp only [readTrail_eq_ok, decodeTrail_eq_ok, List.append_nil]
    constructor
    · rintro ⟨trail, rfl, framed, bound, few, rfl, rfl⟩
      exact ⟨rfl, trail, ⟨none, rfl, framed, bound, few, rfl, rfl⟩, rfl⟩
    · rintro ⟨rfl, trail, ⟨budget, bounded, framed, bound, -, -, rfl⟩, rfl⟩
      exact ⟨trail, rfl, framed, bound, rfl, rfl, rfl⟩
  refine ⟨?_, ?_, ?_, ?_, ?_, ?_⟩
  · intro trail budget bytes encoded
    obtain ⟨own, bounded, framed, few, fits, safe, rfl⟩ := encodeTrail_eq_ok.mp encoded
    have size := writeTrail_length (f := f) trail
    have records := writeRecords_length trail.records
    have safe : (writeTrail f trail).length ≤ 2 ^ 53 - 1 := safe
    exact decodeTrail_eq_ok.mpr ⟨own, bounded, framed, by omega, few, fits, rfl⟩
  · intro trail budget bytes safe decoded
    obtain ⟨own, bounded, framed, -, few, fits, rfl⟩ := decodeTrail_eq_ok.mp decoded
    exact encodeTrail_eq_ok.mpr ⟨own, bounded, framed, few, fits, safe, rfl⟩
  · intro total options chunks
    rw [FrameFeed.read_eq (readTrail_steady _), FrameFeed.read_eq (readTrail_steady _), List.flatten_singleton]
  · intro total chunks told
    rw [whole, kept]
  · intro total chunks told
    rw [whole, readTrail_short]
    change (fun read : ToldTrail × Bytes => (read.1.short f, read.2)) <$>
      Pull.parse truncatedFrame (readTrail f total ⟨true, none, (0, 0)⟩) chunks.flatten = .ok (told, []) ↔ _
    constructor
    · intro read
      cases ran : Pull.parse truncatedFrame (readTrail f total ⟨true, none, (0, 0)⟩) chunks.flatten with
      | error failure =>
        rw [ran] at read
        cases read
      | ok at_ =>
        rw [ran] at read
        obtain ⟨rfl, last⟩ := Prod.mk.inj (Except.ok.inj read)
        obtain ⟨read, rest⟩ := at_
        obtain rfl : rest = [] := last
        obtain ⟨length, trail, decoded, rfl⟩ := (kept _ _ _).mp ran
        exact ⟨length, trail, decoded, rfl⟩
    · rintro ⟨length, trail, decoded, rfl⟩
      rw [(kept total chunks.flatten trail.told).mpr ⟨length, trail, decoded, rfl⟩]
      rfl
  · intro bytes extra budget budget' trail trail' decoded longer
    obtain ⟨-, -, framed, bound, -, -, rfl⟩ := decodeTrail_eq_ok.mp decoded
    obtain ⟨-, -, framed', bound', -, -, same⟩ := decodeTrail_eq_ok.mp longer
    have first := readFields_writeTrail framed bound extra
    have second := readFields_writeTrail framed' bound' []
    rw [List.append_nil, ← same, first, Except.ok.injEq, Prod.mk.injEq] at second
    exact second.2

end Transport

end Moe
