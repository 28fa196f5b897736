import Moe.Transport.Trails

namespace Moe

namespace Transport

variable {s t : Bytes}

theorem parse_check {condition : Bool} {what : String} {done : Unit} :
    Pull.parse truncatedFrame (check condition what) s = .ok (done, t) ↔ condition = true ∧ t = s := by
  rw [check, Pull.parse_lift, require_eq_ok]

theorem parse_return {α : Type} {value a : α} :
    Pull.parse truncatedFrame (pure value : FrameReader α) s = .ok (a, t) ↔ a = value ∧ t = s := by
  rw [Pull.parse_pure, Except.ok.injEq, Prod.mk.injEq, eq_comm (a := value), eq_comm (a := s)]

/-- A field of four bytes is the integer of the four bytes it writes. -/
theorem ofBytes_four {bytes : Bytes} (four : bytes.length = 4) : ofBytes bytes < 2 ^ 32 ∧ toBytes 4 (ofBytes bytes) = bytes := by
  refine ⟨?_, ?_⟩
  · have bound := ofBytes_lt bytes
    rw [four] at bound
    exact bound
  · rw [← four, toBytes_ofBytes]

theorem ofBytes_eight {bytes : Bytes} (eight : bytes.length = 8) : ofBytes bytes < 2 ^ 64 ∧ toBytes 8 (ofBytes bytes) = bytes := by
  refine ⟨?_, ?_⟩
  · have bound := ofBytes_lt bytes
    rw [eight] at bound
    exact bound
  · rw [← eight, toBytes_ofBytes]

/-- A terms field whose frame's lengths hold. -/
def TermField.Framed (term : TermField) : Prop := term.signature.length = 64 ∧ term.terms.length < 2 ^ 32

def TermField.told (term : TermField) : ToldTerms := ⟨some term.terms, term.signature⟩

theorem writeTerm_length {term : TermField} (framed : term.Framed) : (writeTerm term).length = 68 + term.terms.length := by
  simp only [writeTerm, lengthPrefixed, List.length_append, toBytes_length, framed.1]
  omega

section Parts

variable {f : TrailProfile} {total : Nat}

theorem readTerm_eq_ok {told : ToldTerms} {consumed after : Nat} :
    Pull.parse truncatedFrame (readTerm f total true consumed) s = .ok ((told, after), t) ↔
      ∃ term : TermField, told = term.told ∧ term.Framed ∧ after = consumed + (writeTerm term).length ∧ after ≤ total ∧
        s = writeTerm term ++ t := by
  simp only [readTerm, Pull.parse_bind, read_bind_eq_ok, Pull.parse_take, parse_check, Bool.true_or, if_true, parse_return, Prod.mk.injEq,
    decide_eq_true_eq]
  constructor
  · rintro ⟨four, _, ⟨width, rfl⟩, _, _, ⟨fits, rfl⟩, terms, _, ⟨length, rfl⟩, signature, _, ⟨signed, rfl⟩, ⟨rfl, rfl⟩, rfl⟩
    obtain ⟨bound, same⟩ := ofBytes_four width
    have framed : TermField.Framed ⟨terms, signature⟩ := ⟨signed, by rw [length]; exact bound⟩
    have long : (writeTerm ⟨terms, signature⟩).length = 68 + ofBytes four := by
      rw [writeTerm_length framed]
      exact congrArg (68 + ·) length
    refine ⟨⟨terms, signature⟩, rfl, framed, by omega, by omega, ?_⟩
    rw [writeTerm, lengthPrefixed, length, same, List.append_assoc, List.append_assoc]
  · rintro ⟨term, rfl, framed, rfl, fits, rfl⟩
    have long := writeTerm_length framed
    have back : ofBytes (toBytes 4 term.terms.length) = term.terms.length := ofBytes_toBytes framed.2
    refine ⟨toBytes 4 term.terms.length, _, ⟨toBytes_length _ _, ?_⟩, (), _, ⟨by omega, rfl⟩, term.terms, _, ⟨back.symm, rfl⟩, term.signature,
      t, ⟨framed.1, rfl⟩, ⟨rfl, by omega⟩, rfl⟩
    rw [writeTerm, lengthPrefixed, List.append_assoc, List.append_assoc]

theorem readTerms_eq_ok {told : List ToldTerms} {count consumed after : Nat} :
    Pull.parse truncatedFrame (readTerms f total true count consumed) s = .ok ((told, after), t) ↔
      ∃ terms : List TermField, told = terms.map TermField.told ∧ terms.length = count ∧ (∀ term ∈ terms, term.Framed) ∧
        after = consumed + (terms.flatMap writeTerm).length ∧ (terms ≠ [] → after ≤ total) ∧ s = terms.flatMap writeTerm ++ t := by
  induction count generalizing told consumed after s t with
  | zero =>
    rw [readTerms, parse_return, Prod.mk.injEq]
    constructor
    · rintro ⟨⟨rfl, rfl⟩, rfl⟩
      exact ⟨[], rfl, rfl, by simp, rfl, fun some_ => absurd rfl some_, rfl⟩
    · rintro ⟨terms, rfl, none_, -, rfl, -, rfl⟩
      obtain rfl := List.length_eq_zero_iff.mp none_
      exact ⟨⟨rfl, rfl⟩, rfl⟩
  | succ count ih =>
    simp only [readTerms, Pull.parse_bind, read_bind_eq_ok, Prod.exists, readTerm_eq_ok, ih, parse_return, Prod.mk.injEq]
    constructor
    · rintro ⟨_, _, _, ⟨term, rfl, framed, rfl, fits, rfl⟩, _, _, _, ⟨terms, rfl, rfl, all, rfl, inside, rfl⟩, ⟨rfl, rfl⟩, rfl⟩
      refine ⟨term :: terms, rfl, rfl, List.forall_mem_cons.mpr ⟨framed, all⟩, ?_, fun _ => ?_, ?_⟩
      · rw [List.flatMap_cons, List.length_append]
        omega
      · by_cases last : terms = []
        · rw [last]
          simpa using fits
        · exact inside last
      · rw [List.flatMap_cons, List.append_assoc]
    · rintro ⟨terms, rfl, many, all, rfl, inside, rfl⟩
      cases terms with
      | nil => cases many
      | cons term terms =>
        obtain ⟨framed, all⟩ := List.forall_mem_cons.mp all
        have inside := inside (List.cons_ne_nil _ _)
        rw [List.flatMap_cons, List.length_append] at inside
        refine ⟨term.told, _, _, ⟨term, rfl, framed, rfl, by omega, ?_⟩, terms.map TermField.told, _, t,
          ⟨terms, rfl, Nat.succ.inj many, all, rfl, fun _ => by omega, rfl⟩, ⟨rfl, ?_⟩, rfl⟩
        · rw [List.flatMap_cons, List.append_assoc]
        · rw [List.flatMap_cons, List.length_append]
          omega

theorem lengthPrefixed_length (bytes : Bytes) : (lengthPrefixed bytes).length = 4 + bytes.length := by
  rw [lengthPrefixed, List.length_append, toBytes_length]

theorem readRecord_eq_ok {record : Bytes} {consumed after : Nat} :
    Pull.parse truncatedFrame (readRecord f total consumed) s = .ok ((record, after), t) ↔
      record.length ≤ f.maxRecordBytes ∧ after = consumed + (lengthPrefixed record).length ∧ after ≤ total ∧ s = lengthPrefixed record ++ t := by
  simp only [readRecord, Pull.parse_bind, read_bind_eq_ok, Pull.parse_take, parse_check, parse_return, Prod.mk.injEq, Bool.and_eq_true,
    decide_eq_true_eq]
  constructor
  · rintro ⟨four, _, ⟨width, rfl⟩, _, _, ⟨⟨short, fits⟩, rfl⟩, _, _, ⟨length, rfl⟩, ⟨rfl, rfl⟩, rfl⟩
    obtain ⟨bound, same⟩ := ofBytes_four width
    have long := lengthPrefixed_length record
    refine ⟨by omega, by omega, by omega, ?_⟩
    rw [lengthPrefixed, length, same, List.append_assoc]
  · rintro ⟨short, rfl, fits, rfl⟩
    have long := lengthPrefixed_length record
    have bound := f.recordFits
    have back : ofBytes (toBytes 4 record.length) = record.length := ofBytes_toBytes (Nat.lt_of_le_of_lt short bound)
    refine ⟨toBytes 4 record.length, _, ⟨toBytes_length _ _, ?_⟩, (), _, ⟨⟨by omega, by omega⟩, rfl⟩, record, t, ⟨back.symm, rfl⟩,
      ⟨rfl, by omega⟩, rfl⟩
    rw [lengthPrefixed, List.append_assoc]

theorem readRecords_eq_ok {records : List Bytes} {count consumed after : Nat} :
    Pull.parse truncatedFrame (readRecords f total count consumed) s = .ok ((records, after), t) ↔
      records.length = count ∧ (∀ record ∈ records, record.length ≤ f.maxRecordBytes) ∧
        after = consumed + (records.flatMap lengthPrefixed).length ∧ (records ≠ [] → after ≤ total) ∧
        s = records.flatMap lengthPrefixed ++ t := by
  induction count generalizing records consumed after s t with
  | zero =>
    rw [readRecords, parse_return, Prod.mk.injEq]
    constructor
    · rintro ⟨⟨rfl, rfl⟩, rfl⟩
      exact ⟨rfl, by simp, rfl, fun some_ => absurd rfl some_, rfl⟩
    · rintro ⟨none_, -, rfl, -, rfl⟩
      obtain rfl := List.length_eq_zero_iff.mp none_
      exact ⟨⟨rfl, rfl⟩, rfl⟩
  | succ count ih =>
    simp only [readRecords, Pull.parse_bind, read_bind_eq_ok, Prod.exists, readRecord_eq_ok, ih, parse_return, Prod.mk.injEq]
    constructor
    · rintro ⟨record, _, _, ⟨short, rfl, fits, rfl⟩, records, _, _, ⟨rfl, all, rfl, inside, rfl⟩, ⟨rfl, rfl⟩, rfl⟩
      refine ⟨rfl, List.forall_mem_cons.mpr ⟨short, all⟩, ?_, fun _ => ?_, ?_⟩
      · rw [List.flatMap_cons, List.length_append]
        omega
      · by_cases last : records = []
        · rw [last]
          simpa using fits
        · exact inside last
      · rw [List.flatMap_cons, List.append_assoc]
    · rintro ⟨many, all, rfl, inside, rfl⟩
      cases records with
      | nil => cases many
      | cons record records =>
        obtain ⟨short, all⟩ := List.forall_mem_cons.mp all
        have inside := inside (List.cons_ne_nil _ _)
        rw [List.flatMap_cons, List.length_append] at inside
        refine ⟨record, _, _, ⟨short, rfl, by omega, ?_⟩, records, _, t, ⟨Nat.succ.inj many, all, rfl, fun _ => by omega, rfl⟩, ⟨rfl, ?_⟩, rfl⟩
        · rw [List.flatMap_cons, List.append_assoc]
        · rw [List.flatMap_cons, List.length_append]
          omega

/-- A header whose bytes meet the checks made before its full decoding, with its count of scoped terms. -/
def HeaderFramed (f : TrailProfile) (header : Bytes) (count : Nat) : Prop :=
  (minHeaderBytes f.headerContext ≤ header.length ∧ header.length ≤ maxHeaderBytes f.headerContext) ∧ contextAt header f.headerContext = .ok () ∧
    count = u32At header (f.prefixBytes - 4) ∧ (1 ≤ count ∧ count ≤ 65536) ∧ header.length = f.prefixBytes + 136 * count

theorem readHead_eq_ok {header : Bytes} {count consumed : Nat} :
    Pull.parse truncatedFrame (readHead f total) s = .ok ((header, count, consumed), t) ↔
      HeaderFramed f header count ∧ consumed = f.context.length + 4 + header.length ∧ f.fixed + minHeaderBytes f.headerContext + 68 ≤ total ∧
        consumed ≤ total ∧ 68 * count + 8 ≤ total - consumed ∧ s = f.context ++ lengthPrefixed header ++ t := by
  simp only [readHead, Pull.parse_bind, read_bind_eq_ok, Pull.parse_take, Pull.parse_lift, parse_check, parse_return, Prod.mk.injEq,
    Bool.and_eq_true, decide_eq_true_eq]
  constructor
  · rintro ⟨_, _, ⟨least, rfl⟩, head, _, ⟨width, rfl⟩, _, _, ⟨opened, rfl⟩, _, _, ⟨⟨⟨low, high⟩, fits⟩, rfl⟩, _, _, ⟨length, rfl⟩, _, _,
      ⟨inner, rfl⟩, _, _, ⟨⟨range, size⟩, rfl⟩, _, _, ⟨room, rfl⟩, ⟨rfl, rfl, rfl⟩, rfl⟩
    have context : head.take f.context.length = f.context := of_decide_eq_true (require_eq_ok.mp opened)
    have four : (head.drop f.context.length).length = 4 := by
      rw [List.length_drop, width]
      omega
    have field : u32At head f.context.length = ofBytes (head.drop f.context.length) := by
      rw [u32At, List.take_of_length_le (Nat.le_of_eq four)]
    obtain ⟨-, same⟩ := ofBytes_four four
    have whole : head = f.context ++ toBytes 4 header.length := by
      rw [length, field, same]
      exact (List.take_append_drop _ _).symm.trans (by rw [context])
    rw [← length] at low high fits size room
    refine ⟨⟨⟨low, high⟩, inner, rfl, range, size⟩, by rw [width, length], least, ?_, ?_, ?_⟩
    · rw [width] at fits ⊢
      rw [← length]
      exact fits
    · rw [← length]
      exact room
    · rw [lengthPrefixed, whole]
      simp only [List.append_assoc]
  · rintro ⟨⟨⟨low, high⟩, inner, rfl, range, size⟩, rfl, least, fits, room, rfl⟩
    have bound := f.headerFits
    have back : ofBytes (toBytes 4 header.length) = header.length := ofBytes_toBytes (Nat.lt_of_le_of_lt high bound)
    have width : (f.context ++ toBytes 4 header.length).length = f.context.length + 4 := by
      rw [List.length_append, toBytes_length]
    have field : u32At (f.context ++ toBytes 4 header.length) f.context.length = header.length := by
      rw [u32At, List.drop_left, List.take_of_length_le (Nat.le_of_eq (toBytes_length _ _)), back]
    have opened : contextAt (f.context ++ toBytes 4 header.length) f.context = .ok () := by
      rw [contextAt, List.take_left]
      simp
    refine ⟨(), _, ⟨least, rfl⟩, f.context ++ toBytes 4 header.length, header ++ t, ⟨width, ?_⟩, (), _, ⟨opened, rfl⟩, (), _, ⟨⟨⟨?_, ?_⟩, ?_⟩, rfl⟩,
      header, t, ⟨field.symm, rfl⟩, (), _, ⟨inner, rfl⟩, (), _, ⟨⟨range, ?_⟩, rfl⟩, (), _, ⟨?_, rfl⟩, ⟨rfl, rfl, ?_⟩, rfl⟩
    · rw [lengthPrefixed]
      simp only [List.append_assoc]
    all_goals rw [field]
    · exact low
    · exact high
    · rw [width]
      exact fits
    · exact size
    · rw [width]
      exact room
    · rw [width]

/-- A trail whose frame's counts and lengths hold and whose header decodes. -/
def ServedTrail.Framed (f : TrailProfile) (trail : ServedTrail) : Prop :=
  HeaderFramed f trail.header trail.terms.length ∧ (∀ term ∈ trail.terms, term.Framed) ∧
    (∀ record ∈ trail.records, record.length ≤ f.maxRecordBytes) ∧ ∃ header, decodeSegmentHeader f.headerContext trail.header = .ok header

def ServedTrail.told (trail : ServedTrail) : ToldTrail :=
  ⟨trail.header, trail.terms.map TermField.told, trail.records.length, trail.records⟩

theorem writeTerms_length {terms : List TermField} (framed : ∀ term ∈ terms, term.Framed) :
    (terms.flatMap writeTerm).length = 68 * terms.length + (terms.map (·.terms.length)).sum := by
  induction terms with
  | nil => rfl
  | cons term terms ih =>
    obtain ⟨first, rest⟩ := List.forall_mem_cons.mp framed
    rw [List.flatMap_cons, List.length_append, writeTerm_length first, ih rest, List.map_cons, List.sum_cons, List.length_cons]
    omega

theorem writeRecords_length (records : List Bytes) :
    (records.flatMap lengthPrefixed).length = 4 * records.length + (records.map List.length).sum := by
  induction records with
  | nil => rfl
  | cons record records ih =>
    rw [List.flatMap_cons, List.length_append, lengthPrefixed_length, ih, List.map_cons, List.sum_cons, List.length_cons]
    omega

theorem writeTrail_length (trail : ServedTrail) : (writeTrail f trail).length =
    f.fixed + trail.header.length + (trail.terms.flatMap writeTerm).length + (trail.records.flatMap lengthPrefixed).length := by
  simp only [writeTrail, headOf, List.length_append, lengthPrefixed_length, toBytes_length, TrailProfile.fixed]
  omega

theorem readTrail_eq_ok {budget : Option TrailLimits} {told : ToldTrail} :
    Pull.parse truncatedFrame (readTrail f total ⟨true, budget, (0, 0)⟩) s = .ok (told, t) ↔
      ∃ trail : ServedTrail, told = trail.told ∧ trail.Framed f ∧ trail.records.length < 2 ^ 64 ∧
        eventBudget trail.records.length budget = .ok () ∧ (writeTrail f trail).length = total ∧ s = writeTrail f trail ++ t := by
  simp only [readTrail, Pull.parse_bind, read_bind_eq_ok, Prod.exists, readHead_eq_ok, readTerms_eq_ok, Pull.parse_take, Pull.parse_lift,
    parse_check, readRecords_eq_ok, parse_return, Bool.and_eq_true, decide_eq_true_eq, Nat.sub_zero, Nat.add_zero]
  constructor
  · rintro ⟨header, _, _, _, ⟨opened, rfl, -, -, -, rfl⟩, _, _, _, ⟨terms, rfl, rfl, framed, rfl, -, rfl⟩, _, _, ⟨-, rfl⟩, eight, _,
      ⟨width, rfl⟩, _, _, ⟨few, rfl⟩, _, _, ⟨-, rfl⟩, _, _, ⟨-, rfl⟩, records, _, _, ⟨many, short, rfl, -, rfl⟩, _, _, ⟨last, rfl⟩, decoded, _,
      ⟨whole, rfl⟩, rfl, rfl⟩
    obtain ⟨bound, same⟩ := ofBytes_eight width
    rw [← many] at few bound same
    refine ⟨⟨header, terms, records⟩, ?_, ⟨opened, framed, short, decoded, whole⟩, bound, few, ?_, ?_⟩
    · simp only [ServedTrail.told, many]
    · rw [writeTrail_length, ← last]
      simp only [TrailProfile.fixed]
      omega
    · simp only [writeTrail, headOf, same, List.append_assoc]
  · rintro ⟨⟨header, terms, records⟩, rfl, ⟨opened, framed, short, decoded, whole⟩, bound, few, rfl, rfl⟩
    have size := writeTrail_length (f := f) ⟨header, terms, records⟩
    have terms_ := writeTerms_length framed
    have records_ := writeRecords_length records
    have back : ofBytes (toBytes 8 records.length) = records.length := ofBytes_toBytes bound
    obtain ⟨low, -⟩ := opened.1
    obtain ⟨one, -⟩ := opened.2.2.2.1
    simp only [TrailProfile.fixed] at size low one terms_ records_
    refine ⟨header, terms.length, f.context.length + 4 + header.length, _, ⟨opened, rfl, ?_, by omega, by omega, ?_⟩, _, _, _,
      ⟨terms, rfl, rfl, framed, rfl, fun _ => by omega, rfl⟩, (), _, ⟨by omega, rfl⟩, toBytes 8 records.length, _, ⟨toBytes_length _ _, rfl⟩,
      (), _, ⟨?_, rfl⟩, (), _, ⟨?_, rfl⟩, (), _, ⟨⟨Nat.zero_le _, Nat.zero_le _⟩, rfl⟩, records, _, t, ⟨back.symm, short, rfl, fun _ => by omega, rfl⟩,
      (), _, ⟨by omega, rfl⟩, decoded, _, ⟨whole, rfl⟩, ?_, rfl⟩
    · simp only [TrailProfile.fixed]
      omega
    · simp only [writeTrail, headOf, List.append_assoc]
    · rw [back]
      exact few
    · rw [back]
      omega
    · rw [back]
      rfl

end Parts

end Transport

end Moe
