import Moe.Pool.TermsCodec

namespace Moe.Terms

variable {p : Profile} {fields : ConstructionTerms} {s t : Bytes}

theorem own_eq_ok {bytes result : Bytes} {max : Nat} {what : String} {whole : Bool} :
    own bytes max what whole = .ok result ↔ (bytes.length ≤ max ∧ (whole = true → bytes.length = max)) ∧ bytes = result := by
  rw [own, bind_unit_eq_ok, require_eq_ok, pure_eq_ok]
  cases whole <;> simp

theorem unsigned_eq_ok {value max : Nat} {what : String} {done : Unit} : unsigned value max what = .ok done ↔ value ≤ max := by
  rw [unsigned, require_eq_ok, decide_eq_true_eq]

theorem ifPresent_eq_ok {α : Type} {check : α → Except Failure Unit} {field : Option α} {done : Unit} :
    ifPresent check field = .ok done ↔ ∀ value ∈ field, check value = .ok () := by
  cases field <;> simp [ifPresent]

/-- What is written of a payout. -/
def Payout.bytes (payout : Payout) : Bytes :=
  toBytes 1 1 ++ lengthPrefixed payout.thing.textEncode ++ signedByte payout.quantumExponent ++
    lengthPrefixed (bigintToMinimalBytes payout.perUnit)

namespace ConstructionTerms

/-- What the clauses of terms say. -/
def found (fields : ConstructionTerms) : Found where
  venue := some (fields.venue, fields.interval)
  configuration := some fields.configuration
  silence := fields.silence
  replacementRule := fields.replacementRule
  nonService := fields.nonService

/-- What is written before the clauses. -/
def head (fields : ConstructionTerms) : Bytes :=
  magic ++ toBytes 1 1 ++ toBytes 1 1 ++ fields.obligor ++ fields.payout.bytes ++ toBytes 4 0 ++ toBytes 1 5 ++ fields.operator

/-- Their bytes: the head, and the clauses each after its tag. -/
def bytes (p : Profile) (fields : ConstructionTerms) : Bytes :=
  fields.head ++ toBytes 4 (fields.found.clauses p.construction).length ++ (fields.found.clauses p.construction).flatMap Clause.write

end ConstructionTerms

/-- What the checks on a payout leave. -/
structure Payout.Valid (payout : Payout) : Prop where
  some_ : payout.thing.length ≠ 0 ∧ payout.thing.length ≤ 1024
  well : payout.thing.isWellFormed = true
  short : payout.thing.textEncode.length ≤ 1024
  exponent : -128 ≤ payout.quantumExponent ∧ payout.quantumExponent ≤ 127
  quantity : 1 ≤ payout.perUnit ∧ payout.perUnit < 2 ^ 256

theorem ownPayout_eq_ok {payout : Payout} {bytes : Bytes} :
    ownPayout payout = .ok bytes ↔ payout.Valid ∧ bytes = payout.thing.textEncode := by
  simp only [ownPayout, bind_eq_ok, require_eq_ok, pure_eq_ok, Bool.and_eq_true, decide_eq_true_eq, maxQuantityBytes]
  constructor
  · rintro ⟨_, ⟨some_, well⟩, _, short, _, exponent, _, quantity, rfl⟩
    exact ⟨⟨some_, well, short, exponent, quantity.1, of_decide_eq_true quantity.2⟩, rfl⟩
  · rintro ⟨⟨some_, well, short, exponent, quantity⟩, rfl⟩
    exact ⟨(), ⟨some_, well⟩, (), short, (), exponent, (), ⟨quantity.1, decide_eq_true quantity.2⟩, rfl⟩

/-- The checks on a silence clause are those on the clause it is written as. -/
theorem ownSilence_eq_ok {silence : Silence} : ownSilence p silence = .ok () ↔
    match silence with
    | ⟨duration, some challengeWindow⟩ => (Clause.window duration challengeWindow).Valid p
    | ⟨duration, none⟩ => (Clause.lapse duration).Valid p := by
  obtain ⟨duration, challengeWindow⟩ := silence
  rw [ownSilence, bind_unit_eq_ok, unsigned_eq_ok, maxU64]
  cases tag : p.silenceTag <;> cases challengeWindow <;>
    simp only [Clause.Valid, tag, unsigned_eq_ok, true_and, and_true, reduceCtorEq, and_false, false_and] <;> omega

theorem ownNonService_eq_ok {nonService : NonService} : ownNonService nonService = .ok () ↔ (Clause.nonService nonService).Valid p := by
  simp only [ownNonService, bind_unit_eq_ok, unsigned_eq_ok, maxU64, Clause.Valid]
  omega

theorem clauses_valid : (∀ c ∈ fields.found.clauses p.construction, c.Valid p) ↔
    (∀ silence ∈ fields.silence, ownSilence p silence = .ok ()) ∧ (fields.venue.length = 32 ∧ fields.interval < 2 ^ 64) ∧
      (∀ rule ∈ fields.replacementRule, rule.length = 32) ∧ (∀ n ∈ fields.nonService, ownNonService n = .ok ()) ∧
      fields.configuration.length = 32 := by
  simp only [ownSilence_eq_ok, ownNonService_eq_ok (p := p)]
  obtain ⟨_, _, _, _, _, _, silence, rule, nonService⟩ := fields
  rcases silence with _ | ⟨duration, _ | challengeWindow⟩ <;> rcases rule with _ | rule <;> rcases nonService with _ | nonService <;>
    simp [ConstructionTerms.found, Found.clauses, Clause.Valid] <;> tauto

/-- The clauses are written one by one, a silence clause where its tag stands. -/
theorem written_eq_bytes (silent : ∀ silence ∈ fields.silence, ownSilence p silence = .ok ()) :
    magic ++ toBytes 1 1 ++ toBytes 1 1 ++ fields.obligor ++
      toBytes 1 1 ++ lengthPrefixed fields.payout.thing.textEncode ++ signedByte fields.payout.quantumExponent ++
      lengthPrefixed (bigintToMinimalBytes fields.payout.perUnit) ++ toBytes 4 0 ++
      toBytes 1 5 ++ fields.operator ++
      toBytes 4 (2 + fields.silence.isSome.toNat + fields.replacementRule.isSome.toNat + fields.nonService.isSome.toNat) ++
      (if p.silenceTag = .one then fields.silence.elim [] fun s =>
        toBytes 1 1 ++ toBytes 8 s.noCommitmentDuration ++ toBytes 8 (s.challengeWindow.getD 0) else []) ++
      toBytes 1 2 ++ fields.venue ++ toBytes 8 fields.interval ++
      (fields.replacementRule.elim [] fun rule => toBytes 1 3 ++ rule) ++
      (fields.nonService.elim [] fun n => toBytes 1 4 ++ toBytes 8 n.duration ++ toBytes 4 n.count ++ toBytes 8 n.window) ++
      toBytes 1 5 ++ lengthPrefixed p.construction ++ fields.configuration ++
      (if p.silenceTag = .six then fields.silence.elim [] fun s => toBytes 1 6 ++ toBytes 8 s.noCommitmentDuration else []) =
    fields.bytes p := by
  simp only [ownSilence_eq_ok] at silent
  obtain ⟨_, _, _, _, _, _, silence, rule, nonService⟩ := fields
  rcases silence with _ | ⟨duration, _ | challengeWindow⟩ <;> cases rule <;> cases nonService <;> cases tag : p.silenceTag <;>
    simp_all [ConstructionTerms.bytes, ConstructionTerms.head, Payout.bytes, ConstructionTerms.found, Found.clauses, Clause.write, Clause.tag, Clause.payload, Clause.Valid]

theorem terms_eq_ok {found : Found} {obligor operator : Bytes} {payout : Payout} :
    found.terms obligor payout operator = .ok fields ↔
      found = fields.found ∧ obligor = fields.obligor ∧ payout = fields.payout ∧ operator = fields.operator := by
  obtain ⟨venue, configuration, silence, rule, nonService⟩ := found
  unfold Found.terms ConstructionTerms.found
  constructor
  · intro ran
    split at ran
    · rename_i at_ conf
      simp only at at_ conf
      obtain rfl := Except.ok.inj ran
      exact ⟨by rw [at_, conf], rfl, rfl, rfl⟩
    · cases ran
  · rintro ⟨same, rfl, rfl, rfl⟩
    obtain ⟨rfl, rfl, rfl, rfl, rfl⟩ := Found.mk.inj same
    rfl

theorem clauses_length (found : Found) (name : Bytes) : (found.clauses name).length ≤ 5 := by
  obtain ⟨venue, configuration, silence, rule, nonService⟩ := found
  rcases silence with _ | ⟨duration, _ | challengeWindow⟩ <;> cases venue <;> cases rule <;> cases nonService <;> cases configuration <;>
    simp [Found.clauses]

theorem two_le_clauses_length : 2 ≤ (fields.found.clauses p.construction).length := by
  simp only [ConstructionTerms.found, Found.clauses, Option.elim_some, List.length_append, List.length_singleton]
  omega

theorem clauses_chain (found : Found) (name : Bytes) : (0 :: (found.clauses name).map Clause.tag).IsChain (· < ·) := by
  obtain ⟨venue, configuration, silence, rule, nonService⟩ := found
  rcases silence with _ | ⟨duration, _ | challengeWindow⟩ <;> cases venue <;> cases rule <;> cases nonService <;> cases configuration <;>
    simp [Found.clauses, Clause.tag]

/-- The clauses written are taken back one by one. -/
theorem foldl_take_clauses (fields : ConstructionTerms) (name : Bytes) : (fields.found.clauses name).foldl Found.take {} = fields.found := by
  obtain ⟨_, _, _, _, _, _, silence, rule, nonService⟩ := fields
  rcases silence with _ | ⟨duration, _ | challengeWindow⟩ <;> cases rule <;> cases nonService <;>
    simp [ConstructionTerms.found, Found.clauses, Found.take]

theorem written_length_le (clauses : ∀ c ∈ fields.found.clauses p.construction, c.Valid p) :
    ((fields.found.clauses p.construction).flatMap Clause.write).length ≤
      149 + p.construction.length - if p.silenceTag = .one then 0 else 8 := by
  obtain ⟨silent, ⟨width', -⟩, widths, -, width⟩ := clauses_valid.mp clauses
  simp only [ownSilence_eq_ok] at silent
  obtain ⟨_, _, _, configuration, venue, _, silence, rule, nonService⟩ := fields
  rcases silence with _ | ⟨duration, _ | challengeWindow⟩ <;> cases rule <;> cases nonService <;> cases tag : p.silenceTag <;>
    simp_all [ConstructionTerms.found, Found.clauses, Clause.write, Clause.payload, Clause.Valid, lengthPrefixed] <;> omega

theorem readPrefix_eq_ok {done : Unit} : readPrefix s = .ok (done, t) ↔ s = magic ++ toBytes 1 1 ++ toBytes 1 1 ++ t := by
  simp only [readPrefix, read_bind_eq_ok, read_lift_eq_ok, Reader.raw_inverts _ _ _ _, Reader.u8_inverts _ _ _, require_eq_ok, decide_eq_true_eq]
  constructor
  · rintro ⟨_, _, ⟨-, rfl⟩, _, _, ⟨rfl, rfl⟩, _, _, ⟨-, rfl⟩, _, _, ⟨rfl, rfl⟩, _, _, ⟨-, rfl⟩, rfl, rfl⟩
    simp only [id_eq, List.append_assoc]
  · rintro rfl
    refine ⟨magic, _, ⟨rfl, ?_⟩, (), _, ⟨rfl, rfl⟩, 1, _, ⟨by decide, rfl⟩, (), _, ⟨rfl, rfl⟩, 1, t, ⟨by decide, rfl⟩, rfl, rfl⟩
    simp only [id_eq, List.append_assoc]

/-- A payout that was read is written as what it was read from. -/
theorem bytes_of_readPayout {payout : Payout} (read : readPayout s = .ok (payout, t)) : s = payout.bytes ++ t := by
  simp only [readPayout, read_bind_eq_ok, read_lift_eq_ok, read_pure_eq_ok, Reader.u8_inverts _ _ _, Reader.lengthPrefixed_inverts _ _ _ _,
    readSignedByte_inverts _ _ _, minimalBytesToBigint_eq_ok, require_eq_ok, decide_eq_true_eq] at read
  obtain ⟨_, _, ⟨-, rfl⟩, _, _, ⟨rfl, rfl⟩, thingBytes, _, ⟨-, rfl⟩, thing, _, ⟨decoded, rfl⟩, quantumExponent, _, ⟨-, rfl⟩, quantity, _, ⟨-, rfl⟩,
    perUnit, _, ⟨rfl, rfl⟩, rfl, rfl⟩ := read
  rw [textEncode_of_decodeThing decoded]
  simp only [Payout.bytes, List.append_assoc]

theorem readPayout_bytes {payout : Payout} (valid : payout.Valid) : readPayout (payout.bytes ++ t) = .ok (payout, t) := by
  simp only [readPayout, read_bind_eq_ok, read_lift_eq_ok, read_pure_eq_ok, Reader.u8_inverts _ _ _, Reader.lengthPrefixed_inverts _ _ _ _,
    readSignedByte_inverts _ _ _, minimalBytesToBigint_eq_ok, require_eq_ok, decide_eq_true_eq]
  have short := valid.short
  have quantity : (bigintToMinimalBytes payout.perUnit).length ≤ maxQuantityBytes :=
    bigintToMinimalBytes_length_le.mpr (Nat.lt_of_lt_of_eq valid.quantity.2 (by decide))
  have quantity' : (bigintToMinimalBytes payout.perUnit).length < 2 ^ 32 := Nat.lt_of_le_of_lt quantity (by decide)
  refine ⟨1, _, ⟨by decide, ?_⟩, (), _, ⟨rfl, rfl⟩, payout.thing.textEncode, _, ⟨⟨short, by omega⟩, rfl⟩, payout.thing, _,
    ⟨(decodeThing_eq_ok valid.well).mpr rfl, rfl⟩, payout.quantumExponent, _, ⟨valid.exponent, rfl⟩, _, _, ⟨⟨quantity, quantity'⟩, rfl⟩,
    payout.perUnit, _, ⟨rfl, rfl⟩, rfl, rfl⟩
  simp only [Payout.bytes, List.append_assoc]

theorem Payout.Valid.unique {payout other : Payout} (valid : payout.Valid) (valid' : other.Valid)
    (same : payout.bytes ++ s = other.bytes ++ t) : payout = other ∧ s = t := by
  have read := readPayout_bytes (t := s) valid
  rw [same, readPayout_bytes valid', Except.ok.injEq, Prod.mk.injEq] at read
  exact ⟨read.1.symm, read.2.symm⟩

theorem Payout.Valid.length_le {payout : Payout} (valid : payout.Valid) : payout.bytes.length ≤ 1066 := by
  have short := valid.short
  have quantity : (bigintToMinimalBytes payout.perUnit).length ≤ 32 :=
    bigintToMinimalBytes_length_le.mpr (Nat.lt_of_lt_of_eq valid.quantity.2 (by decide))
  simp only [Payout.bytes, List.length_append, toBytes_length, lengthPrefixed, signedByte_length]
  omega

section Keys

variable [PublicKeys]

theorem key_eq_ok {bytes result : Bytes} {what : String} :
    key bytes what = .ok result ↔ (bytes.length = 32 ∧ isValidPublicKey bytes = true) ∧ bytes = result := by
  simp only [key, bind_eq_ok, own_eq_ok, require_eq_ok, pure_eq_ok]
  constructor
  · rintro ⟨_, ⟨⟨-, width⟩, rfl⟩, _, valid, rfl⟩
    exact ⟨⟨width trivial, valid⟩, rfl⟩
  · rintro ⟨⟨width, valid⟩, rfl⟩
    exact ⟨bytes, ⟨⟨Nat.le_of_eq width, fun _ => width⟩, rfl⟩, (), valid, rfl⟩

/-- What the checks on terms leave. -/
structure ConstructionTerms.Valid (p : Profile) (fields : ConstructionTerms) : Prop where
  obligor : fields.obligor.length = 32 ∧ isValidPublicKey fields.obligor = true
  operator : fields.operator.length = 32 ∧ isValidPublicKey fields.operator = true
  payout : fields.payout.Valid
  rule : ∀ rule ∈ fields.replacementRule, isValidPublicKey rule = true
  clauses : ∀ c ∈ fields.found.clauses p.construction, c.Valid p

/-- Terms are encoded where their checks pass, and as their bytes. -/
theorem encodeTerms_eq_ok {result : Bytes} : encodeTerms p fields = .ok result ↔ fields.Valid p ∧ result = fields.bytes p := by
  simp only [encodeTerms, bind_eq_ok, key_eq_ok, own_eq_ok, ownPayout_eq_ok, unsigned_eq_ok, ifPresent_eq_ok, pure_eq_ok]
  constructor
  · rintro ⟨_, ⟨obligor, rfl⟩, _, ⟨operator, rfl⟩, _, ⟨⟨-, width⟩, rfl⟩, _, ⟨⟨-, width'⟩, rfl⟩, _, ⟨payout, rfl⟩, _, bound, _, silent, _, ruled, _,
      served, rfl⟩
    have rules : ∀ rule ∈ fields.replacementRule, rule.length = 32 ∧ isValidPublicKey rule = true := fun rule is => by
      obtain ⟨_, own, -⟩ := ruled rule is
      exact own.1
    have below : fields.interval < 2 ^ 64 := by
      unfold maxU64 at bound
      omega
    refine ⟨⟨obligor, operator, payout, fun rule is => (rules rule is).2, ?_⟩, (written_eq_bytes silent)⟩
    exact clauses_valid.mpr ⟨silent, ⟨width' trivial, below⟩, fun rule is => (rules rule is).1, served, width trivial⟩
  · rintro ⟨⟨obligor, operator, payout, rules, clauses⟩, rfl⟩
    obtain ⟨silent, ⟨width', below⟩, widths, served, width⟩ := clauses_valid.mp clauses
    have bound : fields.interval ≤ maxU64 := by
      unfold maxU64
      omega
    exact ⟨fields.obligor, ⟨obligor, rfl⟩, fields.operator, ⟨operator, rfl⟩, fields.configuration, ⟨⟨Nat.le_of_eq width, fun _ => width⟩, rfl⟩,
      fields.venue, ⟨⟨Nat.le_of_eq width', fun _ => width'⟩, rfl⟩, _, ⟨payout, rfl⟩, (), bound, (), silent, (),
      fun rule is => ⟨rule, ⟨⟨widths rule is, rules rule is⟩, rfl⟩, trivial⟩, (), served, written_eq_bytes silent⟩

/-- What reads as terms is what encodes as the bytes read. -/
theorem readTerms_eq_ok : readTerms p s = .ok (fields, t) ↔ t = [] ∧ encodeTerms p fields = .ok s := by
  simp only [readTerms, read_bind_eq_ok, read_lift_eq_ok, read_pure_eq_ok, Reader.raw_inverts _ _ _ _, Reader.u8_inverts _ _ _,
    Reader.u32_inverts _ _ _, readPrefix_eq_ok, readClauses_eq_ok, Reader.expectEnd_eq_ok, terms_eq_ok, require_eq_ok, decide_eq_true_eq,
    Bool.and_eq_true]
  constructor
  · rintro ⟨_, s₀, same₀, obligor, s₁, ⟨-, same₁⟩, payout, s₂, paid, _, s₃, ⟨-, same₃⟩, _, _, ⟨none_, rfl⟩, _, s₄, ⟨-, same₄⟩, _, _, ⟨five, rfl⟩,
      operator, s₅, ⟨-, same₅⟩, count, s₆, ⟨-, same₆⟩, _, _, ⟨-, rfl⟩, found, s₇, ⟨clauses, many, chain, valids, taken, same₇⟩, _, _, ⟨ended, rfl⟩, fields, _,
      ⟨⟨same, rfl, rfl, rfl⟩, rfl⟩, _, _, ⟨encoded, rfl⟩, rfl, rfl⟩
    obtain ⟨valid, -⟩ := encodeTerms_eq_ok.mp encoded
    have read := Found.clauses_foldl_take chain valids
    rw [← taken, same] at read
    refine ⟨rfl, encodeTerms_eq_ok.mpr ⟨valid, ?_⟩⟩
    rw [same₀, same₁, bytes_of_readPayout paid, same₃, same₄, same₅, same₆, same₇, ended, none_, five, ← many, ConstructionTerms.bytes,
      ConstructionTerms.head, read]
    simp only [id_eq, List.append_assoc, List.append_nil]
  · rintro ⟨rfl, encoded⟩
    obtain ⟨valid, rfl⟩ := encodeTerms_eq_ok.mp encoded
    have few := clauses_length fields.found p.construction
    have many := @two_le_clauses_length p fields
    refine ⟨(), _, ?_, fields.obligor, _, ⟨valid.obligor.1, rfl⟩, fields.payout, _, readPayout_bytes valid.payout, 0, _, ⟨by decide, rfl⟩, (), _,
      ⟨rfl, rfl⟩, 5, _, ⟨by decide, rfl⟩, (), _, ⟨rfl, rfl⟩, fields.operator, _, ⟨valid.operator.1, rfl⟩,
      (fields.found.clauses p.construction).length, _, ⟨by omega, rfl⟩, (), _, ⟨⟨many, few⟩, rfl⟩, fields.found, _,
      ⟨_, rfl, clauses_chain _ _, valid.clauses, (foldl_take_clauses fields _).symm, rfl⟩, (), [], ⟨rfl, rfl⟩, fields, _,
      ⟨⟨rfl, rfl, rfl, rfl⟩, rfl⟩, _, _, ⟨encoded, rfl⟩, rfl, rfl⟩
    simp only [ConstructionTerms.bytes, ConstructionTerms.head, id_eq, List.append_assoc, List.append_nil]

theorem head_length_le (valid : fields.Valid p) : fields.head.length ≤ 1141 := by
  have payout := valid.payout.length_le
  have magic_ : magic.length = 4 := rfl
  simp only [ConstructionTerms.head, List.length_append, toBytes_length, valid.obligor.1, valid.operator.1, magic_]
  omega

/-- The bound holds every terms' bytes. -/
theorem bytes_length_le (valid : fields.Valid p) : (fields.bytes p).length ≤ p.maxBytes := by
  have first := head_length_le valid
  have rest := written_length_le valid.clauses
  simp only [ConstructionTerms.bytes, List.length_append, toBytes_length, Profile.maxBytes]
  have few : (if p.silenceTag = .one then 0 else 8) ≤ 8 := by split <;> decide
  generalize (if p.silenceTag = .one then 0 else 8) = less at rest few ⊢
  omega

/-- What decodes to terms is what they encode as, under either profile. -/
theorem decodeTerms_eq_ok : decodeTerms p s = .ok fields ↔ encodeTerms p fields = .ok s := by
  simp only [decodeTerms, bind_eq_ok, own_eq_ok, Reader.run_eq_ok, readTerms_eq_ok]
  constructor
  · rintro ⟨_, ⟨-, rfl⟩, _, rfl, encoded⟩
    exact encoded
  · intro encoded
    obtain ⟨valid, rfl⟩ := encodeTerms_eq_ok.mp encoded
    exact ⟨_, ⟨⟨bytes_length_le valid, by simp⟩, rfl⟩, [], rfl, encoded⟩

end Keys

/-- Clauses of any two constructions are told apart where they end. -/
theorem write_unique {q : Profile} {c d : Clause} (valid : c.Valid p) (valid' : d.Valid q) (same : c.write ++ s = d.write ++ t) :
    c = d ∧ s = t := by
  have range := c.tag_range
  have range' := d.tag_range
  rw [Clause.write, Clause.write, List.append_assoc, List.append_assoc] at same
  obtain ⟨tags, rest⟩ := Reader.u8_inverts.unique (a := c.tag) (b := d.tag) (by omega) (by omega) same
  have known : (∃ name configuration, c = .construction name configuration) ∨ d.Valid p := by
    cases c <;> cases d <;> simp_all [Clause.tag, Clause.Valid]
  rcases known with ⟨name, configuration, rfl⟩ | known
  · cases d with
    | construction other bytes =>
      have short := p.named.2
      have short' := q.named.2
      obtain ⟨rfl, width⟩ := valid
      obtain ⟨rfl, width'⟩ := valid'
      simp only [Clause.payload, List.append_assoc] at rest
      obtain ⟨name, rest⟩ := (Reader.lengthPrefixed_inverts 255).unique ⟨short, by omega⟩ ⟨short', by omega⟩ rest
      obtain ⟨rfl, rfl⟩ := List.append_inj rest (width.trans width'.symm)
      exact ⟨by rw [name], rfl⟩
    | _ => simp [Clause.tag] at tags
  · exact (readClause_inverts p c.tag).unique ⟨rfl, valid⟩ ⟨tags.symm, known⟩ rest

theorem flatMap_write_unique {q : Profile} {clauses other : List Clause} (count : clauses.length = other.length)
    (valids : ∀ c ∈ clauses, c.Valid p) (valids' : ∀ d ∈ other, d.Valid q)
    (same : clauses.flatMap Clause.write ++ s = other.flatMap Clause.write ++ t) : clauses = other ∧ s = t := by
  induction clauses generalizing other s t with
  | nil =>
    obtain rfl := List.length_eq_zero_iff.mp count.symm
    exact ⟨rfl, same⟩
  | cons c clauses ih =>
    obtain ⟨d, other, rfl⟩ := List.exists_cons_of_length_eq_add_one count.symm
    obtain ⟨valid, rest_⟩ := List.forall_mem_cons.mp valids
    obtain ⟨valid', rest'⟩ := List.forall_mem_cons.mp valids'
    simp only [List.flatMap_cons, List.append_assoc] at same
    obtain ⟨rfl, rest⟩ := write_unique valid valid' same
    have count : clauses.length = other.length := Nat.succ.inj count
    obtain ⟨rfl, rfl⟩ := ih count rest_ rest' rest
    exact ⟨rfl, rfl⟩

/-- Terms of any two constructions are told apart where they end. -/
theorem bytes_unique [PublicKeys] {q : Profile} {other : ConstructionTerms} (valid : fields.Valid p) (valid' : other.Valid q)
    (same : fields.bytes p ++ s = other.bytes q ++ t) : fields.bytes p = other.bytes q ∧ s = t := by
  have few := clauses_length fields.found p.construction
  have few' := clauses_length other.found q.construction
  rw [ConstructionTerms.bytes, ConstructionTerms.bytes, ConstructionTerms.head, ConstructionTerms.head] at same ⊢
  simp only [List.append_assoc, List.append_cancel_left_eq] at same
  obtain ⟨obligor, same⟩ := List.append_inj same (valid.obligor.1.trans valid'.obligor.1.symm)
  obtain ⟨payout, same⟩ := valid.payout.unique valid'.payout same
  simp only [List.append_cancel_left_eq] at same
  obtain ⟨operator, same⟩ := List.append_inj same (valid.operator.1.trans valid'.operator.1.symm)
  obtain ⟨count, same⟩ := Reader.u32_inverts.unique (by omega) (by omega) same
  obtain ⟨clauses, rest⟩ := flatMap_write_unique count valid.clauses valid'.clauses same
  exact ⟨by rw [obligor, payout, operator, clauses], rest⟩

end Moe.Terms
