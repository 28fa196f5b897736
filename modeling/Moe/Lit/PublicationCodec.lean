import Moe.Lit.RecordCodec

namespace Moe

namespace Lit

variable [PublicKeys] {s t : Bytes}

/-- An acceptance every codec takes. -/
def Acceptance.Sound (a : Acceptance) : Prop :=
  a.domain.length = 32 ∧ a.demand.length = 32 ∧ (a.owner.length = 32 ∧ isValidPublicKey a.owner = true) ∧ a.deadline < valueBound

theorem ownAcceptance_eq_ok {a own : Acceptance} : ownAcceptance a = .ok own ↔ a.Sound ∧ own = a := by
  simp only [ownAcceptance, bind_eq_ok, pure_eq_ok, field32_eq_ok, key32_eq_ok, u64_eq_ok]
  constructor
  · rintro ⟨_, ⟨domain, rfl⟩, _, ⟨demand, rfl⟩, _, ⟨owner, rfl⟩, _, ⟨deadline, rfl⟩, rfl⟩
    exact ⟨⟨domain, demand, owner, deadline⟩, rfl⟩
  · rintro ⟨⟨domain, demand, owner, deadline⟩, rfl⟩
    exact ⟨_, ⟨domain, rfl⟩, _, ⟨demand, rfl⟩, _, ⟨owner, rfl⟩, _, ⟨deadline, rfl⟩, rfl⟩

def writeAcceptance (a : SignedAcceptance) : Bytes :=
  acceptanceContext ++ a.domain ++ a.demand ++ a.owner ++ toBytes 8 a.deadline ++ a.signature ++ a.ownerSignature

omit [PublicKeys] in
theorem readAcceptance_eq_ok {a : SignedAcceptance} :
    readAcceptance s = .ok (a, t) ↔
      (a.domain.length = 32 ∧ a.demand.length = 32 ∧ a.owner.length = 32 ∧ a.deadline < 2 ^ 64 ∧ a.signature.length = 64 ∧
        a.ownerSignature.length = 64) ∧ t = [] ∧ s = writeAcceptance a := by
  simp only [readAcceptance, read_bind_eq_ok, read_lift_eq_ok, read_pure_eq_ok, Reader.raw_inverts _ _ _ _, Reader.u64_inverts _ _ _,
    Reader.expectEnd_eq_ok, require_eq_ok, decide_eq_true_eq]
  constructor
  · rintro ⟨_, _, ⟨_, rfl⟩, _, _, ⟨rfl, rfl⟩, _, _, ⟨domain, rfl⟩, _, _, ⟨demand, rfl⟩, _, _, ⟨owner, rfl⟩, _, _, ⟨deadline, rfl⟩, _, _,
      ⟨signature, rfl⟩, _, _, ⟨second, rfl⟩, _, _, ⟨rfl, rfl⟩, rfl, rfl⟩
    refine ⟨⟨domain, demand, owner, deadline, signature, second⟩, rfl, ?_⟩
    simp only [writeAcceptance, id_eq, List.append_assoc, List.append_nil]
  · rintro ⟨⟨domain, demand, owner, deadline, signature, second⟩, rfl, rfl⟩
    refine ⟨acceptanceContext, _, ⟨rfl, ?_⟩, (), _, ⟨rfl, rfl⟩, a.domain, _, ⟨domain, rfl⟩, a.demand, _, ⟨demand, rfl⟩, a.owner, _,
      ⟨owner, rfl⟩, a.deadline, _, ⟨deadline, rfl⟩, a.signature, _, ⟨signature, rfl⟩, a.ownerSignature, [], ⟨second, rfl⟩, (), [],
      ⟨rfl, rfl⟩, rfl, rfl⟩
    simp only [writeAcceptance, id_eq, List.append_assoc, List.append_nil]

omit [PublicKeys] in
theorem requireKind_range {kind : Nat} {done : Unit} (known : requireKind kind = .ok done) : 1 ≤ kind ∧ kind ≤ 5 := by
  simpa [requireKind] using known

omit [PublicKeys] in
theorem readPublication_eq_ok {domain backing body : Bytes} {kind : Nat} :
    readPublication s = .ok ((domain, backing, kind, body), t) ↔
      (domain.length = 32 ∧ backing.length = 32 ∧ requireKind kind = .ok () ∧ body.length ≤ bodyBounds kind ∧ body.length < 2 ^ 32) ∧
        t = [] ∧ s = publicationContext ++ domain ++ backing ++ toBytes 1 kind ++ lengthPrefixed body := by
  simp only [readPublication, read_bind_eq_ok, read_lift_eq_ok, read_pure_eq_ok, Reader.raw_inverts _ _ _ _, Reader.u8_inverts _ _ _,
    Reader.lengthPrefixed_inverts _ _ _ _, Reader.expectEnd_eq_ok, require_eq_ok, decide_eq_true_eq]
  constructor
  · rintro ⟨_, _, ⟨_, rfl⟩, _, _, ⟨rfl, rfl⟩, _, _, ⟨wide, rfl⟩, _, _, ⟨named, rfl⟩, _, _, ⟨_, rfl⟩, _, _, ⟨known, rfl⟩, _, _,
      ⟨⟨fits, short⟩, rfl⟩, _, _, ⟨rfl, rfl⟩, same, rfl⟩
    obtain ⟨rfl, rfl, rfl, rfl⟩ := by simpa only [Prod.mk.injEq] using same
    refine ⟨⟨wide, named, known, fits, short⟩, rfl, ?_⟩
    simp only [id_eq, List.append_assoc, List.append_nil]
  · rintro ⟨⟨wide, named, known, fits, short⟩, rfl, rfl⟩
    have range := requireKind_range known
    refine ⟨publicationContext, _, ⟨rfl, ?_⟩, (), _, ⟨rfl, rfl⟩, domain, _, ⟨wide, rfl⟩, backing, _, ⟨named, rfl⟩, kind, _, ⟨by omega, rfl⟩,
      (), _, ⟨known, rfl⟩, body, [], ⟨⟨fits, short⟩, rfl⟩, (), [], ⟨rfl, rfl⟩, rfl, rfl⟩
    simp only [id_eq, List.append_assoc, List.append_nil]

/-- A body that a publication's own checks leave as it is. -/
def PublicationBody.Sound : PublicationBody → Prop
  | acceptance a => a.toAcceptance.Sound ∧ a.signature.length = 64 ∧ a.ownerSignature.length = 64
  | record kind r => kind ≠ 2 ∧ r.Sound ∧ r.statement.body.kind = publicationStatement kind

/-- Owning a publication gives it back, and its body is sound. -/
theorem ownPublication_eq {p own : Publication} (owned : ownPublication p = .ok own) :
    own = p ∧ requireKind p.body.kind = .ok () ∧ p.domain.length = 32 ∧ p.backing.length = 32 ∧ p.body.Sound := by
  obtain ⟨domain, backing, body⟩ := p
  simp only [ownPublication, bind_eq_ok, field32_eq_ok] at owned
  obtain ⟨_, known, _, ⟨wide, rfl⟩, _, ⟨named, rfl⟩, owned⟩ := owned
  cases body with
  | acceptance signed =>
    simp only [bind_eq_ok, ownAcceptance_eq_ok, require_eq_ok, decide_eq_true_eq, pure_eq_ok] at owned
    obtain ⟨_, ⟨sound, rfl⟩, _, first, _, second, _, _, rfl⟩ := owned
    exact ⟨rfl, known, wide, named, sound, first, second⟩
  | record kind value =>
    simp only [bind_eq_ok, ownRecord_eq_ok, require_eq_ok, decide_eq_true_eq] at owned
    obtain ⟨_, other, _, ⟨sound, rfl⟩, _, carried, _, _, owned⟩ := owned
    refine ⟨?_, known, wide, named, other, sound, carried⟩
    split at owned
    · simp only [bind_eq_ok, require_eq_ok, pure_eq_ok] at owned
      obtain ⟨_, _, _, _, rfl⟩ := owned
      rfl
    · simp only [bind_eq_ok, require_eq_ok, pure_eq_ok] at owned
      obtain ⟨_, _, rfl⟩ := owned
      rfl
    · exact (pure_eq_ok.mp owned).symm

theorem acceptanceBytes_eq_ok {a : Acceptance} {bytes : Bytes} :
    acceptanceBytes a = .ok bytes ↔ a.Sound ∧ bytes = acceptanceContext ++ a.domain ++ a.demand ++ a.owner ++ toBytes 8 a.deadline := by
  simp only [acceptanceBytes, bind_eq_ok, pure_eq_ok, ownAcceptance_eq_ok]
  constructor
  · rintro ⟨_, ⟨sound, rfl⟩, rfl⟩
    exact ⟨sound, rfl⟩
  · rintro ⟨sound, rfl⟩
    exact ⟨_, ⟨sound, rfl⟩, rfl⟩

/-- A sound body's bytes. -/
def PublicationBody.write : PublicationBody → Bytes
  | acceptance a => writeAcceptance a
  | record _ r => writeRecord r

theorem PublicationBody.Sound.bytes {body : PublicationBody} (sound : body.Sound) : body.bytes = .ok body.write := by
  cases body with
  | acceptance a =>
    have framed := acceptanceBytes_eq_ok.mpr ⟨sound.1, rfl⟩
    simp only [PublicationBody.bytes, framed]
    rfl
  | record kind r => exact encodeRecord_eq_ok.mpr ⟨sound.2.1, rfl⟩

/-- A sound body fits its kind's bound, and the largest publication. -/
theorem PublicationBody.Sound.fits {body : PublicationBody} (sound : body.Sound) (known : requireKind body.kind = .ok ()) :
    body.write.length ≤ bodyBounds body.kind := by
  cases body with
  | acceptance a =>
    obtain ⟨⟨domain, demand, ⟨owner, -⟩, -⟩, first, second⟩ := sound
    have bound : bodyBounds 2 = acceptanceContext.length + 104 + 128 := rfl
    simp only [PublicationBody.write, PublicationBody.kind, writeAcceptance, List.length_append, domain, demand, owner, toBytes_length, first,
      second, bound]
    omega
  | record kind r =>
    obtain ⟨other, ⟨statement, width⟩, carried⟩ := sound
    have range : 1 ≤ kind ∧ kind ≤ 5 := requireKind_range known
    have long := writeStatement_length statement
    have framed := statement.2.framed
    have few : maxInputs = 2 := rfl
    have bounds : bodyBounds 1 = 478 ∧ bodyBounds 3 = 357 ∧ bodyBounds 4 = 189 ∧ bodyBounds 5 = 237 := by decide
    simp only [PublicationBody.write, PublicationBody.kind, writeRecord, lengthPrefixed, List.length_append, toBytes_length, width, long]
    obtain ⟨⟨domain, body⟩, authorization⟩ := r
    obtain rfl | rfl | rfl | rfl : kind = 1 ∨ kind = 3 ∨ kind = 4 ∨ kind = 5 := by omega
    · have carried : body.kind = 4 := carried
      cases body with
      | demand =>
        obtain ⟨-, ⟨⟨-, ins⟩, -⟩, -⟩ := framed
        simp only [authorizationLength, Body.length]
        omega
      | _ => cases carried
    · have carried : body.kind = 6 := carried
      cases body with
      | settle =>
        simp only [authorizationLength, settlementAuthorizationBytes, Body.length]
        omega
      | _ => cases carried
    · have carried : body.kind = 5 := carried
      cases body with
      | withdraw =>
        simp only [authorizationLength, Body.length]
        omega
      | _ => cases carried
    · have carried : body.kind = 7 := carried
      cases body with
      | request =>
        simp only [authorizationLength, Body.length]
        omega
      | _ => cases carried

omit [PublicKeys] in
theorem bodyBounds_le {kind : Nat} (known : requireKind kind = .ok ()) : bodyBounds kind ≤ 478 := by
  have range := requireKind_range known
  obtain rfl | rfl | rfl | rfl | rfl : kind = 1 ∨ kind = 2 ∨ kind = 3 ∨ kind = 4 ∨ kind = 5 := by omega
  all_goals decide

theorem encodePublication_eq_ok {p : Publication} {bytes : Bytes} :
    encodePublication p = .ok bytes ↔ ownPublication p = .ok p ∧
      bytes = publicationContext ++ p.domain ++ p.backing ++ toBytes 1 p.body.kind ++ lengthPrefixed p.body.write := by
  simp only [encodePublication, bind_eq_ok, pure_eq_ok]
  constructor
  · rintro ⟨own, owned, body, written, rfl⟩
    obtain ⟨rfl, -, -, -, sound⟩ := ownPublication_eq owned
    rw [sound.bytes, Except.ok.injEq] at written
    exact ⟨owned, by rw [written]⟩
  · rintro ⟨owned, rfl⟩
    obtain ⟨-, -, -, -, sound⟩ := ownPublication_eq owned
    exact ⟨p, owned, p.body.write, sound.bytes, rfl⟩

/-- A body decodes from what it writes, and from nothing else. -/
theorem decodeBody_eq {p own : Publication} {kind : Nat} {bytes : Bytes}
    (decoded : (if kind ≠ 2 then do
        let record ← decodeRecord bytes
        ownPublication ⟨p.domain, p.backing, .record kind record⟩
      else do
        let acceptance ← readAcceptance.run bytes
        ownPublication ⟨p.domain, p.backing, .acceptance acceptance⟩) = .ok own) :
    ownPublication own = .ok own ∧ own.domain = p.domain ∧ own.backing = p.backing ∧ own.body.kind = kind ∧ bytes = own.body.write := by
  split at decoded
  · obtain ⟨record, read, owned⟩ := bind_eq_ok.mp decoded
    obtain ⟨rfl, -⟩ := ownPublication_eq owned
    exact ⟨owned, rfl, rfl, rfl, (decodeRecord_eq_ok.mp read).2⟩
  · rename_i accepts
    obtain ⟨a, read, owned⟩ := bind_eq_ok.mp decoded
    obtain ⟨rfl, -⟩ := ownPublication_eq owned
    obtain ⟨_, read⟩ := Reader.run_eq_ok.mp read
    exact ⟨owned, rfl, rfl, (not_not.mp accepts).symm, (readAcceptance_eq_ok.mp read).2.2⟩

theorem decodePublication_eq_ok {p : Publication} {bytes : Bytes} :
    decodePublication bytes = .ok p ↔ ownPublication p = .ok p ∧
      bytes = publicationContext ++ p.domain ++ p.backing ++ toBytes 1 p.body.kind ++ lengthPrefixed p.body.write := by
  simp only [decodePublication, bind_eq_ok, require_eq_ok, decide_eq_true_eq, Reader.run_eq_ok]
  constructor
  · rintro ⟨_, -, ⟨domain, backing, kind, body⟩, ⟨_, read⟩, decoded⟩
    obtain ⟨-, -, rfl⟩ := readPublication_eq_ok.mp read
    obtain ⟨owned, rfl, rfl, rfl, rfl⟩ := decodeBody_eq (p := ⟨domain, backing, p.body⟩) decoded
    exact ⟨owned, rfl⟩
  · rintro ⟨owned, rfl⟩
    obtain ⟨-, known, wide, named, sound⟩ := ownPublication_eq owned
    have fits := sound.fits known
    have bound := bodyBounds_le known
    have context : publicationContext.length = 22 := by decide
    have longest : maxPublicationBytes = 569 := by decide
    refine ⟨(), ?_, (p.domain, p.backing, p.body.kind, p.body.write),
      ⟨[], readPublication_eq_ok.mpr ⟨⟨wide, named, known, fits, by omega⟩, rfl, rfl⟩⟩, ?_⟩
    · simp only [lengthPrefixed, List.length_append, context, wide, named, toBytes_length, longest]
      omega
    · obtain ⟨domain, backing, body⟩ := p
      cases body with
      | acceptance a =>
        obtain ⟨⟨first, second, ⟨owner, -⟩, deadline⟩, signature, last⟩ := sound
        have read : readAcceptance.run (writeAcceptance a) = .ok a :=
          Reader.run_eq_ok.mpr ⟨[], readAcceptance_eq_ok.mpr ⟨⟨first, second, owner, deadline, signature, last⟩, rfl, rfl⟩⟩
        simp only [PublicationBody.kind, PublicationBody.write, ne_eq, not_true_eq_false, if_false, read]
        exact owned
      | record kind r =>
        obtain ⟨other, whole, -⟩ := sound
        have read : decodeRecord (writeRecord r) = .ok r := decodeRecord_eq_ok.mpr ⟨whole, rfl⟩
        simp only [PublicationBody.kind, PublicationBody.write, ne_eq, other, not_false_eq_true, if_true, read]
        exact owned

/-- Lit statements, records and publications are each written one way, read back as they were and never otherwise; a
record splits into the statement its identity hashes and its authorization, and no two statements share their bytes. -/
theorem lit_records_canonical [Crypto] :
    (∀ r bytes, encodeRecord r = .ok bytes ↔ decodeRecord bytes = .ok r) ∧
    (∀ bytes r, decodeRecord bytes = .ok r → ∃ statement, splitRecord bytes = .ok (statement, r.authorization) ∧
      statementBytes r.statement = .ok statement ∧ decodeStatement statement = .ok r.statement ∧
      statementHash r.statement = .ok (sha256 statement)) ∧
    (∀ st own, ownStatement st = .ok own → own = st ∧ readStatement (writeStatement st) = .ok (st, [])) ∧
    (∀ st bytes, statementBytes st = .ok bytes ↔ decodeStatement bytes = .ok st) ∧
    (∀ p bytes, encodePublication p = .ok bytes ↔ decodePublication bytes = .ok p) ∧
    ∀ a b bytes, statementBytes a = .ok bytes → statementBytes b = .ok bytes → a = b := by
  refine ⟨?_, ?_, ?_, ?_, ?_, ?_⟩
  · intro r bytes
    rw [encodeRecord_eq_ok, decodeRecord_eq_ok]
  · intro bytes r decoded
    obtain ⟨sound, rfl⟩ := decodeRecord_eq_ok.mp decoded
    have written : statementBytes r.statement = .ok (writeStatement r.statement) := statementBytes_eq_ok.mpr ⟨sound.1, rfl⟩
    refine ⟨writeStatement r.statement, sound.split, written, decodeStatement_eq_ok.mpr ⟨sound.1, rfl⟩, ?_⟩
    rw [statementHash, written]
    rfl
  · intro st own owned
    obtain ⟨sound, rfl⟩ := ownStatement_eq_ok.mp owned
    have read := readStatement_inverts.reads sound []
    rw [List.append_nil] at read
    exact ⟨rfl, read⟩
  · intro st bytes
    rw [statementBytes_eq_ok, decodeStatement_eq_ok]
  · intro p bytes
    rw [encodePublication_eq_ok, decodePublication_eq_ok]
  · intro a b bytes first second
    obtain ⟨soundA, rfl⟩ := statementBytes_eq_ok.mp first
    obtain ⟨soundB, same⟩ := statementBytes_eq_ok.mp second
    exact readStatement_inverts.inj soundA soundB same

end Lit

end Moe
