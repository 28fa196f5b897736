import Moe.Pool.Receipts
import Moe.Pool.TermsForms
import Moe.Transport.Headers
import Moe.Transport.Trails

namespace Moe.Terms

def poolTerms : Profile where
  construction := tag "moe/pool/v3"
  silenceTag := .one
  named := by decide

def litTerms : Profile where
  construction := tag "moe/lit/v1"
  silenceTag := .six
  named := by decide

example : poolTerms.maxBytes = Transport.v3Trails.maxTermsBytes := by decide

example : litTerms.maxBytes = Transport.litTrails.maxTermsBytes := by decide

/-- Bytes one of the decoders accepts: terms under a profile, a header under one of the constructions' contexts, or a receipt. -/
inductive AcceptedForm [PublicKeys] : Bytes → Prop
  | terms {p : Profile} {fields : ConstructionTerms} {bytes : Bytes} : decodeTerms p bytes = .ok fields → AcceptedForm bytes
  | header {profile : Transport.TrailProfile} {header : SegmentHeader} {bytes : Bytes} :
      profile = Transport.v3Trails ∨ profile = Transport.litTrails → decodeSegmentHeader profile.headerContext bytes = .ok header →
        AcceptedForm bytes
  | receipt {r : Receipts.Receipt} {bytes : Bytes} : Receipts.decodeReceipt bytes = .ok r → AcceptedForm bytes

section Keys

variable [PublicKeys]

/-- A form opens with its own context. -/
theorem terms_opens {p : Profile} {fields : ConstructionTerms} {bytes : Bytes} (read : decodeTerms p bytes = .ok fields) : magic <+: bytes := by
  obtain ⟨-, rfl⟩ := encodeTerms_eq_ok.mp (decodeTerms_eq_ok.mp read)
  simp only [ConstructionTerms.bytes, ConstructionTerms.head, List.append_assoc]
  exact List.prefix_append _ _

omit [PublicKeys] in
theorem header_opens {context bytes : Bytes} {header : SegmentHeader} (read : decodeSegmentHeader context bytes = .ok header) :
    context <+: bytes := by
  obtain ⟨-, rfl⟩ := encodeSegmentHeader_eq_ok.mp (decodeSegmentHeader_eq_ok.mp read)
  simp only [List.append_assoc]
  exact List.prefix_append _ _

omit [PublicKeys] in
theorem receipt_opens {r : Receipts.Receipt} {bytes : Bytes} (read : Receipts.decodeReceipt bytes = .ok r) :
    Receipts.receiptContext <+: bytes := by
  obtain ⟨-, rfl⟩ := Receipts.encodeReceipt_eq_ok.mp (Receipts.decodeReceipt_eq_ok.mp read)
  simp only [Receipts.Receipt.bytes, List.append_assoc]
  exact List.prefix_append _ _

omit [PublicKeys] in
/-- Where one form's bytes open another's, the one context opens the other. -/
theorem contexts_comparable {context other bytes bytes' : Bytes} (opens : context <+: bytes) (opens' : other <+: bytes')
    (within : bytes <+: bytes') : context.isPrefixOf other = true ∨ other.isPrefixOf context = true := by
  simp only [List.isPrefixOf_iff_prefix]
  rcases Nat.le_total context.length other.length with shorter | longer
  · exact Or.inl (List.prefix_of_prefix_length_le (opens.trans within) opens' shorter)
  · exact Or.inr (List.prefix_of_prefix_length_le opens' (opens.trans within) longer)

/-- No accepted form is a proper prefix of another. -/
theorem AcceptedForm.eq_of_prefix {bytes other : Bytes} (accepted : AcceptedForm bytes) (accepted' : AcceptedForm other)
    (within : bytes <+: other) : bytes = other := by
  obtain ⟨more, same⟩ := id within
  rw [← List.append_nil other] at same
  cases accepted with
  | terms read =>
    cases accepted' with
    | terms read' =>
      obtain ⟨valid, rfl⟩ := encodeTerms_eq_ok.mp (decodeTerms_eq_ok.mp read)
      obtain ⟨valid', rfl⟩ := encodeTerms_eq_ok.mp (decodeTerms_eq_ok.mp read')
      exact (bytes_unique valid valid' same).1
    | header own read' =>
      have comparable := contexts_comparable (terms_opens read) (header_opens read') within
      rcases own with rfl | rfl <;> exact absurd comparable (by decide)
    | receipt read' => exact absurd (contexts_comparable (terms_opens read) (receipt_opens read') within) (by decide)
  | header own read =>
    cases accepted' with
    | terms read' =>
      have comparable := contexts_comparable (header_opens read) (terms_opens read') within
      rcases own with rfl | rfl <;> exact absurd comparable (by decide)
    | header own' read' =>
      have comparable := contexts_comparable (header_opens read) (header_opens read') within
      rcases own with rfl | rfl <;> rcases own' with rfl | rfl
      · exact (encodeSegmentHeader_unique (decodeSegmentHeader_eq_ok.mp read) (decodeSegmentHeader_eq_ok.mp read') same).1
      · exact absurd comparable (by decide)
      · exact absurd comparable (by decide)
      · exact (encodeSegmentHeader_unique (decodeSegmentHeader_eq_ok.mp read) (decodeSegmentHeader_eq_ok.mp read') same).1
    | receipt read' =>
      have comparable := contexts_comparable (header_opens read) (receipt_opens read') within
      rcases own with rfl | rfl <;> exact absurd comparable (by decide)
  | receipt read =>
    cases accepted' with
    | terms read' => exact absurd (contexts_comparable (receipt_opens read) (terms_opens read') within) (by decide)
    | header own read' =>
      have comparable := contexts_comparable (receipt_opens read) (header_opens read') within
      rcases own with rfl | rfl <;> exact absurd comparable (by decide)
    | receipt read' =>
      exact (Receipts.encodeReceipt_unique (Receipts.decodeReceipt_eq_ok.mp read) (Receipts.decodeReceipt_eq_ok.mp read') same).1

/-- Terms under either profile, headers under any context and receipts round-trip, on the values their encoders accept and on the
bytes their decoders accept, and no accepted form is a proper prefix of another. -/
theorem forms_round_trip :
    (∀ (p : Profile) fields bytes, encodeTerms p fields = .ok bytes ↔ decodeTerms p bytes = .ok fields) ∧
      (∀ context header, isWellFormedHeader header = true →
        ∃ bytes, encodeSegmentHeader context header = .ok bytes ∧ decodeSegmentHeader context bytes = .ok header) ∧
      (∀ context header bytes, decodeSegmentHeader context bytes = .ok header →
        isWellFormedHeader header = true ∧ encodeSegmentHeader context header = .ok bytes) ∧
      (∀ r bytes, Receipts.encodeReceipt r = .ok bytes ↔ Receipts.decodeReceipt bytes = .ok r) ∧
      ∀ bytes other, AcceptedForm bytes → AcceptedForm other → bytes <+: other → bytes = other := by
  refine ⟨fun p fields bytes => decodeTerms_eq_ok.symm, fun context header well => ?_, fun context header bytes read => ?_,
    fun r bytes => Receipts.decodeReceipt_eq_ok.symm, fun bytes other accepted accepted' within => accepted.eq_of_prefix accepted' within⟩
  · have encoded := (@encodeSegmentHeader_eq_ok context _ _).mpr ⟨well, rfl⟩
    exact ⟨_, encoded, decodeSegmentHeader_eq_ok.mpr encoded⟩
  · have encoded := decodeSegmentHeader_eq_ok.mp read
    exact ⟨(encodeSegmentHeader_eq_ok.mp encoded).1, encoded⟩

end Keys

def sampleTerms : ConstructionTerms where
  obligor := List.replicate 32 1
  payout := ⟨[0xFEFF, 0xD83D, 0xDE00], -3, 300⟩
  operator := List.replicate 32 2
  configuration := List.replicate 32 3
  venue := List.replicate 32 4
  interval := 5
  silence := some ⟨6, some 7⟩
  replacementRule := some (List.replicate 32 8)
  nonService := some ⟨9, 10, 11⟩

def sampleHeader : SegmentHeader where
  domain := List.replicate 32 1
  venue := List.replicate 32 2
  operator := List.replicate 32 3
  sequence := 4
  entries := [⟨List.replicate 32 5, List.replicate 32 6, none⟩, ⟨List.replicate 32 7, List.replicate 32 8, some ⟨List.replicate 32 3, 3, List.replicate 32 9⟩⟩]

local instance formsKeys : PublicKeys := ⟨fun key => key.length = 32⟩

theorem sampleTerms_valid : sampleTerms.Valid poolTerms where
  obligor := by decide
  operator := by decide
  payout := ⟨by decide, by decide, by decide, by decide, by decide⟩
  rule := by decide
  clauses := by
    intro c member
    simp only [sampleTerms, ConstructionTerms.found, Found.clauses, Option.elim_some, List.append_nil, List.mem_append, List.mem_singleton] at member
    rcases member with (((rfl | rfl) | rfl) | rfl) | rfl <;> simp [Clause.Valid, poolTerms]

/-- A thing with a byte order mark and a surrogate pair, every optional clause, and a header with an opening and without. -/
theorem forms_round_trip_sample : decodeTerms poolTerms (sampleTerms.bytes poolTerms) = .ok sampleTerms ∧
    ∃ bytes, encodeSegmentHeader Transport.v3Trails.headerContext sampleHeader = .ok bytes ∧
      decodeSegmentHeader Transport.v3Trails.headerContext bytes = .ok sampleHeader :=
  ⟨(forms_round_trip.1 poolTerms sampleTerms _).mp (encodeTerms_eq_ok.mpr ⟨sampleTerms_valid, rfl⟩),
    forms_round_trip.2.1 _ sampleHeader (by decide)⟩

end Moe.Terms
