import Moe.Pool.RecordCodec

namespace Moe.Receipts

def receiptContext : Bytes := tag "moe/pool/v3/receipt"

structure ReceiptFields extends EvidenceDigests where
  domain : Bytes
  segment : Bytes
  scopeRoot : Nat
  position : Nat
  historyHash : Bytes
  after : Nat
  deriving DecidableEq

structure Receipt extends ReceiptFields where
  operator : Bytes
  signature : Bytes
  deriving DecidableEq

def fixed (bytes : Bytes) (width : Nat) : Except Failure Bytes := do
  require (bytes.length = width) (.encoding s!"fixed field must be {width} bytes")
  return bytes

def u64 (value : Nat) (positive : Bool) : Except Failure Bytes := do
  require (isValue value && !(positive && value = 0)) (.encoding "invalid u64")
  return toBytes 8 value

/-- A canonical field element's bytes. -/
def ownField (value : Nat) : Except Failure Bytes := do
  let own ← requireField value "field element"
  return fieldToBytes own

/-- What an operator signs of a receipt. -/
def receiptBytes (r : ReceiptFields) : Except Failure Bytes := do
  let domain ← fixed r.domain 32
  let segment ← fixed r.segment 32
  let scopeRoot ← ownField r.scopeRoot
  let position ← u64 r.position true
  let statementHash ← fixed r.statementHash 32
  let historyHash ← fixed r.historyHash 32
  let proofHash ← fixed r.proofHash 32
  let signatureHash ← fixed r.signatureHash 32
  let after ← u64 r.after false
  return receiptContext ++ domain ++ segment ++ scopeRoot ++ position ++ statementHash ++ historyHash ++ proofHash ++ signatureHash ++ after

def encodeReceipt (r : Receipt) : Except Failure Bytes := do
  let signed ← receiptBytes r.toReceiptFields
  let operator ← fixed r.operator 32
  let signature ← fixed r.signature 64
  return signed ++ operator ++ signature

def readReceiptContext : Reader Unit := do
  let own ← Reader.raw receiptContext.length
  require (own = receiptContext) (.encoding "wrong context")

def decodeReceipt (bytes : Bytes) : Except Failure Receipt :=
  Reader.run (do
    readReceiptContext
    let domain ← Reader.raw 32
    let segment ← Reader.raw 32
    let scopeRoot ← readField
    let position ← Reader.u64
    let statementHash ← Reader.raw 32
    let historyHash ← Reader.raw 32
    let proofHash ← Reader.raw 32
    let signatureHash ← Reader.raw 32
    let after ← Reader.u64
    let operator ← Reader.raw 32
    let signature ← Reader.raw 64
    Reader.expectEnd
    require (position ≠ 0) (.encoding "receipt position is zero")
    return { domain, segment, scopeRoot, position, statementHash, historyHash, proofHash, signatureHash, after, operator, signature }) bytes

variable {s t : Bytes} {r : Receipt}

theorem fixed_eq_ok {bytes own : Bytes} {width : Nat} : fixed bytes width = .ok own ↔ bytes.length = width ∧ bytes = own := by
  rw [fixed, bind_unit_eq_ok, require_eq_ok, decide_eq_true_eq, pure_eq_ok]

theorem u64_eq_ok {value : Nat} {positive : Bool} {own : Bytes} :
    u64 value positive = .ok own ↔ (value < 2 ^ 64 ∧ (positive = true → value ≠ 0)) ∧ toBytes 8 value = own := by
  have small : isValue value = true ↔ value < 2 ^ 64 := decide_eq_true_iff
  rw [u64, bind_unit_eq_ok, require_eq_ok, pure_eq_ok, Bool.and_eq_true, small]
  cases positive <;> simp

theorem ownField_eq_ok {value : Nat} {own : Bytes} : ownField value = .ok own ↔ isField value = true ∧ fieldToBytes value = own := by
  simp only [ownField, requireField, bind_eq_ok, require_eq_ok, pure_eq_ok]
  constructor
  · rintro ⟨_, ⟨_, canonical, rfl⟩, rfl⟩
    exact ⟨canonical, rfl⟩
  · rintro ⟨canonical, rfl⟩
    exact ⟨value, ⟨(), canonical, rfl⟩, rfl⟩

/-- What the checks on a receipt leave. -/
structure Receipt.Valid (r : Receipt) : Prop where
  domain : r.domain.length = 32
  segment : r.segment.length = 32
  scopeRoot : isField r.scopeRoot = true
  position : r.position < 2 ^ 64 ∧ r.position ≠ 0
  statementHash : r.statementHash.length = 32
  historyHash : r.historyHash.length = 32
  proofHash : r.proofHash.length = 32
  signatureHash : r.signatureHash.length = 32
  after : r.after < 2 ^ 64
  operator : r.operator.length = 32
  signature : r.signature.length = 64

def Receipt.bytes (r : Receipt) : Bytes :=
  receiptContext ++ r.domain ++ r.segment ++ fieldToBytes r.scopeRoot ++ toBytes 8 r.position ++ r.statementHash ++ r.historyHash ++
    r.proofHash ++ r.signatureHash ++ toBytes 8 r.after ++ r.operator ++ r.signature

theorem encodeReceipt_eq_ok : encodeReceipt r = .ok s ↔ r.Valid ∧ s = r.bytes := by
  simp only [encodeReceipt, receiptBytes, bind_eq_ok, pure_eq_ok, fixed_eq_ok, u64_eq_ok, ownField_eq_ok]
  constructor
  · rintro ⟨_, ⟨_, ⟨domain, rfl⟩, _, ⟨segment, rfl⟩, _, ⟨scopeRoot, rfl⟩, _, ⟨⟨below, positive⟩, rfl⟩, _, ⟨statementHash, rfl⟩, _, ⟨historyHash, rfl⟩,
      _, ⟨proofHash, rfl⟩, _, ⟨signatureHash, rfl⟩, _, ⟨⟨after, -⟩, rfl⟩, rfl⟩, _, ⟨operator, rfl⟩, _, ⟨signature, rfl⟩, rfl⟩
    exact ⟨⟨domain, segment, scopeRoot, ⟨below, positive trivial⟩, statementHash, historyHash, proofHash, signatureHash, after, operator, signature⟩, rfl⟩
  · rintro ⟨v, rfl⟩
    exact ⟨_, ⟨_, ⟨v.domain, rfl⟩, _, ⟨v.segment, rfl⟩, _, ⟨v.scopeRoot, rfl⟩, _, ⟨⟨v.position.1, fun _ => v.position.2⟩, rfl⟩, _,
      ⟨v.statementHash, rfl⟩, _, ⟨v.historyHash, rfl⟩, _, ⟨v.proofHash, rfl⟩, _, ⟨v.signatureHash, rfl⟩, _,
      ⟨⟨v.after, fun positive => Bool.noConfusion positive⟩, rfl⟩, rfl⟩, _, ⟨v.operator, rfl⟩, _, ⟨v.signature, rfl⟩, rfl⟩

theorem readReceiptContext_eq_ok {done : Unit} : readReceiptContext s = .ok (done, t) ↔ s = receiptContext ++ t := by
  simp only [readReceiptContext, read_bind_eq_ok, read_lift_eq_ok, Reader.raw_inverts _ _ _ _, require_eq_ok, decide_eq_true_eq]
  constructor
  · rintro ⟨_, _, ⟨-, rfl⟩, rfl, rfl⟩
    rfl
  · rintro rfl
    exact ⟨receiptContext, t, ⟨rfl, rfl⟩, rfl, rfl⟩

/-- What decodes to a receipt is what it encodes as. -/
theorem decodeReceipt_eq_ok : decodeReceipt s = .ok r ↔ encodeReceipt r = .ok s := by
  rw [encodeReceipt_eq_ok]
  simp only [decodeReceipt, Reader.run_eq_ok, read_bind_eq_ok, read_lift_eq_ok, read_pure_eq_ok, readReceiptContext_eq_ok,
    Reader.raw_inverts _ _ _ _, readField_inverts _ _ _, Reader.u64_inverts _ _ _, Reader.expectEnd_eq_ok, require_eq_ok, decide_eq_true_eq]
  constructor
  · rintro ⟨_, _, s₀, same₀, domain, s₁, ⟨width, same₁⟩, segment, s₂, ⟨width', same₂⟩, scopeRoot, s₃, ⟨canonical, same₃⟩, position, s₄, ⟨below, same₄⟩,
      statementHash, s₅, ⟨width₁, same₅⟩, historyHash, s₆, ⟨width₂, same₆⟩, proofHash, s₇, ⟨width₃, same₇⟩, signatureHash, s₈, ⟨width₄, same₈⟩,
      after, s₉, ⟨bound, same₉⟩, operator, t₀, ⟨width₅, last₀⟩, signature, t₁, ⟨width₆, last₁⟩, _, _, ⟨ended, -⟩, _, _, ⟨positive, -⟩, rfl, -⟩
    refine ⟨⟨width, width', canonical, ⟨below, positive⟩, width₁, width₂, width₃, width₄, bound, width₅, width₆⟩, ?_⟩
    rw [same₀, same₁, same₂, same₃, same₄, same₅, same₆, same₇, same₈, same₉, last₀, last₁, ended]
    simp only [Receipt.bytes, id_eq, List.append_assoc, List.append_nil]
  · rintro ⟨v, rfl⟩
    refine ⟨[], (), _, ?_, r.domain, _, ⟨v.domain, rfl⟩, r.segment, _, ⟨v.segment, rfl⟩, r.scopeRoot, _, ⟨v.scopeRoot, rfl⟩, r.position, _,
      ⟨v.position.1, rfl⟩, r.statementHash, _, ⟨v.statementHash, rfl⟩, r.historyHash, _, ⟨v.historyHash, rfl⟩, r.proofHash, _,
      ⟨v.proofHash, rfl⟩, r.signatureHash, _, ⟨v.signatureHash, rfl⟩, r.after, _, ⟨v.after, rfl⟩, r.operator, _, ⟨v.operator, rfl⟩,
      r.signature, _, ⟨v.signature, rfl⟩, (), _, ⟨rfl, rfl⟩, (), _, ⟨v.position.2, rfl⟩, rfl, rfl⟩
    simp only [Receipt.bytes, id_eq, List.append_assoc, List.append_nil]

/-- A receipt has one length. -/
theorem bytes_length (valid : r.Valid) : r.bytes.length = 19 + 336 := by
  have context : receiptContext.length = 19 := by decide
  simp only [Receipt.bytes, List.length_append, toBytes_length, fieldToBytes, context, valid.domain, valid.segment, valid.statementHash,
    valid.historyHash, valid.proofHash, valid.signatureHash, valid.operator, valid.signature]

/-- Receipts are told apart where they end. -/
theorem encodeReceipt_unique {other : Receipt} {bytes bytes' : Bytes} (encoded : encodeReceipt r = .ok bytes)
    (encoded' : encodeReceipt other = .ok bytes') (same : bytes ++ s = bytes' ++ t) : bytes = bytes' ∧ s = t := by
  obtain ⟨valid, rfl⟩ := encodeReceipt_eq_ok.mp encoded
  obtain ⟨valid', rfl⟩ := encodeReceipt_eq_ok.mp encoded'
  exact List.append_inj same ((bytes_length valid).trans (bytes_length valid').symm)

end Moe.Receipts
