import Moe.Pool.Records
import Moe.Reading

namespace Moe

variable {s t : Bytes}

theorem inputCount_le : ∀ kind, inputCount kind ≤ 17
  | 0 | 1 | 2 | 3 | 4 | 5 | 6 | 7 => by decide
  | _ + 8 => by simp [inputCount]

theorem authLength_le : ∀ kind, authLength kind ≤ 136
  | 0 | 1 | 2 | 3 | 4 | 5 | 6 | 7 => by decide
  | _ + 8 => by simp [authLength]

theorem capsuleCount_le : ∀ kind, capsuleCount kind ≤ 4
  | 0 | 1 | 2 | 3 | 4 | 5 | 6 | 7 => by decide
  | _ + 8 => by simp [capsuleCount]

theorem requireKind_range {kind : Nat} (known : requireKind kind = .ok ()) : 1 ≤ kind ∧ kind ≤ 7 := by
  simpa [requireKind] using known

/-- What a statement's own checks say of its frame. -/
theorem requireStatement_shape {st : Statement} (valid : requireStatement st = .ok ()) :
    st.domain.length = 32 ∧ requireKind st.kind = .ok () ∧ st.publicInputs.length = inputCount st.kind ∧
      ∀ value ∈ st.publicInputs, isField value = true := by
  simp only [requireStatement, requireBytes, bind_eq_ok, require_eq_ok, decide_eq_true_eq] at valid
  obtain ⟨_, width, _, known, _, count, _, canonical, _⟩ := valid
  exact ⟨width, known, count, List.all_eq_true.mp canonical⟩

theorem proofLengthHolds_le {kind length : Nat} (holds : proofLengthHolds kind length = true) :
    length ≤ if kind = 5 then 0 else maxProof := by
  unfold proofLengthHolds at holds
  split at holds
  · rename_i withdrawal
    simp only [if_pos withdrawal]
    exact Nat.le_of_eq (of_decide_eq_true holds)
  · rename_i proved
    rw [if_neg proved]
    simp only [Bool.and_eq_true, decide_eq_true_eq] at holds
    exact holds.1.2

theorem readContext_eq_ok {context : Bytes} {done : Unit} : readContext context s = .ok (done, t) ↔ s = context ++ t := by
  simp only [readContext, read_bind_eq_ok, read_lift_eq_ok, Reader.raw_inverts _ _ _ _, requireSame, require_eq_ok, decide_eq_true_eq]
  constructor
  · rintro ⟨bytes, m, ⟨-, rfl⟩, rfl, rfl⟩
    rfl
  · rintro rfl
    exact ⟨context, t, ⟨rfl, rfl⟩, rfl, rfl⟩

theorem ofBytes_fieldToBytes {value : Nat} (canonical : isField value = true) : ofBytes (fieldToBytes value) = value := by
  have below : value < 256 ^ 32 := Nat.lt_of_lt_of_eq (isField_lt_keyBound canonical) (by decide)
  rw [fieldToBytes, ofBytes_toBytes below]

theorem readField_inverts : Inverts readField fieldToBytes fun value => isField value = true := by
  intro s value t
  simp only [readField, read_bind_eq_ok, read_lift_eq_ok, Reader.raw_inverts _ _ _ _, bytesToField, requireField, bind_eq_ok, require_eq_ok,
    pure_eq_ok, decide_eq_true_eq]
  constructor
  · rintro ⟨bytes, m, ⟨length, rfl⟩, ⟨-, -, -, canonical, rfl⟩, rfl⟩
    refine ⟨canonical, ?_⟩
    rw [fieldToBytes, ← length, toBytes_ofBytes]
    rfl
  · rintro ⟨canonical, same⟩
    have back := ofBytes_fieldToBytes canonical
    have width : (fieldToBytes value).length = 32 := toBytes_length 32 value
    refine ⟨fieldToBytes value, t, ⟨width, same⟩, ⟨(), width, (), ?_, back⟩, rfl⟩
    rw [back, canonical]

theorem readStatement_inverts : Inverts readStatement statementBytes fun st => requireStatement st = .ok () := by
  intro s st t
  simp only [readStatement, read_bind_eq_ok, read_lift_eq_ok, read_pure_eq_ok, readContext_eq_ok, Reader.raw_inverts _ _ _ _,
    Reader.u8_inverts _ _ _, Reader.u32_inverts _ _ _, Reader.times_inverts readField_inverts _ _ _ _, require_eq_ok, decide_eq_true_eq]
  constructor
  · rintro ⟨_, _, rfl, domain, _, ⟨width, rfl⟩, kind, _, ⟨_, rfl⟩, _, _, ⟨_, rfl⟩, count, _, ⟨_, rfl⟩, _, _, ⟨same, rfl⟩, values, _,
      ⟨⟨length, _⟩, rfl⟩, _, _, ⟨valid, rfl⟩, rfl, rfl⟩
    refine ⟨valid, ?_⟩
    simp only [statementBytes, length, id_eq, List.append_assoc]
  · rintro ⟨valid, rfl⟩
    obtain ⟨width, known, count, canonical⟩ := requireStatement_shape valid
    have range := requireKind_range known
    have few : st.publicInputs.length < 2 ^ 32 := by
      have := inputCount_le st.kind
      omega
    refine ⟨(), _, ?_, st.domain, _, ⟨width, rfl⟩, st.kind, _, ⟨by omega, rfl⟩, (), _, ⟨known, rfl⟩, st.publicInputs.length, _,
      ⟨few, rfl⟩, (), _, ⟨count, rfl⟩, st.publicInputs, t, ⟨⟨rfl, canonical⟩, rfl⟩, (), _, ⟨valid, rfl⟩, rfl, rfl⟩
    simp only [statementBytes, id_eq, List.append_assoc]

/-- Capsules one after another, of the one length. -/
theorem capsules_inverts (count : Nat) :
    Inverts (Reader.times (Reader.raw capsuleLength) count) List.flatten fun capsules =>
      capsules.length = count ∧ ∀ capsule ∈ capsules, capsule.length = capsuleLength := by
  refine (Reader.times_inverts (Reader.raw_inverts capsuleLength) count).congr (fun _ => Iff.rfl) fun capsules _ => ?_
  rw [List.flatMap_id]

section Records

variable [Crypto]

/-- What the checks on its authorization and capsules say of their frames. -/
theorem requireAuthorizationAndCapsules_shape {body : RecordBody} (valid : requireAuthorizationAndCapsules body = .ok ()) :
    body.authorization.length = authLength body.kind ∧ body.capsules.length = capsuleCount body.kind ∧
      ∀ capsule ∈ body.capsules, capsule.length = capsuleLength := by
  simp only [requireAuthorizationAndCapsules, requireBytes, bind_eq_ok, require_eq_ok, decide_eq_true_eq] at valid
  obtain ⟨_, width, _, count, each⟩ := valid
  refine ⟨width, count, fun capsule member => ?_⟩
  have some_ : body.capsules.length ≠ 0 := Nat.ne_of_gt (List.length_pos_of_mem member)
  rw [if_pos some_] at each
  obtain ⟨_, widths, -⟩ := bind_eq_ok.mp each
  exact of_decide_eq_true (List.all_eq_true.mp (require_eq_ok.mp widths) capsule member)

theorem requireRecord_shape {body : RecordBody} (valid : requireRecord body = .ok ()) :
    requireStatement body.toStatement = .ok () ∧ proofLengthHolds body.kind body.proof.length = true ∧
      requireAuthorizationAndCapsules body = .ok () := by
  simp only [requireRecord, bind_eq_ok, require_eq_ok] at valid
  obtain ⟨_, statement, _, length, rest⟩ := valid
  exact ⟨statement, length, rest⟩

theorem readRecord_eq_ok {body : RecordBody} (valid : requireRecord body = .ok ()) :
    readRecord s = .ok (body, t) ↔ t = [] ∧ s = encodeRecord body := by
  obtain ⟨statement, proof, rest⟩ := requireRecord_shape valid
  obtain ⟨width, count, each⟩ := requireAuthorizationAndCapsules_shape rest
  have short := proofLengthHolds_le proof
  have few : (if body.kind = 5 then 0 else maxProof) ≤ 131072 := by
    split <;> decide
  have narrow := authLength_le body.kind
  have capped := capsuleCount_le body.kind
  simp only [readRecord, read_bind_eq_ok, read_lift_eq_ok, read_pure_eq_ok, readStatement_inverts _ _ _, Reader.lengthPrefixed_inverts _ _ _ _,
    Reader.u32_inverts _ _ _, capsules_inverts _ _ _ _, Reader.expectEnd_eq_ok, require_eq_ok, decide_eq_true_eq]
  constructor
  · rintro ⟨st, _, ⟨_, rfl⟩, proof, _, ⟨_, rfl⟩, authorization, _, ⟨_, rfl⟩, many, _, ⟨_, rfl⟩, _, _, ⟨same, rfl⟩, capsules, _,
      ⟨⟨length, _⟩, rfl⟩, _, _, ⟨rfl, rfl⟩, rfl, rfl⟩
    refine ⟨rfl, ?_⟩
    simp only [encodeRecord, length, List.append_assoc, List.append_nil]
  · rintro ⟨rfl, rfl⟩
    refine ⟨body.toStatement, _, ⟨statement, ?_⟩, body.proof, _, ⟨⟨short, by omega⟩, rfl⟩, body.authorization, _,
      ⟨⟨Nat.le_of_eq width, by omega⟩, rfl⟩, body.capsules.length, _, ⟨by omega, rfl⟩, (), _, ⟨count, rfl⟩, body.capsules, [], ⟨⟨rfl, each⟩, rfl⟩,
      (), [], ⟨rfl, rfl⟩, rfl, rfl⟩
    simp only [encodeRecord, List.append_assoc, List.append_nil]

/-- Decoding takes back exactly the bytes of a record that meets the checks. -/
theorem decodeRecord_eq_ok {bytes : Bytes} {record : Record} : decodeRecord bytes = .ok record ↔ bytes = encodeRecord record.toRecordBody := by
  simp only [decodeRecord, bind_eq_ok, Reader.run_eq_ok]
  constructor
  · rintro ⟨body, ⟨t, read⟩, checked⟩
    split at checked
    · rename_i valid
      obtain rfl := pure_eq_ok.mp checked
      exact ((readRecord_eq_ok valid).mp read).2
    · cases checked
  · intro same
    refine ⟨record.toRecordBody, ⟨[], (readRecord_eq_ok record.valid).mpr ⟨rfl, same⟩⟩, ?_⟩
    split
    · rfl
    · rename_i refused
      rw [record.valid] at refused
      cases refused

end Records

end Moe
