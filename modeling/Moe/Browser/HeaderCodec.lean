import Moe.Browser.Headers

namespace Moe

open JsString

/-- A name as the pool is given it, without a lone surrogate. -/
def PoolName (name : JsString) : Prop := isWellFormed name = true ∧ name.head? = some slash

theorem poolMagic_length : poolMagic.length = 16 := by decide

theorem setLength_length (file : Bytes) (n : Nat) : (setLength file n).length = n := by
  simp only [setLength, List.length_append, List.length_take, List.length_replicate]
  omega

theorem setLength_of_le {file : Bytes} {n : Nat} (short : file.length ≤ n) : setLength file n = file ++ List.replicate (n - file.length) 0 := by
  rw [setLength, List.take_of_length_le short]

theorem encodeNames_length {names : List JsString} {at_ : Nat} {body : Bytes} (inside : at_ ≤ sumAt)
    (done : encodeNames at_ names = .ok body) : at_ + body.length ≤ sumAt ∧ 2 * names.length ≤ body.length := by
  induction names generalizing at_ body with
  | nil =>
    obtain rfl := Except.ok.inj done
    simpa using inside
  | cons name rest ih =>
    rw [encodeNames] at done
    split at done
    · cases done
    · rename_i fits
      cases more : encodeNames (at_ + 2 + (textEncode name).length) rest with
      | error failure =>
        rw [more] at done
        cases done
      | ok tail =>
        rw [more] at done
        obtain rfl := Except.ok.inj done
        obtain ⟨within, counted⟩ := ih (by omega) more
        simp only [List.length_append, toBytes_length, List.length_cons]
        omega

/-- Fewer names fit where more did. -/
theorem encodeNames_filter {names : List JsString} {at_ early : Nat} {body : Bytes} (keep : JsString → Bool) (before : early ≤ at_)
    (done : encodeNames at_ names = .ok body) : ∃ less, encodeNames early (names.filter keep) = .ok less := by
  induction names generalizing at_ early body with
  | nil => exact ⟨[], rfl⟩
  | cons name rest ih =>
    rw [encodeNames] at done
    split at done
    · cases done
    · rename_i fits
      cases more : encodeNames (at_ + 2 + (textEncode name).length) rest with
      | error failure =>
        rw [more] at done
        cases done
      | ok tail =>
        by_cases kept : keep name
        · obtain ⟨less, written⟩ := @ih _ (early + 2 + (textEncode name).length) _ (by omega) more
          rw [List.filter_cons_of_pos kept, encodeNames, if_neg (by omega), written]
          exact ⟨_, rfl⟩
        · rw [List.filter_cons_of_neg kept]
          exact ih (by omega) more

/-- Names are read where they were written. -/
theorem decodeNames_encode {names : List JsString} {at_ : Nat} {body part : Bytes} (rest : Bytes) (named : ∀ name ∈ names, PoolName name)
    (done : encodeNames at_ names = .ok body) (stands : part.drop at_ = body ++ rest) :
    decodeNames part names.length at_ = .ok (some names) := by
  induction names generalizing at_ body with
  | nil => rfl
  | cons name tail ih =>
    obtain ⟨first, others⟩ := List.forall_mem_cons.mp named
    rw [encodeNames] at done
    split at done
    · cases done
    · rename_i fits
      cases more : encodeNames (at_ + 2 + (textEncode name).length) tail with
      | error failure =>
        rw [more] at done
        cases done
      | ok left =>
        rw [more] at done
        obtain rfl := Except.ok.inj done
        have bound : (textEncode name).length < 256 ^ 2 := by
          simp only [sumAt, copyBytes] at fits
          omega
        have next : part.drop (at_ + 2) = textEncode name ++ (left ++ rest) := by
          rw [← List.drop_drop, stands, List.append_assoc, List.append_assoc, List.drop_left' (toBytes_length 2 _)]
        have length : ofBytes ((part.drop at_).take 2) = (textEncode name).length := by
          rw [stands, List.append_assoc, List.append_assoc, List.take_left' (toBytes_length 2 _), ofBytes_toBytes bound]
        have later : part.drop (at_ + 2 + (textEncode name).length) = left ++ rest := by
          rw [← List.drop_drop, next, List.drop_left' rfl]
        rw [List.length_cons, decodeNames]
        simp only [length, if_neg fits, next, List.take_left' rfl, textDecode_textEncode first.1 first.2, ih others more later]
        rfl

variable {file bytes : Bytes}

theorem Copy.other_other (copy : Copy) : copy.other.other = copy := by cases copy <;> rfl

theorem Copy.other_or (copy own : Copy) : copy = own.other ∨ copy = own := by
  cases copy <;> cases own <;> simp [Copy.other]

theorem writeAt_inside {at_ : Nat} (inside : at_ + bytes.length ≤ file.length) :
    writeAt file at_ bytes = file.take at_ ++ bytes ++ file.drop (at_ + bytes.length) := by
  rw [writeAt, Nat.sub_eq_zero_of_le (by omega)]
  simp

theorem writeAt_length {at_ : Nat} (inside : at_ + bytes.length ≤ file.length) : (writeAt file at_ bytes).length = file.length := by
  rw [writeAt_inside inside]
  simp only [List.length_append, List.length_take, List.length_drop]
  omega

/-- Bytes written past the header leave it. -/
theorem take_writeAt {at_ : Nat} (long : headerBytes ≤ file.length) :
    (writeAt file (headerBytes + at_) bytes).take headerBytes = file.take headerBytes := by
  rw [writeAt, List.append_assoc, List.append_assoc, List.take_append_of_le_length (by rw [List.length_take]; omega), List.take_take,
    Nat.min_eq_left (by omega)]

theorem take_setLength {n : Nat} (long : headerBytes ≤ file.length) :
    (setLength file (headerBytes + n)).take headerBytes = file.take headerBytes := by
  rw [setLength, List.take_append_of_le_length (by rw [List.length_take]; omega), List.take_take, Nat.min_eq_left (by omega)]

/-- Bytes written within a copy leave the data. -/
theorem data_writeAt {copy : Copy} (long : headerBytes ≤ file.length) (short : bytes.length ≤ copyBytes) :
    (writeAt file copy.offset bytes).drop headerBytes = file.drop headerBytes := by
  have below : copy.offset + bytes.length ≤ headerBytes := by
    refine Nat.le_trans (Nat.add_le_add_left short _) ?_
    cases copy <;> decide
  have width : (file.take copy.offset ++ bytes).length = copy.offset + bytes.length := by
    simp only [List.length_append, List.length_take]
    omega
  rw [writeAt_inside (Nat.le_trans below long), List.drop_append, List.drop_eq_nil_of_le (by omega), List.nil_append, List.drop_drop, width]
  congr 1
  omega

section

variable [Crypto] {ino birth sequence : Nat} {names : List JsString} {part : Bytes} {copy : Copy}

theorem encode_eq_ok : encode ino birth names sequence = .ok part ↔ ∃ body, encodeNames 42 names = .ok body ∧
    part = setLength (poolMagic ++ toBytes 8 sequence ++ toBytes 8 ino ++ toBytes 8 birth ++ toBytes 2 names.length ++ body) sumAt ++
      sha256 (setLength (poolMagic ++ toBytes 8 sequence ++ toBytes 8 ino ++ toBytes 8 birth ++ toBytes 2 names.length ++ body) sumAt) := by
  cases done : encodeNames 42 names with
  | error failure => simp [encode, done, bind, Except.bind]
  | ok body =>
    simp only [encode, done, bind, Except.bind, pure, Except.pure, Except.ok.injEq, exists_eq_left']
    exact eq_comm

theorem encode_length (done : encode ino birth names sequence = .ok part) : part.length = copyBytes := by
  obtain ⟨body, -, rfl⟩ := encode_eq_ok.mp done
  rw [List.length_append, setLength_length, Crypto.sha256_length, sumAt]
  simp only [copyBytes]

/-- A header is decoded as it was encoded. -/
theorem decode_encode (named : ∀ name ∈ names, PoolName name) (wide : ino < 2 ^ 64) (wide' : birth < 2 ^ 64) (wide'' : sequence < 2 ^ 64)
    (done : encode ino birth names sequence = .ok part) : decode part = .ok (some ⟨names, ino, birth, sequence⟩) := by
  obtain ⟨body, written, rfl⟩ := encode_eq_ok.mp done
  obtain ⟨within, counted⟩ := encodeNames_length (by simp only [sumAt, copyBytes]; omega) written
  have count : names.length < 256 ^ 2 := by
    simp only [sumAt, copyBytes] at within
    omega
  generalize leads : poolMagic ++ toBytes 8 sequence ++ toBytes 8 ino ++ toBytes 8 birth ++ toBytes 2 names.length = lead
  have length : lead.length = 42 := by
    rw [← leads]
    simp only [List.length_append, toBytes_length, poolMagic_length]
  have padded : setLength (lead ++ body) sumAt = lead ++ (body ++ List.replicate (sumAt - (lead ++ body).length) 0) := by
    rw [setLength_of_le (by rw [List.length_append, length]; exact within), List.append_assoc]
  generalize zeros : List.replicate (sumAt - (lead ++ body).length) (0 : UInt8) = zero at padded
  generalize sums : sha256 (setLength (lead ++ body) sumAt) = sum
  have width : sum.length = 32 := by
    rw [← sums]
    exact Crypto.sha256_length _
  have magic : (setLength (lead ++ body) sumAt ++ sum).take 16 = poolMagic := by
    rw [padded, ← leads]
    simp only [List.append_assoc]
    exact List.take_left' poolMagic_length
  have summed : ((setLength (lead ++ body) sumAt ++ sum).drop sumAt).take 32 = sha256 ((setLength (lead ++ body) sumAt ++ sum).take sumAt) := by
    rw [List.drop_left' (setLength_length _ _), List.take_left' (setLength_length _ _), sums, List.take_of_length_le (by omega)]
  have sequence_ : ofBytes (((setLength (lead ++ body) sumAt ++ sum).drop 16).take 8) = sequence := by
    rw [padded, ← leads]
    simp only [List.append_assoc]
    rw [List.drop_left' poolMagic_length, List.take_left' (toBytes_length 8 _), ofBytes_toBytes (by simpa using wide'')]
  have ino_ : ofBytes (((setLength (lead ++ body) sumAt ++ sum).drop 24).take 8) = ino := by
    rw [padded, ← leads]
    simp only [List.append_assoc]
    rw [← List.append_assoc, List.drop_left' (by simp [poolMagic_length]), List.take_left' (toBytes_length 8 _),
      ofBytes_toBytes (by simpa using wide)]
  have birth_ : ofBytes (((setLength (lead ++ body) sumAt ++ sum).drop 32).take 8) = birth := by
    rw [padded, ← leads]
    simp only [List.append_assoc]
    rw [← List.append_assoc, ← List.append_assoc, List.drop_left' (by simp [poolMagic_length]), List.take_left' (toBytes_length 8 _),
      ofBytes_toBytes (by simpa using wide')]
  have count_ : ofBytes (((setLength (lead ++ body) sumAt ++ sum).drop 40).take 2) = names.length := by
    rw [padded, ← leads]
    simp only [List.append_assoc]
    rw [← List.append_assoc, ← List.append_assoc, ← List.append_assoc, List.drop_left' (by simp [poolMagic_length]),
      List.take_left' (toBytes_length 2 _), ofBytes_toBytes count]
  have names_ : decodeNames (setLength (lead ++ body) sumAt ++ sum) names.length 42 = .ok (some names) := by
    refine decodeNames_encode (zero ++ sum) named written ?_
    rw [padded, List.append_assoc, List.append_assoc, List.drop_left' length]
  rw [decode, if_neg (not_not.mpr magic), if_neg (not_not.mpr summed), sequence_, ino_, birth_, count_, names_]
  rfl

/-- A blank copy holds no header. -/
theorem decode_blank : decode (List.replicate copyBytes 0) = .ok none := by
  refine if_pos fun same => ?_
  rw [List.take_replicate] at same
  have first := congrArg List.head? same
  simp [copyBytes, poolMagic, tag] at first

/-- A copy is read from the header's bytes alone. -/
theorem copyAt_congr {other : Bytes} (same : file.take headerBytes = other.take headerBytes) : copyAt file copy = copyAt other copy := by
  have part : ∀ bytes : Bytes, (bytes.drop copy.offset).take copyBytes = ((bytes.take headerBytes).drop copy.offset).take copyBytes := by
    intro bytes
    rw [List.drop_take, List.take_take, Nat.min_eq_left]
    cases copy <;> decide
  have length : ∀ bytes : Bytes, copy.offset + copyBytes ≤ bytes.length ↔ copy.offset + copyBytes ≤ (bytes.take headerBytes).length := by
    intro bytes
    rw [List.length_take, Nat.le_min]
    refine (and_iff_right ?_).symm
    cases copy <;> decide
  rw [copyAt, copyAt, part file, part other, same]
  simp only [length file, length other, same]

theorem copyAt_of_long (long : headerBytes ≤ file.length) : copyAt file copy = decode ((file.drop copy.offset).take copyBytes) := by
  refine if_pos (Nat.le_trans ?_ long)
  cases copy <;> decide

/-- A copy written whole is what it was encoded as. -/
theorem copyAt_written (long : headerBytes ≤ file.length) (whole : part.length = copyBytes) :
    copyAt (writeAt file copy.offset part) copy = decode part := by
  have inside : copy.offset + part.length ≤ file.length := by
    rw [whole]
    refine Nat.le_trans ?_ long
    cases copy <;> decide
  rw [copyAt_of_long (by rw [writeAt_length inside]; exact long), writeAt_inside inside, List.append_assoc,
    List.drop_left' (by simp only [List.length_take]; omega), List.take_left' whole]

/-- Bytes written within one copy leave the other. -/
theorem copyAt_other (long : headerBytes ≤ file.length) (short : bytes.length ≤ copyBytes) :
    copyAt (writeAt file copy.offset bytes) copy.other = copyAt file copy.other := by
  have inside : copy.offset + bytes.length ≤ file.length := by
    refine Nat.le_trans (Nat.add_le_add_left short _) (Nat.le_trans ?_ long)
    cases copy <;> decide
  rw [copyAt_of_long (by rw [writeAt_length inside]; exact long), copyAt_of_long long, writeAt_inside inside]
  congr 1
  cases copy with
  | first =>
    simp only [Copy.offset, Copy.other, List.take_zero, List.nil_append, Nat.zero_add]
    rw [List.drop_append, List.drop_eq_nil_of_le short, List.nil_append, List.drop_drop]
    congr 2
    omega
  | second =>
    have lead : copyBytes ≤ (file.take copyBytes).length := by
      simp only [List.length_take, headerBytes, copyBytes] at long ⊢
      omega
    simp only [Copy.offset, Copy.other, List.drop_zero]
    rw [List.append_assoc, List.take_append_of_le_length lead, List.take_take, Nat.min_self]

end

end Moe
