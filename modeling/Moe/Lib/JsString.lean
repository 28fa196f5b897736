import Mathlib.Data.List.Basic

namespace Moe

/-- A string as the language holds it: its UTF-16 code units. -/
abbrev JsString := List UInt16

namespace JsString

def isHigh (u : UInt16) : Bool := 0xD800 ≤ u.toNat && u.toNat < 0xDC00

def isLow (u : UInt16) : Bool := 0xDC00 ≤ u.toNat && u.toNat < 0xE000

/-- The code point a surrogate pair stands for. -/
def pair (u v : UInt16) : Char := Char.ofNat (0x10000 + (u.toNat - 0xD800) * 0x400 + (v.toNat - 0xDC00))

/-- The code point of a unit outside a pair: a lone surrogate is the replacement character. -/
def single (u : UInt16) : Char := if isHigh u || isLow u then Char.ofNat 0xFFFD else Char.ofNat u.toNat

/-- Its code points, each lone surrogate replaced. -/
def toWellFormed : JsString → List Char
  | [] => []
  | [u] => [single u]
  | u :: v :: rest => if isHigh u && isLow v then pair u v :: toWellFormed rest else single u :: toWellFormed (v :: rest)

/-- Whether no surrogate stands alone. -/
def isWellFormed : JsString → Bool
  | [] => true
  | [u] => !(isHigh u || isLow u)
  | u :: v :: rest => if isHigh u && isLow v then isWellFormed rest else !(isHigh u || isLow u) && isWellFormed (v :: rest)

/-- A code point's units. -/
def units (c : Char) : JsString :=
  if c.toNat < 0x10000 then [UInt16.ofNat c.toNat]
  else [UInt16.ofNat (0xD800 + (c.toNat - 0x10000) / 0x400), UInt16.ofNat (0xDC00 + (c.toNat - 0x10000) % 0x400)]

/-- Its UTF-8 bytes, as the platform encodes it. -/
def textEncode (s : JsString) : List UInt8 := (toWellFormed s).flatMap String.utf8EncodeChar

/-- The string UTF-8 bytes hold, a byte order mark before them dropped; none where they are not UTF-8. -/
def textDecode (bytes : List UInt8) : Option JsString :=
  ((if bytes.take 3 = [0xEF, 0xBB, 0xBF] then bytes.drop 3 else bytes).toByteArray.utf8Decode?).map fun chars => chars.toList.flatMap units

/-- The string UTF-8 bytes hold, a byte order mark before them kept. -/
def textDecodeKeeping (bytes : List UInt8) : Option JsString :=
  bytes.toByteArray.utf8Decode?.map fun chars => chars.toList.flatMap units

theorem toNat_ofNat {n : Nat} (valid : n.isValidChar) : (Char.ofNat n).toNat = n := by
  rw [Char.ofNat, dif_pos valid]
  rfl

theorem units_single {u : UInt16} (alone : (isHigh u || isLow u) = false) : units (single u) = [u] := by
  have bound := u.toNat_lt
  simp only [isHigh, isLow, Bool.or_eq_false_iff, Bool.and_eq_false_iff, decide_eq_false_iff_not] at alone
  have valid : u.toNat.isValidChar := by
    unfold Nat.isValidChar
    omega
  have same : (Char.ofNat u.toNat).toNat = u.toNat := toNat_ofNat valid
  have plain : single u = Char.ofNat u.toNat := if_neg (by simp [isHigh, isLow]; omega)
  rw [units, plain, same, if_pos (by omega), UInt16.ofNat_toNat]

theorem units_pair {u v : UInt16} (high : isHigh u = true) (low : isLow v = true) : units (pair u v) = [u, v] := by
  simp only [isHigh, isLow, Bool.and_eq_true, decide_eq_true_eq] at high low
  generalize point : 0x10000 + (u.toNat - 0xD800) * 0x400 + (v.toNat - 0xDC00) = n
  have valid : n.isValidChar := by
    unfold Nat.isValidChar
    omega
  have same : (pair u v).toNat = n := by
    rw [pair, point]
    exact toNat_ofNat valid
  have first : 0xD800 + (n - 0x10000) / 0x400 = u.toNat := by omega
  have second : 0xDC00 + (n - 0x10000) % 0x400 = v.toNat := by omega
  rw [units, same, if_neg (by omega), first, second, UInt16.ofNat_toNat, UInt16.ofNat_toNat]

/-- A string without a lone surrogate is its code points' units. -/
theorem units_toWellFormed {s : JsString} (well : isWellFormed s = true) : (toWellFormed s).flatMap units = s := by
  induction s using toWellFormed.induct with
  | case1 => rfl
  | case2 u =>
    rw [isWellFormed, Bool.not_eq_true'] at well
    rw [toWellFormed, List.flatMap_cons, List.flatMap_nil, units_single well]
    rfl
  | case3 u v rest paired ih =>
    obtain ⟨high, low⟩ := Bool.and_eq_true_iff.mp paired
    rw [isWellFormed, if_pos paired] at well
    rw [toWellFormed, if_pos paired, List.flatMap_cons, units_pair high low, ih well]
    rfl
  | case4 u v rest unpaired ih =>
    rw [isWellFormed, if_neg unpaired, Bool.and_eq_true, Bool.not_eq_true'] at well
    rw [toWellFormed, if_neg unpaired, List.flatMap_cons, units_single well.1, ih well.2]
    rfl

/-- A code point is one unit that is no surrogate, or a surrogate pair. -/
theorem units_cases (c : Char) :
    (∃ u, units c = [u] ∧ isHigh u = false ∧ isLow u = false ∧ single u = c) ∨
      ∃ u v, units c = [u, v] ∧ isHigh u = true ∧ isLow v = true ∧ pair u v = c := by
  have valid : c.toNat.isValidChar := c.valid
  have back : Char.ofNat c.toNat = c := Char.ofNat_toNat c
  unfold Nat.isValidChar at valid
  unfold units
  split
  · rename_i short
    have whole : (UInt16.ofNat c.toNat).toNat = c.toNat := UInt16.toNat_ofNat_of_lt' short
    have high : isHigh (UInt16.ofNat c.toNat) = false := by
      simp only [isHigh, whole, Bool.and_eq_false_iff, decide_eq_false_iff_not]
      omega
    have low : isLow (UInt16.ofNat c.toNat) = false := by
      simp only [isLow, whole, Bool.and_eq_false_iff, decide_eq_false_iff_not]
      omega
    refine Or.inl ⟨_, rfl, high, low, ?_⟩
    rw [single, high, low, whole, back]
    rfl
  · rename_i long
    have first : (UInt16.ofNat (0xD800 + (c.toNat - 0x10000) / 0x400)).toNat = 0xD800 + (c.toNat - 0x10000) / 0x400 :=
      UInt16.toNat_ofNat_of_lt' (by show _ < 2 ^ 16; omega)
    have second : (UInt16.ofNat (0xDC00 + (c.toNat - 0x10000) % 0x400)).toNat = 0xDC00 + (c.toNat - 0x10000) % 0x400 :=
      UInt16.toNat_ofNat_of_lt' (by show _ < 2 ^ 16; omega)
    have high : isHigh (UInt16.ofNat (0xD800 + (c.toNat - 0x10000) / 0x400)) = true := by
      simp only [isHigh, first, Bool.and_eq_true, decide_eq_true_eq]
      omega
    have low : isLow (UInt16.ofNat (0xDC00 + (c.toNat - 0x10000) % 0x400)) = true := by
      simp only [isLow, second, Bool.and_eq_true, decide_eq_true_eq]
      omega
    have same : 0x10000 + (0xD800 + (c.toNat - 0x10000) / 0x400 - 0xD800) * 0x400 +
        (0xDC00 + (c.toNat - 0x10000) % 0x400 - 0xDC00) = c.toNat := by omega
    exact Or.inr ⟨_, _, rfl, high, low, by rw [pair, first, second, same, back]⟩

/-- A code point's units, whatever follows them, are read as it. -/
theorem toWellFormed_units {c : Char} {s : JsString} : toWellFormed (units c ++ s) = c :: toWellFormed s := by
  rcases units_cases c with ⟨u, same, high, low, own⟩ | ⟨u, v, same, high, low, own⟩
  · rw [same]
    cases s with
    | nil => rw [List.append_nil, toWellFormed, toWellFormed, own]
    | cons v rest => rw [List.singleton_append, toWellFormed, if_neg (by simp [high]), own]
  · rw [same, List.cons_append, List.singleton_append, toWellFormed, if_pos (by rw [high, low]; rfl), own]

theorem toWellFormed_flatMap_units {chars : List Char} : toWellFormed (chars.flatMap units) = chars := by
  induction chars with
  | nil => rfl
  | cons c chars ih => rw [List.flatMap_cons, toWellFormed_units, ih]

/-- A code point's units leave no surrogate alone. -/
theorem isWellFormed_units {c : Char} {s : JsString} : isWellFormed (units c ++ s) = isWellFormed s := by
  rcases units_cases c with ⟨u, same, high, low, -⟩ | ⟨u, v, same, high, low, -⟩
  · rw [same]
    cases s with
    | nil => simp [isWellFormed, high, low]
    | cons v rest => simp [isWellFormed, high, low]
  · rw [same, List.cons_append, List.singleton_append, isWellFormed, if_pos (by rw [high, low]; rfl)]

theorem isWellFormed_flatMap_units {chars : List Char} : isWellFormed (chars.flatMap units) = true := by
  induction chars with
  | nil => rfl
  | cons c chars ih => rw [List.flatMap_cons, isWellFormed_units, ih]

/-- What bytes decode to leaves no surrogate alone. -/
theorem isWellFormed_of_textDecodeKeeping {bytes : List UInt8} {s : JsString} (decoded : textDecodeKeeping bytes = some s) :
    isWellFormed s = true := by
  obtain ⟨chars, -, rfl⟩ := Option.map_eq_some_iff.mp decoded
  exact isWellFormed_flatMap_units

/-- What UTF-8 bytes decode to, a mark kept, is written as those bytes again. -/
theorem textEncode_of_textDecodeKeeping {bytes : List UInt8} {s : JsString} (decoded : textDecodeKeeping bytes = some s) :
    textEncode s = bytes := by
  obtain ⟨chars, read, rfl⟩ := Option.map_eq_some_iff.mp decoded
  have valid : bytes.toByteArray.utf8Decode?.isSome := by simp [read]
  have back := @ByteArray.utf8Encode_get_utf8Decode? bytes.toByteArray valid
  rw [textEncode, toWellFormed_flatMap_units]
  simp only [read, Option.get_some] at back
  have lists := congrArg (fun array => array.data.toList) back
  simpa [List.utf8Encode] using lists

theorem textDecodeKeeping_textEncode {s : JsString} (well : isWellFormed s = true) : textDecodeKeeping (textEncode s) = some s := by
  have encoded : (textEncode s).toByteArray = List.utf8Encode (toWellFormed s) := rfl
  rw [textDecodeKeeping, encoded, List.utf8Decode?_utf8Encode, Option.map_some, List.toList_toArray, units_toWellFormed well]

/-- A path's first byte is its slash, so no mark is dropped before it. -/
theorem textDecode_textEncode {s : JsString} (well : isWellFormed s = true) (path : s.head? = some 0x2F) :
    textDecode (textEncode s) = some s := by
  obtain ⟨rest, rfl⟩ : ∃ rest, s = 0x2F :: rest := by
    cases s with
    | nil => cases path
    | cons u rest => exact ⟨rest, by rw [Option.some.inj path]⟩
  have slash : ∃ more, toWellFormed (0x2F :: rest) = '/' :: more := by
    cases rest with
    | nil => exact ⟨[], rfl⟩
    | cons v rest => exact ⟨_, if_neg (by simp [isHigh])⟩
  have mark : (textEncode (0x2F :: rest)).take 3 ≠ [0xEF, 0xBB, 0xBF] := by
    obtain ⟨more, same⟩ := slash
    rw [textEncode, same, List.flatMap_cons]
    intro marked
    have first := congrArg List.head? marked
    rw [show String.utf8EncodeChar '/' = [0x2F] from by decide] at first
    simp at first
  have encoded : (textEncode (0x2F :: rest)).toByteArray = List.utf8Encode (toWellFormed (0x2F :: rest)) := rfl
  rw [textDecode, if_neg mark, encoded, List.utf8Decode?_utf8Encode, Option.map_some, List.toList_toArray, units_toWellFormed well]

end JsString

end Moe
