import Moe.Pool.Terms

namespace Moe.Terms

variable {s t : Bytes}

theorem minimalLength_le_iff {n k : Nat} : minimalLength n ≤ k ↔ n < 256 ^ k := by
  induction k generalizing n with
  | zero =>
    unfold minimalLength
    split <;> simp_all
  | succ k ih =>
    unfold minimalLength
    split
    · rename_i none_
      subst none_
      simp only [Nat.zero_le, true_iff]
      exact Nat.pow_pos (by decide)
    · rw [Nat.add_le_add_iff_right, ih, Nat.pow_succ]
      omega

/-- A leading byte that is not zero weighs as much as the bytes after it allow. -/
theorem le_ofBytes_cons {byte : UInt8} {bytes : Bytes} (some_ : byte ≠ 0) : 256 ^ bytes.length ≤ ofBytes (byte :: bytes) := by
  induction bytes using List.reverseRecOn with
  | nil =>
    have positive : byte.toNat ≠ 0 := fun none_ => some_ (UInt8.toNat.inj none_)
    simp [ofBytes]
    omega
  | append_singleton bytes last ih =>
    rw [← List.cons_append, ofBytes_concat, List.length_append, List.length_singleton, Nat.pow_succ]
    omega

theorem ofBytes_zero_cons {bytes : Bytes} : ofBytes (0 :: bytes) = ofBytes bytes := by simp [ofBytes]

theorem minimalLength_ofBytes {bytes : Bytes} (minimal : bytes.head? ≠ some 0) : minimalLength (ofBytes bytes) = bytes.length := by
  have most := minimalLength_le_iff.mpr (ofBytes_lt bytes)
  cases bytes with
  | nil => exact Nat.le_zero.mp most
  | cons byte bytes =>
    have least := @le_ofBytes_cons _ bytes fun none_ : byte = 0 => minimal (by rw [none_, List.head?_cons])
    have more : ¬ minimalLength (ofBytes (byte :: bytes)) ≤ bytes.length := fun few => by
      have := minimalLength_le_iff.mp few
      omega
    rw [List.length_cons] at most ⊢
    omega

theorem bigintToMinimalBytes_minimal {n : Nat} : (bigintToMinimalBytes n).head? ≠ some 0 := by
  intro leading
  have value := ofBytes_toBytes (minimalLength_le_iff.mp (Nat.le_refl (minimalLength n)))
  have length := toBytes_length (minimalLength n) n
  change (toBytes (minimalLength n) n).head? = some 0 at leading
  generalize toBytes (minimalLength n) n = bytes at value length leading
  cases bytes with
  | nil => cases leading
  | cons byte bytes =>
    obtain rfl := Option.some.inj leading
    rw [ofBytes_zero_cons] at value
    have few := minimalLength_le_iff.mpr (ofBytes_lt bytes)
    rw [List.length_cons] at length
    rw [value] at few
    omega

/-- A quantity is read back from its minimal bytes, and from no others. -/
theorem minimalBytesToBigint_eq_ok {bytes : Bytes} {n : Nat} : minimalBytesToBigint bytes = .ok n ↔ bytes = bigintToMinimalBytes n := by
  rw [minimalBytesToBigint, bind_unit_eq_ok, require_eq_ok, decide_eq_true_eq, pure_eq_ok]
  constructor
  · rintro ⟨minimal, rfl⟩
    rw [bigintToMinimalBytes, minimalLength_ofBytes minimal, toBytes_ofBytes]
  · rintro rfl
    exact ⟨bigintToMinimalBytes_minimal, ofBytes_toBytes (minimalLength_le_iff.mp (Nat.le_refl _))⟩

theorem bigintToMinimalBytes_length_le {n k : Nat} : (bigintToMinimalBytes n).length ≤ k ↔ n < 256 ^ k := by
  rw [bigintToMinimalBytes, toBytes_length, minimalLength_le_iff]

theorem signedByte_length (n : Int) : (signedByte n).length = 1 := rfl

theorem readSignedByte_inverts : Inverts readSignedByte signedByte fun n => -128 ≤ n ∧ n ≤ 127 := by
  intro s n t
  simp only [readSignedByte, read_bind_eq_ok, read_pure_eq_ok, Reader.u8_inverts _ _ _]
  have one : ∀ m, toBytes 1 m = [UInt8.ofNat (m % 256)] := fun _ => rfl
  constructor
  · rintro ⟨m, u, ⟨bound, rfl⟩, rfl, rfl⟩
    split
    · refine ⟨by omega, ?_⟩
      rw [one, signedByte, show ((m : Int) - 256) % 256 = ((m % 256 : Nat) : Int) by omega, Int.toNat_natCast]
    · refine ⟨by omega, ?_⟩
      rw [one, signedByte, show (m : Int) % 256 = ((m % 256 : Nat) : Int) by omega, Int.toNat_natCast]
  · rintro ⟨⟨low, high⟩, rfl⟩
    refine ⟨(n % 256).toNat, t, ⟨by omega, ?_⟩, ?_, rfl⟩
    · rw [one, signedByte, Nat.mod_eq_of_lt (by omega)]
    · split <;> omega

theorem decodeThing_eq_ok {bytes : Bytes} {thing : JsString} (well : thing.isWellFormed = true) :
    decodeThing bytes = .ok thing ↔ bytes = thing.textEncode := by
  unfold decodeThing
  constructor
  · intro read
    split at read
    · rename_i other decoded
      obtain rfl := Except.ok.inj read
      exact (JsString.textEncode_of_textDecodeKeeping decoded).symm
    · cases read
  · rintro rfl
    rw [JsString.textDecodeKeeping_textEncode well]

/-- A thing that was read is written as the bytes it was read from. -/
theorem textEncode_of_decodeThing {bytes : Bytes} {thing : JsString} (read : decodeThing bytes = .ok thing) : bytes = thing.textEncode := by
  unfold decodeThing at read
  split at read
  · rename_i other decoded
    obtain rfl := Except.ok.inj read
    exact (JsString.textEncode_of_textDecodeKeeping decoded).symm
  · cases read

namespace Clause

def tag : Clause → Nat
  | .window .. => 1
  | .venue .. => 2
  | .replacement .. => 3
  | .nonService .. => 4
  | .construction .. => 5
  | .lapse .. => 6

/-- What is written of a clause after its tag. -/
def payload : Clause → Bytes
  | .window duration challengeWindow => toBytes 8 duration ++ toBytes 8 challengeWindow
  | .venue digest interval => digest ++ toBytes 8 interval
  | .replacement rule => rule
  | .nonService n => toBytes 8 n.duration ++ toBytes 4 n.count ++ toBytes 8 n.window
  | .construction name configuration => lengthPrefixed name ++ configuration
  | .lapse duration => toBytes 8 duration

def write (c : Clause) : Bytes := toBytes 1 c.tag ++ c.payload

/-- A clause a construction's profile reads. -/
def Valid (p : Profile) : Clause → Prop
  | .window duration challengeWindow => p.silenceTag = .one ∧ duration < 2 ^ 64 ∧ challengeWindow < 2 ^ 64
  | .venue digest interval => digest.length = 32 ∧ interval < 2 ^ 64
  | .replacement rule => rule.length = 32
  | .nonService n => n.duration < 2 ^ 64 ∧ n.count < 2 ^ 32 ∧ n.window < 2 ^ 64
  | .construction name configuration => name = p.construction ∧ configuration.length = 32
  | .lapse duration => p.silenceTag = .six ∧ duration < 2 ^ 64

theorem tag_range (c : Clause) : 1 ≤ c.tag ∧ c.tag ≤ 6 := by
  cases c <;> simp [tag]

end Clause

theorem readWindow_eq_ok {p : Profile} {c : Clause} : readWindow p s = .ok (c, t) ↔
    ∃ duration challengeWindow, c = .window duration challengeWindow ∧ c.Valid p ∧ s = c.payload ++ t := by
  simp only [readWindow, read_bind_eq_ok, read_lift_eq_ok, read_pure_eq_ok, Reader.u64_inverts _ _ _, require_eq_ok, decide_eq_true_eq]
  constructor
  · rintro ⟨_, _, ⟨own, rfl⟩, duration, _, ⟨bound, rfl⟩, challengeWindow, _, ⟨bound', rfl⟩, rfl, rfl⟩
    exact ⟨duration, challengeWindow, rfl, ⟨own, bound, bound'⟩, (List.append_assoc ..).symm⟩
  · rintro ⟨duration, challengeWindow, rfl, ⟨own, bound, bound'⟩, rfl⟩
    exact ⟨(), _, ⟨own, rfl⟩, duration, _, ⟨bound, List.append_assoc ..⟩, challengeWindow, _, ⟨bound', rfl⟩, rfl, rfl⟩

theorem readVenue_eq_ok {p : Profile} {c : Clause} : readVenue s = .ok (c, t) ↔
    ∃ digest interval, c = .venue digest interval ∧ c.Valid p ∧ s = c.payload ++ t := by
  simp only [readVenue, read_bind_eq_ok, read_pure_eq_ok, Reader.raw_inverts _ _ _ _, Reader.u64_inverts _ _ _]
  constructor
  · rintro ⟨digest, _, ⟨width, rfl⟩, interval, _, ⟨bound, rfl⟩, rfl, rfl⟩
    exact ⟨digest, interval, rfl, ⟨width, bound⟩, (List.append_assoc ..).symm⟩
  · rintro ⟨digest, interval, rfl, ⟨width, bound⟩, rfl⟩
    exact ⟨digest, _, ⟨width, List.append_assoc ..⟩, interval, _, ⟨bound, rfl⟩, rfl, rfl⟩

theorem readReplacement_eq_ok {p : Profile} {c : Clause} : readReplacement s = .ok (c, t) ↔
    ∃ rule, c = .replacement rule ∧ c.Valid p ∧ s = c.payload ++ t := by
  simp only [readReplacement, read_bind_eq_ok, read_pure_eq_ok, Reader.raw_inverts _ _ _ _]
  constructor
  · rintro ⟨rule, _, ⟨width, rfl⟩, rfl, rfl⟩
    exact ⟨rule, rfl, width, rfl⟩
  · rintro ⟨rule, rfl, width, rfl⟩
    exact ⟨rule, _, ⟨width, rfl⟩, rfl, rfl⟩

theorem readNonService_eq_ok {p : Profile} {c : Clause} : readNonService s = .ok (c, t) ↔
    ∃ clause, c = .nonService clause ∧ c.Valid p ∧ s = c.payload ++ t := by
  simp only [readNonService, read_bind_eq_ok, read_pure_eq_ok, Reader.u64_inverts _ _ _, Reader.u32_inverts _ _ _]
  constructor
  · rintro ⟨duration, _, ⟨bound, rfl⟩, count, _, ⟨few, rfl⟩, window, _, ⟨bound', rfl⟩, rfl, rfl⟩
    exact ⟨⟨duration, count, window⟩, rfl, ⟨bound, few, bound'⟩, by simp only [Clause.payload, List.append_assoc]⟩
  · rintro ⟨⟨duration, count, window⟩, rfl, ⟨bound, few, bound'⟩, rfl⟩
    refine ⟨duration, _, ⟨bound, ?_⟩, count, _, ⟨few, rfl⟩, window, _, ⟨bound', rfl⟩, rfl, rfl⟩
    simp only [Clause.payload, List.append_assoc]

theorem readConstruction_eq_ok {p : Profile} {c : Clause} : readConstruction p s = .ok (c, t) ↔
    ∃ name configuration, c = .construction name configuration ∧ c.Valid p ∧ s = c.payload ++ t := by
  simp only [readConstruction, read_bind_eq_ok, read_lift_eq_ok, read_pure_eq_ok, Reader.lengthPrefixed_inverts _ _ _ _,
    Reader.raw_inverts _ _ _ _, require_eq_ok, decide_eq_true_eq]
  constructor
  · rintro ⟨name, _, ⟨-, rfl⟩, _, _, ⟨own, rfl⟩, configuration, _, ⟨width, rfl⟩, rfl, rfl⟩
    exact ⟨name, configuration, rfl, ⟨own, width⟩, (List.append_assoc ..).symm⟩
  · rintro ⟨name, configuration, rfl, ⟨rfl, width⟩, rfl⟩
    have short := p.named.2
    exact ⟨p.construction, _, ⟨⟨Nat.le_refl _, by omega⟩, List.append_assoc ..⟩, (), _, ⟨rfl, rfl⟩, configuration, _, ⟨width, rfl⟩, rfl, rfl⟩

theorem readLapse_eq_ok {p : Profile} {c : Clause} : readLapse p s = .ok (c, t) ↔
    ∃ duration, c = .lapse duration ∧ c.Valid p ∧ s = c.payload ++ t := by
  simp only [readLapse, read_bind_eq_ok, read_lift_eq_ok, read_pure_eq_ok, Reader.u64_inverts _ _ _, require_eq_ok, decide_eq_true_eq]
  constructor
  · rintro ⟨_, _, ⟨own, rfl⟩, duration, _, ⟨bound, rfl⟩, rfl, rfl⟩
    exact ⟨duration, rfl, ⟨own, bound⟩, rfl⟩
  · rintro ⟨duration, rfl, ⟨own, bound⟩, rfl⟩
    exact ⟨(), _, ⟨own, rfl⟩, duration, _, ⟨bound, rfl⟩, rfl, rfl⟩

/-- A tag's payload is the clause's, and no other tag has one. -/
theorem readClause_inverts (p : Profile) (tag : Nat) : Inverts (readClause p tag) Clause.payload fun c => c.tag = tag ∧ c.Valid p := by
  intro s c t
  unfold readClause
  split
  · rw [readWindow_eq_ok]
    cases c <;> simp [Clause.tag]
  · rw [readVenue_eq_ok (p := p)]
    cases c <;> simp [Clause.tag]
  · rw [readReplacement_eq_ok (p := p)]
    cases c <;> simp [Clause.tag]
  · rw [readNonService_eq_ok (p := p)]
    cases c <;> simp [Clause.tag]
  · rw [readConstruction_eq_ok]
    cases c <;> simp [Clause.tag]
  · rw [readLapse_eq_ok]
    cases c <;> simp [Clause.tag]
  · rw [read_lift_eq_ok]
    constructor
    · rintro ⟨thrown, -⟩
      cases thrown
    · rintro ⟨⟨same, -⟩, -⟩
      cases c <;> simp_all [Clause.tag]

/-- Clauses one after another, their tags ascending from the last. -/
theorem readClauses_eq_ok {p : Profile} {count previous : Nat} {found found' : Found} :
    readClauses p count previous found s = .ok (found', t) ↔ ∃ clauses : List Clause, clauses.length = count ∧
      (previous :: clauses.map Clause.tag).IsChain (· < ·) ∧ (∀ c ∈ clauses, c.Valid p) ∧
      found' = clauses.foldl Found.take found ∧ s = clauses.flatMap Clause.write ++ t := by
  induction count generalizing previous found s with
  | zero =>
    rw [readClauses, read_pure_eq_ok]
    constructor
    · rintro ⟨rfl, rfl⟩
      exact ⟨[], rfl, List.IsChain.singleton _, by simp, rfl, rfl⟩
    · rintro ⟨clauses, none_, -, -, rfl, rfl⟩
      obtain rfl := List.length_eq_zero_iff.mp none_
      exact ⟨rfl, rfl⟩
  | succ count ih =>
    simp only [readClauses, read_bind_eq_ok, read_lift_eq_ok, Reader.u8_inverts _ _ _, readClause_inverts _ _ _ _ _, require_eq_ok,
      decide_eq_true_eq, ih]
    constructor
    · rintro ⟨tag, _, ⟨-, rfl⟩, _, _, ⟨after, rfl⟩, c, _, ⟨⟨rfl, valid⟩, rfl⟩, clauses, rfl, chain, valids, rfl, rfl⟩
      refine ⟨c :: clauses, rfl, List.isChain_cons_cons.mpr ⟨after, chain⟩, List.forall_mem_cons.mpr ⟨valid, valids⟩, rfl, ?_⟩
      simp only [List.flatMap_cons, Clause.write, List.append_assoc]
    · rintro ⟨clauses, many, chain, valids, rfl, rfl⟩
      cases clauses with
      | nil => cases many
      | cons c clauses =>
        obtain ⟨after, chain⟩ := List.isChain_cons_cons.mp chain
        obtain ⟨valid, valids⟩ := List.forall_mem_cons.mp valids
        have range := c.tag_range
        refine ⟨c.tag, _, ⟨by omega, ?_⟩, (), _, ⟨after, rfl⟩, c, _, ⟨⟨rfl, valid⟩, rfl⟩, clauses, by simpa using many, chain, valids, rfl, rfl⟩
        simp only [List.flatMap_cons, Clause.write, List.append_assoc]

namespace Found

/-- What is written of the clauses found, in the order of their tags. -/
def clauses (name : Bytes) (found : Found) : List Clause :=
  (match found.silence with
    | some ⟨duration, some challengeWindow⟩ => [.window duration challengeWindow]
    | _ => []) ++
  (found.venue.elim [] fun v => [.venue v.1 v.2]) ++
  (found.replacementRule.elim [] fun rule => [.replacement rule]) ++
  (found.nonService.elim [] fun n => [.nonService n]) ++
  (found.configuration.elim [] fun configuration => [.construction name configuration]) ++
  match found.silence with
    | some ⟨duration, none⟩ => [.lapse duration]
    | _ => []

variable {name : Bytes} {found : Found} {k : Nat}

/-- No clause is found of the tags past those there are. -/
theorem none_of_lt (before : ∀ d ∈ found.clauses name, d.tag < k) : (k ≤ 1 → found.silence = none) ∧ (k ≤ 2 → found.venue = none) ∧
    (k ≤ 3 → found.replacementRule = none) ∧ (k ≤ 4 → found.nonService = none) ∧ (k ≤ 5 → found.configuration = none) ∧
    (k ≤ 6 → ∀ duration, found.silence ≠ some ⟨duration, none⟩) := by
  refine ⟨fun le => ?_, fun le => ?_, fun le => ?_, fun le => ?_, fun le => ?_, fun le duration is => ?_⟩
  · cases is : found.silence with
    | none => rfl
    | some silence =>
      obtain ⟨duration, challengeWindow⟩ := silence
      cases challengeWindow with
      | none =>
        have last := before (.lapse duration) (by simp [clauses, is])
        simp only [Clause.tag] at last
        omega
      | some challengeWindow =>
        have first := before (.window duration challengeWindow) (by simp [clauses, is])
        simp only [Clause.tag] at first
        omega
  · cases is : found.venue with
    | none => rfl
    | some v =>
      have second := before (.venue v.1 v.2) (by simp [clauses, is])
      simp only [Clause.tag] at second
      omega
  · cases is : found.replacementRule with
    | none => rfl
    | some rule =>
      have third := before (.replacement rule) (by simp [clauses, is])
      simp only [Clause.tag] at third
      omega
  · cases is : found.nonService with
    | none => rfl
    | some n =>
      have fourth := before (.nonService n) (by simp [clauses, is])
      simp only [Clause.tag] at fourth
      omega
  · cases is : found.configuration with
    | none => rfl
    | some configuration =>
      have fifth := before (.construction name configuration) (by simp [clauses, is])
      simp only [Clause.tag] at fifth
      omega
  · have last := before (.lapse duration) (by simp [clauses, is])
    simp only [Clause.tag] at last
    omega

/-- A clause of a later tag is the last one found. -/
theorem take_clauses {p : Profile} {c : Clause} (before : ∀ d ∈ found.clauses p.construction, d.tag < c.tag)
    (valids : ∀ d ∈ found.clauses p.construction, d.Valid p) (valid : c.Valid p) :
    (found.take c).clauses p.construction = found.clauses p.construction ++ [c] := by
  have noLapse := (none_of_lt before).2.2.2.2.2 c.tag_range.2
  cases c with
  | window duration challengeWindow =>
    obtain ⟨silence, venue, rule, nonService, configuration, -⟩ := none_of_lt (k := 1) before
    simp [take, clauses, silence (by decide), venue (by decide), rule (by decide), nonService (by decide), configuration (by decide)]
  | venue digest interval =>
    obtain ⟨-, venue, rule, nonService, configuration, -⟩ := none_of_lt (k := 2) before
    simp only [take, clauses, venue (by decide), rule (by decide), nonService (by decide), configuration (by decide)]
    split <;> simp_all
  | replacement bytes =>
    obtain ⟨-, -, rule, nonService, configuration, -⟩ := none_of_lt (k := 3) before
    simp only [take, clauses, rule (by decide), nonService (by decide), configuration (by decide)]
    split <;> simp_all
  | nonService clause =>
    obtain ⟨-, -, -, nonService, configuration, -⟩ := none_of_lt (k := 4) before
    simp only [take, clauses, nonService (by decide), configuration (by decide)]
    split <;> simp_all
  | construction own bytes =>
    obtain ⟨-, -, -, -, configuration, -⟩ := none_of_lt (k := 5) before
    obtain ⟨rfl, -⟩ := valid
    simp only [take, clauses, configuration (by decide)]
    split <;> simp_all
  | lapse duration =>
    have noWindow : ∀ d w, found.silence ≠ some ⟨d, some w⟩ := fun d w is => by
      have other := (valids (.window d w) (by simp [clauses, is])).1
      rw [valid.1] at other
      cases other
    have silent : found.silence = none := by
      rcases is : found.silence with _ | ⟨d, _ | w⟩
      · rfl
      · exact absurd is (noLapse d)
      · exact absurd is (noWindow d w)
    simp [take, clauses, silent]

/-- The clauses taken, in the order of their tags, are those found. -/
theorem clauses_foldl_take {p : Profile} {clauses : List Clause} (chain : (0 :: clauses.map Clause.tag).IsChain (· < ·))
    (valids : ∀ c ∈ clauses, c.Valid p) : (clauses.foldl take {}).clauses p.construction = clauses := by
  have sorted := (List.isChain_iff_pairwise.mp chain).tail
  clear chain
  induction clauses using List.reverseRecOn with
  | nil => rfl
  | append_singleton clauses c ih =>
    rw [List.tail_cons, List.map_append, List.map_singleton, List.pairwise_append] at sorted
    obtain ⟨sorted, -, before⟩ := sorted
    have same := ih (fun d member => valids d (List.mem_append_left _ member)) sorted
    rw [List.foldl_append, List.foldl_cons, List.foldl_nil, take_clauses (c := c), same]
    · rw [same]
      exact fun d member => before _ (List.mem_map_of_mem member) _ (List.mem_singleton_self _)
    · rw [same]
      exact fun d member => valids d (List.mem_append_left _ member)
    · exact valids c (List.mem_append_right _ (List.mem_singleton_self c))

end Found

end Moe.Terms
