import Moe.Frames
import Moe.Scope.RecordRange

namespace Moe

/-- A predecessor's checkpoint a segment opens over. -/
structure OpeningCheckpoint where
  operator : Bytes
  sequence : Nat
  root : Bytes
  deriving DecidableEq

/-- Without an opening, it asserts an empty one. -/
structure SegmentEntry where
  backing : Bytes
  link : Bytes
  opening : Option OpeningCheckpoint
  deriving DecidableEq

structure SegmentHeader where
  domain : Bytes
  venue : Bytes
  operator : Bytes
  sequence : Nat
  entries : List SegmentEntry
  deriving DecidableEq

def headerEntryBytes : Nat := 136
def maxHeaderEntries : Nat := 65536

/-- The bytes before the first entry under a context. -/
def headerPrefixBytes (context : Bytes) : Nat := context.length + 108

def minHeaderBytes (context : Bytes) : Nat := headerPrefixBytes context + headerEntryBytes
def maxHeaderBytes (context : Bytes) : Nat := headerPrefixBytes context + headerEntryBytes * maxHeaderEntries

def positiveU64 (value : Nat) : Bool := 0 < value && isU64 value

/-- Structural checks only, an operator's own opening before its segment. -/
def isWellFormedHeader (h : SegmentHeader) : Bool :=
  h.domain.length = 32 && h.venue.length = 32 && h.operator.length = 32 && positiveU64 h.sequence &&
    (1 ≤ h.entries.length && h.entries.length ≤ maxHeaderEntries) &&
    (h.entries.zip h.entries.tail).all (fun (before, after) => byteValues before.backing < byteValues after.backing) &&
    h.entries.all fun entry => entry.backing.length = 32 && entry.link.length = 32 &&
      entry.opening.all fun o => o.operator.length = 32 && positiveU64 o.sequence && o.root.length = 32 &&
        (o.operator ≠ h.operator || o.sequence < h.sequence)

/-- An entry's frame, zeros where it asserts an empty opening. -/
def headerEntryFrame (entry : SegmentEntry) : Bytes :=
  entry.backing ++ entry.link ++ entry.opening.elim (List.replicate 72 0) fun o => toBytes 8 o.sequence ++ o.operator ++ o.root

def encodeSegmentHeader (context : Bytes) (header : SegmentHeader) : Except Failure Bytes := do
  require (header.entries.length ≤ maxHeaderEntries) (.encoding "array longer than its limit")
  require (isWellFormedHeader header) (.encoding "malformed segment header")
  return context ++ header.domain ++ header.venue ++ header.operator ++ toBytes 8 header.sequence ++ toBytes 4 header.entries.length ++
    header.entries.flatMap headerEntryFrame

def readHeaderEntry : Reader SegmentEntry := do
  let backing ← Reader.raw 32
  let link ← Reader.raw 32
  let sequence ← Reader.u64
  let operator ← Reader.raw 32
  let root ← Reader.raw 32
  if sequence = 0 then do
    require (operator.all (· = 0) && root.all (· = 0)) (.encoding "nonzero empty opening fields")
    return ⟨backing, link, none⟩
  else return ⟨backing, link, some ⟨operator, sequence, root⟩⟩

/-- A refusal is structural, never an operator's fault. -/
def decodeSegmentHeader (context input : Bytes) : Except Failure SegmentHeader := do
  require (minHeaderBytes context ≤ input.length && input.length ≤ maxHeaderBytes context) (.encoding "segment header byte bound")
  Reader.run (do
    let own ← Reader.raw context.length
    require (own = context) (.encoding "wrong segment context")
    let domain ← Reader.raw 32
    let venue ← Reader.raw 32
    let operator ← Reader.raw 32
    let sequence ← Reader.u64
    let count ← Reader.u32
    require (1 ≤ count && count ≤ maxHeaderEntries && input.length = headerPrefixBytes context + headerEntryBytes * count)
      (.encoding "segment count or length mismatch")
    let entries ← Reader.times readHeaderEntry count
    Reader.expectEnd
    let header : SegmentHeader := { domain, venue, operator, sequence, entries }
    require (isWellFormedHeader header) (.encoding "malformed segment header")
    return header) input

end Moe

namespace Moe

variable {context s t : Bytes} {header : SegmentHeader}

/-- What the checks on a header say of an entry's frame. -/
structure SegmentEntry.Framed (entry : SegmentEntry) : Prop where
  backing : entry.backing.length = 32
  link : entry.link.length = 32
  opening : ∀ o ∈ entry.opening, o.operator.length = 32 ∧ (0 < o.sequence ∧ o.sequence < 2 ^ 64) ∧ o.root.length = 32

theorem positiveU64_eq_true {value : Nat} : positiveU64 value = true ↔ 0 < value ∧ value < 2 ^ 64 := by
  simp [positiveU64, isU64]

/-- A well-formed header's fields have their widths. -/
theorem isWellFormedHeader_framed (well : isWellFormedHeader header = true) :
    header.domain.length = 32 ∧ header.venue.length = 32 ∧ header.operator.length = 32 ∧ header.sequence < 2 ^ 64 ∧
      (1 ≤ header.entries.length ∧ header.entries.length ≤ maxHeaderEntries) ∧ ∀ entry ∈ header.entries, entry.Framed := by
  simp only [isWellFormedHeader, Bool.and_eq_true, decide_eq_true_eq, List.all_eq_true, positiveU64_eq_true] at well
  obtain ⟨⟨⟨⟨⟨⟨domain, venue⟩, operator⟩, -, sequence⟩, count⟩, -⟩, each⟩ := well
  refine ⟨domain, venue, operator, sequence, count, fun entry member => ?_⟩
  obtain ⟨⟨backing, link⟩, opening⟩ := each entry member
  refine ⟨backing, link, fun o is => ?_⟩
  rw [Option.all_eq_true] at opening
  have checked := opening o is
  simp only [Bool.and_eq_true, decide_eq_true_eq, positiveU64_eq_true] at checked
  exact ⟨checked.1.1.1, checked.1.1.2, checked.1.2⟩

theorem headerEntryFrame_length {entry : SegmentEntry} (framed : entry.Framed) : (headerEntryFrame entry).length = headerEntryBytes := by
  obtain ⟨backing, link, opening⟩ := framed
  cases is : entry.opening with
  | none => simp [headerEntryFrame, is, backing, link, headerEntryBytes]
  | some o =>
    obtain ⟨operator, -, root⟩ := opening o is
    simp [headerEntryFrame, is, backing, link, operator, root, headerEntryBytes]

theorem replicate_of_all_zero {bytes : Bytes} (zero : bytes.all (· = 0) = true) : bytes = List.replicate bytes.length 0 := by
  rw [List.eq_replicate_iff]
  exact ⟨rfl, fun byte member => of_decide_eq_true (List.all_eq_true.mp zero byte member)⟩

/-- A zero sequence stands for no opening, and then the fields after it are zero. -/
theorem readHeaderEntry_inverts : Inverts readHeaderEntry headerEntryFrame SegmentEntry.Framed := by
  intro s entry t
  simp only [readHeaderEntry, read_bind_eq_ok, Reader.raw_inverts _ _ _ _, Reader.u64_inverts _ _ _]
  constructor
  · rintro ⟨backing, _, ⟨width, rfl⟩, link, _, ⟨width', rfl⟩, sequence, _, ⟨bound, rfl⟩, operator, _, ⟨width₁, rfl⟩, root, _, ⟨width₂, rfl⟩, ran⟩
    split at ran
    · rename_i zero
      subst zero
      simp only [read_bind_eq_ok, read_lift_eq_ok, read_pure_eq_ok, require_eq_ok, Bool.and_eq_true] at ran
      obtain ⟨_, _, ⟨⟨noOperator, noRoot⟩, rfl⟩, rfl, rfl⟩ := ran
      refine ⟨⟨width, width', by simp⟩, ?_⟩
      have operator_ := replicate_of_all_zero noOperator
      have root_ := replicate_of_all_zero noRoot
      rw [width₁] at operator_
      rw [width₂] at root_
      have sentinel : toBytes 8 0 ++ operator ++ root = List.replicate 72 0 := by
        rw [operator_, root_]
        decide
      simp only [headerEntryFrame, Option.elim_none, ← sentinel, id_eq, List.append_assoc]
    · rename_i positive
      rw [read_pure_eq_ok] at ran
      obtain ⟨rfl, rfl⟩ := ran
      refine ⟨⟨width, width', fun o is => ?_⟩, ?_⟩
      · obtain rfl := Option.some.inj is
        exact ⟨width₁, ⟨Nat.pos_of_ne_zero positive, bound⟩, width₂⟩
      · simp only [headerEntryFrame, Option.elim_some, id_eq, List.append_assoc]
  · rintro ⟨⟨width, width', opening⟩, rfl⟩
    obtain ⟨backing, link, o⟩ := entry
    cases o with
    | none =>
      have sentinel : List.replicate 72 0 = toBytes 8 0 ++ List.replicate 32 0 ++ List.replicate 32 0 := by decide
      refine ⟨backing, _, ⟨width, ?_⟩, link, _, ⟨width', rfl⟩, 0, _, ⟨by decide, rfl⟩, List.replicate 32 0, _, ⟨by simp, rfl⟩,
        List.replicate 32 0, t, ⟨by simp, rfl⟩, ?_⟩
      · simp only [headerEntryFrame, Option.elim_none, sentinel, id_eq, List.append_assoc]
      · rw [if_pos rfl]
        rfl
    | some o =>
      obtain ⟨operator, ⟨positive, bound⟩, root⟩ := opening o rfl
      refine ⟨backing, _, ⟨width, ?_⟩, link, _, ⟨width', rfl⟩, o.sequence, _, ⟨bound, rfl⟩, o.operator, _, ⟨operator, rfl⟩,
        o.root, t, ⟨root, rfl⟩, ?_⟩
      · simp only [headerEntryFrame, Option.elim_some, id_eq, List.append_assoc]
      · rw [if_neg (Nat.ne_of_gt positive)]
        rfl

/-- A header encodes where it is well formed. -/
theorem encodeSegmentHeader_eq_ok : encodeSegmentHeader context header = .ok s ↔ isWellFormedHeader header = true ∧
    s = context ++ header.domain ++ header.venue ++ header.operator ++ toBytes 8 header.sequence ++ toBytes 4 header.entries.length ++
      header.entries.flatMap headerEntryFrame := by
  simp only [encodeSegmentHeader, bind_unit_eq_ok, require_eq_ok, decide_eq_true_eq, pure_eq_ok]
  constructor
  · rintro ⟨-, well, rfl⟩
    exact ⟨well, rfl⟩
  · rintro ⟨well, rfl⟩
    exact ⟨(isWellFormedHeader_framed well).2.2.2.2.1.2, well, rfl⟩

/-- What decodes to a header is what it encodes as. -/
theorem decodeSegmentHeader_eq_ok : decodeSegmentHeader context s = .ok header ↔ encodeSegmentHeader context header = .ok s := by
  rw [encodeSegmentHeader_eq_ok]
  simp only [decodeSegmentHeader, bind_unit_eq_ok, Reader.run_eq_ok, read_bind_eq_ok, read_lift_eq_ok, read_pure_eq_ok, Reader.raw_inverts _ _ _ _,
    Reader.u64_inverts _ _ _, Reader.u32_inverts _ _ _, Reader.times_inverts readHeaderEntry_inverts _ _ _ _, Reader.expectEnd_eq_ok,
    require_eq_ok, Bool.and_eq_true, decide_eq_true_eq]
  constructor
  · rintro ⟨-, _, own, _, ⟨-, rfl⟩, _, _, ⟨rfl, rfl⟩, domain, _, ⟨-, rfl⟩, venue, _, ⟨-, rfl⟩, operator, _, ⟨-, rfl⟩, sequence, _, ⟨-, rfl⟩,
      _, _, ⟨-, rfl⟩, _, _, ⟨-, rfl⟩, entries, _, ⟨⟨rfl, -⟩, rfl⟩, _, _, ⟨rfl, rfl⟩, _, _, ⟨well, rfl⟩, rfl, rfl⟩
    refine ⟨well, ?_⟩
    simp only [id_eq, List.append_assoc, List.append_nil]
  · rintro ⟨well, rfl⟩
    obtain ⟨domain, venue, operator, sequence, ⟨some_, few⟩, framed⟩ := isWellFormedHeader_framed well
    have frames := @flatMap_length _ _ _ header.entries (fun entry member => headerEntryFrame_length (framed entry member))
    have length : (context ++ header.domain ++ header.venue ++ header.operator ++ toBytes 8 header.sequence ++
        toBytes 4 header.entries.length ++ header.entries.flatMap headerEntryFrame).length =
        headerPrefixBytes context + headerEntryBytes * header.entries.length := by
      simp only [List.length_append, toBytes_length, domain, venue, operator, frames, headerPrefixBytes]
    have bound : header.entries.length < 2 ^ 32 := Nat.lt_of_le_of_lt few (by decide)
    refine ⟨?_, [], context, _, ⟨rfl, ?_⟩, (), _, ⟨rfl, rfl⟩, header.domain, _, ⟨domain, rfl⟩, header.venue, _, ⟨venue, rfl⟩,
      header.operator, _, ⟨operator, rfl⟩, header.sequence, _, ⟨sequence, rfl⟩, header.entries.length, _, ⟨bound, rfl⟩, (), _,
      ⟨⟨⟨some_, few⟩, length⟩, rfl⟩, header.entries, _, ⟨⟨rfl, framed⟩, rfl⟩, (), _, ⟨rfl, rfl⟩, (), _, ⟨well, rfl⟩, rfl, rfl⟩
    · rw [length, minHeaderBytes, maxHeaderBytes, headerEntryBytes]
      omega
    · simp only [id_eq, List.append_assoc, List.append_nil]

/-- Headers under one context are told apart where they end. -/
theorem encodeSegmentHeader_unique {other : SegmentHeader} {bytes bytes' : Bytes} (encoded : encodeSegmentHeader context header = .ok bytes)
    (encoded' : encodeSegmentHeader context other = .ok bytes') (same : bytes ++ s = bytes' ++ t) : bytes = bytes' ∧ s = t := by
  obtain ⟨well, rfl⟩ := encodeSegmentHeader_eq_ok.mp encoded
  obtain ⟨well', rfl⟩ := encodeSegmentHeader_eq_ok.mp encoded'
  obtain ⟨domain, venue, operator, sequence, ⟨-, few⟩, framed⟩ := isWellFormedHeader_framed well
  obtain ⟨domain', venue', operator', sequence', ⟨-, few'⟩, framed'⟩ := isWellFormedHeader_framed well'
  have bound : header.entries.length < 2 ^ 32 := Nat.lt_of_le_of_lt few (by decide)
  have bound' : other.entries.length < 2 ^ 32 := Nat.lt_of_le_of_lt few' (by decide)
  simp only [List.append_assoc, List.append_cancel_left_eq] at same
  obtain ⟨domains, same⟩ := List.append_inj same (domain.trans domain'.symm)
  obtain ⟨venues, same⟩ := List.append_inj same (venue.trans venue'.symm)
  obtain ⟨operators, same⟩ := List.append_inj same (operator.trans operator'.symm)
  obtain ⟨sequences, same⟩ := Reader.u64_inverts.unique sequence sequence' same
  obtain ⟨counts, same⟩ := Reader.u32_inverts.unique bound bound' same
  obtain ⟨entries, rest⟩ :=
    (Reader.times_inverts readHeaderEntry_inverts header.entries.length).unique ⟨rfl, framed⟩ ⟨counts.symm, framed'⟩ same
  exact ⟨by rw [domains, venues, operators, sequences, entries], rest⟩

end Moe
