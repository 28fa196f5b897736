import Moe.Scope.KeptReads
import Moe.Transport.PackageRoutes

namespace Moe

namespace Transport

/-- The code a range frame carries a record kind under. -/
def recordKindCode : RecordKind → Nat
  | .commitment => 1
  | .replacement => 2
  | .revocation => 3
  | .publication => 4

/-- Shape, order and budgets. -/
def requireAnswer (answer : RangeAnswer) (boundIn : RangeLimits) : Except Failure (RangeRequest × List RangeEntry × Nat) := do
  let bound ← copyLimits boundIn
  let read ← validEntries answer (some bound)
  require (read.2.2 ≤ maxSafeInteger) (.rangeError "range allocation range exceeded")
  return read

def writeRequest (request : RangeRequest) : Bytes :=
  tag "moe/pool/v3/range" ++ request.venue ++ toBytes 1 (recordKindCode request.kind) ++ request.subject ++ toBytes 8 request.fromIndex ++
    toBytes 8 request.toIndex

def writeEntry (entry : RangeEntry) : Bytes :=
  toBytes 8 entry.index ++ toBytes 8 entry.ordinal ++ toBytes 4 entry.record.length ++ entry.record

def writeAnswer (request : RangeRequest) (entries : List RangeEntry) : Bytes :=
  writeRequest request ++ toBytes 4 entries.length ++ entries.flatMap writeEntry

def encodeRangeAnswer (answer : RangeAnswer) (bound : RangeLimits) : Except Failure Bytes := do
  let (request, entries, _) ← requireAnswer answer bound
  return writeAnswer request entries

/-- Entries a frame to `request` carries after `previous`: each framed, in range and in order. -/
def EntriesStand (request : RangeRequest) : Option RangeEntry → List RangeEntry → Prop
  | _, [] => True
  | previous, entry :: entries => (isU64 entry.index = true ∧ isU64 entry.ordinal = true) ∧
      (request.fromIndex ≤ entry.index ∧ entry.index ≤ request.toIndex) ∧ inOrder request.kind entry previous = true ∧
      recordLengthFits request.kind entry.record.length = true ∧ EntriesStand request (some entry) entries

variable {request : RangeRequest} {entries : List RangeEntry} {entry : RangeEntry} {bytes : Bytes} {bound boundIn : RangeLimits}

theorem inOrder_zero {previous : Option RangeEntry} {kind : RecordKind} (order : inOrder kind entry previous = true) (other : kind ≠ .publication) :
    entry.ordinal = 0 := by
  have zero : ((kind = .publication : Bool) || decide (entry.ordinal = 0)) = true → entry.ordinal = 0 := by
    simp [other]
  cases previous with
  | none => exact zero order
  | some before =>
    rw [inOrder] at order
    split at order
    · exact zero order
    · split at order
      · cases order
      · exact of_decide_eq_true (Bool.and_eq_true_iff.mp order).1

theorem follows_of_inOrder {before : RangeEntry} {kind : RecordKind} (order : inOrder kind entry (some before) = true) :
    RangeEntry.Follows kind before entry := by
  rw [inOrder] at order
  split at order
  · rename_i less
    exact Or.inl less
  · rename_i above
    split at order
    · cases order
    · rename_i below
      refine Or.inr ⟨by omega, ?_⟩
      split
      · rename_i publication
        rw [if_pos publication] at order
        exact of_decide_eq_true order
      · rename_i other
        rw [if_neg other] at order
        exact of_decide_eq_true (Bool.and_eq_true_iff.mp order).2

theorem Follows_trans {kind : RecordKind} {a b c : RangeEntry} (first : RangeEntry.Follows kind a b) (second : RangeEntry.Follows kind b c) :
    RangeEntry.Follows kind a c := by
  rcases first with less | ⟨same, order⟩
  · rcases second with less' | ⟨same', -⟩
    · exact Or.inl (Nat.lt_trans less less')
    · exact Or.inl (by omega)
  · rcases second with less' | ⟨same', order'⟩
    · exact Or.inl (by omega)
    · refine Or.inr ⟨same.trans same', ?_⟩
      split at order
      · rename_i publication
        rw [if_pos publication] at order' ⊢
        exact Nat.lt_trans order order'
      · rename_i other
        rw [if_neg other] at order' ⊢
        exact le_trans order order'

/-- The entries of an answer are those framed, in range and in order, whichever the way they are checked. -/
theorem entriesStand_iff {previous : Option RangeEntry} : EntriesStand request previous entries ↔
    (∀ e ∈ entries, e.Framed request.kind ∧ request.fromIndex ≤ e.index ∧ e.index ≤ request.toIndex) ∧
      (∀ p ∈ previous, ∀ e ∈ entries, RangeEntry.Follows request.kind p e) ∧ entries.Pairwise (RangeEntry.Follows request.kind) := by
  induction entries generalizing previous with
  | nil => simp [EntriesStand]
  | cons entry entries ih =>
    rw [EntriesStand, ih, List.pairwise_cons]
    constructor
    · rintro ⟨⟨index, ordinal⟩, inside, order, fits, framed, later, ordered⟩
      have next := later entry rfl
      refine ⟨List.forall_mem_cons.mpr ⟨⟨⟨index, ordinal, fits, inOrder_zero order⟩, inside⟩, framed⟩, fun p known e member => ?_, next, ordered⟩
      obtain rfl := known
      have first := follows_of_inOrder order
      rcases List.mem_cons.mp member with rfl | member
      · exact first
      · exact Follows_trans first (next e member)
    · rintro ⟨framed, before, next, ordered⟩
      obtain ⟨⟨frame, inside⟩, framed⟩ := List.forall_mem_cons.mp framed
      refine ⟨⟨frame.index, frame.ordinal⟩, inside, ?_, frame.fits, framed, fun p known e member => ?_, ordered⟩
      · cases previous with
        | none => exact inOrder_first frame
        | some p => exact inOrder_of_follows frame (before p rfl entry List.mem_cons_self)
      · obtain rfl := Option.some.inj known
        exact next e member

theorem writeEntry_length (entry : RangeEntry) : (writeEntry entry).length = entryBytes + entry.record.length := by
  simp only [writeEntry, List.length_append, toBytes_length, entryBytes]

theorem writeEntries_length (entries : List RangeEntry) :
    (entries.flatMap writeEntry).length = entryBytes * entries.length + (entries.map (·.record.length)).sum := by
  induction entries with
  | nil => rfl
  | cons entry entries ih =>
    rw [List.flatMap_cons, List.length_append, writeEntry_length, ih, List.map_cons, List.sum_cons, List.length_cons, Nat.mul_succ]
    omega

theorem budget_mono {small large few many : Nat} (below : small ≤ large) (fewer : few ≤ many) (fits : budget large many bound = .ok ()) :
    budget small few bound = .ok () := by
  simp only [budget, require_eq_ok, Bool.and_eq_true, decide_eq_true_eq] at fits ⊢
  omega

/-- One entry after another, within the budget as long as all of them are. -/
theorem validEntry_run {count size after : Nat} {previous last : Option RangeEntry} (start : budget size count bound = .ok ()) :
    (entries.foldlM (validEntry request (some bound) count) (previous, size) = .ok (last, after)) ↔
      EntriesStand request previous entries ∧ budget (size + (entries.map (·.record.length)).sum) count bound = .ok () ∧
        last = entries.getLast?.or previous ∧ after = size + (entries.map (·.record.length)).sum := by
  induction entries generalizing previous size with
  | nil =>
    rw [List.foldlM_nil, pure_eq_ok, Prod.mk.injEq]
    simp only [EntriesStand, List.map_nil, List.sum_nil, Nat.add_zero, start, true_and, List.getLast?_nil, Option.none_or, eq_comm]
  | cons entry entries ih =>
    rw [List.foldlM_cons, List.map_cons, List.sum_cons, ← Nat.add_assoc]
    have lasts : (entry :: entries).getLast?.or previous = entries.getLast?.or (some entry) := by
      cases entries with
      | nil => rfl
      | cons next rest => simp [List.getLast?_cons]
    rw [lasts]
    simp only [validEntry, bind_eq_ok, require_eq_ok, Bool.and_eq_true, decide_eq_true_eq, pure_eq_ok, EntriesStand]
    constructor
    · rintro ⟨_, ⟨_, own, _, ⟨inside, order⟩, _, fits, _, within, rfl⟩, run⟩
      obtain ⟨stand, whole, rfl, rfl⟩ := (ih within).mp run
      exact ⟨⟨own, inside, order, fits, stand⟩, whole, rfl, rfl⟩
    · rintro ⟨⟨own, inside, order, fits, stand⟩, whole, rfl, rfl⟩
      have within := budget_mono (Nat.le_add_right (size + entry.record.length) (entries.map (·.record.length)).sum) (Nat.le_refl count) whole
      exact ⟨_, ⟨(), own, (), ⟨inside, order⟩, (), fits, (), within, rfl⟩, (ih within).mpr ⟨stand, whole, rfl, rfl⟩⟩

/-- A field of a frame is the integer of the bytes it writes. -/
theorem frameInt_width {offset width : Nat} (inside : offset + width ≤ bytes.length) :
    frameInt bytes offset width < 256 ^ width ∧ toBytes width (frameInt bytes offset width) = (bytes.drop offset).take width := by
  have length : ((bytes.drop offset).take width).length = width := by
    rw [List.length_take, List.length_drop]
    omega
  have bound := ofBytes_lt ((bytes.drop offset).take width)
  have back := toBytes_ofBytes ((bytes.drop offset).take width)
  rw [length] at bound back
  exact ⟨bound, back⟩

/-- A written field is read back where it stands. -/
theorem frameInt_write {before after : Bytes} {offset width value : Nat} (place : before.length = offset) (fits : value < 256 ^ width) :
    frameInt (before ++ (toBytes width value ++ after)) offset width = value := by
  rw [frameInt, List.drop_left' place, List.take_left' (toBytes_length _ _), ofBytes_toBytes fits]

theorem recordLength_lt {kind : RecordKind} {length : Nat} (fits : recordLengthFits kind length = true) : length < 2 ^ 32 := by
  have most : length ≤ 131914 := by
    cases kind with
    | publication => exact of_decide_eq_true fits
    | commitment => exact Nat.le_trans (Nat.le_of_eq (of_decide_eq_true fits)) (by decide)
    | replacement => exact Nat.le_trans (Nat.le_of_eq (of_decide_eq_true fits)) (by decide)
    | revocation => exact Nat.le_trans (Nat.le_of_eq (of_decide_eq_true fits)) (by decide)
  omega

theorem isU64_iff {value : Nat} : isU64 value = true ↔ value < 256 ^ 8 := by
  rw [isU64, decide_eq_true_eq]
  rfl

/-- A frame's entries are read to its last byte, each back from what was written of it. -/
theorem decodeEntries_eq_ok {count : Nat} {previous : Option RangeEntry} : decodeEntries request count bytes previous = .ok entries ↔
    entries.length = count ∧ EntriesStand request previous entries ∧ bytes = entries.flatMap writeEntry := by
  induction count generalizing bytes previous entries with
  | zero =>
    simp only [decodeEntries, bind_eq_ok, require_eq_ok, decide_eq_true_eq, pure_eq_ok]
    constructor
    · rintro ⟨_, rfl, rfl⟩
      exact ⟨rfl, trivial, rfl⟩
    · rintro ⟨none_, -, rfl⟩
      obtain rfl := List.length_eq_zero_iff.mp none_
      exact ⟨(), rfl, rfl⟩
  | succ count ih =>
    simp only [decodeEntries, bind_eq_ok, require_eq_ok, decide_eq_true_eq, pure_eq_ok, Bool.and_eq_true, ih]
    constructor
    · rintro ⟨_, long, _, ⟨fits, room⟩, _, ⟨inside, order⟩, later, ⟨rfl, stand, rest⟩, rfl⟩
      simp only [entryBytes] at long room rest order stand
      obtain ⟨index, index'⟩ := @frameInt_width bytes _ _ (by omega : 0 + 8 ≤ bytes.length)
      obtain ⟨ordinal, ordinal'⟩ := @frameInt_width bytes _ _ (by omega : 8 + 8 ≤ bytes.length)
      obtain ⟨-, length'⟩ := @frameInt_width bytes _ _ (by omega : 16 + 4 ≤ bytes.length)
      have record : ((bytes.drop 20).take (frameInt bytes 16 4)).length = frameInt bytes 16 4 := by
        rw [List.length_take, List.length_drop]
        omega
      refine ⟨rfl, ⟨⟨isU64_iff.mpr index, isU64_iff.mpr ordinal⟩, inside, order, ?_, stand⟩, ?_⟩
      · change recordLengthFits request.kind ((bytes.drop 20).take (frameInt bytes 16 4)).length = true
        rw [record]
        exact fits
      · have cut : bytes = ((bytes.drop 0).take 8 ++ (bytes.drop 8).take 8 ++ (bytes.drop 16).take 4 ++
            (bytes.drop 20).take (frameInt bytes 16 4)) ++ bytes.drop (20 + frameInt bytes 16 4) := by
          rw [List.drop_zero, ← List.take_add, ← List.take_add, ← List.take_add, List.take_append_drop]
        rw [List.flatMap_cons, ← rest]
        refine cut.trans (congrArg (· ++ bytes.drop (20 + frameInt bytes 16 4)) ?_)
        simp only [writeEntry, entryBytes, record, index', ordinal', length']
    · rintro ⟨many, stand, rfl⟩
      cases entries with
      | nil => cases many
      | cons entry entries =>
        obtain ⟨⟨index, ordinal⟩, inside, order, fits, stand⟩ := stand
        have small := recordLength_lt fits
        have whole : (entry :: entries).flatMap writeEntry = toBytes 8 entry.index ++ (toBytes 8 entry.ordinal ++ (toBytes 4 entry.record.length ++
            (entry.record ++ entries.flatMap writeEntry))) := by
          simp only [List.flatMap_cons, writeEntry, List.append_assoc]
        have head : (toBytes 8 entry.index ++ (toBytes 8 entry.ordinal ++ toBytes 4 entry.record.length)).length = entryBytes := by
          simp only [List.length_append, toBytes_length]
          rfl
        have tail : ((entry :: entries).flatMap writeEntry).drop entryBytes = entry.record ++ entries.flatMap writeEntry := by
          rw [whole]
          simp only [← List.append_assoc (toBytes 8 entry.index), ← List.append_assoc (toBytes 8 entry.index ++ toBytes 8 entry.ordinal)]
          rw [List.append_assoc (toBytes 8 entry.index), List.drop_left' head]
        have long : ((entry :: entries).flatMap writeEntry).length = entryBytes + (entry.record.length + (entries.flatMap writeEntry).length) := by
          rw [List.flatMap_cons, List.length_append, writeEntry_length, Nat.add_assoc]
        have index' : frameInt ((entry :: entries).flatMap writeEntry) 0 8 = entry.index := by
          rw [whole]
          exact @frameInt_write [] _ _ _ _ rfl (isU64_iff.mp index)
        have ordinal' : frameInt ((entry :: entries).flatMap writeEntry) 8 8 = entry.ordinal := by
          rw [whole]
          exact frameInt_write (toBytes_length _ _) (isU64_iff.mp ordinal)
        have length' : frameInt ((entry :: entries).flatMap writeEntry) 16 4 = entry.record.length := by
          rw [whole, ← List.append_assoc]
          exact frameInt_write (by rw [List.length_append, toBytes_length, toBytes_length]) small
        rw [index', ordinal', length', ← List.drop_drop, tail, List.take_left, List.drop_left, long]
        exact ⟨(), by omega, (), ⟨fits, by omega⟩, (), ⟨inside, order⟩, entries, ⟨Nat.succ.inj many, stand, rfl⟩, rfl⟩

theorem recordKindOf_code {kind : RecordKind} {code : Nat} : recordKindOf code = some kind ↔ code = recordKindCode kind := by
  unfold recordKindOf
  split <;> cases kind <;> simp_all [recordKindCode]

theorem isWellFormedRequest_iff : isWellFormedRequest request = true ↔ request.venue.length = 32 ∧ request.subject.length = 32 ∧
    isU64 request.fromIndex = true ∧ isU64 request.toIndex = true ∧ request.fromIndex ≤ request.toIndex := by
  simp only [isWellFormedRequest, Bool.and_eq_true, decide_eq_true_eq, and_assoc]

theorem copyRequest_iff {request' : RangeRequest} : copyRequest request = .ok request' ↔ isWellFormedRequest request = true ∧ request' = request := by
  simp only [copyRequest, bind_eq_ok, require_eq_ok, pure_eq_ok]
  constructor
  · rintro ⟨_, formed, rfl⟩
    exact ⟨formed, rfl⟩
  · rintro ⟨formed, rfl⟩
    exact ⟨(), formed, rfl⟩

theorem writeRequest_length (formed : isWellFormedRequest request = true) : (writeRequest request).length = 98 := by
  obtain ⟨venue, subject, -⟩ := isWellFormedRequest_iff.mp formed
  simp only [writeRequest, List.length_append, toBytes_length, venue, subject]
  rfl

theorem writeAnswer_length (formed : isWellFormedRequest request = true) :
    (writeAnswer request entries).length = fixedBytes + entryBytes * entries.length + (entries.map (·.record.length)).sum := by
  simp only [writeAnswer, List.length_append, toBytes_length, writeRequest_length formed, writeEntries_length, fixedBytes]
  omega

theorem copyLimits_eq_ok {bound : RangeLimits} : copyLimits boundIn = .ok bound ↔
    (isU64 boundIn.maxBytes = true ∧ isU64 boundIn.maxEntries = true) ∧ bound = boundIn := by
  simp only [copyLimits, bind_eq_ok, require_eq_ok, Bool.and_eq_true, pure_eq_ok]
  constructor
  · rintro ⟨_, counts, rfl⟩
    exact ⟨counts, rfl⟩
  · rintro ⟨counts, rfl⟩
    exact ⟨(), counts, rfl⟩

/-- The encoder takes every answer whose entries stand, within its budget and what can be allocated. -/
theorem encodeRangeAnswer_eq_ok : encodeRangeAnswer ⟨request, entries⟩ bound = .ok bytes ↔ copyLimits bound = .ok bound ∧
    isWellFormedRequest request = true ∧ entries.length < 2 ^ 32 ∧ EntriesStand request none entries ∧
      budget (writeAnswer request entries).length entries.length bound = .ok () ∧ (writeAnswer request entries).length ≤ maxSafeInteger ∧
      bytes = writeAnswer request entries := by
  simp only [encodeRangeAnswer, requireAnswer, validEntries, bind_eq_ok, copyRequest_iff, require_eq_ok, decide_eq_true_eq, pure_eq_ok]
  constructor
  · rintro ⟨_, ⟨own, bounded, _, ⟨_, ⟨formed, rfl⟩, _, few, _, start, ⟨last, size⟩, run, rfl⟩, _, safe, rfl⟩, rfl⟩
    obtain ⟨-, rfl⟩ := copyLimits_eq_ok.mp bounded
    obtain ⟨stand, fits, -, rfl⟩ := (validEntry_run start).mp run
    rw [← writeAnswer_length formed] at fits safe
    exact ⟨bounded, formed, by omega, stand, fits, safe, rfl⟩
  · rintro ⟨bounded, formed, few, stand, fits, safe, rfl⟩
    rw [writeAnswer_length formed] at fits safe
    have start := budget_mono (Nat.le_add_right (fixedBytes + entryBytes * entries.length) _) (Nat.le_refl _) fits
    exact ⟨_, ⟨bound, bounded, _, ⟨request, ⟨formed, rfl⟩, (), by omega, (), start, (_, _), (validEntry_run start).mpr ⟨stand, fits, rfl, rfl⟩, rfl⟩,
      (), safe, rfl⟩, rfl⟩

/-- A frame read field by field is the frame to the request those fields say. -/
theorem writeAnswer_of_fields {kind : RecordKind} (least : fixedBytes ≤ bytes.length) (context : bytes.take 17 = tag "moe/pool/v3/range")
    (own : frameInt bytes 49 1 = recordKindCode kind)
    (carried : (⟨(bytes.drop 17).take 32, kind, (bytes.drop 50).take 32, frameInt bytes 82 8, frameInt bytes 90 8⟩ : RangeRequest) = request)
    (count : entries.length = frameInt bytes 98 4) (rest : bytes.drop fixedBytes = entries.flatMap writeEntry) :
    entries.length < 2 ^ 32 ∧ bytes = writeAnswer request entries := by
  simp only [fixedBytes] at least rest
  obtain ⟨-, code⟩ := @frameInt_width bytes 49 1 (by omega)
  obtain ⟨-, start⟩ := @frameInt_width bytes 82 8 (by omega)
  obtain ⟨-, stop⟩ := @frameInt_width bytes 90 8 (by omega)
  obtain ⟨few, many⟩ := @frameInt_width bytes 98 4 (by omega)
  have cut : bytes = bytes.take 17 ++ (bytes.drop 17).take 32 ++ (bytes.drop 49).take 1 ++ (bytes.drop 50).take 32 ++ (bytes.drop 82).take 8 ++
      (bytes.drop 90).take 8 ++ (bytes.drop 98).take 4 ++ bytes.drop 102 := by
    rw [← List.take_add, ← List.take_add, ← List.take_add, ← List.take_add, ← List.take_add, ← List.take_add, List.take_append_drop]
  rw [← count] at few
  refine ⟨few, ?_⟩
  refine cut.trans ?_
  rw [context, ← code, own, ← start, ← stop, ← many, ← count, rest, ← carried]
  rfl

/-- What each field of a written frame reads back. -/
theorem writeAnswer_fields (formed : isWellFormedRequest request = true) (few : entries.length < 2 ^ 32) :
    (writeAnswer request entries).take 17 = tag "moe/pool/v3/range" ∧
      frameInt (writeAnswer request entries) 49 1 = recordKindCode request.kind ∧
      (⟨((writeAnswer request entries).drop 17).take 32, request.kind, ((writeAnswer request entries).drop 50).take 32,
        frameInt (writeAnswer request entries) 82 8, frameInt (writeAnswer request entries) 90 8⟩ : RangeRequest) = request ∧
      frameInt (writeAnswer request entries) 98 4 = entries.length ∧
      (writeAnswer request entries).drop fixedBytes = entries.flatMap writeEntry := by
  obtain ⟨venue, subject, start, stop, -⟩ := isWellFormedRequest_iff.mp formed
  have context : (tag "moe/pool/v3/range").length = 17 := rfl
  have code : recordKindCode request.kind < 256 ^ 1 := by
    cases request.kind <;> decide
  have first : (tag "moe/pool/v3/range" ++ request.venue).length = 49 := by
    rw [List.length_append, context, venue]
  have second : (tag "moe/pool/v3/range" ++ request.venue ++ toBytes 1 (recordKindCode request.kind)).length = 50 := by
    rw [List.length_append, first, toBytes_length]
  have third : (tag "moe/pool/v3/range" ++ request.venue ++ toBytes 1 (recordKindCode request.kind) ++ request.subject).length = 82 := by
    rw [List.length_append, second, subject]
  have fourth : (tag "moe/pool/v3/range" ++ request.venue ++ toBytes 1 (recordKindCode request.kind) ++ request.subject ++
      toBytes 8 request.fromIndex).length = 90 := by
    rw [List.length_append, third, toBytes_length]
  have fifth := writeRequest_length formed
  have sixth : (writeRequest request ++ toBytes 4 entries.length).length = 102 := by
    rw [List.length_append, fifth, toBytes_length]
  have at17 : writeAnswer request entries = tag "moe/pool/v3/range" ++ (request.venue ++ (toBytes 1 (recordKindCode request.kind) ++
      (request.subject ++ (toBytes 8 request.fromIndex ++ (toBytes 8 request.toIndex ++ (toBytes 4 entries.length ++
        entries.flatMap writeEntry)))))) := by
    simp only [writeAnswer, writeRequest, List.append_assoc]
  have at49 : writeAnswer request entries = (tag "moe/pool/v3/range" ++ request.venue) ++ (toBytes 1 (recordKindCode request.kind) ++
      (request.subject ++ (toBytes 8 request.fromIndex ++ (toBytes 8 request.toIndex ++ (toBytes 4 entries.length ++
        entries.flatMap writeEntry))))) := by
    rw [at17, List.append_assoc]
  have at50 : writeAnswer request entries = (tag "moe/pool/v3/range" ++ request.venue ++ toBytes 1 (recordKindCode request.kind)) ++
      (request.subject ++ (toBytes 8 request.fromIndex ++ (toBytes 8 request.toIndex ++ (toBytes 4 entries.length ++
        entries.flatMap writeEntry)))) := by
    rw [at49, List.append_assoc (_ ++ _)]
  have at82 : writeAnswer request entries = (tag "moe/pool/v3/range" ++ request.venue ++ toBytes 1 (recordKindCode request.kind) ++
      request.subject) ++ (toBytes 8 request.fromIndex ++ (toBytes 8 request.toIndex ++ (toBytes 4 entries.length ++
        entries.flatMap writeEntry))) := by
    rw [at50, List.append_assoc (_ ++ _ ++ _)]
  have at90 : writeAnswer request entries = (tag "moe/pool/v3/range" ++ request.venue ++ toBytes 1 (recordKindCode request.kind) ++
      request.subject ++ toBytes 8 request.fromIndex) ++ (toBytes 8 request.toIndex ++ (toBytes 4 entries.length ++
        entries.flatMap writeEntry)) := by
    rw [at82, List.append_assoc (_ ++ _ ++ _ ++ _)]
  refine ⟨?_, ?_, ?_, ?_, ?_⟩
  · rw [at17, List.take_left' context]
  · rw [at49, frameInt_write first code]
  · have venue' : ((writeAnswer request entries).drop 17).take 32 = request.venue := by
      rw [at17, List.drop_left' context, List.take_left' venue]
    have subject' : ((writeAnswer request entries).drop 50).take 32 = request.subject := by
      rw [at50, List.drop_left' second, List.take_left' subject]
    have start' : frameInt (writeAnswer request entries) 82 8 = request.fromIndex := by
      rw [at82, frameInt_write third (isU64_iff.mp start)]
    have stop' : frameInt (writeAnswer request entries) 90 8 = request.toIndex := by
      rw [at90, frameInt_write fourth (isU64_iff.mp stop)]
    rw [venue', subject', start', stop']
  · rw [writeAnswer, List.append_assoc, frameInt_write fifth few]
  · rw [writeAnswer, fixedBytes, List.drop_left' sixth]

/-- The decoder takes exactly the frames the encoder writes to the reader's own request. -/
theorem decodeRangeAnswer_eq_ok {answer : RangeAnswer} : decodeRangeAnswer bytes request bound = .ok answer ↔
    ∃ entries, answer = ⟨request, entries⟩ ∧ copyLimits bound = .ok bound ∧ isWellFormedRequest request = true ∧ entries.length < 2 ^ 32 ∧
      EntriesStand request none entries ∧ budget (writeAnswer request entries).length entries.length bound = .ok () ∧
      bytes = writeAnswer request entries := by
  constructor
  · intro decoded
    obtain ⟨own, bounded, budgeted⟩ := bind_eq_ok.mp decoded
    obtain ⟨_, -, copying⟩ := bind_eq_ok.mp budgeted
    obtain ⟨expected, copied, framed⟩ := bind_eq_ok.mp copying
    obtain ⟨-, rfl⟩ := copyLimits_eq_ok.mp bounded
    obtain ⟨formed, rfl⟩ := copyRequest_iff.mp copied
    obtain ⟨_, least, long⟩ := bind_eq_ok.mp framed
    obtain ⟨_, context, tagged⟩ := bind_eq_ok.mp long
    cases coded : recordKindOf (frameInt bytes 49 1) with
    | none =>
      rw [coded] at tagged
      cases tagged
    | some kind =>
      rw [coded] at tagged
      obtain ⟨_, carried, counted⟩ := bind_eq_ok.mp tagged
      obtain ⟨_, fits, possible⟩ := bind_eq_ok.mp counted
      obtain ⟨_, -, read_⟩ := bind_eq_ok.mp possible
      obtain ⟨entries, read, done⟩ := bind_eq_ok.mp read_
      obtain rfl := pure_eq_ok.mp done
      obtain ⟨many, stand, rest⟩ := decodeEntries_eq_ok.mp read
      simp only [require_eq_ok, decide_eq_true_eq] at least context carried
      obtain ⟨few, whole⟩ := writeAnswer_of_fields least context (recordKindOf_code.mp coded) carried many rest
      rw [← many, whole] at fits
      exact ⟨entries, rfl, bounded, formed, few, stand, fits, whole⟩
  · rintro ⟨entries, rfl, bounded, formed, few, stand, fits, rfl⟩
    obtain ⟨context, code, carried, count, rest⟩ := writeAnswer_fields formed few
    have long : (writeAnswer request entries).length = fixedBytes + entryBytes * entries.length + (entries.map (·.record.length)).sum :=
      writeAnswer_length formed
    rw [decodeRangeAnswer, bounded, recordKindOf_code.mpr code]
    refine bind_eq_ok.mpr ⟨bound, rfl, bind_eq_ok.mpr ⟨(), budget_mono (Nat.le_refl _) (Nat.zero_le _) fits, bind_eq_ok.mpr ⟨request,
      copyRequest_iff.mpr ⟨formed, rfl⟩, bind_eq_ok.mpr ⟨(), require_eq_ok.mpr (decide_eq_true (by omega)), bind_eq_ok.mpr ⟨(),
        require_eq_ok.mpr (decide_eq_true context), bind_eq_ok.mpr ⟨(), require_eq_ok.mpr (decide_eq_true carried), ?_⟩⟩⟩⟩⟩⟩
    rw [count, rest]
    exact bind_eq_ok.mpr ⟨(), fits, bind_eq_ok.mpr ⟨(), require_eq_ok.mpr (decide_eq_true (by omega)), bind_eq_ok.mpr ⟨entries,
      decodeEntries_eq_ok.mpr ⟨rfl, stand, rfl⟩, rfl⟩⟩⟩

/-- Packages, directories and range answers round-trip in one form each: what is encoded is read back, and what is read is what
its value encodes to, whole, in any chunks, and with payloads taken whole or in pieces. -/
theorem evidence_roundtrips [Crypto] (context : Bytes) :
    ((∀ items bound bytes, encodePackage context items bound = .ok bytes → decodePackage context bytes bound = .ok items) ∧
      (∀ items bound bytes, bytes.length ≤ maxSafeInteger → decodePackage context bytes bound = .ok items →
        encodePackage context items bound = .ok bytes) ∧
      (∀ items bound bytes, decodePackage context bytes bound = .ok items → items.Pairwise ItemBefore) ∧
      (∀ bytes extra bound bound' items items', decodePackage context bytes bound = .ok items →
        decodePackage context (bytes ++ extra) bound' = .ok items' → extra = []) ∧
      (∀ stream reading chunks, FrameFeed.read (readPackage stream reading context) chunks =
        FrameFeed.read (readPackage stream reading context) [chunks.flatten]) ∧
      ∀ stream total chunks told, chunks.flatten.length ≤ maxSafeInteger →
        (FrameFeed.read (readPackage stream ⟨total, none, none⟩ context) chunks = .ok told ↔ (∀ n ∈ total, chunks.flatten.length ≤ n) ∧
          ∃ items, decodePackage context chunks.flatten none = .ok items ∧ told = items.map EvidenceItem.told)) ∧
    ((∀ entries bound bytes, encodeEvidenceDirectory entries bound = .ok bytes ↔ decodeEvidenceDirectory bytes bound = .ok entries) ∧
      ∀ entries bound bytes, decodeEvidenceDirectory bytes bound = .ok entries → entries.Pairwise NameBefore) ∧
    (∀ answer bound bytes, encodeRangeAnswer answer bound = .ok bytes → decodeRangeAnswer bytes answer.request bound = .ok answer) ∧
    (∀ answer request bound bytes, decodeRangeAnswer bytes request bound = .ok answer → answer.request = request ∧
      answer.entries.Pairwise (RangeEntry.Follows request.kind) ∧
      (bytes.length ≤ maxSafeInteger → encodeRangeAnswer answer bound = .ok bytes)) ∧
    ∀ request entries bound, copyLimits bound = .ok bound → isWellFormedRequest request = true → entries.length < 2 ^ 32 →
      (∀ e ∈ entries, e.Framed request.kind ∧ request.fromIndex ≤ e.index ∧ e.index ≤ request.toIndex) →
      entries.Pairwise (RangeEntry.Follows request.kind) → budget (writeAnswer request entries).length entries.length bound = .ok () →
      (writeAnswer request entries).length ≤ maxSafeInteger → encodeRangeAnswer ⟨request, entries⟩ bound = .ok (writeAnswer request entries) := by
  refine ⟨⟨fun _ _ _ => decodePackage_encoded, fun _ _ _ => encodePackage_decoded, fun _ _ _ => decodePackage_strict,
    fun _ _ _ _ _ _ => decodePackage_whole, read_package_chunks, fun stream total chunks _ => read_package_streamed stream total chunks⟩,
    ⟨?_, ?_⟩, ?_, ?_, ?_⟩
  · intro entries bound bytes
    rw [encodeEvidenceDirectory_eq_ok, decodeEvidenceDirectory_eq_ok]
  · intro entries bound bytes decoded
    obtain ⟨-, -, -, -, order, -⟩ := decodeEvidenceDirectory_eq_ok.mp decoded
    exact List.isChain_iff_pairwise.mp order
  · rintro ⟨request, entries⟩ bound bytes encoded
    obtain ⟨bounded, formed, few, stand, fits, -, rfl⟩ := encodeRangeAnswer_eq_ok.mp encoded
    exact decodeRangeAnswer_eq_ok.mpr ⟨entries, rfl, bounded, formed, few, stand, fits, rfl⟩
  · intro answer request bound bytes decoded
    obtain ⟨entries, rfl, bounded, formed, few, stand, fits, rfl⟩ := decodeRangeAnswer_eq_ok.mp decoded
    exact ⟨rfl, (entriesStand_iff.mp stand).2.2, fun safe => encodeRangeAnswer_eq_ok.mpr ⟨bounded, formed, few, stand, fits, safe, rfl⟩⟩
  · intro request entries bound bounded formed few framed ordered fits safe
    exact encodeRangeAnswer_eq_ok.mpr ⟨bounded, formed, few, entriesStand_iff.mpr ⟨framed, (by rintro p ⟨⟩), ordered⟩, fits, safe, rfl⟩

end Transport

end Moe
