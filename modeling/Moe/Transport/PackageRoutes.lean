import Moe.Transport.PackageCodec

namespace Moe

namespace Transport

theorem packageBudget_mono {small large few many : Nat} {bound : Option PackageLimits} (below : small ≤ large) (fewer : few ≤ many)
    (fits : packageBudget large many bound = .ok ()) : packageBudget small few bound = .ok () := by
  cases bound with
  | none => rfl
  | some limit =>
    simp only [packageBudget, require_eq_ok, Bool.and_eq_true, decide_eq_true_eq] at fits ⊢
    omega

theorem ownItem_eq_ok {bound : Option PackageLimits} {count : Nat} (size : Nat) (item : EvidenceItem) (after : Nat) :
    ownItem bound count size item = .ok after ↔ item.Framed ∧ packageBudget (size + item.payload.length) count bound = .ok () ∧
      after = size + item.payload.length := by
  simp only [ownItem, bind_eq_ok, requireEvidenceKind_eq_ok, require_eq_ok, decide_eq_true_eq, pure_eq_ok]
  constructor
  · rintro ⟨_, kinds, _, short, _, fits, rfl⟩
    exact ⟨⟨kinds, short⟩, fits, rfl⟩
  · rintro ⟨⟨kinds, short⟩, fits, rfl⟩
    exact ⟨(), kinds, (), short, (), fits, rfl⟩

section Packages

variable [Crypto] {context bytes : Bytes} {items : List EvidenceItem} {boundIn : Option PackageLimits}

/-- The encoder takes framed items in order, within its budget and what can be allocated. -/
theorem encodePackage_eq_ok : encodePackage context items boundIn = .ok bytes ↔ ∃ bound, boundIn.mapM packageLimits = .ok bound ∧
    items.length < 2 ^ 32 ∧ (∀ item ∈ items, item.Framed) ∧ Ordered none items ∧
      packageBudget (writePackage context items).length items.length bound = .ok () ∧ (writePackage context items).length ≤ maxSafeInteger ∧
      bytes = writePackage context items := by
  have sizes : context.length + 4 + 9 * items.length + (items.map (·.payload.length)).sum = (writePackage context items).length := by
    rw [writePackage_length, writeItems_length, Nat.add_assoc]
  simp only [encodePackage, bind_eq_ok, require_eq_ok, decide_eq_true_eq, pure_eq_ok, requireOrder_eq_ok]
  constructor
  · rintro ⟨bound, bounded, _, few, _, start, _, owned, _, safe, _, order, rfl⟩
    obtain ⟨framed, fits, rfl⟩ := (budgeted_eq_ok (packageBudget · items.length bound = .ok ()) (packageBudget_mono · (Nat.le_refl _))
      ownItem_eq_ok start).mp owned
    rw [sizes] at fits safe
    exact ⟨bound, bounded, few, framed, order, fits, safe, rfl⟩
  · rintro ⟨bound, bounded, few, framed, order, fits, safe, rfl⟩
    have start : packageBudget (context.length + 4 + 9 * items.length) items.length bound = .ok () :=
      packageBudget_mono (by omega) (Nat.le_refl _) fits
    rw [← sizes] at fits safe
    have owned := (budgeted_eq_ok (packageBudget · items.length bound = .ok ()) (packageBudget_mono · (Nat.le_refl _)) ownItem_eq_ok
      start).mpr ⟨framed, fits, rfl⟩
    exact ⟨bound, bounded, (), few, (), start, _, owned, (), safe, (), order, rfl⟩

theorem read_package (stream : Nat → Nat → Bool) (reading : PackageReading) (chunks : List Bytes) {told : List ToldItem} :
    FrameFeed.read (readPackage stream reading context) chunks = .ok told ↔
      Pull.parse truncatedFrame (readPackage stream reading context) chunks.flatten = .ok (told, []) := by
  rw [FrameFeed.read_eq readPackage_steady, Pull.whole_eq_ok]

theorem told_items (items : List EvidenceItem) : (items.map EvidenceItem.told).map (·.toEvidenceItem) = items := by
  rw [List.map_map]
  exact List.map_id _

/-- The decoder takes the packages of such items, and no other bytes. -/
theorem decodePackage_eq_ok : decodePackage context bytes boundIn = .ok items ↔ ∃ bound, boundIn.mapM packageLimits = .ok bound ∧
    items.length < 2 ^ 32 ∧ (∀ item ∈ items, item.Framed) ∧ Ordered none items ∧
      packageBudget (writePackage context items).length items.length bound = .ok () ∧
      (∀ item ∈ items, item.payload.length ≤ maxSafeInteger) ∧ bytes = writePackage context items := by
  have budgets (bound : Option PackageLimits) (size count : Nat) : packageBudget size count bound = .ok () ↔
      packageBudget size 0 bound = .ok () ∧ ∀ n ∈ bound.map (·.maxItems), count ≤ n := by
    cases bound with
    | none => simp [packageBudget]
    | some limit => simp [packageBudget]
  simp only [decodePackage, bind_eq_ok, pure_eq_ok, read_package, List.flatten_singleton, readPackage_eq_ok, List.append_nil]
  constructor
  · rintro ⟨bound, bounded, _, fits, _, ⟨own, rfl, few, framed, order, taken, counted, -, rfl⟩, rfl⟩
    rw [told_items]
    refine ⟨bound, bounded, few, framed, order, (budgets _ _ _).mpr ⟨fits, counted⟩, fun item member => ?_, rfl⟩
    rcases taken item member with streamed | ⟨-, safe⟩
    · cases streamed
    · exact safe
  · rintro ⟨bound, bounded, few, framed, order, fits, safe, rfl⟩
    obtain ⟨fits, counted⟩ := (budgets _ _ _).mp fits
    refine ⟨bound, bounded, (), fits, _, ⟨items, rfl, few, framed, order, fun item member => Or.inr ⟨?_, safe item member⟩, counted, ?_, rfl⟩,
      told_items items⟩
    · rintro n ⟨⟩
    · rintro n ⟨⟩
      exact Nat.le_refl _

omit [Crypto] in
/-- A payload is no longer than its package. -/
theorem payload_le_package {item : EvidenceItem} (member : item ∈ items) : item.payload.length ≤ (writePackage context items).length := by
  obtain ⟨before, after, rfl⟩ := List.append_of_mem member
  have own := writeItem_length item
  rw [writePackage_length, List.flatMap_append, List.flatMap_cons]
  simp only [List.length_append]
  omega

theorem decodePackage_encoded (encoded : encodePackage context items boundIn = .ok bytes) : decodePackage context bytes boundIn = .ok items := by
  obtain ⟨own, bounded, few, framed, order, fits, safe, rfl⟩ := encodePackage_eq_ok.mp encoded
  exact decodePackage_eq_ok.mpr ⟨own, bounded, few, framed, order, fits, fun item member => Nat.le_trans (payload_le_package member) safe, rfl⟩

theorem encodePackage_decoded (safe : bytes.length ≤ maxSafeInteger) (decoded : decodePackage context bytes boundIn = .ok items) :
    encodePackage context items boundIn = .ok bytes := by
  obtain ⟨own, bounded, few, framed, order, fits, -, rfl⟩ := decodePackage_eq_ok.mp decoded
  exact encodePackage_eq_ok.mpr ⟨own, bounded, few, framed, order, fits, safe, rfl⟩

theorem decodePackage_strict (decoded : decodePackage context bytes boundIn = .ok items) : items.Pairwise ItemBefore := by
  obtain ⟨-, -, -, -, order, -⟩ := decodePackage_eq_ok.mp decoded
  exact order.strict

/-- No package goes on from another. -/
theorem decodePackage_whole {extra : Bytes} {items' : List EvidenceItem} {boundIn' : Option PackageLimits}
    (decoded : decodePackage context bytes boundIn = .ok items) (longer : decodePackage context (bytes ++ extra) boundIn' = .ok items') :
    extra = [] := by
  obtain ⟨-, -, few, framed, order, -, -, rfl⟩ := decodePackage_eq_ok.mp decoded
  obtain ⟨-, -, few', framed', order', -, -, same⟩ := decodePackage_eq_ok.mp longer
  have read {items : List EvidenceItem} {rest : Bytes} (few : items.length < 2 ^ 32) (framed : ∀ item ∈ items, item.Framed)
      (order : Ordered none items) : Pull.parse truncatedFrame (readPackage (fun _ _ => true) ⟨none, none, none⟩ context)
        (writePackage context items ++ rest) = .ok (items.map EvidenceItem.told, rest) :=
    readPackage_eq_ok.mpr ⟨items, rfl, few, framed, order, fun _ _ => Or.inl rfl, (by rintro n ⟨⟩), (by rintro n ⟨⟩), rfl⟩
  have first := @read items extra few framed order
  have second := @read items' [] few' framed' order'
  rw [List.append_nil, ← same, first, Except.ok.injEq, Prod.mk.injEq] at second
  exact second.2

theorem read_package_chunks (stream : Nat → Nat → Bool) (reading : PackageReading) (chunks : List Bytes) :
    FrameFeed.read (readPackage stream reading context) chunks = FrameFeed.read (readPackage stream reading context) [chunks.flatten] := by
  rw [FrameFeed.read_eq readPackage_steady, FrameFeed.read_eq readPackage_steady, List.flatten_singleton]

/-- Streamed, with whichever payloads in pieces, a package is read as it is decoded whole. -/
theorem read_package_streamed (stream : Nat → Nat → Bool) (total : Option Nat) (chunks : List Bytes) {told : List ToldItem}
    (safe : chunks.flatten.length ≤ maxSafeInteger) :
    FrameFeed.read (readPackage stream ⟨total, none, none⟩ context) chunks = .ok told ↔ (∀ n ∈ total, chunks.flatten.length ≤ n) ∧
      ∃ items, decodePackage context chunks.flatten none = .ok items ∧ told = items.map EvidenceItem.told := by
  simp only [read_package, readPackage_eq_ok, decodePackage_eq_ok, List.append_nil]
  constructor
  · rintro ⟨items, rfl, few, framed, order, -, -, fits, same⟩
    rw [same] at safe ⊢
    exact ⟨fits, items, ⟨none, rfl, few, framed, order, rfl, fun item member => Nat.le_trans (payload_le_package member) safe, rfl⟩, rfl⟩
  · rintro ⟨fits, items, ⟨bound, bounded, few, framed, order, -, short, same⟩, rfl⟩
    rw [same] at fits
    exact ⟨items, rfl, few, framed, order, fun item member => Or.inr ⟨(by rintro n ⟨⟩), short item member⟩, (by rintro n ⟨⟩), fits, same⟩

end Packages

section Directories

/-- A directory's entry stands before another by its name. -/
def NameBefore (a b : SnapshotDigest) : Prop := byteValues a.name < byteValues b.name

instance nameBefore_trans : Trans NameBefore NameBefore NameBefore := ⟨fun first second => lt_trans first second⟩

def SnapshotDigest.Framed (entry : SnapshotDigest) : Prop := entry.name.length = 32 ∧ entry.digest.length = 32

def writeDirectory (entries : List SnapshotDigest) : Bytes := directoryMagic ++ toBytes 4 entries.length ++ entries.flatMap writeDigest

variable {entries : List SnapshotDigest} {bytes : Bytes} {boundIn : Option PackageLimits}

theorem ownDigests_eq_ok {previous : Option Bytes} :
    (∃ last, entries.foldlM ownDigest previous = .ok last) ↔ (∀ entry ∈ entries, entry.Framed) ∧
      (∀ before ∈ previous, ∀ entry ∈ entries.head?, byteValues before < byteValues entry.name) ∧ entries.IsChain NameBefore := by
  induction entries generalizing previous with
  | nil => simp [pure_eq_ok]
  | cons entry entries ih =>
    have first : (∃ last, (entry :: entries).foldlM ownDigest previous = .ok last) ↔
        entry.Framed ∧ (∀ before ∈ previous, byteValues before < byteValues entry.name) ∧
          ∃ last, entries.foldlM ownDigest (some entry.name) = .ok last := by
      simp only [List.foldlM_cons, ownDigest, bind_eq_ok, require_eq_ok, decide_eq_true_eq, pure_eq_ok, Option.all_eq_true]
      constructor
      · rintro ⟨last, _, ⟨_, name, _, digest, _, order, rfl⟩, run⟩
        exact ⟨⟨name, digest⟩, order, last, run⟩
      · rintro ⟨⟨name, digest⟩, order, last, run⟩
        exact ⟨last, _, ⟨(), name, (), digest, (), order, rfl⟩, run⟩
    have chain : (entry :: entries).IsChain NameBefore ↔ (∀ next ∈ entries.head?, NameBefore entry next) ∧ entries.IsChain NameBefore := by
      cases entries with
      | nil => simp
      | cons next rest => simp
    rw [first, ih, List.forall_mem_cons, chain, List.head?_cons]
    constructor
    · rintro ⟨framed, order, rest, next, later⟩
      refine ⟨⟨framed, rest⟩, fun before known other own => ?_, next entry.name rfl, later⟩
      obtain rfl := Option.some.inj own
      exact order before known
    · rintro ⟨⟨framed, rest⟩, order, next, later⟩
      refine ⟨framed, fun before known => order before known entry rfl, rest, fun before known => ?_, later⟩
      obtain rfl := Option.some.inj known
      exact next

theorem encodeEvidenceDirectory_eq_ok : encodeEvidenceDirectory entries boundIn = .ok bytes ↔ ∃ bound, boundIn.mapM packageLimits = .ok bound ∧
    entries.length < 2 ^ 32 ∧ (∀ entry ∈ entries, entry.Framed) ∧ entries.IsChain NameBefore ∧
      packageBudget (9 + 64 * entries.length) entries.length bound = .ok () ∧ bytes = writeDirectory entries := by
  simp only [encodeEvidenceDirectory, bind_eq_ok, require_eq_ok, decide_eq_true_eq, pure_eq_ok]
  constructor
  · rintro ⟨bound, bounded, _, few, _, fits, last, run, rfl⟩
    obtain ⟨framed, -, order⟩ := ownDigests_eq_ok.mp ⟨last, run⟩
    exact ⟨bound, bounded, few, framed, order, fits, rfl⟩
  · rintro ⟨bound, bounded, few, framed, order, fits, rfl⟩
    obtain ⟨last, run⟩ := (@ownDigests_eq_ok _ none).mpr ⟨framed, (by rintro before ⟨⟩), order⟩
    exact ⟨bound, bounded, (), few, (), fits, last, run, rfl⟩

/-- The entries of so many cuts of some bytes. -/
def digestsOf (bytes : Bytes) (count : Nat) : List SnapshotDigest :=
  (List.range count).map fun i => ⟨(bytes.drop (64 * i)).take 32, (bytes.drop (64 * i + 32)).take 32⟩

theorem digestsOf_write (framed : ∀ entry ∈ entries, entry.Framed) (rest : Bytes) :
    digestsOf (entries.flatMap writeDigest ++ rest) entries.length = entries := by
  induction entries with
  | nil => rfl
  | cons entry entries ih =>
    obtain ⟨⟨name, digest⟩, others⟩ := List.forall_mem_cons.mp framed
    have width : (writeDigest entry).length = 64 := by
      rw [writeDigest, List.length_append, name, digest]
    have later (i extra : Nat) : (writeDigest entry ++ (entries.flatMap writeDigest ++ rest)).drop (64 * (i + 1) + extra) =
        (entries.flatMap writeDigest ++ rest).drop (64 * i + extra) := by
      have cut : 64 * (i + 1) + extra = (writeDigest entry).length + (64 * i + extra) := by omega
      rw [cut, ← List.drop_drop, List.drop_left]
    have first : (writeDigest entry ++ (entries.flatMap writeDigest ++ rest)).take 32 = entry.name := by
      rw [writeDigest, List.append_assoc, List.take_left' name]
    have second : ((writeDigest entry ++ (entries.flatMap writeDigest ++ rest)).drop 32).take 32 = entry.digest := by
      rw [writeDigest, List.append_assoc, List.drop_left' name, List.take_left' digest]
    have tail := ih others
    rw [digestsOf] at tail
    rw [digestsOf, List.flatMap_cons, List.append_assoc, List.length_cons, List.range_succ_eq_map, List.map_cons, List.map_map]
    refine congrArg₂ List.cons ?_ (Eq.trans (List.map_congr_left fun i _ => ?_) tail)
    · rw [Nat.mul_zero, List.drop_zero, Nat.zero_add, first, second]
    · have name' := later i 0
      have digest' := later i 32
      rw [Nat.add_zero, Nat.add_zero] at name'
      change SnapshotDigest.mk (((writeDigest entry ++ (entries.flatMap writeDigest ++ rest)).drop (64 * (i + 1))).take 32) _ = _
      rw [name']
      exact congrArg (SnapshotDigest.mk _) (congrArg (List.take 32) digest')

theorem write_digestsOf (bytes : Bytes) (count : Nat) : (digestsOf bytes count).flatMap writeDigest = bytes.take (64 * count) := by
  induction count with
  | zero => simp [digestsOf]
  | succ count ih =>
    have split : bytes.take (64 * (count + 1)) =
        bytes.take (64 * count) ++ ((bytes.drop (64 * count)).take 32 ++ (bytes.drop (64 * count + 32)).take 32) := by
      rw [← List.drop_drop, ← List.take_add, ← List.take_add, Nat.mul_succ]
    rw [split, ← ih]
    simp only [digestsOf, List.range_succ, List.map_append, List.flatMap_append, List.map_cons, List.map_nil, List.flatMap_cons, List.flatMap_nil,
      List.append_nil, writeDigest]

/-- What a directory's bytes say its entries are. -/
theorem digestsOf_drop (input : Bytes) (count : Nat) : ((List.range count).map fun i =>
    (⟨subarray input (9 + 64 * i) (41 + 64 * i), subarray input (41 + 64 * i) (73 + 64 * i)⟩ : SnapshotDigest)) =
      digestsOf (input.drop 9) count := by
  refine List.map_congr_left fun i _ => ?_
  have first : 41 + 64 * i - (9 + 64 * i) = 32 := by omega
  have second : 73 + 64 * i - (41 + 64 * i) = 32 := by omega
  have place : 9 + (64 * i + 32) = 41 + 64 * i := by omega
  simp only [subarray, List.drop_take, List.drop_drop, first, second, place]

theorem writeDirectory_length (framed : ∀ entry ∈ entries, entry.Framed) : (writeDirectory entries).length = 9 + 64 * entries.length := by
  have width : (entries.flatMap writeDigest).length = 64 * entries.length := flatMap_length fun entry member => by
    rw [writeDigest, List.length_append, (framed entry member).1, (framed entry member).2]
  simp only [writeDirectory, List.length_append, toBytes_length, width]
  rfl

theorem digestsOf_chain (bytes : Bytes) (count : Nat) : (digestsOf bytes count).IsChain NameBefore ↔
    ∀ i < count - 1, byteValues ((bytes.drop (64 * i)).take 32) < byteValues ((bytes.drop (64 * (i + 1))).take 32) := by
  rw [List.isChain_iff_getElem]
  simp only [digestsOf, List.length_map, List.length_range, List.getElem_map, List.getElem_range, NameBefore]
  constructor
  · intro chain i inside
    exact chain i (by omega)
  · intro order i inside
    exact order i (by omega)

theorem decodeEvidenceDirectory_eq_ok : decodeEvidenceDirectory bytes boundIn = .ok entries ↔ ∃ bound, boundIn.mapM packageLimits = .ok bound ∧
    entries.length < 2 ^ 32 ∧ (∀ entry ∈ entries, entry.Framed) ∧ entries.IsChain NameBefore ∧
      packageBudget (9 + 64 * entries.length) entries.length bound = .ok () ∧ bytes = writeDirectory entries := by
  have names (i : Nat) : subarray bytes (9 + 64 * i) (41 + 64 * i) = ((bytes.drop 9).drop (64 * i)).take 32 := by
    have cut : 41 + 64 * i - (9 + 64 * i) = 32 := by omega
    rw [subarray, List.drop_take, cut, List.drop_drop]
  simp only [decodeEvidenceDirectory, bind_eq_ok, require_eq_ok, decide_eq_true_eq, pure_eq_ok, digestsOf_drop, List.all_eq_true, List.mem_range]
  simp only [names, ← digestsOf_chain]
  constructor
  · rintro ⟨bound, bounded, _, -, _, least, _, opened, _, fits, _, length, _, order, rfl⟩
    have count : (digestsOf (bytes.drop 9) (u32At bytes 5)).length = u32At bytes 5 := by
      simp only [digestsOf, List.length_map, List.length_range]
    have four : ((bytes.drop 5).take 4).length = 4 := by
      rw [List.length_take, List.length_drop]
      omega
    obtain ⟨few, same⟩ := ofBytes_four four
    have tail : (bytes.drop 9).length = 64 * u32At bytes 5 := by
      rw [List.length_drop]
      omega
    have whole : bytes = writeDirectory (digestsOf (bytes.drop 9) (u32At bytes 5)) := by
      rw [writeDirectory, write_digestsOf, count, ← opened, ← tail, List.take_length]
      have cut : bytes = bytes.take 5 ++ (bytes.drop 5).take 4 ++ bytes.drop 9 := by
        rw [← List.take_add, List.take_append_drop]
      exact cut.trans (congrArg (bytes.take 5 ++ · ++ bytes.drop 9) same.symm)
    refine ⟨bound, bounded, ?_, fun entry member => ?_, order, ?_, whole⟩
    · rw [count]
      exact few
    · obtain ⟨i, inside, rfl⟩ := List.mem_map.mp member
      have inside := List.mem_range.mp inside
      constructor
      · rw [List.length_take, List.length_drop, tail]
        omega
      · rw [List.length_take, List.length_drop, tail]
        omega
    · rw [count, length]
      exact fits
  · rintro ⟨bound, bounded, few, framed, order, fits, rfl⟩
    have length := writeDirectory_length framed
    have back : ofBytes (toBytes 4 entries.length) = entries.length := ofBytes_toBytes few
    have five : directoryMagic.length = 5 := rfl
    have nine : (directoryMagic ++ toBytes 4 entries.length).length = 9 := by
      rw [List.length_append, toBytes_length, five]
    have counted : u32At (writeDirectory entries) 5 = entries.length := by
      rw [u32At, writeDirectory, List.append_assoc, List.drop_left' five, List.take_left' (toBytes_length 4 _), back]
    have tail : (writeDirectory entries).drop 9 = entries.flatMap writeDigest ++ [] := by
      rw [writeDirectory, List.drop_left' nine, List.append_nil]
    have opened : subarray (writeDirectory entries) 0 5 = directoryMagic := by
      rw [subarray, List.drop_zero, writeDirectory, List.append_assoc, List.take_left' five]
    rw [counted, tail, digestsOf_write framed, length]
    exact ⟨bound, bounded, (), packageBudget_mono (Nat.le_refl _) (Nat.zero_le _) fits, (), by omega, (), opened, (), fits, (), rfl, (), order, rfl⟩

end Directories

end Transport

end Moe
