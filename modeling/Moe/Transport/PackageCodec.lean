import Moe.Transport.Packages

namespace Moe

namespace Transport

/-- An item stands before another: by its kind, and by its payload's hash within one kind. -/
def ItemBefore [Crypto] (a b : EvidenceItem) : Prop :=
  a.kind < b.kind ∨ a.kind = b.kind ∧ byteValues (sha256 a.payload) < byteValues (sha256 b.payload)

theorem ItemBefore.trans [Crypto] {a b c : EvidenceItem} (first : ItemBefore a b) (second : ItemBefore b c) : ItemBefore a c := by
  rcases first with less | ⟨same, less⟩
  · rcases second with less' | ⟨same', -⟩
    · exact Or.inl (Nat.lt_trans less less')
    · exact Or.inl (by omega)
  · rcases second with less' | ⟨same', less'⟩
    · exact Or.inl (by omega)
    · exact Or.inr ⟨same.trans same', lt_trans less less'⟩

/-- An item whose frame's kind and length hold. -/
def EvidenceItem.Framed (item : EvidenceItem) : Prop := (1 ≤ item.kind ∧ item.kind ≤ 11) ∧ item.payload.length < 2 ^ 64

theorem writeItem_length (item : EvidenceItem) : (writeItem item).length = 9 + item.payload.length := by
  simp only [writeItem, List.length_append, toBytes_length]

theorem writeItems_length (items : List EvidenceItem) :
    (items.flatMap writeItem).length = 9 * items.length + (items.map (·.payload.length)).sum := by
  induction items with
  | nil => rfl
  | cons item items ih =>
    rw [List.flatMap_cons, List.length_append, writeItem_length, ih, List.map_cons, List.sum_cons, List.length_cons]
    omega

theorem writePackage_length (context : Bytes) (items : List EvidenceItem) :
    (writePackage context items).length = context.length + 4 + (items.flatMap writeItem).length := by
  simp only [writePackage, List.length_append, toBytes_length]

theorem withinTotal_eq_ok {size : Nat} {total : Option Nat} {what : String} {done : Unit} :
    withinTotal size total what = .ok done ↔ ∀ n ∈ total, size ≤ n := by
  cases total with
  | none => simp [withinTotal]
  | some n => simp [withinTotal]

theorem withinLimit_eq_ok {size : Nat} {limit : Option Nat} {what : String} {done : Unit} :
    withinLimit size limit what = .ok done ↔ ∀ n ∈ limit, size ≤ n := by
  cases limit with
  | none => simp [withinLimit]
  | some n => simp [withinLimit]

theorem requireEvidenceKind_eq_ok {kind : Nat} {done : Unit} : requireEvidenceKind kind = .ok done ↔ 1 ≤ kind ∧ kind ≤ 11 := by
  simp only [requireEvidenceKind, require_eq_ok, Bool.and_eq_true, decide_eq_true_eq]

theorem parse_pieces_eq_ok {s t : Bytes} {length : Nat} {payload : Bytes} :
    Pull.parse truncatedFrame (pieces length length []) s = .ok (payload, t) ↔ payload.length = length ∧ s = payload ++ t := by
  rw [← Pull.parse_take truncatedFrame]
  have taken : Pull.parse truncatedFrame (Pull.take length : FrameReader Bytes) s =
      if length ≤ s.length then .ok (s.take length, s.drop length) else .error truncatedFrame := rfl
  rw [parse_pieces (Nat.le_refl _), List.nil_append, taken]

theorem parse_ordered {s t : Bytes} {previous : Option (Nat × Bytes)} {kind : Nat} {hash : Bytes} {done : Unit} :
    Pull.parse truncatedFrame (Pull.lift (ordered previous kind hash)) s = .ok (done, t) ↔ inItemOrder previous kind hash = true ∧ t = s := by
  rw [Pull.parse_lift, ordered, require_eq_ok]

variable [Crypto]

def EvidenceItem.told (item : EvidenceItem) : ToldItem := ⟨item, sha256 item.payload⟩

/-- The place an item gives the ones after it. -/
def EvidenceItem.place (item : EvidenceItem) : Nat × Bytes := (item.kind, sha256 item.payload)

theorem inItemOrder_some {before item : EvidenceItem} :
    inItemOrder (some before.place) item.kind (sha256 item.payload) = true ↔ ItemBefore before item := by
  change (!(item.kind < before.kind || (item.kind = before.kind && byteValues (sha256 item.payload) ≤ byteValues (sha256 before.payload)))) = true ↔ _
  simp only [ItemBefore, Bool.not_eq_true', Bool.or_eq_false_iff, Bool.and_eq_false_iff, decide_eq_false_iff_not, not_lt, not_le]
  constructor
  · rintro ⟨low, differ | less⟩
    · exact Or.inl (by omega)
    · by_cases same : before.kind = item.kind
      · exact Or.inr ⟨same, less⟩
      · exact Or.inl (by omega)
  · rintro (less | ⟨same, less⟩)
    · exact ⟨by omega, Or.inl (by omega)⟩
    · exact ⟨by omega, Or.inr less⟩

/-- Items in their order after `previous`, as both the encoder and the reader check it. -/
def Ordered : Option (Nat × Bytes) → List EvidenceItem → Prop
  | _, [] => True
  | previous, item :: items => inItemOrder previous item.kind (sha256 item.payload) = true ∧ Ordered (some item.place) items

/-- Checked one after the other, items stand in strict order. -/
theorem Ordered.pairwise {items : List EvidenceItem} {before : EvidenceItem} (ordered : Ordered (some before.place) items) :
    (before :: items).Pairwise ItemBefore := by
  induction items generalizing before with
  | nil => exact List.pairwise_singleton _ _
  | cons item items ih =>
    obtain ⟨first, rest⟩ := ordered
    have next := inItemOrder_some.mp first
    have later := ih rest
    refine List.pairwise_cons.mpr ⟨fun other member => ?_, later⟩
    rcases List.mem_cons.mp member with rfl | member
    · exact next
    · exact next.trans ((List.pairwise_cons.mp later).1 other member)

theorem Ordered.strict {items : List EvidenceItem} (ordered : Ordered none items) : items.Pairwise ItemBefore := by
  cases items with
  | nil => exact List.Pairwise.nil
  | cons item items => exact ordered.2.pairwise

theorem requireOrder_eq_ok {previous : Option (Nat × Bytes)} {items : List EvidenceItem} {done : Unit} :
    requireOrder previous items = .ok done ↔ Ordered previous items := by
  induction items generalizing previous with
  | nil => simp [requireOrder, Ordered]
  | cons item items ih =>
    rw [requireOrder, bind_eq_ok]
    simp only [ordered, require_eq_ok, ih, Ordered]
    constructor
    · rintro ⟨_, first, rest⟩
      exact ⟨first, rest⟩
    · rintro ⟨first, rest⟩
      exact ⟨(), first, rest⟩

section Reading

variable {s t context : Bytes} {stream : Nat → Nat → Bool} {reading : PackageReading}

/-- What a reader takes of one item, whole or in pieces, beside its order. -/
def PackageReading.Takes (reading : PackageReading) (stream : Nat → Nat → Bool) (item : EvidenceItem) : Prop :=
  stream item.kind item.payload.length = true ∨
    (∀ limit ∈ reading.maxItemBytes, item.payload.length ≤ limit) ∧ item.payload.length ≤ maxSafeInteger

theorem readItem_eq_ok {previous : Option (Nat × Bytes)} {offset after : Nat} {told : ToldItem} :
    Pull.parse truncatedFrame (readItem stream reading previous offset) s = .ok ((told, after), t) ↔
      ∃ item : EvidenceItem, told = item.told ∧ item.Framed ∧ inItemOrder previous item.kind (sha256 item.payload) = true ∧
        reading.Takes stream item ∧ after = offset + (writeItem item).length ∧ (∀ n ∈ reading.total, after ≤ n) ∧ s = writeItem item ++ t := by
  simp only [readItem, Pull.parse_bind, read_bind_eq_ok, Pull.parse_take, Pull.parse_lift, requireEvidenceKind_eq_ok, withinTotal_eq_ok]
  constructor
  · rintro ⟨head, _, ⟨nine, rfl⟩, _, _, ⟨kinds, rfl⟩, _, _, ⟨fits, rfl⟩, read⟩
    have eight : (head.drop 1).length = 8 := by
      rw [List.length_drop, nine]
    have one : (head.take 1).length = 1 := by
      rw [List.length_take, nine]
      rfl
    obtain ⟨bound, same⟩ := ofBytes_eight eight
    have first : toBytes 1 (ofBytes (head.take 1)) = head.take 1 := by
      have back := toBytes_ofBytes (head.take 1)
      rwa [one] at back
    have whole (payload : Bytes) (length : payload.length = ofBytes (head.drop 1)) :
        writeItem ⟨ofBytes (head.take 1), payload⟩ = head ++ payload := by
      rw [writeItem, length, same, first, List.take_append_drop]
    have long (payload : Bytes) (length : payload.length = ofBytes (head.drop 1)) :
        offset + (writeItem ⟨ofBytes (head.take 1), payload⟩).length = offset + 9 + ofBytes (head.drop 1) := by
      rw [whole payload length, List.length_append, nine, length]
      omega
    split at read
    · rename_i streamed
      simp only [Pull.parse_bind, read_bind_eq_ok, parse_pieces_eq_ok, parse_ordered, parse_return, Prod.mk.injEq] at read
      obtain ⟨payload, _, ⟨length, rfl⟩, _, _, ⟨order, rfl⟩, ⟨rfl, rfl⟩, rfl⟩ := read
      refine ⟨⟨ofBytes (head.take 1), payload⟩, rfl, ⟨kinds, by rw [length]; exact bound⟩, order, Or.inl ?_, (long payload length).symm, fits, ?_⟩
      · rw [length]
        exact streamed
      · rw [whole payload length, List.append_assoc]
    · simp only [Pull.parse_bind, read_bind_eq_ok, Pull.parse_take, Pull.parse_lift, withinLimit_eq_ok, require_eq_ok, decide_eq_true_eq,
        ordered, parse_return, Prod.mk.injEq] at read
      obtain ⟨_, _, ⟨limited, rfl⟩, _, _, ⟨safe, rfl⟩, payload, _, ⟨length, rfl⟩, _, _, ⟨order, rfl⟩, ⟨rfl, rfl⟩, rfl⟩ := read
      refine ⟨⟨ofBytes (head.take 1), payload⟩, rfl, ⟨kinds, by rw [length]; exact bound⟩, order, Or.inr ?_, (long payload length).symm, fits, ?_⟩
      · rw [length]
        exact ⟨limited, safe⟩
      · rw [whole payload length, List.append_assoc]
  · rintro ⟨⟨kind, payload⟩, rfl, ⟨kinds, bound⟩, order, takes, rfl, fits, rfl⟩
    have back : ofBytes (toBytes 8 payload.length) = payload.length := ofBytes_toBytes bound
    have small : kind < 256 ^ 1 := by
      have high := kinds.2
      change kind ≤ 11 at high
      omega
    have tag_ : ofBytes ((toBytes 1 kind ++ toBytes 8 payload.length).take 1) = kind := by
      rw [List.take_left' (toBytes_length 1 kind)]
      exact ofBytes_toBytes small
    have length : ofBytes ((toBytes 1 kind ++ toBytes 8 payload.length).drop 1) = payload.length := by
      rw [List.drop_left' (toBytes_length 1 kind), back]
    have long : offset + 9 + payload.length = offset + (writeItem ⟨kind, payload⟩).length := by
      rw [writeItem_length]
      exact Nat.add_assoc _ _ _
    refine ⟨toBytes 1 kind ++ toBytes 8 payload.length, payload ++ t, ⟨?_, ?_⟩, (), _, ⟨?_, rfl⟩, (), _, ⟨?_, rfl⟩, ?_⟩
    · rw [List.length_append, toBytes_length, toBytes_length]
    · rw [writeItem, List.append_assoc]
    · rw [tag_]
      exact kinds
    · rw [length, long]
      exact fits
    · rw [tag_, length, long]
      split
      · simp only [Pull.parse_bind, read_bind_eq_ok, parse_pieces_eq_ok, parse_ordered, parse_return, Prod.mk.injEq]
        exact ⟨payload, t, ⟨rfl, rfl⟩, (), t, ⟨order, rfl⟩, ⟨rfl, trivial⟩, rfl⟩
      · rename_i whole
        rcases takes with streamed | ⟨limited, safe⟩
        · exact absurd streamed whole
        · simp only [Pull.parse_bind, read_bind_eq_ok, Pull.parse_take, Pull.parse_lift, withinLimit_eq_ok, require_eq_ok, decide_eq_true_eq,
            ordered, parse_return, Prod.mk.injEq]
          exact ⟨(), _, ⟨limited, rfl⟩, (), _, ⟨safe, rfl⟩, payload, t, ⟨rfl, rfl⟩, (), t, ⟨order, rfl⟩, ⟨rfl, trivial⟩, rfl⟩

theorem readItems_eq_ok {previous : Option (Nat × Bytes)} {count offset : Nat} {told : List ToldItem} :
    Pull.parse truncatedFrame (readItems stream reading count previous offset) s = .ok (told, t) ↔
      ∃ items : List EvidenceItem, told = items.map EvidenceItem.told ∧ items.length = count ∧ (∀ item ∈ items, item.Framed) ∧
        Ordered previous items ∧ (∀ item ∈ items, reading.Takes stream item) ∧
        (items ≠ [] → ∀ n ∈ reading.total, offset + (items.flatMap writeItem).length ≤ n) ∧ s = items.flatMap writeItem ++ t := by
  induction count generalizing previous offset told s t with
  | zero =>
    rw [readItems, parse_return]
    constructor
    · rintro ⟨rfl, rfl⟩
      exact ⟨[], rfl, rfl, by simp, trivial, by simp, fun some_ => absurd rfl some_, rfl⟩
    · rintro ⟨items, rfl, none_, -, -, -, -, rfl⟩
      obtain rfl := List.length_eq_zero_iff.mp none_
      exact ⟨rfl, rfl⟩
  | succ count ih =>
    simp only [readItems, Pull.parse_bind, read_bind_eq_ok, Prod.exists, readItem_eq_ok, ih, parse_return]
    constructor
    · rintro ⟨_, _, _, ⟨item, rfl, framed, order, takes, rfl, fits, rfl⟩, _, _, ⟨items, rfl, rfl, all, later, taken, inside, rfl⟩, rfl, rfl⟩
      refine ⟨item :: items, rfl, rfl, List.forall_mem_cons.mpr ⟨framed, all⟩, ⟨order, later⟩, List.forall_mem_cons.mpr ⟨takes, taken⟩,
        fun _ => ?_, ?_⟩
      · rw [List.flatMap_cons, List.length_append, ← Nat.add_assoc]
        by_cases last : items = []
        · rw [last]
          exact fits
        · exact inside last
      · rw [List.flatMap_cons, List.append_assoc]
    · rintro ⟨items, rfl, many, all, order, taken, inside, rfl⟩
      cases items with
      | nil => cases many
      | cons item items =>
        obtain ⟨framed, all⟩ := List.forall_mem_cons.mp all
        obtain ⟨takes, taken⟩ := List.forall_mem_cons.mp taken
        have inside := inside (List.cons_ne_nil _ _)
        rw [List.flatMap_cons, List.length_append, ← Nat.add_assoc] at inside
        refine ⟨item.told, _, _, ⟨item, rfl, framed, order.1, takes, rfl, fun n known => ?_, ?_⟩, _, _,
          ⟨items, rfl, Nat.succ.inj many, all, order.2, taken, fun _ => inside, rfl⟩, rfl, rfl⟩
        · have whole := inside n known
          omega
        · rw [List.flatMap_cons, List.append_assoc]

/-- The reader takes the packages of framed items in order, each as it is told, and nothing else. -/
theorem readPackage_eq_ok {told : List ToldItem} :
    Pull.parse truncatedFrame (readPackage stream reading context) s = .ok (told, t) ↔
      ∃ items : List EvidenceItem, told = items.map EvidenceItem.told ∧ items.length < 2 ^ 32 ∧ (∀ item ∈ items, item.Framed) ∧
        Ordered none items ∧ (∀ item ∈ items, reading.Takes stream item) ∧ (∀ n ∈ reading.maxItems, items.length ≤ n) ∧
        (∀ n ∈ reading.total, (writePackage context items).length ≤ n) ∧ s = writePackage context items ++ t := by
  simp only [readPackage, Pull.parse_bind, read_bind_eq_ok, Pull.parse_take, Pull.parse_lift, withinTotal_eq_ok, withinLimit_eq_ok, require_eq_ok,
    decide_eq_true_eq, readItems_eq_ok]
  constructor
  · rintro ⟨_, _, ⟨least, rfl⟩, head, _, ⟨width, rfl⟩, _, _, ⟨opened, rfl⟩, _, _, ⟨few, rfl⟩, _, _, ⟨possible, rfl⟩, items, rfl, many, framed,
      order, taken, inside, rfl⟩
    have four : (head.drop context.length).length = 4 := by
      rw [List.length_drop, width]
      omega
    have field : u32At head context.length = ofBytes (head.drop context.length) := by
      rw [u32At, List.take_of_length_le (Nat.le_of_eq four)]
    obtain ⟨bound, same⟩ := ofBytes_four four
    rw [field] at many
    have whole : head = context ++ toBytes 4 items.length := by
      rw [many, same]
      exact (List.take_append_drop _ _).symm.trans (by rw [opened])
    refine ⟨items, rfl, by rw [many]; exact bound, framed, order, taken, ?_, fun n known => ?_, ?_⟩
    · rw [field, ← many] at few
      exact few
    · rw [writePackage_length]
      by_cases none_ : items = []
      · rw [none_]
        exact least n known
      · exact inside none_ n known
    · rw [writePackage, whole, List.append_assoc _ _ t]
  · rintro ⟨items, rfl, bound, framed, order, taken, few, fits, rfl⟩
    have width : (context ++ toBytes 4 items.length).length = context.length + 4 := by
      rw [List.length_append, toBytes_length]
    have back : ofBytes (toBytes 4 items.length) = items.length := ofBytes_toBytes bound
    have field : u32At (context ++ toBytes 4 items.length) context.length = items.length := by
      rw [u32At, List.drop_left, List.take_of_length_le (Nat.le_of_eq (toBytes_length _ _)), back]
    have long := writePackage_length context items
    have sizes := writeItems_length items
    refine ⟨(), _, ⟨fun n known => ?_, rfl⟩, context ++ toBytes 4 items.length, items.flatMap writeItem ++ t, ⟨width, ?_⟩, (), _,
      ⟨List.take_left, rfl⟩, (), _, ⟨?_, rfl⟩, (), _, ⟨fun n known => ?_, rfl⟩, items, rfl, field.symm, framed, order, taken,
      fun _ n known => ?_, rfl⟩
    · have whole := fits n known
      omega
    · rw [writePackage, List.append_assoc _ _ t]
    · rw [field]
      exact few
    · have whole := fits n known
      rw [field]
      omega
    · have whole := fits n known
      omega

theorem readItem_steady (previous : Option (Nat × Bytes)) (offset : Nat) : (readItem stream reading previous offset).Steady truncatedFrame := by
  refine (Pull.Steady.take 9).bind fun head => (Pull.Steady.lift _).bind fun _ => (Pull.Steady.lift _).bind fun _ => ?_
  split
  · exact (pieces_steady (Nat.le_refl _) []).bind fun _ => (Pull.Steady.lift _).bind fun _ => Pull.Steady.pure _
  · exact (Pull.Steady.lift _).bind fun _ => (Pull.Steady.lift _).bind fun _ => (Pull.Steady.take _).bind fun _ =>
      (Pull.Steady.lift _).bind fun _ => Pull.Steady.pure _

theorem readItems_steady (count : Nat) (previous : Option (Nat × Bytes)) (offset : Nat) :
    (readItems stream reading count previous offset).Steady truncatedFrame := by
  induction count generalizing previous offset with
  | zero => exact Pull.Steady.pure _
  | succ count ih => exact (readItem_steady _ _).bind fun _ => (ih _ _).bind fun _ => Pull.Steady.pure _

/-- The package reader's answer never depends on how its frame is cut. -/
theorem readPackage_steady : (readPackage stream reading context).Steady truncatedFrame :=
  (Pull.Steady.lift _).bind fun _ => (Pull.Steady.take _).bind fun _ => (Pull.Steady.lift _).bind fun _ => (Pull.Steady.lift _).bind fun _ =>
    (Pull.Steady.lift _).bind fun _ => readItems_steady _ _ _

end Reading

end Transport

end Moe
