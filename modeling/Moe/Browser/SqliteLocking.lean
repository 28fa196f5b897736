import Moe.Browser.SqliteSlots

namespace Moe.Sqlite

/-- A file lock's fields and its connections' levels say the same. -/
structure FileLock.Agrees (lock : FileLock) (level : Pointer → Nat) : Prop where
  nonzero : ∀ p, 1 ≤ level p → p ≠ 0
  bounded : ∀ p, level p ≤ lockExclusive
  shared : ∀ p, p ∈ lock.shared ↔ lockShared ≤ level p
  reserved : ∀ p, p ≠ 0 → (level p = lockReserved → lock.reserved = p) ∧ (lock.reserved = p → lockReserved ≤ level p)
  pending : ∀ p, p ≠ 0 → (lock.pending = p ↔ lockPending ≤ level p)
  exclusive : ∀ p, p ≠ 0 → (lock.exclusive = p ↔ level p = lockExclusive)
  one : ∀ p q, lockReserved ≤ level p → lockReserved ≤ level q → p = q
  alone : ∀ p q, level p = lockExclusive → lockShared ≤ level q → q = p

namespace FileLock.Agrees

variable {lock : FileLock} {level : Pointer → Nat} {p : Pointer}

theorem empty : ({} : FileLock).Agrees fun _ => lockNone where
  nonzero p some_ := by cases some_
  bounded p := by decide
  shared p := by simp [lockNone, lockShared]
  reserved p some_ := ⟨fun none_ => (by cases none_), fun none_ => absurd none_.symm some_⟩
  pending p some_ := ⟨fun none_ => absurd none_.symm some_, fun none_ => by cases none_⟩
  exclusive p some_ := ⟨fun none_ => absurd none_.symm some_, fun none_ => by cases none_⟩
  one p q none_ := by cases none_
  alone p q none_ := by cases none_

/-- No connection's lock is stronger than the file's strongest. -/
theorem level_le_strongest (agrees : lock.Agrees level) (p : Pointer) : level p ≤ lock.strongest := by
  by_cases zero : p = 0
  · have none_ : level p = 0 := by
      by_contra some_
      exact agrees.nonzero p (by omega) zero
    omega
  · have bounded := agrees.bounded p
    have shared := agrees.shared p
    have reserved := agrees.reserved p zero
    have pending := agrees.pending p zero
    have exclusive := agrees.exclusive p zero
    unfold strongest
    simp only [lockNone, lockShared, lockReserved, lockPending, lockExclusive] at *
    split
    · exact bounded
    · rename_i noExclusive
      have below : level p ≠ 4 := fun is => noExclusive (by rw [exclusive.mpr is]; exact zero)
      split
      · omega
      · rename_i noPending
        have below : ¬ 3 ≤ level p := fun is => noPending (by rw [pending.mpr is]; exact zero)
        split
        · omega
        · rename_i noReserved
          have below : level p ≠ 2 := fun is => noReserved (by rw [reserved.1 is]; exact zero)
          split
          · omega
          · rename_i noShared
            have none_ : lock.shared = ∅ := Finset.card_eq_zero.mp (by omega)
            have outside : p ∉ lock.shared := by
              rw [none_]
              exact Finset.notMem_empty p
            have below := mt shared.mpr outside
            omega

/-- One more shared lock, where no connection is pending. -/
theorem share (agrees : lock.Agrees level) (some_ : p ≠ 0) (none_ : level p = lockNone) (low : ∀ q, level q < lockPending) :
    ({ lock with shared := insert p lock.shared } : FileLock).Agrees (Function.update level p lockShared) := by
  obtain ⟨nonzero, bounded, shared, reserved, pending, exclusive, one, alone⟩ := agrees
  constructor <;> simp only [Function.update_apply, lockNone, lockShared, lockReserved, lockPending, lockExclusive] at * <;> grind

/-- A reserved lock, where every connection's is shared at most. -/
theorem reserve (agrees : lock.Agrees level) (own : level p = lockShared) (low : ∀ q, level q ≤ lockShared) :
    ({ lock with reserved := p } : FileLock).Agrees (Function.update level p lockReserved) := by
  obtain ⟨nonzero, bounded, shared, reserved, pending, exclusive, one, alone⟩ := agrees
  constructor <;> simp only [Function.update_apply, lockShared, lockReserved, lockPending, lockExclusive] at * <;> grind

/-- A pending lock, where every other connection's is shared at most. -/
theorem pend (agrees : lock.Agrees level) (own : lockShared ≤ level p) (below : level p < lockExclusive) (low : ∀ q, q ≠ p → level q ≤ lockShared) :
    ({ lock with pending := p } : FileLock).Agrees (Function.update level p lockPending) := by
  obtain ⟨nonzero, bounded, shared, reserved, pending, exclusive, one, alone⟩ := agrees
  constructor <;> simp only [Function.update_apply, lockShared, lockReserved, lockPending, lockExclusive] at * <;> grind

/-- An exclusive lock, where no other connection has one. -/
theorem exclude (agrees : lock.Agrees level) (own : lockShared ≤ level p) (sole : ∀ q, q ≠ p → level q = lockNone) :
    ({ lock with pending := p, exclusive := p } : FileLock).Agrees (Function.update level p lockExclusive) := by
  obtain ⟨nonzero, bounded, shared, reserved, pending, exclusive, one, alone⟩ := agrees
  constructor <;> simp only [Function.update_apply, lockNone, lockShared, lockReserved, lockPending, lockExclusive] at * <;> grind

/-- A lock lowered to a shared one. -/
theorem lower (agrees : lock.Agrees level) (own : lockShared ≤ level p) : (lock.lower p).Agrees (Function.update level p lockShared) := by
  obtain ⟨nonzero, bounded, shared, reserved, pending, exclusive, one, alone⟩ := agrees
  constructor <;> simp only [Function.update_apply, FileLock.lower, lockShared, lockReserved, lockPending, lockExclusive] at * <;> grind

/-- A lock given up. -/
theorem leave (agrees : lock.Agrees level) : ((lock.lower p).leave p).Agrees (Function.update level p lockNone) := by
  obtain ⟨nonzero, bounded, shared, reserved, pending, exclusive, one, alone⟩ := agrees
  constructor <;> simp only [Function.update_apply, FileLock.lower, FileLock.leave, lockNone, lockShared, lockReserved, lockPending,
    lockExclusive, Finset.mem_erase] at * <;> grind

end FileLock.Agrees

/-- A memory's counters and its connections' bits say the same. -/
structure Shared.Agrees (memory : Shared) (held : Pointer → BitVec 32) : Prop where
  used : memory.users.Nonempty
  nonzero : ∀ p ∈ memory.users, p ≠ 0
  outside : ∀ p, p ∉ memory.users → held p = 0
  readers : ∀ i < shmLocks, ∃ holders : Finset Pointer, (∀ q, q ∈ holders ↔ holds (held q) i = true) ∧ memory.readers i = holders.card
  writer : ∀ i < shmLocks, ∀ q, holds (held q) (shmLocks + i) = true ↔ memory.writer i = q ∧ q ≠ 0
  apart : ∀ i < shmLocks, ∀ q r, holds (held q) (shmLocks + i) = true → holds (held r) i = true → r = q

/-- A bit of one connection's counts for one. -/
theorem count_update {held : Pointer → BitVec 32} {i : Nat} {readers : Int}
    (counted : ∃ holders : Finset Pointer, (∀ q, q ∈ holders ↔ holds (held q) i = true) ∧ readers = holders.card) (p : Pointer) (later : BitVec 32) :
    ∃ holders : Finset Pointer, (∀ q, q ∈ holders ↔ holds (Function.update held p later q) i = true) ∧
      readers + (if holds later i = true then 1 else 0) - (if holds (held p) i = true then 1 else 0) = holders.card := by
  obtain ⟨holders, members, rfl⟩ := counted
  by_cases now : holds later i = true
  · refine ⟨insert p holders, fun q => ?_, ?_⟩
    · rw [Finset.mem_insert, members, Function.update_apply]
      by_cases same : q = p <;> simp [same, now]
    · by_cases before : holds (held p) i = true
      · rw [Finset.insert_eq_of_mem ((members p).mpr before), if_pos now, if_pos before]
        omega
      · rw [Finset.card_insert_of_notMem (mt (members p).mp before), if_pos now, if_neg before]
        omega
  · refine ⟨holders.erase p, fun q => ?_, ?_⟩
    · rw [Finset.mem_erase, members, Function.update_apply]
      by_cases same : q = p <;> simp [same, now]
    · by_cases before : holds (held p) i = true
      · have member := (members p).mpr before
        have some_ := Finset.card_pos.mpr ⟨p, member⟩
        rw [Finset.card_erase_of_mem member, if_neg now, if_pos before]
        omega
      · rw [Finset.erase_eq_of_notMem (mt (members p).mp before), if_neg now, if_neg before]
        omega

namespace Shared.Agrees

variable {memory : Shared} {held : Pointer → BitVec 32} {p : Pointer} {range : List Nat} {flags : ShmFlags}

/-- One more connection maps the memory. -/
theorem map (agrees : memory.Agrees held) (some_ : p ≠ 0) (regions : List Pointer) :
    ({ memory with users := insert p memory.users, regions } : Shared).Agrees held where
  used := Finset.insert_nonempty p memory.users
  nonzero q member := by
    rcases Finset.mem_insert.mp member with rfl | member
    · exact some_
    · exact agrees.nonzero q member
  outside q outside := agrees.outside q fun member => outside (Finset.mem_insert_of_mem member)
  readers := agrees.readers
  writer := agrees.writer
  apart := agrees.apart

/-- The first connection maps the memory. -/
theorem first (none_ : ∀ q, held q = 0) (some_ : p ≠ 0) (regions : List Pointer) : ({ users := {p}, regions } : Shared).Agrees held where
  used := Finset.singleton_nonempty p
  nonzero q member := by
    rw [Finset.mem_singleton] at member
    rwa [member]
  outside q _ := none_ q
  readers i _ := ⟨∅, fun q => by simp [none_, holds_zero], rfl⟩
  writer i _ q := by
    simp only [none_]
    constructor
    · intro has
      rw [show (0 : BitVec 32) = 0#32 from rfl, holds_zero] at has
      cases has
    · rintro ⟨rfl, some_⟩
      exact absurd rfl some_
  apart i _ q r set_ := by simp [none_, holds_zero] at set_

theorem outside_update (agrees : memory.Agrees held) (member : p ∈ memory.users) (later : BitVec 32) (q : Pointer)
    (outside : q ∉ memory.users) : Function.update held p later q = 0 := by
  have other : q ≠ p := fun same => outside (same ▸ member)
  rw [Function.update_of_ne other]
  exact agrees.outside q outside

/-- Slots unlocked. -/
theorem unlock (agrees : memory.Agrees held) (member : p ∈ memory.users) (distinct : range.Nodup) (inside : ∀ i ∈ range, i < shmLocks) :
    (range.foldl (unlockSlot flags) (memory, held p)).1.Agrees
      (Function.update held p (range.foldl (unlockSlot flags) (memory, held p)).2) := by
  obtain ⟨users, readers, writer, bits⟩ := @unlockSlot_fold (memory, held p) _ flags distinct inside
  generalize range.foldl (unlockSlot flags) (memory, held p) = later at users readers writer bits ⊢
  have kept : ∀ b, holds later.2 b = true → holds (held p) b = true := fun b has => by
    rw [bits, Bool.and_eq_true, Bool.and_eq_true] at has
    exact has.1.1
  have still : ∀ q b, holds (Function.update held p later.2 q) b = true → holds (held q) b = true := fun q b has => by
    by_cases same : q = p
    · subst same
      rw [Function.update_self] at has
      exact kept b has
    · rwa [Function.update_of_ne same] at has
  refine ⟨by rw [users]; exact agrees.used, by rw [users]; exact agrees.nonzero, ?_, fun i low => ?_, fun i low q => ?_, fun i low q r taken shared => ?_⟩
  · rw [users]
    exact agrees.outside_update member later.2
  · obtain ⟨holders, members, count⟩ := count_update (agrees.readers i low) p later.2
    refine ⟨holders, members, ?_⟩
    have apart : decide (∃ j ∈ range, i = shmLocks + j) = false := decide_eq_false fun ⟨j, _, same⟩ => by omega
    rw [← count, readers, bits, apart]
    by_cases has : holds (held p) i = true <;> by_cases member : i ∈ range <;> cases flags.shared <;> simp [has, member]
  · have apart : decide (shmLocks + i ∈ range) = false := decide_eq_false fun within => by
      have := inside _ within
      omega
    have taken : decide (∃ j ∈ range, shmLocks + i = shmLocks + j) = decide (i ∈ range) := by simp
    rw [writer]
    have before := agrees.writer i low
    by_cases same : q = p
    · subst same
      rw [Function.update_self, bits, apart, taken]
      by_cases has : holds (held q) (shmLocks + i) = true
      · obtain ⟨own, some_⟩ := (before q).mp has
        by_cases member : i ∈ range <;> cases flags.exclusive <;> simp [has, member, own, some_]
        exact fun zero => some_ zero.symm
      · have other := mt (before q).mpr has
        simpa [has] using other
    · rw [Function.update_of_ne same, before]
      by_cases own : i ∈ range ∧ flags.exclusive = true ∧ holds (held p) (shmLocks + i) = true
      · obtain ⟨mine, -⟩ := (before p).mp own.2.2
        rw [if_pos own, mine]
        constructor
        · rintro ⟨rfl, -⟩
          exact absurd rfl same
        · rintro ⟨rfl, some_⟩
          exact absurd rfl some_
      · rw [if_neg own]
  · exact agrees.apart i low q r (still q _ taken) (still r _ shared)

/-- Slots shared, where no other connection has taken any. -/
theorem share (agrees : memory.Agrees held) (member : p ∈ memory.users) (distinct : range.Nodup) (inside : ∀ i ∈ range, i < shmLocks)
    (unblocked : ∀ i ∈ range, shareBlocked memory p i = false) :
    (range.foldl shareSlot (memory, held p)).1.Agrees (Function.update held p (range.foldl shareSlot (memory, held p)).2) := by
  obtain ⟨users, writer, readers, bits⟩ := @shareSlot_fold (memory, held p) _ distinct inside
  generalize range.foldl shareSlot (memory, held p) = later at users readers writer bits ⊢
  have taken : ∀ i < shmLocks, ∀ q, holds (Function.update held p later.2 q) (shmLocks + i) = holds (held q) (shmLocks + i) := fun i low q => by
    have outside : shmLocks + i ∉ range := fun within => by
      have := inside _ within
      omega
    by_cases same : q = p
    · subst same
      rw [Function.update_self, bits]
      simp [outside]
    · rw [Function.update_of_ne same]
  refine ⟨by rw [users]; exact agrees.used, by rw [users]; exact agrees.nonzero, ?_, fun i low => ?_, fun i low q => ?_, fun i low q r own shared => ?_⟩
  · rw [users]
    exact agrees.outside_update member later.2
  · obtain ⟨holders, members, count⟩ := count_update (agrees.readers i low) p later.2
    refine ⟨holders, members, ?_⟩
    rw [← count, readers, bits]
    by_cases has : holds (held p) i = true <;> by_cases member : i ∈ range <;> simp [has, member]
  · rw [taken i low, writer]
    exact agrees.writer i low q
  · rw [taken i low] at own
    by_cases same : r = p
    · subst same
      rw [Function.update_self, bits, Bool.or_eq_true, decide_eq_true_eq] at shared
      rcases shared with shared | within
      · exact agrees.apart i low q r own shared
      · have free := unblocked i within
        obtain ⟨mine, some_⟩ := (agrees.writer i low q).mp own
        simp only [shareBlocked, mine, Bool.and_eq_false_iff, decide_eq_false_iff_not, not_not] at free
        rcases free with zero | same
        · exact absurd zero some_
        · exact same.symm
    · rw [Function.update_of_ne same] at shared
      exact agrees.apart i low q r own shared

/-- Slots taken, where no other connection has shared or taken any. -/
theorem take (agrees : memory.Agrees held) (member : p ∈ memory.users) (inside : ∀ i ∈ range, i < shmLocks)
    (unblocked : ∀ i ∈ range, takeBlocked memory p (held p) i = false) :
    (range.foldl (takeSlot p) (memory, held p)).1.Agrees (Function.update held p (range.foldl (takeSlot p) (memory, held p)).2) := by
  obtain ⟨users, readers, writer, bits⟩ := @takeSlot_fold (memory, held p) _ p inside
  generalize range.foldl (takeSlot p) (memory, held p) = later at users readers writer bits ⊢
  have some_ := agrees.nonzero p member
  have shared : ∀ i < shmLocks, ∀ q, holds (Function.update held p later.2 q) i = holds (held q) i := fun i low q => by
    have outside : ¬ ∃ j ∈ range, i = shmLocks + j := fun ⟨j, _, same⟩ => by omega
    by_cases same : q = p
    · subst same
      rw [Function.update_self, bits]
      simp [outside]
    · rw [Function.update_of_ne same]
  have taken : ∀ i, holds later.2 (shmLocks + i) = (holds (held p) (shmLocks + i) || decide (i ∈ range)) := fun i => by
    rw [bits]
    simp
  -- another connection that holds a slot asked for would have been in the way
  have free : ∀ i ∈ range, (memory.writer i = 0 ∨ memory.writer i = p) ∧ ∀ q, holds (held q) i = true → q = p := fun i within => by
    have open_ := unblocked i within
    simp only [takeBlocked, Bool.or_eq_false_iff, Bool.and_eq_false_iff, decide_eq_false_iff_not, not_not] at open_
    obtain ⟨unwritten, unread⟩ := open_
    refine ⟨unwritten, fun q has => ?_⟩
    obtain ⟨holders, members, count⟩ := agrees.readers i (inside i within)
    rw [count] at unread
    by_contra other
    have first := (members q).mpr has
    by_cases own : holds (held p) i = true
    · have two : ({p, q} : Finset Pointer) ⊆ holders := by
        intro r member
        rw [Finset.mem_insert, Finset.mem_singleton] at member
        rcases member with rfl | rfl
        · exact (members _).mpr own
        · exact first
      have count := Finset.card_le_card two
      rw [Finset.card_pair (fun same => other same.symm)] at count
      rw [if_pos own] at unread
      omega
    · have count := Finset.card_pos.mpr ⟨q, first⟩
      rw [if_neg own] at unread
      omega
  refine ⟨by rw [users]; exact agrees.used, by rw [users]; exact agrees.nonzero, ?_, fun i low => ?_, fun i low q => ?_, fun i low q r own has => ?_⟩
  · rw [users]
    exact agrees.outside_update member later.2
  · obtain ⟨holders, members, count⟩ := agrees.readers i low
    exact ⟨holders, fun q => by rw [members, shared i low], by rw [readers, count]⟩
  · have before := agrees.writer i low
    rw [writer]
    by_cases within : i ∈ range
    · rw [if_pos within]
      by_cases same : q = p
      · subst same
        rw [Function.update_self, taken]
        simp [within, some_]
      · rw [Function.update_of_ne same, before]
        constructor
        · rintro ⟨mine, positive⟩
          rcases (free i within).1 with zero | own
          · exact absurd (mine.symm.trans zero) positive
          · exact absurd (mine.symm.trans own) same
        · rintro ⟨rfl, -⟩
          exact absurd rfl same
    · rw [if_neg within, ← before]
      by_cases same : q = p
      · subst same
        rw [Function.update_self, taken]
        simp [within]
      · rw [Function.update_of_ne same]
  · rw [shared i low] at has
    by_cases same : q = p
    · subst same
      rw [Function.update_self, taken, Bool.or_eq_true, decide_eq_true_eq] at own
      rcases own with own | within
      · exact agrees.apart i low q r own has
      · exact (free i within).2 r has
    · rw [Function.update_of_ne same] at own
      exact agrees.apart i low q r own has

/-- A connection unmapped, where another still maps the memory. -/
theorem unmap (agrees : memory.Agrees held) (some_ : p ≠ 0) (others : (memory.users.erase p).Nonempty) :
    ({ (List.range shmLocks).foldl (dropSlot p (held p)) memory with users := memory.users.erase p } : Shared).Agrees
      (Function.update held p 0) := by
  obtain ⟨users, readers, writer⟩ := @dropSlot_fold (List.range shmLocks) p memory (held p) List.nodup_range
  generalize (List.range shmLocks).foldl (dropSlot p (held p)) memory = later at users readers writer ⊢
  have none_ : ∀ b, holds (0 : BitVec 32) b = false := fun b => holds_zero
  refine ⟨others, fun q within => agrees.nonzero q (Finset.mem_of_mem_erase within), fun q outside => ?_, fun i low => ?_, fun i low q => ?_,
    fun i low q r own has => ?_⟩
  · by_cases same : q = p
    · rw [same, Function.update_self]
    · rw [Function.update_of_ne same]
      exact agrees.outside q fun within => outside (Finset.mem_erase.mpr ⟨same, within⟩)
  · obtain ⟨holders, members, count⟩ := count_update (agrees.readers i low) p 0
    refine ⟨holders, members, ?_⟩
    rw [← count]
    change later.readers i = _
    rw [readers, none_]
    by_cases has : holds (held p) i = true <;> simp [has, low]
  · have before := agrees.writer i low q
    change _ ↔ later.writer i = q ∧ q ≠ 0
    rw [writer]
    by_cases same : q = p
    · subst same
      rw [Function.update_self, none_]
      by_cases own : memory.writer i = q
      · simp [own, low, eq_comm]
      · simp [own]
    · rw [Function.update_of_ne same, before]
      by_cases own : memory.writer i = p
      · rw [if_pos ⟨List.mem_range.mpr low, own⟩, own]
        constructor
        · rintro ⟨rfl, -⟩
          exact absurd rfl same
        · rintro ⟨rfl, positive⟩
          exact absurd rfl positive
      · rw [if_neg (fun both => own both.2)]
  · by_cases same : q = p
    · rw [same, Function.update_self, none_] at own
      cases own
    · rw [Function.update_of_ne same] at own
      by_cases same' : r = p
      · rw [same', Function.update_self, none_] at has
        cases has
      · rw [Function.update_of_ne same'] at has
        exact agrees.apart i low q r own has

end Shared.Agrees

end Moe.Sqlite
