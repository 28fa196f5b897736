import Moe.Browser.SqliteLocks

namespace Moe.Sqlite

variable {held : BitVec 32} {bit other : Nat}

theorem holds_eq : holds held bit = held.getLsbD bit := by
  have power : 1#32 <<< bit = BitVec.twoPow 32 bit := by simp [BitVec.twoPow]
  rw [holds, power, BitVec.and_twoPow]
  by_cases set_ : held.getLsbD bit = true
  · have inside : bit < 32 := BitVec.lt_of_getLsbD set_
    have some_ : BitVec.twoPow 32 bit ≠ 0 := fun none_ => by
      have same := congrArg (fun x => BitVec.getLsbD x bit) none_
      simp [inside] at same
    rw [if_pos set_, set_]
    exact decide_eq_true some_
  · rw [if_neg set_]
    simpa using set_

theorem holds_hold (inside : bit < 32) : holds (hold held bit) other = (holds held other || decide (other = bit)) := by
  have power : 1#32 <<< bit = BitVec.twoPow 32 bit := by simp [BitVec.twoPow]
  rw [holds_eq, holds_eq, hold, power, BitVec.getLsbD_or, BitVec.getLsbD_twoPow, decide_eq_true inside, Bool.true_and]
  simp only [eq_comm]

theorem holds_release : holds (release held bit) other = (holds held other && !decide (other = bit)) := by
  have power : 1#32 <<< bit = BitVec.twoPow 32 bit := by simp [BitVec.twoPow]
  rw [holds_eq, holds_eq, release, power, BitVec.getLsbD_and, BitVec.getLsbD_not, BitVec.getLsbD_twoPow]
  by_cases inside : other < 32
  · rw [decide_eq_true inside, Bool.true_and]
    by_cases same : other = bit
    · subst same
      simp [inside]
    · have apart : ¬ bit = other := fun same' => same same'.symm
      simp [same, apart]
  · have clear : held.getLsbD other = false := BitVec.getLsbD_of_ge held other (by omega)
    simp [clear]

theorem holds_zero : holds 0#32 bit = false := by
  rw [holds_eq]
  exact BitVec.getLsbD_zero

/-- The slots a request names are among the eight. -/
theorem mem_slots {offset n i : Nat} : i ∈ slots offset n ↔ offset ≤ i ∧ i < offset + n := by
  rw [slots, List.mem_range'_1]

theorem slots_nodup (offset n : Nat) : (slots offset n).Nodup := List.nodup_range'

section Folds

variable {at_ : Shared × BitVec 32} {range : List Nat} {pFile : Pointer} {flags : ShmFlags}

/-- What sharing slots leaves: a reader more of each it did not hold, and its bit. -/
theorem shareSlot_fold (distinct : range.Nodup) (inside : ∀ i ∈ range, i < shmLocks) :
    (range.foldl shareSlot at_).1.users = at_.1.users ∧ (range.foldl shareSlot at_).1.writer = at_.1.writer ∧
      (∀ i, (range.foldl shareSlot at_).1.readers i =
        if i ∈ range ∧ holds at_.2 i = false then at_.1.readers i + 1 else at_.1.readers i) ∧
      ∀ b, holds (range.foldl shareSlot at_).2 b = (holds at_.2 b || decide (b ∈ range)) := by
  induction range generalizing at_ with
  | nil => simp
  | cons j range ih =>
    obtain ⟨fresh, distinct⟩ := List.nodup_cons.mp distinct
    obtain ⟨first, inside⟩ := List.forall_mem_cons.mp inside
    have width : j < 32 := Nat.lt_trans first (by decide)
    rw [List.foldl_cons]
    obtain ⟨users, writer, readers, bits⟩ := @ih (shareSlot at_ j) distinct inside
    by_cases has : holds at_.2 j = true
    · have step : shareSlot at_ j = at_ := if_pos has
      rw [step] at users writer readers bits ⊢
      refine ⟨users, writer, fun i => ?_, fun b => ?_⟩
      · rw [readers]
        by_cases same : i = j
        · subst same
          simp [fresh, has]
        · simp [same]
      · rw [bits]
        by_cases same : b = j
        · subst same
          simp [has]
        · simp [same]
    · have step : shareSlot at_ j =
          ({ at_.1 with readers := Function.update at_.1.readers j (at_.1.readers j + 1) }, hold at_.2 j) := if_neg has
      rw [step] at users writer readers bits ⊢
      refine ⟨users, writer, fun i => ?_, fun b => ?_⟩
      · rw [readers]
        simp only [holds_hold width]
        by_cases same : i = j
        · subst same
          simp [fresh, has]
        · simp [same]
      · rw [bits, holds_hold width]
        by_cases same : b = j <;> simp [same]

/-- What taking slots leaves: its connection their writer, and its bits. -/
theorem takeSlot_fold (inside : ∀ i ∈ range, i < shmLocks) :
    (range.foldl (takeSlot pFile) at_).1.users = at_.1.users ∧ (range.foldl (takeSlot pFile) at_).1.readers = at_.1.readers ∧
      (∀ i, (range.foldl (takeSlot pFile) at_).1.writer i = if i ∈ range then pFile else at_.1.writer i) ∧
      ∀ b, holds (range.foldl (takeSlot pFile) at_).2 b = (holds at_.2 b || decide (∃ i ∈ range, b = shmLocks + i)) := by
  induction range generalizing at_ with
  | nil => simp
  | cons j range ih =>
    obtain ⟨first, inside⟩ := List.forall_mem_cons.mp inside
    have width : shmLocks + j < 32 := by
      unfold shmLocks at *
      omega
    rw [List.foldl_cons]
    obtain ⟨users, readers, writer, bits⟩ := @ih (takeSlot pFile at_ j) inside
    refine ⟨users, readers, fun i => ?_, fun b => ?_⟩
    · rw [writer]
      by_cases same : i = j
      · subst same
        simp [takeSlot]
      · simp [takeSlot, same]
    · rw [bits, takeSlot, holds_hold width]
      by_cases same : b = shmLocks + j <;> simp [same]

/-- What unlocking one slot leaves of it, and of every other. -/
theorem unlockSlot_spec {j : Nat} (first : j < shmLocks) : (unlockSlot flags at_ j).1.users = at_.1.users ∧
    (∀ i, (unlockSlot flags at_ j).1.readers i =
      if i = j ∧ flags.shared = true ∧ holds at_.2 i = true then at_.1.readers i - 1 else at_.1.readers i) ∧
    (∀ i, (unlockSlot flags at_ j).1.writer i =
      if i = j ∧ flags.exclusive = true ∧ holds at_.2 (shmLocks + i) = true then 0 else at_.1.writer i) ∧
    ∀ b, holds (unlockSlot flags at_ j).2 b = (holds at_.2 b && !(flags.shared && decide (b = j)) &&
      !(flags.exclusive && decide (b = shmLocks + j))) := by
  obtain ⟨memory, held⟩ := at_
  have eight : ¬ shmLocks = 0 := by decide
  unfold unlockSlot
  by_cases share : flags.shared = true ∧ holds held j = true
  · have still : holds (release held j) (shmLocks + j) = holds held (shmLocks + j) := by simp [holds_release, eight]
    simp only [if_pos share, still]
    by_cases take : flags.exclusive = true ∧ holds held (shmLocks + j) = true
    · simp only [if_pos take]
      refine ⟨trivial, fun i => ?_, fun i => ?_, fun b => ?_⟩
      · by_cases same : i = j
        · subst same
          simp [share]
        · simp [same]
      · by_cases same : i = j
        · subst same
          simp [take]
        · simp [same]
      · simp [holds_release, share.1, take.1]
    · simp only [if_neg take]
      refine ⟨trivial, fun i => ?_, fun i => ?_, fun b => ?_⟩
      · by_cases same : i = j
        · subst same
          simp [share]
        · simp [same]
      · by_cases same : i = j
        · subst same
          simp [take]
        · simp [same]
      · rw [holds_release]
        by_cases same : b = shmLocks + j
        · subst same
          cases exclusive : flags.exclusive <;> simp_all
        · simp [share.1, same]
  · simp only [if_neg share]
    by_cases take : flags.exclusive = true ∧ holds held (shmLocks + j) = true
    · simp only [if_pos take]
      refine ⟨trivial, fun i => ?_, fun i => ?_, fun b => ?_⟩
      · by_cases same : i = j
        · subst same
          simp [share]
        · simp [same]
      · by_cases same : i = j
        · subst same
          simp [take]
        · simp [same]
      · rw [holds_release]
        by_cases same : b = j
        · subst same
          cases shared : flags.shared <;> simp_all
        · simp [take.1, same]
    · simp only [if_neg take]
      refine ⟨trivial, fun i => ?_, fun i => ?_, fun b => ?_⟩
      · by_cases same : i = j
        · subst same
          simp [share]
        · simp [same]
      · by_cases same : i = j
        · subst same
          simp [take]
        · simp [same]
      · by_cases same : b = j
        · subst same
          cases shared : flags.shared <;> simp_all
        · by_cases same' : b = shmLocks + j
          · subst same'
            cases exclusive : flags.exclusive <;> simp_all
          · simp [same, same']

/-- What unlocking slots leaves of what was held of them. -/
theorem unlockSlot_fold (distinct : range.Nodup) (inside : ∀ i ∈ range, i < shmLocks) :
    (range.foldl (unlockSlot flags) at_).1.users = at_.1.users ∧
      (∀ i, (range.foldl (unlockSlot flags) at_).1.readers i =
        if i ∈ range ∧ flags.shared = true ∧ holds at_.2 i = true then at_.1.readers i - 1 else at_.1.readers i) ∧
      (∀ i, (range.foldl (unlockSlot flags) at_).1.writer i =
        if i ∈ range ∧ flags.exclusive = true ∧ holds at_.2 (shmLocks + i) = true then 0 else at_.1.writer i) ∧
      ∀ b, holds (range.foldl (unlockSlot flags) at_).2 b = (holds at_.2 b && !(flags.shared && decide (b ∈ range)) &&
        !(flags.exclusive && decide (∃ i ∈ range, b = shmLocks + i))) := by
  induction range generalizing at_ with
  | nil => simp
  | cons j range ih =>
    obtain ⟨fresh, distinct⟩ := List.nodup_cons.mp distinct
    obtain ⟨first, inside⟩ := List.forall_mem_cons.mp inside
    rw [List.foldl_cons]
    obtain ⟨users, readers, writer, bits⟩ := @ih (unlockSlot flags at_ j) distinct inside
    obtain ⟨users', readers', writer', bits'⟩ := @unlockSlot_spec at_ flags _ first
    refine ⟨users.trans users', fun i => ?_, fun i => ?_, fun b => ?_⟩
    · rw [readers, readers', bits']
      by_cases same : i = j
      · subst same
        simp [fresh]
      · by_cases member : i ∈ range
        · have apart : ¬ i = shmLocks + j := by
            have := inside i member
            omega
          simp [same, member, apart]
        · simp [same, member]
    · rw [writer, writer', bits']
      by_cases same : i = j
      · subst same
        simp [fresh]
      · have apart : ¬ shmLocks + i = shmLocks + j := by omega
        have apart' : ¬ shmLocks + i = j := by omega
        simp [same, apart']
    · have member : decide (b ∈ j :: range) = (decide (b = j) || decide (b ∈ range)) := by simp
      have taken : decide (∃ i ∈ j :: range, b = shmLocks + i) =
          (decide (b = shmLocks + j) || decide (∃ i ∈ range, b = shmLocks + i)) := by simp
      rw [bits, bits', member, taken]
      generalize decide (b = j) = one
      generalize decide (b ∈ range) = more
      generalize decide (b = shmLocks + j) = one'
      generalize decide (∃ i ∈ range, b = shmLocks + i) = more'
      cases flags.shared <;> cases flags.exclusive <;> cases one <;> cases one' <;> simp

/-- What giving up slots leaves: a reader less of each that was shared, and no writer of each that was taken. -/
theorem dropSlot_fold {memory : Shared} {held : BitVec 32} (distinct : range.Nodup) :
    (range.foldl (dropSlot pFile held) memory).users = memory.users ∧
      (∀ i, (range.foldl (dropSlot pFile held) memory).readers i =
        if i ∈ range ∧ holds held i = true then memory.readers i - 1 else memory.readers i) ∧
      ∀ i, (range.foldl (dropSlot pFile held) memory).writer i =
        if i ∈ range ∧ memory.writer i = pFile then 0 else memory.writer i := by
  induction range generalizing memory with
  | nil => simp
  | cons j range ih =>
    obtain ⟨fresh, distinct⟩ := List.nodup_cons.mp distinct
    rw [List.foldl_cons]
    obtain ⟨users, readers, writer⟩ := @ih (dropSlot pFile held memory j) distinct
    refine ⟨users, fun i => ?_, fun i => ?_⟩
    · rw [readers]
      by_cases same : i = j
      · subst same
        by_cases has : holds held i = true <;> simp [dropSlot, fresh, has]
      · by_cases has : holds held j = true <;> simp [dropSlot, same, has]
    · rw [writer]
      by_cases same : i = j
      · subst same
        by_cases own : memory.writer i = pFile <;> simp [dropSlot, fresh, own]
      · by_cases own : memory.writer j = pFile <;> simp [dropSlot, same, own]

end Folds

end Moe.Sqlite
