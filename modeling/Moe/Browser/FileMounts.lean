import Moe.Browser.FileNames

namespace Moe

open JsString

section

variable [Crypto]

/-- A pool's files as they may stand between mounts: the first `count` its members', the rest none. -/
structure Unmounted (count : Nat) (disk : Nat → Bytes) (next : Nat) : Prop where
  ok : DiskOk disk next
  outside : ∀ id, count ≤ id → disk id = []

variable {count next id : Nat} {disk : Nat → Bytes} {name : JsString} {members : Nat → Member}

/-- What a mount reads of the pool's members. -/
structure Reads (count : Nat) (disk : Nat → Bytes) (members : Nat → Member) : Prop where
  known : ∀ id < count, newest (disk id) =
      .ok (some (⟨(members id).names, (members id).ino, (members id).birth, (members id).sequence⟩, (members id).copy)) ∨
    newest (disk id) = .ok none ∧ members id = {}
  outside : ∀ id, count ≤ id → members id = {}

theorem DiskOk.mounts (ok : DiskOk disk next) (count : Nat) : ∃ members, mountMembers disk count = .ok members ∧ Reads count disk members := by
  induction count with
  | zero => exact ⟨_, rfl, fun id inside => absurd inside (Nat.not_lt_zero id), fun _ _ => rfl⟩
  | succ count ih =>
    obtain ⟨members, read, known, outside⟩ := ih
    obtain ⟨found, same⟩ := ok.newest count
    obtain ⟨own, mounted, given⟩ : ∃ own, mountMember (disk count) = .ok own ∧ (Moe.newest (disk count) =
        .ok (some (⟨own.names, own.ino, own.birth, own.sequence⟩, own.copy)) ∨ Moe.newest (disk count) = .ok none ∧ own = {}) := by
      cases found with
      | none => exact ⟨{}, by simp only [mountMember, same]; rfl, .inr ⟨same, rfl⟩⟩
      | some pair =>
        obtain ⟨header, copy⟩ := pair
        exact ⟨_, by simp only [mountMember, same]; rfl, .inl same⟩
    refine ⟨Function.update members count own, by simp only [mountMembers, read, mounted]; rfl, fun id inside => ?_, fun id out => ?_⟩
    · obtain rfl | different := eq_or_ne id count
      · rw [Function.update_self]
        exact given
      · rw [Function.update_of_ne different]
        exact known id (by omega)
    · rw [Function.update_of_ne (by omega)]
      exact outside id (by omega)

omit [Crypto] in
/-- The sequence a mount goes on from is past every member's. -/
theorem mount_sequence (ids : List Nat) (start : Nat) :
    start ≤ ids.foldl (fun next id => if next ≤ (members id).sequence then (members id).sequence + 1 else next) start ∧
      ∀ id ∈ ids, (members id).sequence <
        ids.foldl (fun next id => if next ≤ (members id).sequence then (members id).sequence + 1 else next) start := by
  induction ids generalizing start with
  | nil => exact ⟨Nat.le_refl _, fun id member => by cases member⟩
  | cons head rest ih =>
    simp only [List.foldl_cons]
    split
    · obtain ⟨above, others⟩ := ih ((members head).sequence + 1)
      refine ⟨by omega, fun id member => ?_⟩
      obtain rfl | later := List.mem_cons.mp member
      · omega
      · exact others id later
    · obtain ⟨above, others⟩ := ih start
      refine ⟨above, fun id member => ?_⟩
      obtain rfl | later := List.mem_cons.mp member
      · omega
      · exact others id later

/-- The pool as a mount finds it: its members told by their headers, none yet free. -/
theorem Unmounted.mountState (pool : Unmounted count disk next) (reads : Reads count disk members) : (mountState count disk members).Held := by
  obtain ⟨least, below⟩ := @mount_sequence members (List.range count) 1
  have sequences : ∀ id copy header, copyAt (disk id) copy = .ok (some header) → header.sequence < (Moe.mountState count disk members).sequence := by
    intro id copy header held
    have inside : id < count := by
      refine Nat.lt_of_not_le fun out => ?_
      rw [pool.outside id out, Mounted.Held.copyAt_nil] at held
      cases held
    obtain known | ⟨none_, -⟩ := reads.known id inside
    · obtain ⟨own, other, rest, top⟩ := newest_some known
      have top' : header.sequence ≤ (members id).sequence := by
        obtain rfl | rfl := copy.other_or (members id).copy
        · rw [rest] at held
          exact top header (Except.ok.inj held)
        · rw [own] at held
          obtain rfl := Option.some.inj (Except.ok.inj held)
          exact Nat.le_refl _
      exact Nat.lt_of_le_of_lt top' (below id (List.mem_range.mpr inside))
    · rw [newest_eq_none none_ copy] at held
      cases held
  refine ⟨⟨pool.ok.long, pool.ok.reads, fun id copy header held => ?_, pool.ok.apart⟩, least, fun id out => ⟨pool.outside id out,
    reads.outside id out⟩, fun id => ?_, fun id member => (by cases member), List.nodup_nil⟩
  · have sound := pool.ok.sound id copy header held
    exact ⟨sound.positive, sequences id copy header held, sound.ino, sound.birth, sound.names, sound.fits⟩
  · by_cases inside : id < count
    · obtain known | ⟨none_, blank⟩ := reads.known id inside
      · exact .inl known
      · exact .inr ⟨none_, by simp only [Moe.mountState, blank]⟩
    · have out := Nat.not_lt.mp inside
      refine .inr ⟨newest_none fun copy => ?_, by simp only [Moe.mountState, reads.outside id out]⟩
      simp only [Moe.mountState, pool.outside id out, Mounted.Held.copyAt_nil]

omit [Crypto] in
/-- A mount takes its members in the order of their writing, the last first, each once. -/
theorem mountOrder_spec (count : Nat) (members : Nat → Member) : (mountOrder count members).Perm (List.range count) ∧
    (mountOrder count members).Pairwise fun a b => (members b).sequence ≤ (members a).sequence := by
  refine ⟨List.mergeSort_perm .., ?_⟩
  have sorted := @List.pairwise_mergeSort _ (fun a b => decide ((members b).sequence ≤ (members a).sequence))
    (fun a b c first second => by
      simp only [decide_eq_true_eq] at first second ⊢
      omega)
    (fun a b => by
      simp only [Bool.or_eq_true, decide_eq_true_eq]
      omega) (List.range count)
  simpa only [mountOrder, decide_eq_true_eq] using sorted

omit [Crypto] in
theorem mount_sequence_le (ids : List Nat) {start bound : Nat} (first : start ≤ bound) (below : ∀ id ∈ ids, (members id).sequence < bound) :
    ids.foldl (fun next id => if next ≤ (members id).sequence then (members id).sequence + 1 else next) start ≤ bound := by
  induction ids generalizing start with
  | nil => exact first
  | cons head rest ih =>
    have own := below head List.mem_cons_self
    rw [List.foldl_cons]
    refine ih ?_ fun id member => below id (List.mem_cons_of_mem _ member)
    split
    · omega
    · exact first

/-- A mount's header writes stay within eight bytes. -/
def MountRoom (count : Nat) (disk : Nat → Bytes) : Prop :=
  ∀ members, mountMembers disk count = .ok members → (mountState count disk members).sequence + count ≤ 2 ^ 64

/-- The sequence a mount goes on from is not past the next one the pool had. -/
theorem Unmounted.room (pool : Unmounted count disk next) (positive : 0 < next) (bound : next + count ≤ 2 ^ 64) : MountRoom count disk := by
  intro members read
  obtain ⟨members', read', reads⟩ := pool.ok.mounts count
  obtain rfl := Except.ok.inj (read.symm.trans read')
  refine Nat.le_trans (Nat.add_le_add_right (mount_sequence_le _ positive fun id member => ?_) count) bound
  obtain known | ⟨-, blank⟩ := reads.known id (List.mem_range.mp member)
  · exact (pool.ok.sound id _ _ (newest_some known).1).below
  · rw [blank]
    exact positive

end

end Moe
