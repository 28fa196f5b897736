import Moe.Browser.SqliteLocking

namespace Moe.Sqlite

namespace State

/-- A connection's level, none where it is not open. -/
def level (s : State) (p : Pointer) : Nat := (s.opens p).elim lockNone Open.level

/-- The shared-memory locks a connection holds. -/
def held (s : State) (p : Pointer) : BitVec 32 := (s.opens p).elim 0 Open.shmHeld

theorem level_eq {s : State} {p : Pointer} {file : Open} (at_ : s.opens p = some file) : s.level p = file.level := by
  rw [level, at_]
  rfl

theorem held_eq {s : State} {p : Pointer} {file : Open} (at_ : s.opens p = some file) : s.held p = file.shmHeld := by
  rw [held, at_]
  rfl

theorem setOpen_level (s : State) (p : Pointer) (value : Option Open) :
    (s.setOpen p value).level = Function.update s.level p (value.elim lockNone Open.level) := by
  funext q
  by_cases same : q = p
  · subst same
    simp [level, setOpen]
  · simp [level, setOpen, same]

theorem setOpen_held (s : State) (p : Pointer) (value : Option Open) :
    (s.setOpen p value).held = Function.update s.held p (value.elim 0 Open.shmHeld) := by
  funext q
  by_cases same : q = p
  · subst same
    simp [held, setOpen]
  · simp [held, setOpen, same]

/-- The connections are as many as the member's opens say at least. -/
def Counted (s : State) : Prop :=
  ∃ connected : Finset Pointer, (∀ p, p ∈ connected ↔ s.opens p ≠ none) ∧ connected.card ≤ s.memberOpens

/-- The locks, the shared memory and the connections say the same. -/
structure Sound (s : State) : Prop where
  lock : s.lockOf.Agrees s.level
  memory : ∀ memory ∈ s.shared, memory.Agrees s.held ∧ ∀ p ∈ memory.users, s.opens p ≠ none
  unshared : s.shared = none → ∀ p, s.held p = 0
  counted : s.Counted
  nonzero : ∀ p, s.opens p ≠ none → p ≠ 0

/-- A connection is the connections' own, whatever it holds. -/
theorem Counted.setOpen {s : State} {p : Pointer} {file value : Open} (counted : s.Counted) (at_ : s.opens p = some file) :
    (s.setOpen p (some value)).Counted := by
  obtain ⟨connected, members, count⟩ := counted
  refine ⟨connected, fun q => ?_, count⟩
  rw [members]
  by_cases same : q = p
  · subst same
    simp [State.setOpen, at_]
  · simp [State.setOpen, same]

theorem setOpen_ne_none {s : State} {p q : Pointer} {file value : Open} (at_ : s.opens p = some file) :
    (s.setOpen p (some value)).opens q ≠ none ↔ s.opens q ≠ none := by
  by_cases same : q = p
  · subst same
    simp [setOpen, at_]
  · simp [setOpen, same]

namespace Sound

variable {s : State} {p : Pointer} {file : Open}

/-- A step that changes a connection's level and its file's lock alone. -/
theorem relock (sound : s.Sound) (at_ : s.opens p = some file) {level : Nat} {lock : FileLock}
    (agrees : lock.Agrees (Function.update s.level p level)) :
    ({ s.setOpen p (some { file with level := level }) with lock := some lock } : State).Sound where
  lock := by
    change lock.Agrees (s.setOpen p (some { file with level := level })).level
    rw [setOpen_level]
    exact agrees
  memory memory there := by
    obtain ⟨agrees, open_⟩ := sound.memory memory there
    have same := setOpen_held s p (some { file with level := level })
    have kept : Function.update s.held p file.shmHeld = s.held := by
      rw [← held_eq at_]
      exact Function.update_eq_self p s.held
    refine ⟨?_, fun q member => (setOpen_ne_none at_).mpr (open_ q member)⟩
    change memory.Agrees (s.setOpen p (some { file with level := level })).held
    rw [same]
    change memory.Agrees (Function.update s.held p file.shmHeld)
    rwa [kept]
  unshared none_ q := by
    have before := sound.unshared none_
    change (s.setOpen p (some { file with level := level })).held q = 0
    rw [setOpen_held]
    change Function.update s.held p file.shmHeld q = 0
    rw [← held_eq at_, Function.update_eq_self]
    exact before q
  counted := sound.counted.setOpen at_
  nonzero q some_ := sound.nonzero q ((setOpen_ne_none at_).mp some_)

/-- A step that changes a connection's bits and the shared memory alone. -/
theorem reshare (sound : s.Sound) (at_ : s.opens p = some file) {held : BitVec 32} {shared : Option Shared}
    (agrees : ∀ memory ∈ shared, memory.Agrees (Function.update s.held p held) ∧ ∀ q ∈ memory.users, s.opens q ≠ none)
    (none_ : shared = none → ∀ q, Function.update s.held p held q = 0) :
    ({ s.setOpen p (some { file with shmHeld := held }) with shared := shared } : State).Sound where
  lock := by
    have same := setOpen_level s p (some { file with shmHeld := held })
    have kept : Function.update s.level p file.level = s.level := by
      rw [← level_eq at_]
      exact Function.update_eq_self p s.level
    change s.lockOf.Agrees (s.setOpen p (some { file with shmHeld := held })).level
    rw [same]
    change s.lockOf.Agrees (Function.update s.level p file.level)
    rw [kept]
    exact sound.lock
  memory memory there := by
    obtain ⟨agrees, open_⟩ := agrees memory there
    refine ⟨?_, fun q member => (setOpen_ne_none at_).mpr (open_ q member)⟩
    change memory.Agrees (s.setOpen p (some { file with shmHeld := held })).held
    rw [setOpen_held]
    exact agrees
  unshared none_' q := by
    change (s.setOpen p (some { file with shmHeld := held })).held q = 0
    rw [setOpen_held]
    exact none_ none_' q
  counted := sound.counted.setOpen at_
  nonzero q some_ := sound.nonzero q ((setOpen_ne_none at_).mp some_)

/-- An empty lock made where there was none. -/
theorem made (sound : s.Sound) : ({ s with lock := some s.lockOf } : State).Sound :=
  ⟨sound.lock, sound.memory, sound.unshared, sound.counted, sound.nonzero⟩

theorem xOpen (sound : s.Sound) (some_ : p ≠ 0) (none_ : s.opens p = none) (found : Bool) : (xOpen s p found).1.Sound := by
  unfold Sqlite.xOpen
  cases found with
  | false => exact sound
  | true =>
    have level : (s.setOpen p (some {})).level = s.level := by
      rw [setOpen_level]
      have own : s.level p = lockNone := by rw [State.level, none_]; rfl
      change Function.update s.level p lockNone = s.level
      rw [← own, Function.update_eq_self]
    have held : (s.setOpen p (some {})).held = s.held := by
      rw [setOpen_held]
      have own : s.held p = 0 := by rw [State.held, none_]; rfl
      change Function.update s.held p 0 = s.held
      rw [← own, Function.update_eq_self]
    have connected : ∀ q, (s.setOpen p (some {})).opens q ≠ none ↔ q = p ∨ s.opens q ≠ none := fun q => by
      by_cases same : q = p
      · subst same
        simp [State.setOpen]
      · simp [State.setOpen, same]
    refine ⟨?_, fun memory there => ?_, fun none_ q => ?_, ?_, fun q some_' => ?_⟩
    · change s.lockOf.Agrees (s.setOpen p (some {})).level
      rw [level]
      exact sound.lock
    · obtain ⟨agrees, open_⟩ := sound.memory memory there
      refine ⟨?_, fun q member => (connected q).mpr (Or.inr (open_ q member))⟩
      change memory.Agrees (s.setOpen p (some {})).held
      rwa [held]
    · change (s.setOpen p (some {})).held q = 0
      rw [held]
      exact sound.unshared none_ q
    · obtain ⟨before, members, count⟩ := sound.counted
      refine ⟨insert p before, fun q => ?_, ?_⟩
      · rw [Finset.mem_insert, members]
        exact (connected q).symm
      · have more := Finset.card_insert_le p before
        change _ ≤ s.memberOpens + 1
        omega
    · rcases (connected q).mp some_' with rfl | before
      · exact some_
      · exact sound.nonzero q before

theorem xClose (sound : s.Sound) (unmapped : ¬ s.Maps p) (removed : Bool) : (xClose s p removed).1.Sound := by
  unfold Sqlite.xClose
  split
  · exact sound
  · rename_i file at_
    have level : (s.setOpen p none).level = Function.update s.level p lockNone := setOpen_level s p none
    have bits : s.held p = 0 := by
      cases there : s.shared with
      | none => exact sound.unshared there p
      | some memory =>
        by_contra some_
        exact unmapped ⟨memory, there, by_contra fun outside => some_ ((sound.memory memory there).1.outside p outside)⟩
    have held : (s.setOpen p none).held = s.held := by
      rw [setOpen_held]
      change Function.update s.held p 0 = s.held
      rw [← bits, Function.update_eq_self]
    have connected : ∀ q, (s.setOpen p none).opens q ≠ none ↔ q ≠ p ∧ s.opens q ≠ none := fun q => by
      by_cases same : q = p
      · subst same
        simp [State.setOpen]
      · simp [State.setOpen, same]
    have counted : ∃ later : Finset Pointer, (∀ q, q ∈ later ↔ (s.setOpen p none).opens q ≠ none) ∧ later.card ≤ s.memberOpens - 1 := by
      obtain ⟨before, members, count⟩ := sound.counted
      refine ⟨before.erase p, fun q => ?_, ?_⟩
      · rw [Finset.mem_erase, members]
        exact (connected q).symm
      · rw [Finset.card_erase_of_mem ((members p).mpr (by rw [at_]; exact Option.some_ne_none file))]
        omega
    have lock : ((s.lock.map fun lock : FileLock => (lock.lower p).leave p).getD {}).Agrees (s.setOpen p none).level := by
      rw [level]
      have before := sound.lock.leave (p := p)
      cases there : s.lock with
      | some lock =>
        rw [lockOf, there] at before
        exact before
      | none =>
        rw [lockOf, there] at before
        have none_ : ((({} : FileLock).lower p).leave p) = {} := by simp [FileLock.lower, FileLock.leave]
        rw [Option.getD_none, none_] at before
        exact before
    have memory : ∀ memory ∈ s.shared, memory.Agrees (s.setOpen p none).held ∧ ∀ q ∈ memory.users, (s.setOpen p none).opens q ≠ none := by
      intro memory there
      obtain ⟨agrees, open_⟩ := sound.memory memory there
      refine ⟨by rwa [held], fun q member => (connected q).mpr ⟨?_, open_ q member⟩⟩
      rintro rfl
      exact unmapped ⟨memory, there, member⟩
    have unshared : s.shared = none → ∀ q, (s.setOpen p none).held q = 0 := fun none_ q => by
      rw [held]
      exact sound.unshared none_ q
    have nonzero : ∀ q, (s.setOpen p none).opens q ≠ none → q ≠ 0 := fun q some_ => sound.nonzero q ((connected q).mp some_).2
    have kept : ({ s.setOpen p none with
        lock := s.lock.map fun lock : FileLock => (lock.lower p).leave p
        memberOpens := s.memberOpens - 1 } : State).Sound := ⟨lock, memory, unshared, counted, nonzero⟩
    cases removed with
    | false => exact kept
    | true =>
      simp only [if_true]
      split
      · rename_i zero
        -- no connection is left once the member is open no more
        have none_ : (s.setOpen p none).level = fun _ => lockNone := by
          obtain ⟨later, members, count⟩ := counted
          have empty : later = ∅ := Finset.card_eq_zero.mp (Nat.le_zero.mp (Nat.le_trans count (Nat.le_of_eq zero)))
          funext q
          by_contra some_
          have there : (s.setOpen p none).opens q ≠ none := fun none_ => some_ (by rw [State.level, none_]; rfl)
          have member := (members q).mpr there
          rw [empty] at member
          exact absurd member (Finset.notMem_empty q)
        refine ⟨?_, memory, unshared, counted, nonzero⟩
        change FileLock.Agrees {} (s.setOpen p none).level
        rw [none_]
        exact FileLock.Agrees.empty
      · exact kept

end Sound

/-- What a lock call does: nothing where the connection has as much, a refusal, a lock granted, or a pending one where an exclusive one
waits for another connection's shared lock. -/
theorem xLock_cases {s : State} {p : Pointer} {file : Open} (at_ : s.opens p = some file) (level : Nat) :
    (level ≤ file.level ∧ xLock s p level = ({ s with lock := some s.lockOf }, .ok)) ∨
    (file.level < level ∧ file.level ≠ s.lockOf.strongest ∧ (s.lockOf.strongest ≥ lockPending ∨ level > lockShared) ∧
      xLock s p level = ({ s with lock := some s.lockOf }, .busy)) ∨
    (file.level < level ∧ (file.level = s.lockOf.strongest ∨ s.lockOf.strongest < lockPending ∧ level ≤ lockShared) ∧
      ((level = lockShared ∧ xLock s p level = ({ s.setOpen p (some { file with level := lockShared }) with
          lock := some { s.lockOf with shared := insert p s.lockOf.shared } }, .ok)) ∨
        (level = lockReserved ∧ xLock s p level =
          ({ s.setOpen p (some { file with level := lockReserved }) with lock := some { s.lockOf with reserved := p } }, .ok)) ∨
        (level ≠ lockShared ∧ level ≠ lockReserved ∧ (∃ holder ∈ s.lockOf.shared, holder ≠ p) ∧ xLock s p level =
          ({ s.setOpen p (some { file with level := lockPending }) with lock := some { s.lockOf with pending := p } }, .busy)) ∨
        (level ≠ lockShared ∧ level ≠ lockReserved ∧ (∀ holder ∈ s.lockOf.shared, holder = p) ∧ xLock s p level =
          ({ s.setOpen p (some { file with level := lockExclusive }) with
            lock := some { s.lockOf with pending := p, exclusive := p } }, .ok)))) := by
  unfold xLock
  rw [at_]
  simp only
  by_cases below : file.level ≥ level
  · exact Or.inl ⟨below, by rw [if_pos below]⟩
  · rw [if_neg below]
    have below := Nat.lt_of_not_le below
    by_cases blocked : file.level ≠ s.lockOf.strongest ∧ (s.lockOf.strongest ≥ lockPending ∨ level > lockShared)
    · exact Or.inr (Or.inl ⟨below, blocked.1, blocked.2, by rw [if_pos blocked]⟩)
    · rw [if_neg blocked]
      have free : file.level = s.lockOf.strongest ∨ s.lockOf.strongest < lockPending ∧ level ≤ lockShared := by omega
      refine Or.inr (Or.inr ⟨below, free, ?_⟩)
      by_cases shared : level = lockShared
      · exact Or.inl ⟨shared, by rw [if_pos shared]; rfl⟩
      · rw [if_neg shared]
        by_cases reserved : level = lockReserved
        · exact Or.inr (Or.inl ⟨reserved, by rw [if_pos reserved]; rfl⟩)
        · rw [if_neg reserved]
          by_cases waits : ∃ holder ∈ s.lockOf.shared, holder ≠ p
          · exact Or.inr (Or.inr (Or.inl ⟨shared, reserved, waits, by rw [if_pos waits]; rfl⟩))
          · refine Or.inr (Or.inr (Or.inr ⟨shared, reserved, fun holder member => ?_, by rw [if_neg waits]; rfl⟩))
            by_contra other
            exact waits ⟨holder, member, other⟩

namespace Sound

variable {s : State} {p : Pointer} {file : Open}

theorem xLock (sound : s.Sound) (at_ : s.opens p = some file) {level : Nat}
    (order : level = lockShared ∨ (level = lockReserved ∨ level = lockExclusive) ∧ lockShared ≤ file.level) : (xLock s p level).1.Sound := by
  have strongest := sound.lock.level_le_strongest
  have own := level_eq at_
  have one := sound.lock.one
  have some_ : p ≠ 0 := sound.nonzero p (by rw [at_]; exact Option.some_ne_none file)
  -- where the call is let through, no other connection's lock is more than shared
  have low : file.level < level → file.level = s.lockOf.strongest ∨ s.lockOf.strongest < lockPending ∧ level ≤ lockShared →
      level ≠ lockShared → lockShared ≤ file.level ∧ ∀ q, q ≠ p → s.level q ≤ lockShared := by
    intro below free more
    simp only [lockShared, lockReserved, lockPending, lockExclusive] at order free more one ⊢
    refine ⟨by omega, fun q other => ?_⟩
    have most := strongest q
    by_contra stronger
    exact other (one q p (by omega) (by omega))
  rcases xLock_cases at_ level with ⟨-, done⟩ | ⟨-, -, -, done⟩ | ⟨below, free, ⟨rfl, done⟩ | ⟨rfl, done⟩ | ⟨more, other, -, done⟩ | ⟨more, -, sole, done⟩⟩
  · rw [done]
    exact sound.made
  · rw [done]
    exact sound.made
  · rw [done]
    refine sound.relock at_ (sound.lock.share some_ ?_ fun q => ?_)
    · simp only [lockShared, lockNone] at below ⊢
      omega
    · have most := strongest q
      simp only [lockShared, lockPending] at *
      omega
  · rw [done]
    obtain ⟨least, others⟩ := low below free (by decide)
    refine sound.relock at_ (sound.lock.reserve ?_ fun q => ?_)
    · simp only [lockShared, lockReserved] at *
      omega
    · by_cases same : q = p
      · subst same
        simp only [lockShared, lockReserved] at *
        omega
      · exact others q same
  · rw [done]
    obtain ⟨least, others⟩ := low below free more
    refine sound.relock at_ (sound.lock.pend (by rwa [own]) ?_ others)
    simp only [lockShared, lockReserved, lockExclusive] at *
    omega
  · rw [done]
    obtain ⟨least, -⟩ := low below free more
    refine sound.relock at_ (sound.lock.exclude (by rwa [own]) fun q other => ?_)
    have outside := mt (sound.lock.shared q).mpr (mt (sole q) other)
    simp only [lockShared, lockNone] at *
    omega

theorem xUnlock (sound : s.Sound) (at_ : s.opens p = some file) {level : Nat} (order : level = lockNone ∨ level = lockShared) :
    (xUnlock s p level).1.Sound := by
  have own := level_eq at_
  unfold Sqlite.xUnlock
  rw [at_]
  simp only
  split
  · exact sound.made
  · rename_i above
    rcases order with rfl | rfl
    · rw [if_pos rfl]
      exact sound.relock at_ sound.lock.leave
    · rw [if_neg (by decide)]
      exact sound.relock at_ (sound.lock.lower (by rw [own]; omega))

theorem xShmMap (sound : s.Sound) (at_ : s.opens p = some file) (region : Nat) (extend : Bool) (allocs : List Pointer) :
    (xShmMap s p region extend allocs).1.Sound := by
  have there : s.opens p ≠ none := by rw [at_]; exact Option.some_ne_none file
  have some_ : p ≠ 0 := sound.nonzero p there
  have kept : ∀ regions, ({ s with
      shared := some { s.shared.getD {} with users := insert p (s.shared.getD {}).users, regions } } : State).Sound := by
    intro regions
    refine ⟨sound.lock, fun memory same => ?_, fun none_ => (by cases none_), sound.counted, sound.nonzero⟩
    obtain rfl := Option.some.inj same
    cases before : s.shared with
    | none => exact ⟨Shared.Agrees.first (sound.unshared before) some_ regions, fun q member => by
        obtain rfl := Finset.mem_singleton.mp member
        exact there⟩
    | some memory =>
      obtain ⟨agrees, open_⟩ := sound.memory memory before
      refine ⟨agrees.map some_ regions, fun q member => ?_⟩
      rcases Finset.mem_insert.mp member with rfl | member
      · exact there
      · exact open_ q member
  unfold Sqlite.xShmMap
  rw [at_]
  simp only
  split
  · exact kept _
  · split
    · exact kept _
    · exact kept _

theorem xShmLock (sound : s.Sound) (at_ : s.opens p = some file) (maps : s.Maps p) {offset n : Nat} (inside : offset + n ≤ shmLocks)
    (flags : ShmFlags) : (xShmLock s p offset n flags).1.Sound := by
  obtain ⟨memory, there, member⟩ := maps
  obtain ⟨agrees, open_⟩ := sound.memory memory there
  have own := held_eq at_
  have low : ∀ i ∈ slots offset n, i < shmLocks := fun i within => by
    rw [mem_slots] at within
    omega
  have put : ∀ later : Shared × BitVec 32, later.1.Agrees (Function.update s.held p later.2) → later.1.users = memory.users →
      ({ s.setOpen p (some { file with shmHeld := later.2 }) with shared := some later.1 } : State).Sound := by
    intro later agrees users
    refine sound.reshare at_ (fun memory' same => ?_) fun none_ => (by cases none_)
    obtain rfl := Option.some.inj same
    rw [users]
    exact ⟨agrees, open_⟩
  unfold Sqlite.xShmLock
  rw [at_, there]
  simp only
  rw [← own]
  split
  · exact put _ (agrees.unlock member (slots_nodup offset n) low) (unlockSlot_fold (slots_nodup offset n) low).1
  · split
    · exact sound
    · split
      · split
        · exact sound
        · rename_i free
          have unblocked : ∀ i ∈ slots offset n, shareBlocked memory p i = false := by simpa using free
          exact put _ (agrees.share member (slots_nodup offset n) low unblocked) (shareSlot_fold (slots_nodup offset n) low).1
      · split
        · exact sound
        · rename_i free
          have unblocked : ∀ i ∈ slots offset n, takeBlocked memory p (s.held p) i = false := by simpa using free
          exact put _ (agrees.take member low unblocked) (takeSlot_fold low).1

theorem xShmUnmap (sound : s.Sound) (at_ : s.opens p = some file) : (xShmUnmap s p).1.Sound := by
  have own := held_eq at_
  unfold Sqlite.xShmUnmap
  rw [at_]
  simp only
  split
  · exact sound
  · rename_i memory there
    obtain ⟨agrees, open_⟩ := sound.memory memory there
    obtain ⟨users, -, -⟩ := @dropSlot_fold (List.range shmLocks) p memory file.shmHeld List.nodup_range
    simp only [users]
    refine sound.reshare at_ (fun later same => ?_) fun none_ q => ?_
    · split at same
      · cases same
      · rename_i others
        obtain rfl := Option.some.inj same
        refine ⟨?_, fun q within => open_ q (Finset.mem_of_mem_erase within)⟩
        rw [← own]
        exact agrees.unmap (sound.nonzero p (by rw [at_]; exact Option.some_ne_none file)) (Finset.nonempty_iff_ne_empty.mpr others)
    · split at none_
      · rename_i last
        by_cases same : q = p
        · rw [same, Function.update_self]
        · rw [Function.update_of_ne same]
          refine agrees.outside q fun within => ?_
          have left := Finset.mem_erase.mpr ⟨same, within⟩
          rw [last] at left
          exact absurd left (Finset.notMem_empty q)
      · cases none_

/-- Every call in SQLite's order leaves the locks, the memory and the connections saying the same. -/
theorem call (sound : s.Sound) {c : Call} (follows : c.Follows s) : (s.call c).1.Sound := by
  cases c with
  | «open» pFile found => exact sound.xOpen follows.1 follows.2 found
  | close pFile removed => exact sound.xClose follows.2 removed
  | lock pFile level =>
    obtain ⟨file, at_, order⟩ := follows
    exact sound.xLock at_ order
  | unlock pFile level =>
    obtain ⟨⟨file, at_⟩, order⟩ := follows
    exact sound.xUnlock at_ order
  | shmMap pFile region extend allocs =>
    obtain ⟨file, at_⟩ := follows
    exact sound.xShmMap at_ region extend allocs
  | shmLock pFile offset n flags =>
    obtain ⟨⟨file, at_⟩, maps, inside⟩ := follows
    exact sound.xShmLock at_ maps inside flags
  | shmUnmap pFile =>
    obtain ⟨file, at_⟩ := follows
    exact sound.xShmUnmap at_

end Sound

end State

end Moe.Sqlite
