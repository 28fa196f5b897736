import Moe.Browser.FileMounts

namespace Moe

open JsString

section

variable [Crypto]

/-- Files that name their members as a mount first found them: each name its member's, with its identity and its data. -/
structure Agrees (start : Mounted) (disk : Nat → Bytes) (next : Nat) : Prop where
  ok : DiskOk disk next
  outside : ∀ id, start.count ≤ id → disk id = []
  owners : ∀ name id, Owner disk name id ↔ Owner start.disk name id
  identity : ∀ name id, Owner disk name id → ∃ header, headerOf (disk id) = some header ∧ header.ino = (start.members id).ino ∧
    header.birth = (start.members id).birth
  data : ∀ name id, Owner disk name id → (disk id).drop headerBytes = (start.disk id).drop headerBytes

/-- A mount with the members `done` settled and those of `rest` as it read them. -/
structure Settling (start : Mounted) (done rest : List Nat) (s : Mounted) : Prop where
  held : s.Held
  count : s.count = start.count
  above : start.sequence ≤ s.sequence
  written : s.sequence ≤ start.sequence + done.length
  files : s.disk = s.writes.foldl PoolWrite.apply start.disk
  owners : ∀ name id, Owner s.disk name id ↔ Owner start.disk name id
  names : ∀ name id, s.names.get? name = some id ↔ id ∈ done ∧ name ∈ (s.members id).names
  settled : ∀ id ∈ done, ∀ name ∈ (s.members id).names, Owner s.disk name id
  waiting : ∀ id ∈ rest, id < s.count ∧ id ∉ s.free ∧ id ∉ done ∧ s.members id = start.members id
  all : ∀ id < s.count, id ∈ done ∨ id ∈ rest
  once : rest.Nodup
  order : rest.Pairwise fun a b => (start.members b).sequence ≤ (start.members a).sequence
  later : ∀ a ∈ done, ∀ b ∈ rest, (s.members a).names ≠ [] → (s.members b).sequence ≤ (s.members a).sequence
  freed : ∀ id ∈ done, (s.members id).names = [] → id ∈ s.free
  known : ∀ id, (s.members id).names ≠ [] → (s.members id).ino = (start.members id).ino ∧ (s.members id).birth = (start.members id).birth
  data : ∀ id, (s.members id).names ≠ [] → (s.disk id).drop headerBytes = (start.disk id).drop headerBytes
  flushed : ∀ id, s.unflushed id = false
  stops : ∀ disk, Stopped start.disk s.writes disk → Agrees start disk s.sequence
  rising : Rising start.disk s.writes

variable {start s s' : Mounted} {done rest : List Nat} {id next next' : Nat} {name : JsString} {disk disk' : Nat → Bytes}
  {write : PoolWrite} {writes : List PoolWrite} {part : Bytes}

/-- Writes stopped: in all but the last, or in the last. -/
theorem Stopped.concat (stopped : Stopped disk (writes ++ [write]) disk') :
    Stopped disk writes disk' ∨ Stopped (writes.foldl PoolWrite.apply disk) [write] disk' := by
  induction writes generalizing disk with
  | nil => exact .inr stopped
  | cons first others ih =>
    obtain rfl | torn | after := stopped_cons.mp stopped
    · exact .inl .before
    · exact .inl (.torn torn)
    · exact (ih after).imp .after id

theorem Rising.concat (rising : Rising disk writes) (last : Rising (writes.foldl PoolWrite.apply disk) [write]) :
    Rising disk (writes ++ [write]) := by
  induction writes generalizing disk with
  | nil => exact last
  | cons first others ih => exact ⟨rising.1, ih rising.2 last⟩

theorem Agrees.mono (agrees : Agrees start disk next) (above : next ≤ next') : Agrees start disk next' :=
  ⟨agrees.ok.mono above, agrees.outside, agrees.owners, agrees.identity, agrees.data⟩

/-- Files told by their headers as a pool's that names its members as the mount found them. -/
theorem Agrees.of_held (held : s.Held) (ok : DiskOk disk next) (outside : ∀ id, start.count ≤ id → disk id = [])
    (heads : ∀ id, headerOf (disk id) = headerOf (s.disk id)) (owners : ∀ name id, Owner s.disk name id ↔ Owner start.disk name id)
    (known : ∀ id, (s.members id).names ≠ [] → (s.members id).ino = (start.members id).ino ∧ (s.members id).birth = (start.members id).birth)
    (data : ∀ id, (s.members id).names ≠ [] → (disk id).drop headerBytes = (start.disk id).drop headerBytes) : Agrees start disk next := by
  have claimed : ∀ name id, Owner disk name id → (s.members id).names ≠ [] := by
    intro name id own
    exact List.ne_nil_of_mem (held.owner_iff.mp ((owner_congr heads name id).mp own)).1
  refine ⟨ok, outside, fun name id => (owner_congr heads name id).trans (owners name id), fun name id own => ?_,
    fun name id own => data id (claimed name id own)⟩
  obtain ⟨ino, birth⟩ := known id (claimed name id own)
  obtain ⟨header, found, -, -⟩ := own
  have same := held.header_eq (heads id ▸ found)
  exact ⟨header, found, by rw [same, ino], by rw [same, birth]⟩

/-- A member left with the names it owned: every name's owner stays. -/
theorem Mounted.Held.owner_settles (held : s.Held) (held' : s'.Held) (others : ∀ other, other ≠ id → s'.members other = s.members other)
    (own : ∀ name, name ∈ (s'.members id).names ↔ name ∈ (s.members id).names ∧ Owner s.disk name id)
    (later : (s'.members id).names ≠ [] → (s.members id).sequence ≤ (s'.members id).sequence) (other : Nat) :
    Owner s'.disk name other ↔ Owner s.disk name other := by
  constructor
  · intro owner
    obtain ⟨claims', top'⟩ := held'.owner_iff.mp owner
    obtain rfl | different := eq_or_ne other id
    · exact ((own name).mp claims').2
    · rw [others other different] at claims' top'
      obtain ⟨w, top⟩ := held.disk.exists_owner (held.header_some claims') claims'
      obtain ⟨claims, highest⟩ := held.owner_iff.mp top
      have above := highest other claims'
      have below : (s.members w).sequence ≤ (s.members other).sequence := by
        obtain rfl | different' := eq_or_ne w id
        · have stays := (own name).mpr ⟨claims, top⟩
          exact Nat.le_trans (later (List.ne_nil_of_mem stays)) (top' w stays)
        · have kept := top' w (by rw [others w different']; exact claims)
          rwa [others w different'] at kept
      have same := held.disk.member_eq (held.header_some claims) (held.header_some claims') (Nat.le_antisymm below above)
      exact same ▸ top
  · intro owner
    obtain ⟨claims, top⟩ := held.owner_iff.mp owner
    refine held'.owner_iff.mpr ⟨?_, fun w claims' => ?_⟩
    · obtain rfl | different := eq_or_ne other id
      · exact (own name).mpr ⟨claims, owner⟩
      · rw [others other different]
        exact claims
    · obtain rfl | different := eq_or_ne w id
      · have same := owner.unique held.disk ((own name).mp claims').2
        subst same
        exact Nat.le_refl _
      · rw [others w different] at claims' ⊢
        obtain rfl | different' := eq_or_ne other id
        · exact Nat.le_trans (top w claims') (later (List.ne_nil_of_mem ((own name).mpr ⟨claims, owner⟩)))
        · rw [others other different']
          exact top w claims'

/-- The names a member takes: of its own, those no member before it took. -/
def Mounted.kept (s : Mounted) (id : Nat) : List JsString := (s.members id).names.filter fun name => (s.names.get? name).isNone

namespace Settling

/-- A name no member before took is its own. -/
theorem takes (settling : Settling start done (id :: rest) s) (claims : name ∈ (s.members id).names) :
    s.names.get? name = none ↔ Owner s.disk name id := by
  obtain ⟨inside, unfree, undone, same⟩ := settling.waiting id List.mem_cons_self
  constructor
  · intro absent
    refine settling.held.owner_iff.mpr ⟨claims, fun other claims' => ?_⟩
    obtain taken | waits := settling.all other (settling.held.inside claims')
    · rw [(settling.names name other).mpr ⟨taken, claims'⟩] at absent
      cases absent
    · obtain rfl | later := List.mem_cons.mp waits
      · exact Nat.le_refl _
      · rw [same, (settling.waiting other waits).2.2.2]
        exact (List.pairwise_cons.mp settling.order).1 other later
  · intro owner
    cases found : s.names.get? name with
    | none => rfl
    | some other =>
      obtain ⟨taken, claims'⟩ := (settling.names name other).mp found
      have equal := owner.unique settling.held.disk (settling.settled other taken name claims')
      exact absurd (equal ▸ taken) undone

theorem mem_kept (settling : Settling start done (id :: rest) s) :
    name ∈ s.kept id ↔ name ∈ (s.members id).names ∧ Owner s.disk name id := by
  rw [Mounted.kept, List.mem_filter, Option.isNone_iff_eq_none]
  exact and_congr_right settling.takes

/-- A member settled: left with the names it takes, or emptied. -/
theorem advance (settling : Settling start done (id :: rest) s) (held' : s'.Held) (count : s'.count = s.count) (above : s.sequence ≤ s'.sequence)
    (written : s'.sequence ≤ s.sequence + 1) (files : s'.disk = s'.writes.foldl PoolWrite.apply start.disk)
    (others : ∀ other, other ≠ id → s'.members other = s.members other) (own : (s'.members id).names = s.kept id)
    (raised : s.kept id ≠ [] → (s.members id).sequence ≤ (s'.members id).sequence)
    (names : ∀ name other, s'.names.get? name = some other ↔ if name ∈ s.kept id then other = id else s.names.get? name = some other)
    (free : ∀ other, other ∈ s'.free ↔ other ∈ s.free ∨ other = id ∧ s.kept id = [])
    (known : (s'.members id).ino = (s.members id).ino ∧ (s'.members id).birth = (s.members id).birth)
    (data : ∀ other, (s'.members other).names ≠ [] → (s'.disk other).drop headerBytes = (s.disk other).drop headerBytes)
    (flushed : ∀ other, s'.unflushed other = false)
    (stops : (∀ name other, Owner s'.disk name other ↔ Owner start.disk name other) →
      (∀ other, (s'.members other).names ≠ [] → (s'.members other).ino = (start.members other).ino ∧
        (s'.members other).birth = (start.members other).birth) →
      (∀ other, (s'.members other).names ≠ [] → (s'.disk other).drop headerBytes = (start.disk other).drop headerBytes) →
      ∀ disk, Stopped start.disk s'.writes disk → Agrees start disk s'.sequence)
    (rising : Rising start.disk s'.writes) : Settling start (id :: done) rest s' := by
  obtain ⟨inside, unfree, undone, same⟩ := settling.waiting id List.mem_cons_self
  obtain ⟨absent, once⟩ := List.nodup_cons.mp settling.once
  obtain ⟨first, order⟩ := List.pairwise_cons.mp settling.order
  have fewer : ∀ other, (s'.members other).names ≠ [] → (s.members other).names ≠ [] := by
    intro other some_ none_
    obtain rfl | different := eq_or_ne other id
    · rw [own, Mounted.kept, none_] at some_
      exact some_ rfl
    · rw [others other different] at some_
      exact some_ none_
  have owners : ∀ name other, Owner s'.disk name other ↔ Owner start.disk name other := fun name other =>
    (settling.held.owner_settles held' others (fun name => by rw [own]; exact settling.mem_kept) (fun some_ => raised (own ▸ some_)) other).trans
      (settling.owners name other)
  have told : ∀ other, (s'.members other).names ≠ [] → (s'.members other).ino = (start.members other).ino ∧
      (s'.members other).birth = (start.members other).birth := by
    intro other some_
    have told := settling.known other (fewer other some_)
    obtain rfl | different := eq_or_ne other id
    · rw [known.1, known.2]
      exact told
    · rw [others other different]
      exact told
  have stays : ∀ other, (s'.members other).names ≠ [] → (s'.disk other).drop headerBytes = (start.disk other).drop headerBytes :=
    fun other some_ => (data other some_).trans (settling.data other (fewer other some_))
  refine ⟨held', count.trans settling.count, Nat.le_trans settling.above above, ?_, files, owners, fun name other => ?_, fun a taken name claims => ?_,
    fun b waits => ?_, fun other within => ?_, once, order, fun a taken b waits some_ => ?_, fun a taken none_ => ?_, told, stays, flushed,
    stops owners told stays, rising⟩
  · have bound := settling.written
    simp only [List.length_cons]
    omega
  · rw [names, List.mem_cons]
    by_cases takes : name ∈ s.kept id
    · rw [if_pos takes]
      constructor
      · rintro rfl
        exact ⟨.inl rfl, own ▸ takes⟩
      · rintro ⟨equal | taken, claims⟩
        · exact equal
        · refine by_contra fun different => ?_
          rw [others other different] at claims
          have absent := (settling.takes (settling.mem_kept.mp takes).1).mpr (settling.mem_kept.mp takes).2
          rw [(settling.names name other).mpr ⟨taken, claims⟩] at absent
          cases absent
    · rw [if_neg takes, settling.names]
      constructor
      · rintro ⟨taken, claims⟩
        have different : other ≠ id := fun equal => undone (equal ▸ taken)
        exact ⟨.inr taken, by rw [others other different]; exact claims⟩
      · rintro ⟨equal | taken, claims⟩
        · rw [equal, own] at claims
          exact absurd claims takes
        · have different : other ≠ id := fun equal => undone (equal ▸ taken)
          rw [others other different] at claims
          exact ⟨taken, claims⟩
  · have owns : Owner s.disk name a := by
      obtain rfl | taken := List.mem_cons.mp taken
      · rw [own] at claims
        exact (settling.mem_kept.mp claims).2
      · rw [others a fun equal => undone (equal ▸ taken)] at claims
        exact settling.settled a taken name claims
    rw [owners, ← settling.owners]
    exact owns
  · obtain ⟨inside', unfree', undone', same'⟩ := settling.waiting b (List.mem_cons_of_mem _ waits)
    have different : b ≠ id := fun equal => absent (equal ▸ waits)
    refine ⟨count ▸ inside', fun member => ?_, fun taken => ?_, by rw [others b different, same']⟩
    · obtain old | ⟨equal, -⟩ := (free b).mp member
      · exact unfree' old
      · exact different equal
    · obtain equal | taken := List.mem_cons.mp taken
      · exact different equal
      · exact undone' taken
  · obtain taken | waits := settling.all other (count ▸ within)
    · exact .inl (List.mem_cons_of_mem _ taken)
    · obtain equal | later := List.mem_cons.mp waits
      · exact .inl (equal ▸ List.mem_cons_self)
      · exact .inr later
  · have different : b ≠ id := fun equal => absent (equal ▸ waits)
    obtain ⟨-, -, -, same'⟩ := settling.waiting b (List.mem_cons_of_mem _ waits)
    obtain rfl | taken := List.mem_cons.mp taken
    · have below := first b waits
      rw [own] at some_
      have raised := raised some_
      rw [same] at raised
      rw [others b different, same']
      omega
    · have different' : a ≠ id := fun equal => undone (equal ▸ taken)
      rw [others a different'] at some_ ⊢
      rw [others b different]
      exact settling.later a taken b (List.mem_cons_of_mem _ waits) some_
  · refine (free a).mpr ?_
    obtain rfl | taken := List.mem_cons.mp taken
    · exact .inr ⟨rfl, own ▸ none_⟩
    · rw [others a fun equal => undone (equal ▸ taken)] at none_
      exact .inl (settling.freed a taken none_)

/-- The files as they are agree with the mount's first. -/
theorem agrees (settling : Settling start done rest s) : Agrees start s.disk s.sequence :=
  .of_held settling.held settling.held.disk (fun other out => (settling.held.outside other (settling.count ▸ out)).1) (fun _ => rfl)
    settling.owners settling.known settling.data

end Settling

omit [Crypto] in
/-- Names each set to one member. -/
theorem get?_foldl_set (names : List JsString) (map : OrderedMap JsString Nat) (name : JsString) (other : Nat) :
    OrderedMap.get? (names.foldl (fun map name => map.set name id) map) name = some other ↔
      if name ∈ names then other = id else map.get? name = some other := by
  induction names generalizing map with
  | nil => simp
  | cons first others ih =>
    simp only [List.foldl_cons, ih, List.mem_cons, OrderedMap.get?_set]
    by_cases later : name ∈ others
    · rw [if_pos later, if_pos (.inr later)]
    · rw [if_neg later]
      by_cases same : first = name
      · rw [if_pos same, if_pos (.inl same.symm), Option.some.injEq, eq_comm]
      · rw [if_neg same, if_neg (not_or.mpr ⟨Ne.symm same, later⟩)]

/-- A settled member's names in the map. -/
def Mounted.named (s : Mounted) (id : Nat) : Mounted :=
  { s with names := (s.kept id).foldl (fun map name => map.set name id) s.names }

theorem settleMember_runs : (settleMember id).runs s = (if s.kept id = [] then release id
    else if (s.kept id).length ≠ (s.members id).names.length then writeHeader id (s.kept id) else pure ()).runs (s.named id) := by
  simp only [settleMember, Work.runs_bind, Work.runs_get, Work.runs_modify, Work.andThen]
  rfl

/-- A mount's step: its next member settled. -/
theorem Settling.step (settling : Settling start done (id :: rest) s) (room : s.sequence < 2 ^ 64) :
    ∃ s', (settleMember id).runs s = (.ok (), s') ∧ Settling start (id :: done) rest s' := by
  obtain ⟨inside, unfree, undone, same⟩ := settling.waiting id List.mem_cons_self
  have names : ∀ name other, (s.named id).names.get? name = some other ↔ if name ∈ s.kept id then other = id
      else s.names.get? name = some other := get?_foldl_set _ _
  have held : (s.named id).Held := settling.held.renamed _
  rw [settleMember_runs]
  by_cases none_ : s.kept id = []
  · have held' := held.released inside unfree
    have files : ((s.named id).released id).disk = (s.writes ++ [PoolWrite.truncate id 0]).foldl PoolWrite.apply start.disk := by
      rw [List.foldl_append, ← settling.files]
      rfl
    refine ⟨_, by rw [if_pos none_, release_runs], settling.advance held' rfl (Nat.le_refl _) (Nat.le_succ _) files
      (fun other different => released_members other different) (by rw [released_members_self, none_]) (fun some_ => absurd none_ some_)
      names (fun other => ?_) (released_known id) (fun other some_ => ?_) (fun other => ?_) (fun owners known data d stopped => ?_)
      (settling.rising.concat ⟨fun _ _ _ same => (by cases same), trivial⟩)⟩
    · simp [Mounted.released, Mounted.named, none_]
    · have different : other ≠ id := fun equal => some_ (by rw [equal, released_members_self])
      simp [Mounted.released, Mounted.named, Mounted.setMember, Mounted.flushed, Mounted.perform, PoolWrite.apply,
        Function.update_of_ne different]
    · simp only [Mounted.released, Mounted.named, Mounted.setMember, Mounted.flushed, Mounted.perform]
      obtain rfl | different := eq_or_ne other id
      · rw [Function.update_self]
      · rw [Function.update_of_ne different]
        exact settling.flushed other
    · obtain before | last := stopped.concat
      · exact settling.stops d before
      · have last : Stopped s.disk [.truncate id 0] d := by
          rw [settling.files]
          exact last
        obtain rfl | torn | after := stopped_cons.mp last
        · exact settling.agrees
        · cases torn
        · obtain rfl := stopped_nil.mp after
          exact .of_held held' held'.disk (fun other out => (held'.outside other (settling.count ▸ out)).1) (fun _ => rfl) owners known data
  · rw [if_neg none_]
    obtain ⟨name, takes⟩ := List.exists_mem_of_ne_nil _ none_
    have claims := (settling.mem_kept.mp takes).1
    by_cases fewer : (s.kept id).length ≠ (s.members id).names.length
    · obtain ⟨part, writes⟩ := @Mounted.Held.lessens _ (s.named id) id name held claims room fun name => (s.names.get? name).isNone
      change (s.named id).Writes id (s.kept id) part at writes
      have held' := writes.held held
      have files : ((s.named id).written id (s.kept id) part).disk =
          (s.writes ++ [PoolWrite.header id (s.members id).copy.other part]).foldl PoolWrite.apply start.disk := by
        rw [List.foldl_append, ← settling.files]
        rfl
      obtain ⟨-, moved, -⟩ := writes.stopped held (.after .before)
      refine ⟨_, by rw [if_pos fewer, writeHeader_ok writes.encoded], settling.advance held' rfl (Nat.le_succ _) (Nat.le_refl _) files
        (fun other different => written_members other different) (by rw [written_members_self])
        (fun _ => by rw [written_members_self]; exact Nat.le_of_lt (held.sound claims).below) names (fun other => ?_) (written_known id)
        (fun other _ => moved other) (fun other => ?_) (fun owners known data d stopped => ?_) (settling.rising.concat ⟨?_, trivial⟩)⟩
      · simp [Mounted.written, Mounted.named, Mounted.setMember, Mounted.flushed, Mounted.perform, none_]
      · simp only [Mounted.written, Mounted.named, Mounted.setMember, Mounted.flushed, Mounted.perform]
        obtain rfl | different := eq_or_ne other id
        · rw [Function.update_self]
        · rw [Function.update_of_ne different]
          exact settling.flushed other
      · obtain before | last := stopped.concat
        · exact (settling.stops d before).mono (Nat.le_succ _)
        · have last : Stopped s.disk [.header id (s.members id).copy.other part] d := by
            rw [settling.files]
            exact last
          obtain ⟨disk, same_, outside, heads | heads⟩ := writes.stopped held last
          · exact .of_held settling.held disk (fun other out => outside other (settling.count ▸ out)) heads settling.owners settling.known
              fun other some_ => (same_ other).trans (settling.data other some_)
          · exact .of_held held' disk (fun other out => outside other (settling.count ▸ out)) heads owners known
              fun other some_ => (same_ other).trans ((moved other).symm.trans (data other some_))
      · have rises := writes.rising held
        rw [← settling.files]
        exact rises
    · refine ⟨_, by rw [if_neg fewer]; rfl, settling.advance held rfl (Nat.le_refl _) (Nat.le_succ _) settling.files (fun _ _ => rfl) ?_
        (fun _ => Nat.le_refl _) names (fun other => ?_) ⟨rfl, rfl⟩ (fun _ _ => rfl) settling.flushed (fun _ _ _ => settling.stops)
        settling.rising⟩
      · exact (List.filter_eq_self.mpr (List.length_filter_eq_length_iff.mp (not_not.mp fewer))).symm
      · simp [Mounted.named, none_]

end

end Moe

namespace Moe

open JsString

section

variable [Crypto]

/-- Files that name their members alike: each name one member's in both, with its identity and its data. -/
structure Alike (disk disk' : Nat → Bytes) : Prop where
  owners : ∀ name id, Owner disk' name id ↔ Owner disk name id
  identity : ∀ name id header, Owner disk name id → headerOf (disk id) = some header →
    ∃ header', headerOf (disk' id) = some header' ∧ header'.ino = header.ino ∧ header'.birth = header.birth
  data : ∀ name id, Owner disk name id → (disk' id).drop headerBytes = (disk id).drop headerBytes

/-- What a mount makes of a pool's files: each name its owner's on disk, every member without one free and empty. -/
structure Remounted (count : Nat) (disk : Nat → Bytes) (s : Mounted) : Prop where
  ok : s.Ok
  counted : s.count = count
  names : ∀ name id, s.names.get? name = some id ↔ Owner disk name id
  unnamed : ∀ id < count, (s.members id).names = [] → id ∈ s.free ∧ s.disk id = []
  alike : Alike disk s.disk
  flushed : ∀ id, s.unflushed id = false
  rising : Rising disk s.writes
  stops : ∀ disk', Stopped disk s.writes disk' → Unmounted count disk' s.sequence ∧ Alike disk disk'

variable {start s : Mounted} {done rest : List Nat} {count next : Nat} {disk disk' : Nat → Bytes}

/-- The members settled in turn. -/
theorem Settling.run (settling : Settling start done rest s) (room : start.sequence + (done.length + rest.length) ≤ 2 ^ 64) :
    ∃ s', (rest.forM settleMember).runs s = (.ok (), s') ∧ Settling start (rest.reverse ++ done) [] s' := by
  induction rest generalizing done s with
  | nil => exact ⟨s, rfl, settling⟩
  | cons id rest ih =>
    have bound := settling.written
    simp only [List.length_cons] at room
    obtain ⟨s', run, settling'⟩ := settling.step (by omega)
    obtain ⟨last, runs, settled⟩ := ih settling' (by simp only [List.length_cons]; omega)
    refine ⟨last, ?_, by simpa using settled⟩
    change Work.runs (settleMember id >>= fun _ => rest.forM settleMember) s = _
    rw [Work.runs_bind, run]
    exact runs

/-- A mount before any member is settled. -/
theorem Unmounted.settling (pool : Unmounted count disk next) {members : Nat → Member} (reads : Reads count disk members) :
    Settling (Moe.mountState count disk members) [] (mountOrder count members) (Moe.mountState count disk members) := by
  obtain ⟨perm, sorted⟩ := mountOrder_spec count members
  have held := pool.mountState reads
  refine ⟨held, rfl, Nat.le_refl _, Nat.le_refl _, rfl, fun _ _ => Iff.rfl, fun name id => ?_, fun id member => (by cases member),
    fun id member => ?_, fun id inside => .inr (perm.mem_iff.mpr (List.mem_range.mpr inside)), perm.nodup_iff.mpr List.nodup_range, sorted,
    fun id member => (by cases member), fun id member => (by cases member), fun _ _ => ⟨rfl, rfl⟩, fun _ _ => rfl, fun _ => rfl,
    fun d stopped => ?_, trivial⟩
  · exact ⟨fun own => (by cases own), fun own => (by cases own.1)⟩
  · exact ⟨List.mem_range.mp (perm.mem_iff.mp member), fun member => (by cases member), fun member => (by cases member), rfl⟩
  · obtain rfl := stopped_nil.mp stopped
    exact .of_held held held.disk (fun other out => (held.outside other out).1) (fun _ => rfl) (fun _ _ => Iff.rfl)
      (fun _ _ => ⟨rfl, rfl⟩) fun _ _ => rfl

/-- Files that agree with what a mount found name their members as the files it found. -/
theorem Agrees.alike (agrees : Agrees start disk next) (held : start.Held) : Alike start.disk disk := by
  refine ⟨agrees.owners, fun name id header own found => ?_, fun name id own => agrees.data name id ((agrees.owners name id).mpr own)⟩
  obtain ⟨header', found', ino, birth⟩ := agrees.identity name id ((agrees.owners name id).mpr own)
  obtain rfl := held.header_eq found
  exact ⟨header', found', ino, birth⟩

/-- A mount names each file as its files do, wherever it is stopped. -/
theorem Unmounted.mounts (pool : Unmounted count disk next) (room : MountRoom count disk) :
    ∃ s, mountFiles count disk = .ok (.ok (), s) ∧ Remounted count disk s := by
  obtain ⟨members, read, reads⟩ := pool.ok.mounts count
  have first := pool.settling reads
  have length : (mountOrder count members).length = count := by
    rw [(mountOrder_spec count members).1.length_eq, List.length_range]
  obtain ⟨s, run, settled⟩ := first.run (by
    have bound := room members read
    rw [length]
    simpa using bound)
  have all : ∀ id < count, id ∈ (mountOrder count members).reverse ++ [] := fun id inside =>
    (settled.all id (settled.count ▸ inside)).resolve_right (List.not_mem_nil)
  have named : s.Named := by
    intro name id
    rw [settled.names]
    refine and_iff_right_of_imp fun claims => all id ?_
    have inside := settled.held.inside claims
    rwa [settled.count] at inside
  have unnamed : ∀ id < count, (s.members id).names = [] → id ∈ s.free ∧ s.disk id = [] := by
    intro id inside none_
    have member := settled.freed id (all id inside) none_
    exact ⟨member, (settled.held.free id member).2.1⟩
  have ok : s.Ok := by
    refine ⟨settled.held, named, fun id => ?_⟩
    cases names : (s.members id).names with
    | nil =>
      by_cases inside : id < count
      · exact .inl (unnamed id inside names).2
      · exact .inl (settled.held.outside id (settled.count ▸ Nat.not_lt.mp inside)).1
    | cons name others => exact .inr (settled.held.long (names ▸ List.mem_cons_self))
  refine ⟨s, by simp only [mountFiles, read]; exact congrArg Except.ok run, ok, settled.count, fun name id => ?_, unnamed,
    settled.agrees.alike first.held, settled.flushed, settled.rising, fun d stopped => ?_⟩
  · rw [← ok.owner_iff, settled.owners]
    exact Iff.rfl
  · have agrees := settled.stops d stopped
    exact ⟨⟨agrees.ok, agrees.outside⟩, agrees.alike first.held⟩

end

end Moe
