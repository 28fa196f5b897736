import Moe.Browser.FilePool

namespace Moe

open JsString

section

variable [Crypto] {s s' m : Mounted} {id count next : Nat} {disk disk' : Nat → Bytes} {unflushed : Nat → Bool} {c : PoolCall}

/-- Data lost leaves every header copy. -/
theorem Lost.copies (lost : Lost unflushed disk disk') (id : Nat) (copy : Copy) : copyAt (disk' id) copy = copyAt (disk id) copy := by
  obtain same | ⟨-, same | ⟨blank, blank'⟩⟩ := lost id
  · rw [same]
  · exact copyAt_congr same
  · rw [blank copy, blank' copy]

theorem Lost.heads (lost : Lost unflushed disk disk') (id : Nat) : headerOf (disk' id) = headerOf (disk id) := by
  simp only [headerOf, newest, lost.copies]

theorem Lost.kept (lost : Lost unflushed disk disk') (flushed : unflushed id = false) : disk' id = disk id := by
  obtain same | ⟨risk, -⟩ := lost id
  · exact same
  · rw [flushed] at risk
    cases risk

theorem Lost.diskOk (lost : Lost unflushed disk disk') (ok : DiskOk disk next) : DiskOk disk' next := by
  refine ⟨fun id => ?_, fun id copy => ?_, fun id copy header held => ?_, fun a copy header b copy' header' held held' => ?_⟩
  · obtain same | ⟨-, same | ⟨-, blank⟩⟩ := lost id
    · rw [same]
      exact ok.long id
    · obtain blank | long := ok.long id
      · exact .inl fun copy => (copyAt_congr same).trans (blank copy)
      · have length := congrArg List.length same
        rw [List.length_take, List.length_take, Nat.min_eq_left long] at length
        exact .inr (by omega)
    · exact .inl blank
  · rw [lost.copies]
    exact ok.reads id copy
  · rw [lost.copies] at held
    exact ok.sound id copy header held
  · rw [lost.copies] at held held'
    exact ok.apart a copy header b copy' header' held held'

/-- A pool's files stopped in a call, the data not flushed lost, may be mounted. -/
theorem Survives.unmounted (survives : Survives s s' disk) (same : s'.count = s.count) (lost : Lost (atRisk s s') disk disk') :
    Unmounted s.count disk' s'.sequence := by
  refine ⟨lost.diskOk survives.ok, fun id out => ?_⟩
  have flushed : atRisk s s' id = false := by
    simp [atRisk, Nat.not_lt.mpr out]
  rw [lost.kept flushed]
  exact survives.outside id (same ▸ out)

theorem Alike.trans {disk'' : Nat → Bytes} (first : Alike disk disk') (second : Alike disk' disk'') : Alike disk disk'' := by
  refine ⟨fun name id => (second.owners name id).trans (first.owners name id), fun name id header own found => ?_, fun name id own => ?_⟩
  · obtain ⟨header', found', ino, birth⟩ := first.identity name id header own found
    obtain ⟨header'', found'', ino', birth'⟩ := second.identity name id header' ((first.owners name id).mpr own) found'
    exact ⟨header'', found'', ino'.trans ino, birth'.trans birth⟩
  · exact (second.data name id ((first.owners name id).mpr own)).trans (first.data name id own)

theorem Alike.refl (disk : Nat → Bytes) : Alike disk disk :=
  ⟨fun _ _ => Iff.rfl, fun _ _ header _ found => ⟨header, found, rfl, rfl⟩, fun _ _ _ => rfl⟩

/-- Any number of mounts, each stopped at any point. -/
inductive MountCrashes (count : Nat) : (Nat → Bytes) → (Nat → Bytes) → Prop
  | none {disk : Nat → Bytes} : MountCrashes count disk disk
  | crash {disk disk' disk'' : Nat → Bytes} {result : Except HostFailure Unit} {s : Mounted} : MountRoom count disk →
      mountFiles count disk = .ok (result, s) → Stopped disk s.writes disk' → MountCrashes count disk' disk'' → MountCrashes count disk disk''

/-- Mounts stopped leave files that name their members alike. -/
theorem MountCrashes.alike (crashes : MountCrashes count disk disk') (pool : Unmounted count disk next) :
    (∃ next', Unmounted count disk' next') ∧ Alike disk disk' := by
  induction crashes generalizing next with
  | none => exact ⟨⟨next, pool⟩, .refl _⟩
  | crash room mounted stopped others ih =>
    obtain ⟨m, run, remounted⟩ := pool.mounts room
    rw [run] at mounted
    obtain ⟨-, rfl⟩ := Prod.mk.inj (Except.ok.inj mounted)
    obtain ⟨pool', alike⟩ := remounted.stops _ stopped
    obtain ⟨last, alike'⟩ := ih pool'
    exact ⟨last, alike.trans alike'⟩

/-- What a mount finds of a pool stopped in a call that began at `s` and would have ended at `s'`. -/
structure Recovered (s s' m : Mounted) : Prop where
  count : m.count = s.count
  names : (∀ name, m.names.get? name = s.names.get? name) ∨ ∀ name, m.names.get? name = s'.names.get? name
  one : ∀ name id, m.names.get? name = some id ↔ name ∈ (m.members id).names
  identity : ∀ name id, m.names.get? name = some id →
    (m.members id).ino = (s'.members id).ino ∧ (m.members id).birth = (s'.members id).birth
  kept : ∀ name id, s.names.get? name = some id →
    (s'.members id).ino = (s.members id).ino ∧ (s'.members id).birth = (s.members id).birth
  data : ∀ name id, m.names.get? name = some id → s.unflushed id = false → s'.unflushed id = false →
    (m.disk id).drop headerBytes = (s.disk id).drop headerBytes
  whole : ∀ name id, m.names.get? name = some id → headerBytes ≤ (m.disk id).length
  spared : ∀ name name' id, s.names.get? name = some id → s'.names.get? name' = some id → headerBytes ≤ (m.disk id).length
  unnamed : ∀ id, id < m.count → (∀ name, m.names.get? name ≠ some id) → id ∈ m.free ∧ m.disk id = []

omit [Crypto] in
/-- Maps with the same files under each name. -/
theorem names_eq {a b : OrderedMap JsString Nat} (same : ∀ name id, a.get? name = some id ↔ b.get? name = some id) (name : JsString) :
    a.get? name = b.get? name := Option.ext fun id => same name id

theorem Survives.recovered {disk'' : Nat → Bytes} (survives : Survives s s' disk) (start : Survives s s' s.disk) (ok : s.Ok)
    (lost : Lost (atRisk s s') disk disk') (alike : Alike disk' disk'') (remounted : Remounted s.count disk'' m) : Recovered s s' m := by
  have owners : ∀ name id, m.names.get? name = some id ↔ Owner disk name id := fun name id =>
    ((remounted.names name id).trans (alike.owners name id)).trans (owner_congr lost.heads name id)
  have claims : ∀ name id, m.names.get? name = some id → name ∈ (m.members id).names := fun name id => (remounted.ok.named name id).mp
  refine ⟨remounted.counted, ?_, remounted.ok.named, fun name id found => ?_, fun name id found => ?_, fun name id found flushed flushed' => ?_,
    fun name id found => remounted.ok.held.long (claims name id found), fun name name' id before after => ?_, fun id inside none_ => ?_⟩
  · obtain before | after := survives.owners
    · exact .inl (names_eq fun name id => (owners name id).trans (before name id))
    · exact .inr (names_eq fun name id => (owners name id).trans (after name id))
  · obtain ⟨header, held, ino, birth⟩ := survives.identity name id ((owners name id).mp found)
    obtain ⟨header', held', ino', birth'⟩ := (alike.trans remounted.alike).identity name id header
      ((owner_congr lost.heads name id).mpr ((owners name id).mp found)) ((lost.heads id).trans held)
    obtain rfl := remounted.ok.held.header_eq held'
    exact ⟨ino'.trans ino, birth'.trans birth⟩
  · obtain ⟨header, held, ino, birth⟩ := start.identity name id (ok.owner_iff.mpr found)
    obtain rfl := ok.held.header_eq held
    exact ⟨ino.symm, birth.symm⟩
  · have own := (owners name id).mp found
    have safe : atRisk s s' id = false := by
      simp [atRisk, flushed, flushed']
    rw [(alike.trans remounted.alike).data name id ((owner_congr lost.heads name id).mpr own), lost.kept safe]
    exact survives.data name id own flushed flushed'
  · obtain same | same := survives.owners
    · exact remounted.ok.held.long (claims name id ((owners name id).mpr ((same name id).mpr before)))
    · exact remounted.ok.held.long (claims name' id ((owners name' id).mpr ((same name' id).mpr after)))
  · refine remounted.unnamed id (remounted.counted ▸ inside) ?_
    cases names : (m.members id).names with
    | nil => rfl
    | cons name others => exact absurd ((remounted.ok.named name id).mpr (names ▸ List.mem_cons_self)) (none_ name)

theorem Mounted.Ok.between (ok : s.Ok) : ({ s with writes := [] } : Mounted).Ok :=
  ⟨⟨ok.held.disk, ok.held.positive, ok.held.outside, ok.held.coherent, ok.held.free, ok.held.once⟩, ok.named, ok.files⟩

theorem Mounted.Ok.refilled (ok : s.Ok) : ({ s with count := s.count + 1, free := s.free ++ [s.count] } : Mounted).Ok := by
  obtain ⟨blank, known⟩ := ok.held.outside s.count (Nat.le_refl _)
  refine ⟨⟨ok.held.disk, ok.held.positive, fun id out => ok.held.outside id (Nat.le_of_succ_le out), ok.held.coherent, fun id member => ?_, ?_⟩,
    ok.named, ok.files⟩
  · obtain old | new := List.mem_append.mp member
    · obtain ⟨inside, rest⟩ := ok.held.free id old
      exact ⟨Nat.lt_succ_of_lt inside, rest⟩
    · obtain rfl := List.mem_singleton.mp new
      exact ⟨Nat.lt_succ_self _, blank, by rw [known], by rw [known], by rw [known]⟩
  · refine List.nodup_append.mpr ⟨ok.held.once, List.pairwise_singleton _ _, fun a member b last same => ?_⟩
    rw [same, List.mem_singleton.mp last] at member
    exact absurd (ok.held.free _ member).1 (Nat.lt_irrefl _)

/-- A step keeps what holds of a pool. -/
theorem PoolStep.ok {state state' : PoolState} {event : PoolEvent} (step : PoolStep state event state') (plain : event.Plain state)
    (ok : state.Ok) : state'.Ok := by
  cases step with
  | call meant =>
    have sustains := ok.1.sustains ok.2 meant plain
    exact ⟨sustains.ok.between, rfl⟩
  | refill => exact ⟨ok.1.refilled, ok.2⟩
  | directories => exact ⟨⟨⟨ok.1.held.disk, ok.1.held.positive, ok.1.held.outside, ok.1.held.coherent, ok.1.held.free, ok.1.held.once⟩,
      ok.1.named, ok.1.files⟩, ok.2⟩
  | crash meant stopped lost =>
    rename_i s c disk disk'
    have sustains := ok.1.sustains ok.2 meant plain
    exact ⟨_, (sustains.survives _ stopped).unmounted (c.keeps_count s) lost⟩
  | stop lost =>
    have survives : Survives _ _ _ := .quiet ok.1 (Nat.le_refl _) rfl fun _ _ => ⟨rfl, rfl⟩
    exact ⟨_, survives.unmounted rfl lost⟩
  | mount mounted =>
    obtain ⟨next, pool⟩ := ok
    obtain ⟨m, run, remounted⟩ := pool.mounts plain
    rw [run] at mounted
    obtain ⟨-, rfl⟩ := Prod.mk.inj (Except.ok.inj mounted)
    exact ⟨remounted.ok.between, rfl⟩
  | mountCrash mounted stopped =>
    obtain ⟨next, pool⟩ := ok
    obtain ⟨m, run, remounted⟩ := pool.mounts plain
    rw [run] at mounted
    obtain ⟨-, rfl⟩ := Prod.mk.inj (Except.ok.inj mounted)
    exact ⟨_, (remounted.stops _ stopped).1⟩

/-- What holds of a pool in every state it reaches. -/
theorem PoolRun.ok {state : PoolState} (run : PoolRun PoolEvent.Plain state) : state.Ok := by
  induction run with
  | start =>
    refine ⟨1, ⟨fun id => .inl Mounted.Held.copyAt_nil, fun id copy => ⟨_, Mounted.Held.copyAt_nil copy⟩, fun id copy header held => ?_,
      fun a copy header b copy' header' held => ?_⟩, fun _ _ => rfl⟩
    · rw [Mounted.Held.copyAt_nil] at held
      cases held
    · rw [Mounted.Held.copyAt_nil] at held
      cases held
  | step run plain step ih => exact step.ok plain ih

/-- The pool survives a crash at any point of any call: the next mount, whether or not mounts before it were stopped, finds the names just
before the call or just after it. -/
theorem pool_survives_crash (run : PoolRun PoolEvent.Plain (.mounted s)) (meant : c.Meant s) (plain : c.Plain s)
    (stopped : Stopped s.disk (c.after s).writes disk) (lost : Lost (atRisk s (c.after s)) disk disk') (room : MountRoom s.count disk') :
    Rising s.disk (c.after s).writes ∧ ∃ m, mountFiles s.count disk' = .ok (.ok (), m) ∧ Recovered s (c.after s) m ∧ Rising disk' m.writes ∧
      ∀ disk'', MountCrashes s.count disk' disk'' → MountRoom s.count disk'' → ∃ m', mountFiles s.count disk'' = .ok (.ok (), m') ∧
        Recovered s (c.after s) m' ∧ Rising disk'' m'.writes ∧ ∀ name, m'.names.get? name = m.names.get? name := by
  obtain ⟨ok, empty⟩ := run.ok
  have sustains := ok.sustains empty meant plain
  have survives := sustains.survives disk stopped
  have start := sustains.survives s.disk .before
  have pool := survives.unmounted (c.keeps_count s) lost
  obtain ⟨m, mounted, remounted⟩ := pool.mounts room
  refine ⟨sustains.rising, m, mounted, survives.recovered start ok lost (.refl _) remounted, remounted.rising, fun disk'' crashes room' => ?_⟩
  obtain ⟨⟨next', pool'⟩, alike⟩ := crashes.alike pool
  obtain ⟨m', mounted', remounted'⟩ := pool'.mounts room'
  refine ⟨m', mounted', survives.recovered start ok lost alike remounted', remounted'.rising, names_eq fun name id => ?_⟩
  rw [remounted'.names, alike.owners, remounted.names]

end

section

/-- A pool first mounted, with one member added. -/
def samplePool : Mounted where
  count := 1
  disk := fun _ => []
  unflushed := fun _ => false
  members := fun _ => {}
  free := [0]
  names := []
  directories := [[slash]]
  sequence := 1
  writes := []

/-- A name with a lone surrogate, and the one its header is read back as. -/
def sampleLone : JsString := [slash, 0xD800]

def sampleReplaced : JsString := [slash, 0xFFFD]

def sampleBody : Bytes := [0, 4, 0x2F, 0xEF, 0xBF, 0xBD]

def sampleMade (name : JsString) : PoolCall := .create name true 1 1

local instance filesCrypto : Crypto := sampleCrypto

def samplePart : Bytes :=
  let part := setLength (poolMagic ++ toBytes 8 1 ++ toBytes 8 1 ++ toBytes 8 1000000 ++ toBytes 2 1 ++ sampleBody) sumAt
  part ++ sha256 part

theorem samplePool_mounted : mountFiles 0 (fun _ => []) = .ok (.ok (), mountState 0 (fun _ => []) fun _ => {}) := by
  simp only [mountFiles, mountMembers, mountOrder, List.range_zero, List.mergeSort_nil]
  rfl

theorem samplePool_run {allowed : PoolState → PoolEvent → Prop} (mounts : allowed (.files 0 fun _ => []) .mount)
    (refills : ∀ s, allowed (.mounted s) .refill) : PoolRun allowed (.mounted samplePool) :=
  .step (.step .start mounts (.mount samplePool_mounted)) (refills _) .refill

theorem samplePool_plain : PoolRun PoolEvent.Plain (.mounted samplePool) := by
  refine samplePool_run (fun members read => ?_) fun _ => trivial
  obtain rfl := Except.ok.inj read
  exact (by decide : 1 + 0 ≤ 2 ^ 64)

theorem sampleMade_after {name : JsString} (run : (create name true 1 1).runs samplePool = Work.andThen (fun _ => do
      modify fun s => { s with names := s.names.set name 0 }
      return 0) ((writeHeader 0 [name]).runs (samplePool.made 0 1 1))) (fits : encodeNames 42 [name] = .ok sampleBody) :
    (sampleMade name).after samplePool =
      { (samplePool.made 0 1 1).written 0 [name] samplePart with names := [(name, 0)] } := by
  have encoded : encode ((samplePool.made 0 1 1).members 0).ino ((samplePool.made 0 1 1).members 0).birth [name] (samplePool.made 0 1 1).sequence =
      .ok samplePart := encode_eq_ok.mpr ⟨sampleBody, fits, rfl⟩
  rw [writeHeader_ok encoded] at run
  simp only [PoolCall.after, PoolCall.work, sampleMade, Work.runs_bind, run]
  rfl

theorem sampleLone_after : (sampleMade sampleLone).after samplePool =
    { (samplePool.made 0 1 1).written 0 [sampleLone] samplePart with names := [(sampleLone, 0)] } := sampleMade_after rfl rfl

theorem sampleReplaced_after : (sampleMade sampleReplaced).after samplePool =
    { (samplePool.made 0 1 1).written 0 [sampleReplaced] samplePart with names := [(sampleReplaced, 0)] } := sampleMade_after rfl rfl

theorem sampleReplaced_plain : (sampleMade sampleReplaced).Plain samplePool := ⟨by decide, by decide, by decide⟩

theorem sampleMade_meant (name : JsString) : (sampleMade name).Meant samplePool := (by decide : 1 < 2 ^ 48)

theorem sampleReplaced_stopped : Stopped samplePool.disk ((sampleMade sampleReplaced).after samplePool).writes
    ((sampleMade sampleReplaced).after samplePool).disk := by
  rw [sampleReplaced_after]
  exact .after (.after .before)

theorem sampleReplaced_unmounted : Unmounted 1 ((sampleMade sampleReplaced).after samplePool).disk 2 := by
  have survives := (samplePool_plain.ok.1.sustains rfl (sampleMade_meant _) sampleReplaced_plain).survives _ sampleReplaced_stopped
  have pool := survives.unmounted (PoolCall.keeps_count _ _) fun _ => .inl rfl
  rw [show ((sampleMade sampleReplaced).work.runs samplePool).2.sequence = 2 from congrArg Mounted.sequence sampleReplaced_after] at pool
  exact pool

theorem pool_survives_crash_sample : ∃ m, mountFiles 1 ((sampleMade sampleReplaced).after samplePool).disk = .ok (.ok (), m) ∧
    Recovered samplePool ((sampleMade sampleReplaced).after samplePool) m := by
  obtain ⟨-, m, mounted, recovered, -⟩ := pool_survives_crash samplePool_plain (sampleMade_meant _) sampleReplaced_plain sampleReplaced_stopped
    (fun _ => .inl rfl) (sampleReplaced_unmounted.room (by decide) (by decide))
  exact ⟨m, mounted, recovered⟩

/-- A name with a lone surrogate is not read back: a mount after its file's making finds it under another name. -/
theorem pool_renames_surrogate : ¬ ∀ (s m : Mounted) (c : PoolCall) (disk disk' : Nat → Bytes), PoolRun (fun _ _ => True) (.mounted s) →
    c.Meant s → Stopped s.disk (c.after s).writes disk → Lost (atRisk s (c.after s)) disk disk' → mountFiles s.count disk' = .ok (.ok (), m) →
      (∀ name, m.names.get? name = s.names.get? name) ∨ ∀ name, m.names.get? name = (c.after s).names.get? name := by
  intro all
  have files : ((sampleMade sampleLone).after samplePool).disk = ((sampleMade sampleReplaced).after samplePool).disk := by
    rw [sampleLone_after, sampleReplaced_after]
    rfl
  have stopped : Stopped samplePool.disk ((sampleMade sampleLone).after samplePool).writes ((sampleMade sampleLone).after samplePool).disk := by
    rw [sampleLone_after]
    exact .after (.after .before)
  obtain ⟨m, mounted, remounted⟩ := sampleReplaced_unmounted.mounts (sampleReplaced_unmounted.room (by decide) (by decide))
  have sustains := samplePool_plain.ok.1.sustains rfl (sampleMade_meant _) sampleReplaced_plain
  have found : m.names.get? sampleReplaced = some 0 := by
    refine (remounted.names _ _).mpr (sustains.ok.owner_iff.mpr ?_)
    change ((sampleMade sampleReplaced).after samplePool).names.get? sampleReplaced = some 0
    rw [sampleReplaced_after]
    rfl
  obtain before | after := all samplePool m (sampleMade sampleLone) _ _ (samplePool_run trivial fun _ => trivial) (sampleMade_meant _) stopped
    (fun _ => .inl rfl) (by rw [files]; exact mounted)
  · have none_ := before sampleReplaced
    rw [found] at none_
    cases none_
  · have none_ := after sampleReplaced
    rw [found, sampleLone_after] at none_
    exact absurd none_ (by decide)

end

end Moe
