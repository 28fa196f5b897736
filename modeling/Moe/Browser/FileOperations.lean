import Moe.Browser.FileCalls

namespace Moe

open JsString

section

variable [Crypto] {s x : Mounted} {id : Nat} {name path : JsString} {part : Bytes} {disk : Nat → Bytes}

/-- A call told by its last state and what it wrote. -/
theorem Sustains.of_run {α : Type} {work : PoolWork α} {r : Except HostFailure α} {s' : Mounted} {l : List PoolWrite}
    (run : work.runs s = (r, s')) (ok : s'.Ok) (wrote : s'.writes = l)
    (survives : ∀ disk, Stopped s.disk l disk → Survives s s' disk) (rising : Rising s.disk l) : Sustains s work := by
  subst wrote
  refine ⟨by rw [run]; exact ok, fun disk stopped => ?_, by rw [run]; exact rising⟩
  rw [run] at stopped ⊢
  exact survives disk stopped

omit [Crypto] in
theorem takeMember_none (none_ : s.free.getLast? = none) :
    (takeMember path).runs s = (.error (.system "ENOSPC" "open" path "no free file in the pool"), s) := by
  simp only [takeMember, Work.runs_bind, Work.runs_get, Work.andThen, none_]
  rfl

omit [Crypto] in
theorem takeMember_some (last : s.free.getLast? = some id) : (takeMember path).runs s = (.ok id, { s with free := s.free.dropLast }) := by
  simp only [takeMember, Work.runs_bind, Work.runs_get, Work.andThen, last]
  rfl

/-- A file made at a name no file has: a free member's header length set, then its header written. -/
theorem create_runs (ino now : Nat) (exclusive : Bool) (absent : s.names.get? (normal path) = none) :
    (∃ failure, (create path exclusive ino now).runs s = (.error failure, s)) ∨ ∃ id, s.free.getLast? = some id ∧
      (create path exclusive ino now).runs s = Work.andThen (fun _ => do
        modify fun s => { s with names := s.names.set (normal path) id }
        return id) ((writeHeader id [normal path]).runs (s.made id ino now)) := by
  simp only [create, Work.runs_bind, Work.runs_get, Work.andThen, absent]
  split
  · exact .inl ⟨_, rfl⟩
  · obtain ⟨result, same⟩ := parentExists_runs "open" (normal path) (s := s)
    simp only [Work.runs_bind, same]
    cases result with
    | error failure => exact .inl ⟨failure, rfl⟩
    | ok _ =>
      simp only [Work.andThen]
      cases last : s.free.getLast? with
      | none => exact .inl ⟨_, by rw [Work.runs_bind, takeMember_none last]; rfl⟩
      | some id =>
        refine .inr ⟨id, rfl, ?_⟩
        rw [Work.runs_bind, takeMember_some last]
        simp only [Work.andThen, Work.runs_bind, Work.runs_modify]
        rfl

/-- A member made a file's may be given its first header. -/
theorem Mounted.Ok.made_writes (ok : s.Ok) {ino now : Nat} (last : s.free.getLast? = some id) (named : PoolName name) (wide : ino < 2 ^ 64)
    (wide' : now * 1000000 < 2 ^ 64) (room : s.sequence < 2 ^ 64)
    (encoded : encode ((s.made id ino now).members id).ino ((s.made id ino now).members id).birth [name] (s.made id ino now).sequence =
      .ok part) : (s.made id ino now).Writes id [name] part := by
  obtain ⟨-, inside, used, disk, -, -⟩ := ok.made ino now last
  have own : (s.made id ino now).members id = { s.members id with ino, birth := now * 1000000 } := Function.update_self ..
  refine ⟨encoded, ?_, ⟨inside, used⟩, fun other member => ?_, ?_, ?_, room⟩
  · rw [disk, Function.update_self]
    exact Nat.le_of_eq List.length_replicate.symm
  · obtain rfl := List.mem_singleton.mp member
    exact named
  · rw [own]
    exact wide
  · rw [own]
    exact wide'

omit [Crypto] in
theorem made_members {ino now : Nat} (other : Nat) (different : other ≠ id) : (s.made id ino now).members other = s.members other :=
  Function.update_of_ne different ..

/-- What a file's making left of the pool before its header: a free member's length alone. -/
theorem Mounted.Ok.made_data (ok : s.Ok) (ino now : Nat) (last : s.free.getLast? = some id) (other : Nat) :
    ((s.made id ino now).disk other).drop headerBytes = (s.disk other).drop headerBytes := by
  obtain ⟨-, -, -, disk, -, blank⟩ := ok.made ino now last
  rw [disk]
  obtain rfl | different := eq_or_ne other id
  · rw [Function.update_self, blank, List.drop_replicate, Nat.sub_self, List.drop_nil]
    rfl
  · rw [Function.update_of_ne different]

theorem Mounted.Ok.made_known (ok : s.Ok) (ino now : Nat) (last : s.free.getLast? = some id) (other : Nat)
    (claims : (s.members other).names ≠ []) : (s.made id ino now).members other = s.members other := by
  obtain ⟨-, -, -, -, names, -⟩ := ok.made ino now last
  refine made_members other fun same => ?_
  subst same
  exact claims names

/-- A file's making stopped before its header's write. -/
theorem Mounted.Ok.made_survives (ok : s.Ok) (ino now : Nat) (last : s.free.getLast? = some id) {t : Mounted}
    (above : s.sequence ≤ t.sequence) (count : t.count = s.count)
    (known : ∀ other, (t.members other).ino = ((s.made id ino now).members other).ino ∧
      (t.members other).birth = ((s.made id ino now).members other).birth) :
    Survives s t s.disk ∧ Survives s t (s.made id ino now).disk := by
  obtain ⟨ok', -⟩ := ok.made ino now last
  refine ⟨.quiet ok above count fun other claims => ?_, ?_⟩
  · rw [(known other).1, (known other).2, ok.made_known ino now last other claims]
    exact ⟨rfl, rfl⟩
  · exact .of_held ok'.held (ok'.held.disk.mono above) (fun other out => (ok'.held.outside other (count ▸ out)).1) (fun _ => rfl)
      (.inl fun _ _ => ok'.owner_iff) (fun other _ => known other) fun other _ _ _ => ok.made_data ino now last other

/-- A file made: its header first written in its member's length. -/
theorem Mounted.Ok.create (ok : s.Ok) (empty : s.writes = []) {ino now : Nat} {exclusive : Bool}
    (named : isWellFormed (normal path) = true) (wide : ino < 2 ^ 64) (wide' : now * 1000000 < 2 ^ 64) (room : s.sequence < 2 ^ 64) :
    Sustains s (create path exclusive ino now) := by
  cases found : s.names.get? (normal path) with
  | some there =>
    cases exclusive with
    | true => exact ok.same (r := .error (.system "EEXIST" "open" (normal path) "file already exists")) empty (by
        simp only [Moe.create, Work.runs_bind, Work.runs_get, Work.andThen, found, if_true]
        rfl)
    | false => exact ok.same (r := .ok there) empty (by
        simp only [Moe.create, Work.runs_bind, Work.runs_get, Work.andThen, found]
        rfl)
  | none =>
    obtain ⟨failure, run⟩ | ⟨id, last, run⟩ := create_runs ino now exclusive found
    · exact ok.same empty run
    · obtain ⟨ok', inside, used, disk, names, blank⟩ := ok.made ino now last
      have list : (s.made id ino now).writes = [.truncate id headerBytes] := by
        simp [Mounted.made, Mounted.setMember, Mounted.perform, empty]
      have first : (PoolWrite.truncate id headerBytes).apply s.disk = (s.made id ino now).disk := rfl
      cases encoded : encode ((s.made id ino now).members id).ino ((s.made id ino now).members id).birth [normal path]
          (s.made id ino now).sequence with
      | error failure =>
        rw [writeHeader_error encoded] at run
        simp only [Work.andThen] at run
        obtain ⟨before, after⟩ := ok.made_survives ino now last
          (t := { s.made id ino now with sequence := (s.made id ino now).sequence + 1 }) (Nat.le_succ _) rfl fun _ => ⟨rfl, rfl⟩
        refine .of_run run ⟨ok'.held.later 1, ok'.named, ok'.files⟩ list (fun d stopped => ?_) ⟨fun _ _ _ same => (by cases same), trivial⟩
        obtain rfl | torn | later := stopped_cons.mp stopped
        · exact before
        · cases torn
        · obtain rfl := stopped_nil.mp later
          exact after
      | ok part =>
        have writes := ok.made_writes last ⟨named, normal_head path⟩ wide wide' room encoded
        have held := writes.held ok'.held
        rw [writeHeader_ok encoded] at run
        simp only [Work.andThen, Work.runs_bind, Work.runs_modify, Work.runs_pure] at run
        have last_ : Mounted.Ok { (s.made id ino now).written id [normal path] part with
            names := ((s.made id ino now).written id [normal path] part).names.set (normal path) id } := by
          refine ⟨held.renamed _, fun name other => ?_, writes.files ok'.files⟩
          have kept : ∀ name, s.names.get? name = some other ↔ name ∈ (s.members other).names := fun name => ok.named name other
          change OrderedMap.get? (s.names.set (normal path) id) name = some other ↔ name ∈ (((s.made id ino now).written id [normal path]
            part).members other).names
          rw [OrderedMap.get?_set]
          obtain rfl | different := eq_or_ne other id
          · rw [written_members_self, List.mem_singleton]
            split
            · rename_i same
              exact ⟨fun _ => same.symm, fun _ => rfl⟩
            · rename_i apart
              rw [kept, names]
              exact ⟨fun claims => (by cases claims), fun same => absurd same.symm apart⟩
          · rw [written_members other different, made_members other different, ← kept]
            split
            · rename_i same
              rw [← same, found]
              exact ⟨fun own => absurd (Option.some.inj own).symm different, fun own => (by cases own)⟩
            · exact Iff.rfl
        obtain ⟨before, after⟩ := ok.made_survives ino now last (t := { (s.made id ino now).written id [normal path] part with
            names := ((s.made id ino now).written id [normal path] part).names.set (normal path) id }) (Nat.le_succ _) rfl written_known
        refine .of_run run last_ (l := [.truncate id headerBytes, .header id ((s.made id ino now).members id).copy.other part]) ?_ ?_ ?_
        · simp [Mounted.written, Mounted.setMember, Mounted.flushed, Mounted.perform, list]
        · intro d stopped
          obtain rfl | torn | later := stopped_cons.mp stopped
          · exact before
          · cases torn
          · obtain ⟨disk_, data, outside, heads | heads⟩ := writes.stopped ok'.held later
            · exact .of_held ok'.held disk_ outside heads (.inl fun _ _ => ok'.owner_iff) (fun other _ => written_known other)
                fun other _ _ _ => (data other).trans (ok.made_data ino now last other)
            · exact .of_held last_.held disk_ outside heads (.inr fun _ _ => last_.owner_iff) (fun other _ => ⟨rfl, rfl⟩)
                fun other _ _ _ => (data other).trans (ok.made_data ino now last other)
        · exact ⟨fun _ _ _ same => (by cases same), writes.rising ok'.held, trivial⟩

/-- A member known otherwise in what its header does not hold. -/
theorem Mounted.Ok.counted (ok : s.Ok) (inside : id < s.count) (used : id ∉ s.free) (opens : Nat) :
    (s.setMember id { s.members id with opens } : Mounted).Ok := by
  have own : (s.setMember id { s.members id with opens } : Mounted).members id = { s.members id with opens } := Function.update_self ..
  have rest : ∀ other, other ≠ id → (s.setMember id { s.members id with opens } : Mounted).members other = s.members other :=
    fun other different => Function.update_of_ne different ..
  refine ⟨⟨ok.held.disk, ok.held.positive, fun other out => ?_, fun other => ?_, fun other member => ?_, ok.held.once⟩, fun name other => ?_, ok.files⟩
  · rw [rest other fun same => absurd inside (Nat.not_lt.mpr (same ▸ out))]
    exact ok.held.outside other out
  · obtain rfl | different := eq_or_ne other id
    · rw [own]
      exact ok.held.coherent other
    · rw [rest other different]
      exact ok.held.coherent other
  · rw [rest other fun same => used (same ▸ member)]
    exact ok.held.free other member
  · obtain rfl | different := eq_or_ne other id
    · rw [own]
      exact ok.named name other
    · rw [rest other different]
      exact ok.named name other

theorem Mounted.Ok.opened (ok : s.Ok) (empty : s.writes = []) (inside : id < s.count) (used : id ∉ s.free) :
    Sustains s (openedFile id) := by
  refine ok.quiets (show (openedFile id).runs s = (.ok (), s.setMember id { s.members id with opens := (s.members id).opens + 1 }) from rfl)
    (ok.counted inside used _) empty
    (Nat.le_refl _) rfl fun other _ => ?_
  obtain rfl | different := eq_or_ne other id
  · simp [Mounted.setMember]
  · simp [Mounted.setMember, Function.update_of_ne different]

/-- A call's start told by its files, its names and what it had flushed. -/
theorem Survives.start {s' : Mounted} (survives : Survives x s' disk) (names : x.names = s.names) (unflushed : x.unflushed = s.unflushed)
    (files : x.disk = s.disk) : Survives s s' disk := by
  obtain ⟨ok, outside, owners, identity, data⟩ := survives
  rw [names] at owners
  rw [unflushed, files] at data
  exact ⟨ok, outside, owners, identity, data⟩

theorem Mounted.Ok.closed (ok : s.Ok) (empty : s.writes = []) (inside : id < s.count) (used : id ∉ s.free) : Sustains s (closedFile id) := by
  have ok' := ok.counted inside used ((s.members id).opens - 1)
  have own : (s.setMember id { s.members id with opens := (s.members id).opens - 1 }).members id =
    { s.members id with opens := (s.members id).opens - 1 } := Function.update_self ..
  have run : (closedFile id).runs s = (if (s.members id).opens - 1 = 0 ∧ (s.members id).names = [] then release id else pure ()).runs
      (s.setMember id { s.members id with opens := (s.members id).opens - 1 }) := by
    simp only [closedFile, Work.runs_bind, Work.runs_modify, Work.runs_get, Work.andThen, own]
  by_cases last : (s.members id).opens - 1 = 0 ∧ (s.members id).names = []
  · rw [if_pos last] at run
    have released : Sustains (s.setMember id { s.members id with opens := (s.members id).opens - 1 }) (release id) := by
      refine ok'.empties (m := s.names) empty inside used release_runs fun name other => ?_
      obtain rfl | different := eq_or_ne other id
      · rw [ok.named]
        simp [last.2]
      · simp only [released_members other different]
        exact ok'.named name other
    exact .of_run run released.ok rfl (fun d stopped => (released.survives d stopped).start rfl rfl rfl) released.rising
  · rw [if_neg last] at run
    refine ok.quiets run ok' empty (Nat.le_refl _) rfl fun other _ => ?_
    obtain rfl | different := eq_or_ne other id
    · simp [Mounted.setMember]
    · simp [Mounted.setMember, Function.update_of_ne different]

theorem Mounted.Ok.anonymous (ok : s.Ok) (empty : s.writes = []) (ino now : Nat) : Sustains s (anonymousFile ino now) := by
  cases last : s.free.getLast? with
  | none => exact ok.same (r := .error (.system "ENOSPC" "open" ("(temporary)".toList.flatMap units) "no free file in the pool")) empty (by
      rw [anonymousFile, Work.runs_bind, takeMember_none last]
      rfl)
  | some id =>
    obtain ⟨held, inside, blank, names, -, used⟩ := ok.held.taken last
    have none_ : newest (s.disk id) = .ok none := by
      rw [blank]
      exact newest_none Mounted.Held.copyAt_nil
    have known := held.identified _ inside used { s.members id with anonymous := true, ino, birth := now * 1000000 } names none_
    refine ok.quiets (r := .ok id) (by
      rw [anonymousFile, Work.runs_bind, takeMember_some last]
      rfl) ⟨known, fun name other => ?_, ok.files⟩ empty (Nat.le_refl _) rfl fun other claims => ?_
    · obtain rfl | different := eq_or_ne other id
      · simp only [Mounted.setMember, Function.update_self]
        exact ok.named name other
      · simp only [Mounted.setMember, Function.update_of_ne different]
        exact ok.named name other
    · have different : other ≠ id := fun same => claims (same ▸ names)
      simp [Mounted.setMember, Function.update_of_ne different]

/-- A member's data changed, its header's copies read as they were at whatever byte the write is stopped. -/
theorem Mounted.Ok.refiles {α : Type} {work : PoolWork α} {r : Except HostFailure α} (ok : s.Ok) (empty : s.writes = [])
    (inside : id < s.count) (used : id ∉ s.free) {write : PoolWrite}
    (run : work.runs s = (r, { s.perform write with unflushed := Function.update s.unflushed id true }))
    (plain : ∀ member copy part, write ≠ .header member copy part)
    (stops : ∀ d, Stopped s.disk [write] d → ∃ file, d = Function.update s.disk id file ∧
      (∀ copy, copyAt file copy = copyAt (s.disk id) copy) ∧ (file = [] ∨ headerBytes ≤ file.length)) : Sustains s work := by
  have ok' : ({ s.perform write with unflushed := Function.update s.unflushed id true } : Mounted).Ok := by
    obtain ⟨file, disk, same, long⟩ := stops (write.apply s.disk) (.after .before)
    have held := ok.held.refiled inside used same long (s.perform write).writes (Function.update s.unflushed id true)
    have files : ∀ other, Function.update s.disk id file other = [] ∨ headerBytes ≤ (Function.update s.disk id file other).length :=
      files_update ok.files long
    rw [← disk] at held files
    exact ⟨held, ok.named, files⟩
  have list : ({ s.perform write with unflushed := Function.update s.unflushed id true } : Mounted).writes = [write] := by
    simp [Mounted.perform, empty]
  refine .of_run run ok' list (fun d stopped => ?_) ⟨fun member copy part same => absurd same (plain member copy part), trivial⟩
  obtain ⟨file, rfl, same, long⟩ := stops d stopped
  refine .of_held ok.held (ok.held.refiled inside used same long [] s.unflushed).disk (fun other out => ?_) (fun other => ?_)
    (.inl fun _ _ => ok.owner_iff) (fun _ _ => ⟨rfl, rfl⟩) fun other _ _ flushed => ?_
  · have different : other ≠ id := fun same => absurd inside (Nat.not_lt.mpr (same ▸ out))
    rw [Function.update_of_ne different]
    exact (ok.held.outside other out).1
  · obtain rfl | different := eq_or_ne other id
    · simp only [Function.update_self, headerOf, newest, same]
    · rw [Function.update_of_ne different]
  · obtain rfl | different := eq_or_ne other id
    · simp at flushed
    · rw [Function.update_of_ne different]

omit [Crypto] in
theorem writeAt_long (file : Bytes) (at_ : Nat) (bytes : Bytes) : at_ ≤ (writeAt file at_ bytes).length := by
  simp only [writeAt, List.length_append, List.length_take, List.length_replicate]
  omega

theorem Mounted.Ok.writes (ok : s.Ok) (empty : s.writes = []) (inside : id < s.count) (used : id ∉ s.free) (bytes : Bytes) (at_ : Nat) :
    Sustains s (writeFile id bytes at_) := by
  refine ok.refiles empty inside used rfl (fun _ _ _ same => (by cases same)) fun d stopped => ?_
  have written : ∀ bytes, ∃ file, Function.update s.disk id (writeAt (s.disk id) (headerBytes + at_) bytes) = Function.update s.disk id file ∧
      (∀ copy, copyAt file copy = copyAt (s.disk id) copy) ∧ (file = [] ∨ headerBytes ≤ file.length) := fun bytes =>
    ⟨_, rfl, Mounted.Held.copyAt_data (ok.files id) at_ bytes, .inr (Nat.le_trans (Nat.le_add_right _ _) (writeAt_long ..))⟩
  obtain rfl | torn | later := stopped_cons.mp stopped
  · exact ⟨s.disk id, (Function.update_eq_self _ _).symm, fun _ => rfl, ok.files id⟩
  · obtain ⟨k⟩ := torn
    exact written _
  · obtain rfl := stopped_nil.mp later
    exact written bytes

theorem Mounted.Ok.truncates (ok : s.Ok) (empty : s.writes = []) (inside : id < s.count) (used : id ∉ s.free) (length : Nat) :
    Sustains s (truncateFile id length) := by
  refine ok.refiles empty inside used rfl (fun _ _ _ same => (by cases same)) fun d stopped => ?_
  obtain rfl | torn | later := stopped_cons.mp stopped
  · exact ⟨s.disk id, (Function.update_eq_self _ _).symm, fun _ => rfl, ok.files id⟩
  · cases torn
  · obtain rfl := stopped_nil.mp later
    exact ⟨_, rfl, Mounted.Held.copyAt_cut (ok.files id) length, .inr (Nat.le_trans (Nat.le_add_right _ _) (Nat.le_of_eq (setLength_length ..).symm))⟩

theorem Mounted.Ok.flushes (ok : s.Ok) (empty : s.writes = []) (id : Nat) : Sustains s (flushFile id) :=
  ok.quiets (show (flushFile id).runs s = (.ok (), s.flushed id) from rfl) ⟨⟨ok.held.disk, ok.held.positive, ok.held.outside, ok.held.coherent, ok.held.free, ok.held.once⟩,
    ok.named, ok.files⟩ empty (Nat.le_refl _) rfl fun _ _ => ⟨rfl, rfl⟩

end

end Moe
