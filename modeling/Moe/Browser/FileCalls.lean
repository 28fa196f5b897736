import Moe.Browser.FileSteps

namespace Moe

open JsString

section

variable [Crypto]

/-- Each header a list of writes makes is of a sequence above every valid copy then on disk. -/
def Rising : (Nat → Bytes) → List PoolWrite → Prop
  | _, [] => True
  | disk, write :: rest => (∀ member copy part, write = .header member copy part → ∃ header, decode part = .ok (some header) ∧
      ∀ other copy' claim, copyAt (disk other) copy' = .ok (some claim) → claim.sequence < header.sequence) ∧ Rising (write.apply disk) rest

/-- The files a call stopped at any point leaves: each name its member's before the call, or each its member's after it, with its
identity and the data it had flushed. -/
structure Survives (s s' : Mounted) (disk : Nat → Bytes) : Prop where
  ok : DiskOk disk s'.sequence
  outside : ∀ id, s'.count ≤ id → disk id = []
  owners : (∀ name id, Owner disk name id ↔ s.names.get? name = some id) ∨ (∀ name id, Owner disk name id ↔ s'.names.get? name = some id)
  identity : ∀ name id, Owner disk name id → ∃ header, headerOf (disk id) = some header ∧ header.ino = (s'.members id).ino ∧
    header.birth = (s'.members id).birth
  data : ∀ name id, Owner disk name id → s.unflushed id = false → s'.unflushed id = false →
    (disk id).drop headerBytes = (s.disk id).drop headerBytes

/-- A call keeps what holds of the pool, at whatever write it is stopped. -/
structure Sustains {α : Type} (s : Mounted) (work : PoolWork α) : Prop where
  ok : (work.runs s).2.Ok
  survives : ∀ disk, Stopped s.disk (work.runs s).2.writes disk → Survives s (work.runs s).2 disk
  rising : Rising s.disk (work.runs s).2.writes

variable {s s' x : Mounted} {id : Nat} {names : List JsString} {part : Bytes} {name : JsString} {disk disk' : Nat → Bytes}
  {write : PoolWrite} {writes : List PoolWrite}

omit [Crypto] in
/-- Files each empty or as long as a header, one of them changed. -/
theorem files_update (files : ∀ id, disk id = [] ∨ headerBytes ≤ (disk id).length) {file : Bytes}
    (whole : file = [] ∨ headerBytes ≤ file.length) (other : Nat) :
    Function.update disk id file other = [] ∨ headerBytes ≤ (Function.update disk id file other).length := by
  obtain rfl | different := eq_or_ne other id
  · rwa [Function.update_self]
  · rw [Function.update_of_ne different]
    exact files other

theorem stopped_nil : Stopped disk [] disk' ↔ disk' = disk := by
  constructor
  · rintro ⟨⟩
    rfl
  · rintro rfl
    exact .before

theorem stopped_cons : Stopped disk (write :: writes) disk' ↔
    disk' = disk ∨ write.Torn disk disk' ∨ Stopped (write.apply disk) writes disk' := by
  constructor
  · rintro (_ | torn | after)
    · exact .inl rfl
    · exact .inr (.inl torn)
    · exact .inr (.inr after)
  · rintro (rfl | torn | after)
    · exact .before
    · exact .torn torn
    · exact .after after

/-- Files told by their headers as a pool's are, at a write between a call's first state and its last. -/
theorem Survives.of_held (held : x.Held) (ok : DiskOk disk s'.sequence) (outside : ∀ id, s'.count ≤ id → disk id = [])
    (heads : ∀ id, headerOf (disk id) = headerOf (x.disk id))
    (owners : (∀ name id, Owner x.disk name id ↔ s.names.get? name = some id) ∨
      (∀ name id, Owner x.disk name id ↔ s'.names.get? name = some id))
    (known : ∀ id, (x.members id).names ≠ [] → (s'.members id).ino = (x.members id).ino ∧ (s'.members id).birth = (x.members id).birth)
    (data : ∀ id, (x.members id).names ≠ [] → s.unflushed id = false → s'.unflushed id = false →
      (disk id).drop headerBytes = (s.disk id).drop headerBytes) : Survives s s' disk := by
  have claimed : ∀ name id, Owner disk name id → (x.members id).names ≠ [] := by
    intro name id own
    have member := (held.owner_iff.mp ((owner_congr heads name id).mp own)).1
    exact List.ne_nil_of_mem member
  refine ⟨ok, outside, ?_, fun name id own => ?_, fun name id own => data id (claimed name id own)⟩
  · simp only [owner_congr heads]
    exact owners
  · obtain ⟨ino, birth⟩ := known id (claimed name id own)
    obtain ⟨header, found, -, -⟩ := own
    have same := held.header_eq (heads id ▸ found)
    exact ⟨header, found, by rw [same, ino], by rw [same, birth]⟩

theorem DiskOk.mono {next next' : Nat} (ok : DiskOk disk next) (above : next ≤ next') : DiskOk disk next' := by
  refine ⟨ok.long, ok.reads, fun id copy header held => ?_, ok.apart⟩
  have sound := ok.sound id copy header held
  exact ⟨sound.positive, Nat.lt_of_lt_of_le sound.below above, sound.ino, sound.birth, sound.names, sound.fits⟩

/-- A call that writes nothing. -/
theorem Survives.quiet (ok : s.Ok) (above : s.sequence ≤ s'.sequence) (count : s'.count = s.count)
    (known : ∀ id, (s.members id).names ≠ [] → (s'.members id).ino = (s.members id).ino ∧ (s'.members id).birth = (s.members id).birth) :
    Survives s s' s.disk :=
  .of_held ok.held (ok.held.disk.mono above) (fun id out => (ok.held.outside id (count ▸ out)).1) (fun _ => rfl)
    (.inl fun _ _ => ok.owner_iff) known fun _ _ _ _ => rfl

/-- A header's write stopped: the files before it, or as it leaves them. -/
theorem Mounted.Writes.stopped (writes : s.Writes id names part) (held : s.Held)
    (stopped : Stopped s.disk [.header id (s.members id).copy.other part] disk) :
    DiskOk disk (s.sequence + 1) ∧ (∀ other, (disk other).drop headerBytes = (s.disk other).drop headerBytes) ∧
      (∀ other, s.count ≤ other → disk other = []) ∧
      ((∀ other, headerOf (disk other) = headerOf (s.disk other)) ∨
        ∀ other, headerOf (disk other) = headerOf ((s.written id names part).disk other)) := by
  have others : ∀ other, s.count ≤ other → ∀ file, Function.update s.disk id file other = [] := by
    intro other out file
    have different : other ≠ id := fun same => by
      subst same
      exact absurd writes.used.1 (Nat.not_lt.mpr out)
    rw [Function.update_of_ne different]
    exact (held.outside other out).1
  obtain rfl | torn | after := stopped_cons.mp stopped
  · exact ⟨held.disk.mono (Nat.le_succ _), fun _ => rfl, fun other out => (held.outside other out).1, .inl fun _ => rfl⟩
  · obtain ⟨ok, data, heads⟩ := writes.torn held torn
    obtain ⟨k, -⟩ := torn
    exact ⟨ok, data, fun other out => others other out _, heads⟩
  · obtain rfl := stopped_nil.mp after
    refine ⟨writes.disk_written held, fun other => ?_, fun other out => others other out _, .inr fun _ => rfl⟩
    simp only [PoolWrite.apply]
    obtain rfl | different := eq_or_ne other id
    · rw [Function.update_self, data_writeAt writes.long (Nat.le_of_eq (encode_length writes.encoded))]
    · rw [Function.update_of_ne different]

/-- Its sequence is above every valid copy's. -/
theorem Mounted.Writes.rising (writes : s.Writes id names part) (held : s.Held) :
    ∀ member copy part', PoolWrite.header id (s.members id).copy.other part = .header member copy part' → ∃ header,
      decode part' = .ok (some header) ∧
        ∀ other copy' claim, copyAt (s.disk other) copy' = .ok (some claim) → claim.sequence < header.sequence := by
  rintro member copy part' ⟨rfl, rfl, rfl⟩
  exact ⟨_, writes.decoded, fun other copy' claim held' => (held.disk.sound other copy' claim held').below⟩

theorem Mounted.Writes.files (writes : s.Writes id names part) (files : ∀ id, s.disk id = [] ∨ headerBytes ≤ (s.disk id).length) (other : Nat) :
    (s.written id names part).disk other = [] ∨ headerBytes ≤ ((s.written id names part).disk other).length :=
  files_update files (.inr (writes.written_long (Nat.le_of_eq (encode_length writes.encoded)))) other

omit [Crypto] in
theorem released_files (files : ∀ id, s.disk id = [] ∨ headerBytes ≤ (s.disk id).length) (other : Nat) :
    (s.released id).disk other = [] ∨ headerBytes ≤ ((s.released id).disk other).length :=
  files_update files (.inl (by simp [setLength])) other

theorem Mounted.Held.renamed (held : s.Held) (map : OrderedMap JsString Nat) : ({ s with names := map } : Mounted).Held :=
  ⟨held.disk, held.positive, held.outside, held.coherent, held.free, held.once⟩

theorem Mounted.Held.later (held : s.Held) (more : Nat) : ({ s with sequence := s.sequence + more } : Mounted).Held :=
  ⟨held.disk.mono (Nat.le_add_right _ _), Nat.lt_of_lt_of_le held.positive (Nat.le_add_right _ _), held.outside, held.coherent, held.free,
    held.once⟩

omit [Crypto] in
@[simp] theorem written_members_self : (s.written id names part).members id =
    { s.members id with names, sequence := s.sequence, copy := (s.members id).copy.other } := Function.update_self ..

omit [Crypto] in
theorem written_members (other : Nat) (different : other ≠ id) : (s.written id names part).members other = s.members other :=
  Function.update_of_ne different ..

omit [Crypto] in
@[simp] theorem released_members_self : (s.released id).members id =
    { s.members id with names := [], anonymous := false, opens := 0, sequence := 0, copy := .second } := Function.update_self ..

omit [Crypto] in
theorem released_members (other : Nat) (different : other ≠ id) : (s.released id).members other = s.members other :=
  Function.update_of_ne different ..

omit [Crypto] in
theorem written_known (other : Nat) : ((s.written id names part).members other).ino = (s.members other).ino ∧
    ((s.written id names part).members other).birth = (s.members other).birth := by
  obtain rfl | different := eq_or_ne other id
  · rw [written_members_self]
    exact ⟨rfl, rfl⟩
  · rw [written_members other different]
    exact ⟨rfl, rfl⟩

omit [Crypto] in
theorem released_known (other : Nat) : ((s.released id).members other).ino = (s.members other).ino ∧
    ((s.released id).members other).birth = (s.members other).birth := by
  obtain rfl | different := eq_or_ne other id
  · rw [released_members_self]
    exact ⟨rfl, rfl⟩
  · rw [released_members other different]
    exact ⟨rfl, rfl⟩

/-- One header written, and the names it leaves. -/
theorem Mounted.Ok.rewrites {α : Type} {work : PoolWork α} {r : Except HostFailure α} (ok : s.Ok) (empty : s.writes = [])
    (writes : s.Writes id names part) {m : OrderedMap JsString Nat} (run : work.runs s = (r, { s.written id names part with names := m }))
    (named : ({ s.written id names part with names := m } : Mounted).Named) : Sustains s work := by
  have held := writes.held ok.held
  have ok' : ({ s.written id names part with names := m } : Mounted).Ok := ⟨held.renamed m, named, writes.files ok.files⟩
  have list : ({ s.written id names part with names := m } : Mounted).writes = [.header id (s.members id).copy.other part] := by
    simp [Mounted.written, Mounted.setMember, Mounted.flushed, Mounted.perform, empty]
  refine ⟨by rw [run]; exact ok', fun disk stopped => ?_, ?_⟩
  · rw [run] at stopped ⊢
    simp only at stopped ⊢
    rw [list] at stopped
    obtain ⟨disk_, data, outside, heads | heads⟩ := writes.stopped ok.held stopped
    · exact .of_held ok.held disk_ outside heads (.inl fun _ _ => ok.owner_iff) (fun other _ => written_known other)
        fun other _ _ _ => data other
    · exact .of_held ok'.held disk_ outside heads (.inr fun _ _ => ok'.owner_iff) (fun other _ => ⟨rfl, rfl⟩)
        fun other _ _ _ => data other
  · rw [run]
    simp only
    rw [list]
    exact ⟨writes.rising ok.held, trivial⟩

/-- A member emptied, and the names it leaves. -/
theorem Mounted.Ok.empties {α : Type} {work : PoolWork α} {r : Except HostFailure α} (ok : s.Ok) (empty : s.writes = [])
    (inside : id < s.count) (used : id ∉ s.free) {m : OrderedMap JsString Nat}
    (run : work.runs s = (r, { s.released id with names := m }))
    (named : ({ s.released id with names := m } : Mounted).Named) : Sustains s work := by
  have held := ok.held.released inside used
  have ok' : ({ s.released id with names := m } : Mounted).Ok := ⟨held.renamed m, named, released_files ok.files⟩
  have list : ({ s.released id with names := m } : Mounted).writes = [.truncate id 0] := by
    simp [Mounted.released, Mounted.setMember, Mounted.flushed, Mounted.perform, empty]
  refine ⟨by rw [run]; exact ok', fun disk stopped => ?_, ?_⟩
  · rw [run] at stopped ⊢
    simp only at stopped ⊢
    rw [list] at stopped
    obtain rfl | torn | after := stopped_cons.mp stopped
    · exact .quiet ok (Nat.le_refl _) rfl fun other _ => released_known other
    · cases torn
    · obtain rfl := stopped_nil.mp after
      refine .of_held ok'.held ok'.held.disk (fun other out => (ok'.held.outside other out).1) (fun _ => rfl) (.inr fun _ _ => ok'.owner_iff)
        (fun other _ => ⟨rfl, rfl⟩) fun other some_ _ _ => ?_
      have different : other ≠ id := fun same => by
        subst same
        exact some_ (by simp)
      simp only [PoolWrite.apply, Function.update_of_ne different]
  · rw [run]
    simp only
    rw [list]
    exact ⟨fun _ _ _ same => (by cases same), trivial⟩

/-- A call that writes nothing and keeps what holds. -/
theorem Mounted.Ok.quiets {α : Type} {work : PoolWork α} {r : Except HostFailure α} (ok : s.Ok) (run : work.runs s = (r, s'))
    (ok' : s'.Ok) (none_ : s'.writes = []) (above : s.sequence ≤ s'.sequence) (count : s'.count = s.count)
    (known : ∀ id, (s.members id).names ≠ [] → (s'.members id).ino = (s.members id).ino ∧ (s'.members id).birth = (s.members id).birth) :
    Sustains s work := by
  refine ⟨by rw [run]; exact ok', fun disk stopped => ?_, by rw [run]; simp only; rw [none_]; trivial⟩
  rw [run] at stopped ⊢
  simp only at stopped ⊢
  rw [none_] at stopped
  rw [stopped_nil.mp stopped]
  exact .quiet ok above count known

/-- A call that leaves the pool as it was. -/
theorem Mounted.Ok.same {α : Type} {work : PoolWork α} {r : Except HostFailure α} (ok : s.Ok) (empty : s.writes = [])
    (run : work.runs s = (r, s)) : Sustains s work :=
  ok.quiets run ok empty (Nat.le_refl _) rfl fun _ _ => ⟨rfl, rfl⟩

omit [Crypto] in
theorem parentExists_runs (syscall : String) (name : JsString) : ∃ result, (parentExists syscall name).runs s = (result, s) := by
  simp only [parentExists, Work.runs_bind, Work.runs_get, Work.andThen]
  split
  · exact ⟨_, rfl⟩
  · split
    · exact ⟨_, rfl⟩
    · exact ⟨_, rfl⟩

/-- A member taken is free no more. -/
theorem Mounted.Held.taken (held : s.Held) (last : s.free.getLast? = some id) :
    ({ s with free := s.free.dropLast } : Mounted).Held ∧ id < s.count ∧ s.disk id = [] ∧ (s.members id).names = [] ∧
      (s.members id).copy = .second ∧ id ∉ s.free.dropLast := by
  have split_ := List.dropLast_append_getLast? id last
  have member : id ∈ s.free := split_ ▸ List.mem_append_right _ List.mem_cons_self
  obtain ⟨inside, blank, names, copy, -⟩ := held.free id member
  have once := held.once
  rw [← split_, List.nodup_append] at once
  refine ⟨⟨held.disk, held.positive, held.outside, held.coherent, fun other own => held.free other (List.dropLast_subset _ own),
    once.1⟩, inside, blank, names, copy, fun own => once.2.2 id own id List.mem_cons_self rfl⟩

/-- A member without a header, known otherwise. -/
theorem Mounted.Held.identified (held : s.Held) (id : Nat) (inside : id < s.count) (used : id ∉ s.free) (own : Member) (names : own.names = [])
    (none_ : newest (s.disk id) = .ok none) : (s.setMember id own).Held := by
  refine ⟨held.disk, held.positive, fun other out => ?_, fun other => ?_, fun other member => ?_, held.once⟩
  · have different : other ≠ id := fun same => by
      subst same
      exact absurd inside (Nat.not_lt.mpr out)
    exact ⟨(held.outside other out).1, (Function.update_of_ne different ..).trans (held.outside other out).2⟩
  · obtain rfl | different := eq_or_ne other id
    · exact .inr ⟨none_, by simpa [Mounted.setMember] using names⟩
    · simp only [Mounted.setMember, Function.update_of_ne different]
      exact held.coherent other
  · have different : other ≠ id := fun same => used (same ▸ member)
    simp only [Mounted.setMember, Function.update_of_ne different]
    exact held.free other member

/-- A free member made a file's: its identity known, its header's length set. -/
def Mounted.made (s : Mounted) (member ino now : Nat) : Mounted :=
  (({ s with free := s.free.dropLast } : Mounted).setMember member { s.members member with ino, birth := now * 1000000 }).perform
    (.truncate member headerBytes)

theorem Mounted.Ok.made (ok : s.Ok) (ino now : Nat) (last : s.free.getLast? = some id) : (s.made id ino now).Ok ∧ id < s.count ∧
    id ∉ s.free.dropLast ∧ (s.made id ino now).disk = Function.update s.disk id (List.replicate headerBytes 0) ∧
      (s.members id).names = [] ∧ s.disk id = [] := by
  obtain ⟨held, inside, blank, names, copy, used⟩ := ok.held.taken last
  have empty : newest (s.disk id) = .ok none := by
    rw [blank]
    exact newest_none Mounted.Held.copyAt_nil
  have known := held.identified id inside used { s.members id with ino, birth := now * 1000000 } names empty
  have zeros : setLength (s.disk id) headerBytes = List.replicate headerBytes 0 := by
    rw [blank, setLength, List.take_nil, List.nil_append, List.length_nil, Nat.sub_zero]
  have disk : (s.made id ino now).disk = Function.update s.disk id (List.replicate headerBytes 0) := by
    simp only [Mounted.made, Mounted.perform, PoolWrite.apply, Mounted.setMember, zeros]
  have whole : (s.made id ino now).Held := by
    have refiled := @Mounted.Held.refiled _ _ id known (List.replicate headerBytes 0) inside used
      (fun copy => by
        simp only [Mounted.setMember]
        rw [Mounted.Held.copyAt_zeros, blank, Mounted.Held.copyAt_nil])
      (.inr (Nat.le_of_eq List.length_replicate.symm)) (s.made id ino now).writes s.unflushed
    rw [Mounted.made, Mounted.perform] at *
    simp only [PoolWrite.apply, Mounted.setMember, zeros] at refiled ⊢
    exact refiled
  have files : ∀ other, (s.made id ino now).disk other = [] ∨ headerBytes ≤ ((s.made id ino now).disk other).length := by
    rw [disk]
    exact files_update ok.files (.inr (Nat.le_of_eq List.length_replicate.symm))
  refine ⟨⟨whole, fun name other => ?_, files⟩, inside, used, disk, names, blank⟩
  have kept : ((s.made id ino now).members other).names = (s.members other).names := by
    simp only [Mounted.made, Mounted.perform, Mounted.setMember]
    obtain rfl | different := eq_or_ne other id
    · rw [Function.update_self]
    · rw [Function.update_of_ne different]
  rw [kept]
  exact ok.named name other

end

end Moe
