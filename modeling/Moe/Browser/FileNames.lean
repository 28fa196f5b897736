import Moe.Browser.FileOperations

namespace Moe

open JsString

section

variable [Crypto] {s : Mounted} {id : Nat} {name path source target : JsString} {part : Bytes} {disk : Nat → Bytes}

/-- A name is one member's. -/
theorem Mounted.Ok.one (ok : s.Ok) {a b : Nat} (claims : name ∈ (s.members a).names) (claims' : name ∈ (s.members b).names) : a = b := by
  rw [← ok.named] at claims claims'
  exact Option.some.inj (claims.symm.trans claims')

/-- Names that fit a member's header may be written over it. -/
theorem Mounted.Held.rewritable (held : s.Held) (claims : name ∈ (s.members id).names) (room : s.sequence < 2 ^ 64) (names : List JsString)
    {body : Bytes} (named : ∀ name ∈ names, PoolName name) (fits : encodeNames 42 names = .ok body) : ∃ part, s.Writes id names part := by
  have sound := held.sound claims
  exact ⟨_, encode_eq_ok.mpr ⟨body, fits, rfl⟩, held.long claims, ⟨held.inside claims, held.not_free claims⟩, named, sound.ino, sound.birth,
    room⟩

/-- A member's header may be written with fewer names. -/
theorem Mounted.Held.lessens (held : s.Held) (claims : name ∈ (s.members id).names) (room : s.sequence < 2 ^ 64) (keep : JsString → Bool) :
    ∃ part, s.Writes id ((s.members id).names.filter keep) part := by
  have sound := held.sound claims
  obtain ⟨body, fits⟩ := sound.fits
  obtain ⟨less, fits'⟩ := encodeNames_filter keep (Nat.le_refl _) fits
  exact held.rewritable claims room _ (fun name member => sound.names name (List.mem_of_mem_filter member)) fits'

/-- A member that loses a name has its header written without it, or, left with none and held open by nothing, is emptied. -/
theorem Mounted.Held.loses (held : s.Held) (claims : name ∈ (s.members id).names) (room : s.sequence < 2 ^ 64) :
    (∃ part, s.Writes id ((s.members id).names.filter (· ≠ name)) part ∧
      (loseName id name).runs s = (.ok (), s.written id ((s.members id).names.filter (· ≠ name)) part)) ∨
      (s.members id).names.filter (· ≠ name) = [] ∧ (loseName id name).runs s = (.ok (), s.released id) := by
  have run : (loseName id name).runs s =
      (if (s.members id).names.filter (· ≠ name) ≠ [] ∨ 0 < (s.members id).opens then
        writeHeader id ((s.members id).names.filter (· ≠ name)) else release id).runs s := by
    simp only [loseName, Work.runs_bind, Work.runs_get, Work.andThen]
  by_cases stays : (s.members id).names.filter (· ≠ name) ≠ [] ∨ 0 < (s.members id).opens
  · obtain ⟨part, writes⟩ := held.lessens claims room (· ≠ name)
    rw [if_pos stays, writeHeader_ok writes.encoded] at run
    exact .inl ⟨part, writes, run⟩
  · rw [if_neg stays, release_runs] at run
    exact .inr ⟨not_not.mp fun some_ => stays (.inl some_), run⟩

theorem Mounted.Ok.unlink (ok : s.Ok) (empty : s.writes = []) (room : s.sequence < 2 ^ 64) (syscall : String) :
    Sustains s (unlink path syscall) := by
  cases found : s.names.get? (normal path) with
  | none => exact ok.same (r := .error (if s.isDirectory (normal path) then .system "EISDIR" syscall (normal path)
      "illegal operation on a directory" else .system "ENOENT" syscall (normal path) "no such file or directory")) empty (by
      simp only [Moe.unlink, Work.runs_bind, Work.runs_get, Work.andThen, found, Work.runs_throw])
  | some id =>
    have claims := (ok.named _ _).mp found
    have run : (Moe.unlink path syscall).runs s = Work.andThen (fun _ => modify fun s => { s with names := s.names.erase (normal path) })
        ((loseName id (normal path)).runs s) := by
      simp only [Moe.unlink, Work.runs_bind, Work.runs_get, Work.andThen, found]
    have erased : ∀ other name, OrderedMap.get? (s.names.erase (normal path)) name = some other ↔
        name ≠ normal path ∧ name ∈ (s.members other).names := by
      intro other name
      rw [OrderedMap.get?_erase, ← ok.named]
      split
      · rename_i same
        exact ⟨fun own => (by cases own), fun own => absurd same.symm own.1⟩
      · rename_i apart
        exact (and_iff_right (Ne.symm apart)).symm
    have elsewhere : ∀ other, other ≠ id → ∀ name, name ≠ normal path ∧ name ∈ (s.members other).names ↔ name ∈ (s.members other).names := by
      intro other different name
      refine and_iff_right_of_imp fun own same => different ?_
      subst same
      exact ok.one own claims
    obtain ⟨part, writes, lost⟩ | ⟨none_, lost⟩ := ok.held.loses claims room
    · rw [lost] at run
      refine ok.rewrites empty writes (m := s.names.erase (normal path)) run fun name other => ?_
      refine (erased other name).trans ?_
      obtain rfl | different := eq_or_ne other id
      · simp [and_comm]
      · simp only [written_members other different]
        exact elsewhere other different name
    · rw [lost] at run
      refine ok.empties empty (ok.held.inside claims) (ok.held.not_free claims) (m := s.names.erase (normal path)) run fun name other => ?_
      refine (erased other name).trans ?_
      obtain rfl | different := eq_or_ne other id
      · simp only [released_members_self]
        rw [← none_]
        simp [and_comm]
      · simp only [released_members other different]
        exact elsewhere other different name

theorem Mounted.Ok.link (ok : s.Ok) (empty : s.writes = []) (named : isWellFormed (normal target) = true) (room : s.sequence < 2 ^ 64) :
    Sustains s (link source target) := by
  cases found : s.names.get? (normal source) with
  | none => exact ok.same (r := .error (.system "ENOENT" "link" (normal source) "no such file or directory")) empty (by
      simp only [Moe.link, Work.runs_bind, Work.runs_get, Work.andThen, found, Work.runs_throw])
  | some id =>
    have claims := (ok.named _ _).mp found
    by_cases taken : ((s.names.get? (normal target)).isSome || s.isDirectory (normal target)) = true
    · exact ok.same (r := .error (.system "EEXIST" "link" (normal target) "file already exists")) empty (by
        simp only [Moe.link, Work.runs_bind, Work.runs_get, Work.andThen, found, if_pos taken]
        rfl)
    · have absent : s.names.get? (normal target) = none := by
        simp only [Bool.or_eq_true, not_or, Bool.not_eq_true, Option.isSome_eq_false_iff, Option.isNone_iff_eq_none] at taken
        exact taken.1
      obtain ⟨result, parent⟩ := parentExists_runs "link" (normal target) (s := s)
      cases result with
      | error failure => exact ok.same (r := .error failure) empty (by
          simp only [Moe.link, Work.runs_bind, Work.runs_get, Work.andThen, found, if_neg taken, parent])
      | ok _ =>
        have run : (Moe.link source target).runs s = Work.andThen
            (fun _ => modify fun s => { s with names := s.names.set (normal target) id })
            ((writeHeader id ((s.members id).names ++ [normal target])).runs s) := by
          simp only [Moe.link, Work.runs_bind, Work.runs_get, Work.andThen, found, if_neg taken, parent]
        cases encoded : encode (s.members id).ino (s.members id).birth ((s.members id).names ++ [normal target]) s.sequence with
        | error failure =>
          rw [writeHeader_error encoded] at run
          exact ok.quiets run ⟨ok.held.later 1, ok.named, ok.files⟩ empty (Nat.le_succ _) rfl fun _ _ => ⟨rfl, rfl⟩
        | ok part =>
          obtain ⟨body, fits, -⟩ := encode_eq_ok.mp encoded
          obtain ⟨part', writes⟩ := ok.held.rewritable claims room ((s.members id).names ++ [normal target]) (fun name member => by
            obtain own | new := List.mem_append.mp member
            · exact (ok.held.sound claims).names name own
            · obtain rfl := List.mem_singleton.mp new
              exact ⟨named, normal_head target⟩) fits
          rw [writeHeader_ok writes.encoded] at run
          refine ok.rewrites empty writes (m := s.names.set (normal target) id) run fun name other => ?_
          simp only [OrderedMap.get?_set]
          obtain rfl | different := eq_or_ne other id
          · rw [written_members_self, List.mem_append, List.mem_singleton]
            split
            · rename_i same
              exact ⟨fun _ => .inr same.symm, fun _ => rfl⟩
            · rename_i apart
              rw [ok.named]
              exact ⟨.inl, fun own => own.resolve_right (Ne.symm apart)⟩
          · rw [written_members other different, ← ok.named]
            split
            · rename_i same
              rw [← same, absent]
              exact ⟨fun own => absurd (Option.some.inj own).symm different, fun own => (by cases own)⟩
            · exact Iff.rfl

/-- A member's names with one of them given another. -/
def renamed (names : List JsString) (source target : JsString) : List JsString :=
  names.map fun name => if name = source then target else name

omit [Crypto] in
theorem mem_renamed {names : List JsString} (claims : source ∈ names) : name ∈ renamed names source target ↔
    name = target ∨ name ≠ source ∧ name ∈ names := by
  simp only [renamed, List.mem_map]
  constructor
  · rintro ⟨old, own, rfl⟩
    split
    · exact .inl rfl
    · rename_i apart
      exact .inr ⟨apart, own⟩
  · rintro (rfl | ⟨apart, own⟩)
    · exact ⟨source, claims, if_pos rfl⟩
    · exact ⟨name, own, if_neg apart⟩

/-- The names once a file's name is another: the new one its member's, the old one no one's. -/
theorem Mounted.Ok.names_renamed (ok : s.Ok) {other : Nat} : OrderedMap.get? ((s.names.erase source).set target id) name = some other ↔
    if name = target then other = id else name ≠ source ∧ name ∈ (s.members other).names := by
  rw [OrderedMap.get?_set, OrderedMap.get?_erase]
  by_cases same : target = name
  · rw [if_pos same, if_pos same.symm]
    exact ⟨fun own => (Option.some.inj own).symm, fun own => congrArg some own.symm⟩
  · rw [if_neg same, if_neg (Ne.symm same)]
    split
    · rename_i gone
      exact ⟨fun own => (by cases own), fun own => absurd gone.symm own.1⟩
    · rename_i stays
      rw [ok.named]
      exact (and_iff_right (Ne.symm stays)).symm

/-- The same names, told by the moved file's own. -/
theorem Mounted.Ok.owner_renamed (ok : s.Ok) (claims : source ∈ (s.members id).names) {other : Nat} :
    (if name = target then other = id else name ≠ source ∧ name ∈ (s.members other).names) ↔
      if name ∈ renamed (s.members id).names source target then other = id else other ≠ id ∧ name ∈ (s.members other).names := by
  by_cases same : name = target
  · rw [if_pos same, if_pos ((mem_renamed claims).mpr (.inl same))]
  · rw [if_neg same]
    by_cases moved : name ≠ source ∧ name ∈ (s.members id).names
    · rw [if_pos ((mem_renamed claims).mpr (.inr moved))]
      exact ⟨fun own => ok.one own.2 moved.2, fun own => own ▸ moved⟩
    · rw [if_neg fun member => moved (((mem_renamed claims).mp member).resolve_left same)]
      constructor
      · rintro ⟨stays, own⟩
        exact ⟨fun equal => moved ⟨stays, equal ▸ own⟩, own⟩
      · rintro ⟨different, own⟩
        exact ⟨fun gone => different (ok.one own (gone ▸ claims)), own⟩

/-- A moved file's names once its header is written: the file it replaces still has the new one. -/
theorem Mounted.Ok.moved (ok : s.Ok) (claims : source ∈ (s.members id).names) (apart : s.names.get? target ≠ some id) {other : Nat} :
    OrderedMap.get? ((s.names.erase source).set target id) name = some other ↔
      name ∈ ((s.written id (renamed (s.members id).names source target) part).members other).names ∧
        (name = target → s.names.get? target ≠ some other) := by
  rw [ok.names_renamed, ok.owner_renamed claims]
  obtain rfl | different := eq_or_ne other id
  · rw [written_members_self]
    simp only [ne_eq, not_true_eq_false, false_and]
    split
    · rename_i member
      exact ⟨fun _ => ⟨member, fun _ => apart⟩, fun _ => trivial⟩
    · rename_i lacks
      exact ⟨False.elim, fun own => lacks own.1⟩
  · rw [written_members other different]
    split
    · rename_i member
      refine ⟨fun same => absurd same different, fun own => ?_⟩
      obtain rfl | ⟨-, member⟩ := (mem_renamed claims).mp member
      · exact absurd ((ok.named _ _).mpr own.1) (own.2 rfl)
      · exact ok.one own.1 member
    · rename_i lacks
      exact ⟨fun own => ⟨own.2, fun same => absurd ((mem_renamed claims).mpr (.inl same)) lacks⟩, fun own => ⟨different, own.1⟩⟩

/-- What a rename does where it is not refused: the moved file's header, the map, then the file replaced. -/
theorem rename_runs (target : JsString) (found : s.names.get? (normal source) = some id) :
    (∃ result, (rename source target).runs s = (result, s)) ∨ s.names.get? (normal target) ≠ some id ∧
      (rename source target).runs s = Work.andThen (fun _ => do
        modify fun s => { s with names := (s.names.erase (normal source)).set (normal target) id }
        match s.names.get? (normal target) with
        | none => return
        | some old => loseName old (normal target))
        ((writeHeader id (renamed (s.members id).names (normal source) (normal target))).runs s) := by
  by_cases same : normal source = normal target
  · exact .inl ⟨.ok (), by
      simp only [rename, Work.runs_bind, Work.runs_get, Work.andThen, found, if_pos same]
      rfl⟩
  · by_cases directory : s.isDirectory (normal target) = true
    · exact .inl ⟨.error (.system "EISDIR" "rename" (normal target) "illegal operation on a directory"), by
        simp only [rename, Work.runs_bind, Work.runs_get, Work.andThen, found, if_neg same, if_pos directory]
        rfl⟩
    · obtain ⟨result, parent⟩ := parentExists_runs "rename" (normal target) (s := s)
      cases result with
      | error failure => exact .inl ⟨.error failure, by
          simp only [rename, Work.runs_bind, Work.runs_get, Work.andThen, found, if_neg same, if_neg directory, parent]⟩
      | ok _ =>
        by_cases both : s.names.get? (normal target) = some id
        · exact .inl ⟨.ok (), by
            simp only [rename, Work.runs_bind, Work.runs_get, Work.andThen, found, if_neg same, if_neg directory, parent, if_pos both]
            rfl⟩
        · refine .inr ⟨both, ?_⟩
          simp only [rename, Work.runs_bind, Work.runs_get, Work.andThen, found, if_neg same, if_neg directory, parent, if_neg both]
          rfl

/-- A call of two parts: a header's write, the names changed, then a part that survives wherever it is stopped. -/
theorem Mounted.Writes.sustains {α : Type} {work : PoolWork α} {result : Except HostFailure α} {names : List JsString} {s' : Mounted}
    {l : List PoolWrite} (writes : s.Writes id names part) (ok : s.Ok) (run : work.runs s = (result, s'))
    (ok' : s'.Ok) (above : s.sequence + 1 ≤ s'.sequence) (count : s'.count = s.count)
    (known : ∀ other, (s'.members other).ino = (s.members other).ino ∧ (s'.members other).birth = (s.members other).birth)
    (wrote : s'.writes = .header id (s.members id).copy.other part :: l)
    (owners : ∀ name other, Owner (s.written id names part).disk name other ↔ s'.names.get? name = some other)
    (survives : ∀ d, Stopped (s.written id names part).disk l d → Survives s s' d)
    (rising : Rising (s.written id names part).disk l) : Sustains s work := by
  have held := writes.held ok.held
  have first : ∀ d, Stopped s.disk [.header id (s.members id).copy.other part] d → Survives s s' d := by
    intro d stopped
    obtain ⟨disk, data, outside, heads | heads⟩ := writes.stopped ok.held stopped
    · exact .of_held ok.held (disk.mono above) (fun other out => outside other (count ▸ out)) heads (.inl fun _ _ => ok.owner_iff)
        (fun other _ => known other) fun other _ _ _ => data other
    · refine .of_held held (disk.mono above) (fun other out => outside other (count ▸ out)) heads (.inr owners) (fun other _ => ?_)
        fun other _ _ _ => data other
      rw [(known other).1, (known other).2, (written_known other).1, (written_known other).2]
      exact ⟨rfl, rfl⟩
  refine .of_run run ok' wrote (fun d stopped => ?_) ⟨writes.rising ok.held, rising⟩
  obtain rfl | torn | after := stopped_cons.mp stopped
  · exact first s.disk .before
  · exact first d (.torn torn)
  · exact survives d after

/-- A file replaced loses its name, the moved file owning it already. -/
theorem Mounted.Held.replaced (held : s.Held) (old : Nat) (name : JsString) (claims : name ∈ (s.members old).names) (room : s.sequence < 2 ^ 64)
    (named : ∀ path other, s.names.get? path = some other ↔ path ∈ (s.members other).names ∧ (path = name → other ≠ old))
    (owners : ∀ path other, Owner s.disk path other ↔ s.names.get? path = some other)
    (files : ∀ id, s.disk id = [] ∨ headerBytes ≤ (s.disk id).length) : ∃ s' later,
      (loseName old name).runs s = (.ok (), s') ∧ s'.Ok ∧ s'.names = s.names ∧ s.sequence ≤ s'.sequence ∧ s'.count = s.count ∧
        (∀ other, (s'.members other).ino = (s.members other).ino ∧ (s'.members other).birth = (s.members other).birth) ∧
        s'.writes = s.writes ++ later ∧ Rising s.disk later ∧
        ∀ start d, (∀ other, (s.disk other).drop headerBytes = (start.disk other).drop headerBytes) → Stopped s.disk later d →
          Survives start s' d := by
  obtain ⟨part, writes, lost⟩ | ⟨none_, lost⟩ := held.loses claims room
  · have held' := writes.held held
    have ok' : (s.written old ((s.members old).names.filter (· ≠ name)) part).Ok := by
      refine ⟨held', fun path other => (named path other).trans ?_, writes.files files⟩
      obtain rfl | different := eq_or_ne other old
      · simp
      · rw [written_members other different]
        exact and_iff_left fun _ => different
    refine ⟨_, [.header old (s.members old).copy.other part], lost, ok', rfl, Nat.le_succ _, rfl, written_known, rfl,
      ⟨writes.rising held, trivial⟩, fun start d same stopped => ?_⟩
    obtain ⟨disk, data, outside, heads | heads⟩ := writes.stopped held stopped
    · exact .of_held held disk outside heads (.inr owners) (fun other _ => written_known other)
        fun other _ _ _ => (data other).trans (same other)
    · exact .of_held held' disk outside heads (.inr fun _ _ => ok'.owner_iff) (fun other _ => ⟨rfl, rfl⟩)
        fun other _ _ _ => (data other).trans (same other)
  · have held' := held.released (held.inside claims) (held.not_free claims)
    have ok' : (s.released old).Ok := by
      refine ⟨held', fun path other => (named path other).trans ?_, released_files files⟩
      obtain rfl | different := eq_or_ne other old
      · rw [released_members_self]
        simp only
        rw [← none_]
        simp
      · rw [released_members other different]
        exact and_iff_left fun _ => different
    refine ⟨_, [.truncate old 0], lost, ok', rfl, Nat.le_refl _, rfl, released_known, rfl,
      ⟨fun _ _ _ same => (by cases same), trivial⟩, fun start d same stopped => ?_⟩
    obtain rfl | torn | after := stopped_cons.mp stopped
    · exact .of_held held held.disk (fun other out => (held.outside other out).1) (fun _ => rfl) (.inr owners)
        (fun other _ => released_known other) fun other _ _ _ => same other
    · cases torn
    · obtain rfl := stopped_nil.mp after
      refine .of_held held' held'.disk (fun other out => (held'.outside other out).1) (fun _ => rfl) (.inr fun _ _ => ok'.owner_iff)
        (fun other _ => ⟨rfl, rfl⟩) fun other some_ _ _ => ?_
      have different : other ≠ old := fun equal => by
        subst equal
        exact some_ (by simp)
      simp only [PoolWrite.apply, Function.update_of_ne different]
      exact same other

theorem Mounted.Ok.rename (ok : s.Ok) (empty : s.writes = []) (named : isWellFormed (normal target) = true) (room : s.sequence + 1 < 2 ^ 64) :
    Sustains s (rename source target) := by
  cases found : s.names.get? (normal source) with
  | none => exact ok.same (r := .error (.system "ENOENT" "rename" (normal source) "no such file or directory")) empty (by
      simp only [Moe.rename, Work.runs_bind, Work.runs_get, Work.andThen, found, Work.runs_throw])
  | some id =>
    have claims := (ok.named _ _).mp found
    obtain ⟨result, run⟩ | ⟨apart, run⟩ := rename_runs target found
    · exact ok.same empty run
    · cases encoded : encode (s.members id).ino (s.members id).birth (renamed (s.members id).names (normal source) (normal target)) s.sequence with
      | error failure =>
        rw [writeHeader_error encoded] at run
        exact ok.quiets run ⟨ok.held.later 1, ok.named, ok.files⟩ empty (Nat.le_succ _) rfl fun _ _ => ⟨rfl, rfl⟩
      | ok part =>
        obtain ⟨body, fits, -⟩ := encode_eq_ok.mp encoded
        obtain ⟨part, writes⟩ := ok.held.rewritable claims (by omega)
          (renamed (s.members id).names (normal source) (normal target)) (fun name member => by
          obtain rfl | ⟨-, own⟩ := (mem_renamed claims).mp member
          · exact ⟨named, normal_head target⟩
          · exact (ok.held.sound claims).names name own) fits
        rw [writeHeader_ok writes.encoded] at run
        have owners : ∀ name other, Owner (s.written id (renamed (s.members id).names (normal source) (normal target)) part).disk name other ↔
            OrderedMap.get? ((s.names.erase (normal source)).set (normal target) id) name = some other := by
          intro name other
          rw [writes.owner_written ok.held (fun name a b _ _ => ok.one) other, ok.names_renamed]
          exact (ok.owner_renamed claims).symm
        have named' : ∀ name other, OrderedMap.get? ((s.names.erase (normal source)).set (normal target) id) name = some other ↔
            name ∈ ((s.written id (renamed (s.members id).names (normal source) (normal target)) part).members other).names ∧
              (name = normal target → s.names.get? (normal target) ≠ some other) := fun _ _ => ok.moved claims apart
        have held := (writes.held ok.held).renamed ((s.names.erase (normal source)).set (normal target) id)
        cases replaced : s.names.get? (normal target) with
        | none =>
          simp only [replaced] at run
          refine ok.rewrites empty writes (m := (s.names.erase (normal source)).set (normal target) id) run fun name other => ?_
          refine (named' name other).trans (and_iff_left fun _ own => ?_)
          rw [replaced] at own
          cases own
        | some old =>
          have different : old ≠ id := fun same => apart (same ▸ replaced)
          have claims' : normal target ∈ (s.members old).names := (ok.named _ _).mp replaced
          simp only [replaced, Work.andThen, Work.runs_bind, Work.runs_modify] at run
          obtain ⟨s', later, lost, ok', names, above, count, known, wrote, rising, survives⟩ := held.replaced old (normal target)
            (by simp only [written_members old different]; exact claims') room
            (fun path other => (named' path other).trans (and_congr_right fun _ => imp_congr_right fun _ => by
              rw [replaced, ne_eq, Option.some.injEq]
              exact not_congr eq_comm)) owners (writes.files ok.files)
          refine writes.sustains ok (run.trans lost) ok' above count (fun other => ?_) (l := later) ?_ (fun name other => ?_)
            (fun d stopped => survives s d (fun other => ?_) stopped) rising
          · rw [(known other).1, (known other).2]
            exact written_known other
          · rw [wrote]
            simp [Mounted.written, Mounted.setMember, Mounted.flushed, Mounted.perform, empty]
          · rw [names]
            exact owners name other
          · obtain ⟨-, data, -⟩ := writes.stopped ok.held (.after .before)
            exact data other

end

end Moe
