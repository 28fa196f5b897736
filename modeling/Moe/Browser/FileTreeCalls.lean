import Moe.Browser.FileTree

namespace Moe

open JsString

/-- The names a pool has, and the directories made in it. -/
def Mounted.place (s : Mounted) : OrderedMap JsString Nat × List JsString := (s.names, s.directories)

/-- A call leaves the pool's names a tree, and, where it throws, the names and the directories as they were. -/
structure Places {α : Type} (s : Mounted) (work : PoolWork α) : Prop where
  placed : (work.runs s).2.Placed
  refused : ∀ failure, (work.runs s).1 = .error failure → (work.runs s).2.place = s.place

variable {α β : Type} {work : PoolWork α} {s s' : Mounted} {p q : List JsString} {path source target name : JsString} {id : Nat}

theorem Mounted.Placed.of_place (placed : s.Placed) (same : s'.place = s.place) : s'.Placed := by
  obtain ⟨names, directories⟩ := Prod.mk.inj same
  exact placed.congr (fun name => by rw [names]) (names ▸ placed.once) directories

theorem Places.same (placed : s.Placed) (kept : (work.runs s).2.place = s.place) : Places s work := ⟨placed.of_place kept, fun _ _ => kept⟩

/-- Calls that change no name. -/
theorem Places.of_keeps (placed : s.Placed) (kept : work.Keeps Mounted.place) : Places s work := .same placed (kept s)

theorem Places.of_run (placed : s.Placed) {result : Except HostFailure α} (run : work.runs s = (result, s)) : Places s work :=
  .same placed (by rw [run])

theorem Places.returns {value : α} (run : work.runs s = (.ok value, s')) (placed : s'.Placed) : Places s work := by
  refine ⟨by rw [run]; exact placed, fun failure thrown => ?_⟩
  rw [run] at thrown
  cases thrown

/-- A call whose value is left. -/
theorem Places.left (places : Places s work) : Places s (work >>= fun _ => (pure () : PoolWork Unit)) := by
  have same : ((work >>= fun _ => (pure () : PoolWork Unit)).runs s).2 = (work.runs s).2 ∧
      ∀ failure, ((work >>= fun _ => (pure () : PoolWork Unit)).runs s).1 = .error failure → (work.runs s).1 = .error failure := by
    rw [Work.runs_bind]
    obtain ⟨result, last⟩ := work.runs s
    cases result with
    | ok value => exact ⟨rfl, fun failure thrown => by cases thrown⟩
    | error thrown => exact ⟨rfl, fun failure same => by cases same; rfl⟩
  refine ⟨same.1 ▸ places.placed, fun failure thrown => ?_⟩
  rw [same.1]
  exact places.refused failure (same.2 failure thrown)

/-- A name's parent is a directory, or the call is refused. -/
theorem parentExists_cases (syscall : String) (name : JsString) :
    (∃ failure, (parentExists syscall name).runs s = (.error failure, s)) ∨
      (parentExists syscall name).runs s = (.ok (), s) ∧ s.isDirectory (dirname name) = true := by
  simp only [parentExists, Work.runs_bind, Work.runs_get, Work.andThen]
  split
  · exact .inl ⟨_, rfl⟩
  · split
    · exact .inl ⟨_, rfl⟩
    · rename_i directory
      exact .inr ⟨rfl, by simpa using directory⟩

section

variable [Crypto]

theorem writeHeader_place (member : Nat) (names : List JsString) : (writeHeader member names).Keeps Mounted.place :=
  .bind .get fun _ => .bind (.modify fun _ => rfl) fun _ => .bind .lift fun _ => .modify fun _ => rfl

theorem loseName_runs : (loseName id name).runs s =
    (if (s.members id).names.filter (· ≠ name) ≠ [] ∨ 0 < (s.members id).opens then
      writeHeader id ((s.members id).names.filter (· ≠ name)) else release id).runs s := by
  simp only [loseName, Work.runs_bind, Work.runs_get, Work.andThen]

/-- A member loses a name alike whatever was written before. -/
theorem loseName_after (fits : ∃ body, encodeNames 42 (s.members id).names = .ok body) (name : JsString) : ∃ t : Mounted,
    (loseName id name).runs { s with writes := [] } = (.ok (), t) ∧
      (loseName id name).runs s = (.ok (), { t with writes := s.writes ++ t.writes }) ∧
      t.disk = t.writes.foldl (fun disk write => write.apply disk) s.disk ∧ t.place = s.place ∧ t.count = s.count ∧
      t.sequence ≤ s.sequence + 1 := by
  rw [loseName_runs, loseName_runs]
  simp only
  split
  · obtain ⟨body, fits⟩ := fits
    obtain ⟨less, written⟩ := encodeNames_filter (· ≠ name) (Nat.le_refl 42) fits
    have encoded := fun sequence => @encode_eq_ok _ (s.members id).ino (s.members id).birth sequence _ _ |>.mpr ⟨less, written, rfl⟩
    rw [writeHeader_ok (encoded s.sequence), writeHeader_ok (s := { s with writes := [] }) (encoded s.sequence)]
    exact ⟨_, rfl, rfl, rfl, rfl, rfl, Nat.le_refl _⟩
  · rw [release_runs, release_runs]
    exact ⟨_, rfl, rfl, rfl, rfl, rfl, Nat.le_succ _⟩

/-- A member whose names fit loses one. -/
theorem loseName_ok (fits : ∃ body, encodeNames 42 (s.members id).names = .ok body) (name : JsString) :
    ∃ s', (loseName id name).runs s = (.ok (), s') ∧ s'.place = s.place := by
  obtain ⟨t, -, lost, -, place, -, -⟩ := loseName_after fits name
  exact ⟨_, lost, place⟩

theorem Mounted.Ok.fits (ok : s.Ok) (claims : name ∈ (s.members id).names) : ∃ body, encodeNames 42 (s.members id).names = .ok body :=
  (ok.held.sound claims).fits

omit [Crypto] in
/-- A file made where no directory is. -/
theorem Mounted.Placed.set (placed : s.Placed) (free : s.isDirectory (normal path) = false)
    (under : s.isDirectory (dirname (normal path)) = true) (names : s'.names = s.names.set (normal path) id)
    (directories : s'.directories = s.directories) : s'.Placed := by
  obtain ⟨p, clean, same⟩ := normal_eq path
  rw [same] at free under names
  refine placed.add clean free under (fun name => ?_) (names ▸ OrderedMap.set_keys_nodup placed.once _ _) directories
  rw [names, OrderedMap.get?_set]
  split
  · rename_i own
    exact ⟨fun _ => .inl own.symm, fun _ => rfl⟩
  · rename_i other
    exact ⟨.inr, fun either => either.resolve_left (Ne.symm other)⟩

theorem Mounted.Placed.create (placed : s.Placed) (path : JsString) (exclusive : Bool) (ino now : Nat) :
    Places s (create path exclusive ino now) := by
  cases found : s.names.get? (normal path) with
  | some there =>
    refine .same placed ?_
    cases exclusive <;> simp [Moe.create, Work.runs_bind, Work.andThen, found]
  | none =>
    by_cases directory : s.isDirectory (normal path) = true
    · refine .same placed ?_
      simp [Moe.create, Work.runs_bind, Work.andThen, found, directory]
    · obtain ⟨failure, parent⟩ | ⟨-, under⟩ := parentExists_cases "open" (normal path) (s := s)
      · refine .same placed ?_
        simp [Moe.create, Work.runs_bind, Work.andThen, found, directory, parent]
      · obtain ⟨failure, run⟩ | ⟨id, last, run⟩ := create_runs ino now exclusive found
        · exact .of_run placed run
        · have kept := writeHeader_place id [normal path] (s.made id ino now)
          cases wrote : (writeHeader id [normal path]).runs (s.made id ino now) with
          | mk result t =>
            rw [wrote] at run kept
            obtain ⟨names, directories⟩ := Prod.mk.inj kept
            cases result with
            | error failure => exact .same placed (by rw [run]; exact kept)
            | ok _ =>
              have named : t.names.set (normal path) id = s.names.set (normal path) id := congrArg (OrderedMap.set · (normal path) id) names
              exact .returns run (placed.set (by simpa using directory) under named directories)

/-- A second name given to a file. -/
theorem Mounted.Placed.link (placed : s.Placed) (source target : JsString) : Places s (link source target) := by
  cases found : s.names.get? (normal source) with
  | none => exact .same placed (by simp [Moe.link, Work.runs_bind, Work.andThen, found])
  | some id =>
    by_cases taken : ((s.names.get? (normal target)).isSome || s.isDirectory (normal target)) = true
    · have run : (Moe.link source target).runs s = (.error (.system "EEXIST" "link" (normal target) "file already exists"), s) := by
        simp only [Moe.link, Work.runs_bind, Work.runs_get, Work.andThen, found, if_pos taken]
        rfl
      exact .of_run placed run
    · obtain ⟨failure, parent⟩ | ⟨parent, under⟩ := parentExists_cases "link" (normal target) (s := s)
      · have run : (Moe.link source target).runs s = (.error failure, s) := by
          simp only [Moe.link, Work.runs_bind, Work.runs_get, Work.andThen, found, if_neg taken, parent]
        exact .of_run placed run
      · have run : (Moe.link source target).runs s = Work.andThen
            (fun _ => modify fun s => { s with names := s.names.set (normal target) id })
            ((writeHeader id ((s.members id).names ++ [normal target])).runs s) := by
          simp only [Moe.link, Work.runs_bind, Work.runs_get, Work.andThen, found, if_neg taken, parent]
        have kept := writeHeader_place id ((s.members id).names ++ [normal target]) s
        cases wrote : (writeHeader id ((s.members id).names ++ [normal target])).runs s with
        | mk result t =>
          rw [wrote] at run kept
          obtain ⟨names, directories⟩ := Prod.mk.inj kept
          cases result with
          | error failure => exact .same placed (by rw [run]; exact kept)
          | ok _ =>
            simp only [Bool.or_eq_true, not_or, Bool.not_eq_true] at taken
            have named : t.names.set (normal target) id = s.names.set (normal target) id :=
              congrArg (OrderedMap.set · (normal target) id) names
            exact .returns run (placed.set taken.2 under named directories)

/-- What an unlink leaves stands: all files but the one named. -/
def Mounted.Unlinks (s : Mounted) (path : JsString) : Prop :=
  Upheld (fun f => (s.names.get? f).isSome = true ∧ f ≠ normal path) (· ∈ s.directories)

/-- A rename likewise, the new name among the files. -/
def Mounted.Renames (s : Mounted) (source target : JsString) : Prop :=
  Upheld (fun f => f = normal target ∨ (s.names.get? f).isSome = true ∧ f ≠ normal source) (· ∈ s.directories)

/-- A directory's removal: what is neither it nor under it. -/
def Mounted.Prunes (s : Mounted) (path : JsString) : Prop :=
  Upheld (fun f => (s.names.get? f).isSome = true ∧ (below (normal path)).isPrefixOf f = false)
    fun d => d ∈ s.directories ∧ d ≠ normal path ∧ (below (normal path)).isPrefixOf d = false

omit [Crypto] in
theorem Mounted.Placed.erase (placed : s.Placed) (upheld : s.Unlinks path) (names : s'.names = s.names.erase (normal path))
    (directories : s'.directories = s.directories) : s'.Placed := by
  obtain ⟨p, clean, same⟩ := normal_eq path
  rw [Mounted.Unlinks, same] at upheld
  rw [same] at names
  refine placed.remove clean upheld (fun name => ?_) (names ▸ OrderedMap.erase_keys_nodup placed.once _) directories
  rw [names, OrderedMap.get?_erase]
  split
  · rename_i own
    exact ⟨fun present => (by cases present), fun both => absurd own.symm both.2⟩
  · rename_i other
    exact ⟨fun present => ⟨present, Ne.symm other⟩, And.left⟩

omit [Crypto] in
/-- A file moved where no directory is: its new name made, then its old one removed. -/
theorem Mounted.Placed.move (placed : s.Placed) (apart : normal source ≠ normal target) (free : s.isDirectory (normal target) = false)
    (under : s.isDirectory (dirname (normal target)) = true) (upheld : s.Renames source target)
    (names : s'.names = (s.names.erase (normal source)).set (normal target) id) (directories : s'.directories = s.directories) : s'.Placed := by
  have made : ({ s with names := s.names.set (normal target) id } : Mounted).Placed := placed.set free under rfl rfl
  have stays : ({ s with names := s.names.set (normal target) id } : Mounted).Unlinks source := by
    refine ⟨upheld.1, fun d own some_ => (upheld.2 d own some_).imp_right ?_⟩
    rintro ⟨f, stays, starts⟩
    refine ⟨f, ?_, starts⟩
    simp only [OrderedMap.get?_set]
    obtain rfl | ⟨present, other⟩ := stays
    · exact ⟨by simp, Ne.symm apart⟩
    · refine ⟨?_, other⟩
      split
      · rfl
      · exact present
  have moved : ({ s with names := (s.names.set (normal target) id).erase (normal source) } : Mounted).Placed := made.erase stays rfl rfl
  refine moved.congr (fun name => ?_) (names ▸ OrderedMap.set_keys_nodup (OrderedMap.erase_keys_nodup placed.once _) _ _) directories
  rw [names]
  simp only [OrderedMap.get?_set, OrderedMap.get?_erase]
  by_cases new : normal target = name
  · subst new
    rw [if_pos rfl, if_neg apart, if_pos rfl]
  · simp only [if_neg new]

theorem unlink_present (ok : s.Ok) (found : s.names.get? (normal path) = some id) (syscall : String) :
    ∃ t, (loseName id (normal path)).runs s = (.ok (), t) ∧ t.place = s.place ∧
      (unlink path syscall).runs s = (.ok (), { t with names := s.names.erase (normal path) }) := by
  obtain ⟨t, lost, kept⟩ := loseName_ok (ok.fits ((ok.named _ _).mp found)) (normal path)
  have names : t.names = s.names := (Prod.mk.inj kept).1
  refine ⟨t, lost, kept, ?_⟩
  simp only [unlink, Work.runs_bind, Work.runs_get, Work.andThen, found, lost, Work.runs_modify, names]

theorem Mounted.Placed.unlink (placed : s.Placed) (ok : s.Ok) (upheld : s.Unlinks path) (syscall : String) : Places s (unlink path syscall) := by
  cases found : s.names.get? (normal path) with
  | none => exact .same placed (by simp [Moe.unlink, Work.runs_bind, Work.andThen, found])
  | some id =>
    obtain ⟨t, -, kept, run⟩ := unlink_present ok found syscall
    exact .returns run (placed.erase upheld rfl (Prod.mk.inj kept).2)

theorem Mounted.Placed.rename (placed : s.Placed) (ok : s.Ok) (upheld : s.Renames source target) : Places s (rename source target) := by
  cases found : s.names.get? (normal source) with
  | none => exact .same placed (by simp [Moe.rename, Work.runs_bind, Work.andThen, found])
  | some id =>
    by_cases same : normal source = normal target
    · have run : (Moe.rename source target).runs s = (.ok (), s) := by
        simp only [Moe.rename, Work.runs_bind, Work.runs_get, Work.andThen, found, if_pos same]
        rfl
      exact .of_run placed run
    · by_cases directory : s.isDirectory (normal target) = true
      · have run : (Moe.rename source target).runs s =
            (.error (.system "EISDIR" "rename" (normal target) "illegal operation on a directory"), s) := by
          simp only [Moe.rename, Work.runs_bind, Work.runs_get, Work.andThen, found, if_neg same, if_pos directory]
          rfl
        exact .of_run placed run
      · obtain ⟨failure, parent⟩ | ⟨-, under⟩ := parentExists_cases "rename" (normal target) (s := s)
        · have run : (Moe.rename source target).runs s = (.error failure, s) := by
            simp only [Moe.rename, Work.runs_bind, Work.runs_get, Work.andThen, found, if_neg same, if_neg directory, parent]
          exact .of_run placed run
        · obtain ⟨result, run⟩ | ⟨apart, run⟩ := rename_runs target found
          · exact .of_run placed run
          · cases encoded : encode (s.members id).ino (s.members id).birth (renamed (s.members id).names (normal source) (normal target))
              s.sequence with
            | error failure =>
              rw [writeHeader_error encoded] at run
              exact .same placed (by rw [run]; rfl)
            | ok part =>
              rw [writeHeader_ok encoded] at run
              have moved : ∀ t : Mounted, t.place = ((s.names.erase (normal source)).set (normal target) id, s.directories) → t.Placed :=
                fun t place => placed.move same (by simpa using directory) under upheld (Prod.mk.inj place).1 (Prod.mk.inj place).2
              cases replaced : s.names.get? (normal target) with
              | none =>
                simp only [replaced] at run
                exact .returns run (moved _ rfl)
              | some old =>
                have different : old ≠ id := fun own => apart (own ▸ replaced)
                simp only [replaced, Work.andThen, Work.runs_bind, Work.runs_modify] at run
                obtain ⟨t, lost, kept⟩ := @loseName_ok { s.written id (renamed (s.members id).names (normal source) (normal target)) part with
                    names := (s.names.erase (normal source)).set (normal target) id } old _
                  (by simp only [written_members old different]; exact ok.fits ((ok.named _ _).mp replaced)) (normal target)
                exact .returns (run.trans lost) (moved t kept)

/-- What a call on the pool's files may remove leaves its directories standing. -/
def PoolCall.Steady (s : Mounted) : PoolCall → Prop
  | .unlink path _ => s.Unlinks path
  | .rename source target => s.Renames source target
  | _ => True

/-- A call on the pool's files leaves its names a tree. -/
theorem Mounted.Placed.call (placed : s.Placed) (ok : s.Ok) {c : PoolCall} (steady : c.Steady s) : Places s c.work := by
  cases c with
  | create path exclusive ino now => exact (placed.create path exclusive ino now).left
  | anonymous ino now =>
    refine .of_keeps placed (.bind (.bind (.bind .get fun start => ?_) fun member => .bind (.modify fun _ => rfl) fun _ => .pure) fun _ => .pure)
    split
    · exact .throw
    · exact .bind (.modify fun _ => rfl) fun _ => .pure
  | opened member => exact .of_keeps placed (.modify fun _ => rfl)
  | closed member =>
    refine .of_keeps placed (.bind (.modify fun _ => rfl) fun _ => .bind .get fun start => ?_)
    split
    · exact .modify fun _ => rfl
    · exact .pure
  | write member bytes at_ => exact .of_keeps placed (.modify fun _ => rfl)
  | truncate member length => exact .of_keeps placed (.modify fun _ => rfl)
  | flush member => exact .of_keeps placed (.modify fun _ => rfl)
  | unlink path syscall => exact placed.unlink ok steady syscall
  | link source target => exact placed.link source target
  | rename source target => exact placed.rename ok steady

end

end Moe
