import Moe.Browser.FileTreeCalls

namespace Moe

open JsString

variable {s s' : Mounted} {p q : List JsString} {path name part : JsString} {id : Nat} {files : List JsString} {disk disk' : Nat → Bytes}

section Mkdir

/-- What a directory's making comes to: refused, the pool as it was, or the directory there, of what holds it, and no name changed. -/
theorem Mounted.Placed.mkdir (placed : s.Placed) (path : JsString) (recursive : Bool) :
    (∃ failure, (mkdir path recursive).runs s = (.error failure, s)) ∨ ∃ first t, (mkdir path recursive).runs s = (.ok first, t) ∧
      t.Placed ∧ t = { s with directories := t.directories } ∧ t.isDirectory (normal path) = true := by
  induction measured : (normal path).length using Nat.strongRecOn generalizing path recursive with
  | ind length ih =>
    subst measured
    rw [Moe.mkdir]
    by_cases file : (s.names.get? (normal path)).isSome = true
    · exact .inl ⟨.system "EEXIST" "mkdir" (normal path) "file already exists", by
        simp only [Work.runs_bind, Work.runs_get, Work.andThen, if_pos file]
        rfl⟩
    · by_cases directory : s.isDirectory (normal path) = true
      · cases recursive with
        | true => exact .inr ⟨none, s, by
            simp only [Work.runs_bind, Work.runs_get, Work.andThen, if_neg file, if_pos directory]
            rfl, placed, rfl, directory⟩
        | false => exact .inl ⟨.system "EEXIST" "mkdir" (normal path) "file already exists", by
            simp only [Work.runs_bind, Work.runs_get, Work.andThen, if_neg file, if_pos directory]
            rfl⟩
      · obtain ⟨p, clean, same⟩ := normal_eq path
        have root : normal path ≠ [slash] := by
          intro root
          refine directory ?_
          rw [root]
          exact (placed.isDirectory_iff (p := []) (by simp [Clean])).mpr placed.sound.root_directory
        -- once what holds it is a directory, the directory is recorded
        have made : ∀ t : Mounted, t.Placed → t = { s with directories := t.directories } → t.isDirectory (dirname (normal path)) = true →
            let last := { t with directories := if t.directories.contains (normal path) then t.directories
              else t.directories ++ [normal path] }
            last.Placed ∧ last = { s with directories := last.directories } ∧ last.isDirectory (normal path) = true := by
          intro t placed_ frame under last
          have member : ∀ d, d ∈ last.directories ↔ d = spelling p ∨ d ∈ t.directories := by
            intro d
            simp only [last, same]
            split
            · rename_i held
              exact ⟨.inr, fun either => either.elim (fun own => own ▸ List.contains_iff_mem.mp held) id⟩
            · rw [List.mem_append, List.mem_singleton, or_comm]
          have names : t.names = s.names := by rw [frame]
          refine ⟨placed_.record clean ?_ (fun _ => same ▸ under) rfl member, ?_, ?_⟩
          · rw [names, ← same]
            simpa using file
          · simp only [last]
            rw [frame]
          · rw [Mounted.isDirectory, Bool.or_eq_true, List.contains_iff_mem, same]
            exact .inl ((member _).mpr (.inl rfl))
        cases recursive with
        | true =>
          have above : normal (dirname (normal path)) = dirname (normal path) := by
            rw [same, dirname_spelling clean, normal_spelling (Clean.parent clean)]
          obtain ⟨failure, run⟩ | ⟨first, t, run, placed_, frame, under⟩ := ih _ (dirname_shorter root) (dirname (normal path)) true rfl
          · exact .inl ⟨failure, by
              simp only [Work.runs_bind, Work.runs_get, Work.andThen, if_neg file, if_neg directory, if_true, dif_neg root, run]⟩
          · rw [above] at under
            obtain ⟨last, frame', directory'⟩ := made t placed_ frame under
            exact .inr ⟨some (first.getD (normal path)), _, by
              simp only [Work.runs_bind, Work.runs_get, Work.andThen, if_neg file, if_neg directory, if_true, dif_neg root, run,
                Work.runs_modify, Work.runs_pure], last, frame', directory'⟩
        | false =>
          obtain ⟨failure, parent⟩ | ⟨parent, under⟩ := parentExists_cases "mkdir" (normal path) (s := s)
          · exact .inl ⟨failure, by
              simp only [Work.runs_bind, Work.runs_get, Work.andThen, if_neg file, if_neg directory, Bool.false_eq_true, if_false, parent]⟩
          · obtain ⟨last, frame', directory'⟩ := made s placed rfl under
            exact .inr ⟨some (normal path), _, by
              simp only [Work.runs_bind, Work.runs_get, Work.andThen, if_neg file, if_neg directory, Bool.false_eq_true, if_false, parent,
                Work.runs_pure, Work.runs_modify]
              rfl, last, frame', directory'⟩

end Mkdir

section Listing

theorem below_concat (clean : Clean p) (part : JsString) : below (spelling p) ++ part = spelling (p ++ [part]) := by
  rw [spelling_concat]
  by_cases root : p = []
  · subst root
    rfl
  · rw [below_spelling clean root, List.append_assoc, List.singleton_append]

/-- A path of a name under a directory is longer than the directory's and goes through it. -/
theorem starts_iff (clean : Clean p) (clean' : Clean q) :
    ((below (spelling p)).isPrefixOf (spelling q) && decide ((below (spelling p)).length < (spelling q).length)) = true ↔ p <+: q ∧ p ≠ q := by
  rw [Bool.and_eq_true, decide_eq_true_eq]
  by_cases root : q = []
  · subst root
    constructor
    · rintro ⟨-, longer⟩
      have some_ : 0 < (below (spelling p)).length := by
        unfold below
        split
        · decide
        · simp
      have short : (below (spelling p)).length < 1 := longer
      omega
    · rintro ⟨above, apart⟩
      exact absurd (List.prefix_nil.mp above) apart
  · rw [below_isPrefixOf clean clean' root]
    refine and_iff_left_of_imp fun ⟨above, apart⟩ => ?_
    have starts := List.isPrefixOf_iff_prefix.mp ((below_isPrefixOf clean clean' root).mpr ⟨above, apart⟩)
    refine Nat.lt_of_le_of_ne starts.length_le fun same => ?_
    have whole := starts.eq_of_length same
    have last := getLast?_spelling clean' root
    rw [← whole, below] at last
    split at last
    · exact last rfl
    · exact last List.getLast?_concat

theorem Mounted.Placed.mem_entries (placed : s.Placed) (clean : Clean p) :
    part ∈ s.entries (spelling p) ↔ ∃ q, (s.tree.file q ∨ s.tree.recorded q) ∧ p ++ [part] <+: q := by
  have after : ∀ {q}, Clean q → p ++ [part] <+: q → (((spelling q).drop (below (spelling p)).length).splitOn slash).head? = some part := by
    rintro q own ⟨rest, rfl⟩
    rw [List.append_assoc, List.singleton_append] at own ⊢
    exact part_after own
  rw [Mounted.entries, List.mem_dedup, List.mem_map]
  simp only [List.mem_filter]
  constructor
  · rintro ⟨file, ⟨member, starts⟩, rfl⟩
    obtain ⟨q, own, rfl, placed_⟩ : ∃ q, Clean q ∧ file = spelling q ∧ (s.tree.file q ∨ s.tree.recorded q) := by
      obtain name | directory := List.mem_append.mp member
      · have present := OrderedMap.get?_isSome_iff.mpr name
        obtain ⟨q, own, rfl⟩ := placed.named file present
        exact ⟨q, own, rfl, .inl ⟨own, present⟩⟩
      · obtain ⟨q, own, rfl⟩ := placed.made file directory
        exact ⟨q, own, rfl, .inr ⟨own, directory⟩⟩
    obtain ⟨⟨rest, rfl⟩, apart⟩ := (starts_iff clean own).mp starts
    cases rest with
    | nil => exact absurd (List.append_nil p).symm apart
    | cons part rest =>
      rw [part_after own]
      exact ⟨_, placed_, rest, by simp⟩
  · rintro ⟨q, placed_, through⟩
    have own : Clean q := placed_.elim And.left And.left
    have above : p <+: q ∧ p ≠ q := by
      refine ⟨(List.prefix_append p [part]).trans through, fun same => ?_⟩
      have length := through.length_le
      rw [← same, List.length_append, List.length_singleton] at length
      omega
    refine ⟨spelling q, ⟨?_, (starts_iff clean own).mpr above⟩, by rw [after own through]; rfl⟩
    rw [List.mem_append]
    exact placed_.imp (fun file => OrderedMap.get?_isSome_iff.mp file.2) And.right

/-- The names a directory lists. -/
theorem Mounted.Placed.list (placed : s.Placed) (directory : s.isDirectory (normal path) = true) :
    ∃ entries, (list path).runs s = (.ok entries, s) ∧ entries.Pairwise (· < ·) ∧ ∀ part, part ∈ entries ↔ PathPart part ∧
      ((s.names.get? (below (normal path) ++ part)).isSome = true ∨ s.isDirectory (below (normal path) ++ part) = true) := by
  obtain ⟨p, clean, same⟩ := normal_eq path
  have own : s.tree.Directory p := (placed.isDirectory_iff clean).mp (same ▸ directory)
  have file : ¬ (s.names.get? (normal path)).isSome = true := fun present =>
    placed.sound.not_below_file ⟨clean, same ▸ present⟩ (List.prefix_refl p) own
  refine ⟨(s.entries (normal path)).mergeSort (· ≤ ·), ?_, ?_, fun part => ?_⟩
  · simp only [Moe.list, Work.runs_bind, Work.runs_get, Work.andThen, if_neg file, directory]
    rfl
  · have sorted := @List.pairwise_mergeSort JsString (fun a b => decide (a ≤ b))
      (fun a b c first second => by
        simp only [decide_eq_true_eq] at first second ⊢
        exact List.le_trans first second)
      (fun a b => by
        simp only [Bool.or_eq_true, decide_eq_true_eq]
        exact List.le_total a b) (s.entries (normal path))
    have once : ((s.entries (normal path)).mergeSort (· ≤ ·)).Nodup := (List.mergeSort_perm ..).nodup_iff.mpr (List.nodup_dedup _)
    exact (sorted.and once).imp fun both => Std.lt_of_le_of_ne (of_decide_eq_true both.1) both.2
  · rw [List.mem_mergeSort, same, placed.mem_entries clean, placed.sound.entry_iff, below_concat clean]
    have whole : ∀ {part}, PathPart part → Clean (p ++ [part]) := fun own other member =>
      (List.mem_append.mp member).elim (clean other) fun last => List.mem_singleton.mp last ▸ own
    constructor
    · intro either
      have cleanPart : Clean (p ++ [part]) := either.elim And.left Mounted.tree_clean
      refine ⟨cleanPart part (List.mem_append_right _ (List.mem_singleton.mpr rfl)), ?_⟩
      exact either.imp And.right (placed.isDirectory_iff cleanPart).mpr
    · rintro ⟨own, either⟩
      exact either.imp (fun present => ⟨whole own, present⟩) (placed.isDirectory_iff (whole own)).mp

end Listing

section Rmdir

variable [Crypto]

/-- The files that writes leave stopped anywhere: a pool's, each name among those it had. -/
structure Thins (s : Mounted) (disk : Nat → Bytes) : Prop where
  pool : ∃ next, Unmounted s.count disk next
  names : ∀ name id, Owner disk name id → s.names.get? name = some id

theorem stopped_append {writes later : List PoolWrite} (stopped : Stopped disk (writes ++ later) disk') :
    Stopped disk writes disk' ∨ Stopped (writes.foldl (fun disk write => write.apply disk) disk) later disk' := by
  induction writes generalizing disk with
  | nil => exact .inr stopped
  | cons write writes ih =>
    obtain rfl | torn | after := stopped_cons.mp stopped
    · exact .inl .before
    · exact .inl (.torn torn)
    · exact (ih after).imp .after id

theorem Mounted.Ok.rewritten (ok : s.Ok) (writes : List PoolWrite) : ({ s with writes } : Mounted).Ok :=
  ⟨⟨ok.held.disk, ok.held.positive, ok.held.outside, ok.held.coherent, ok.held.free, ok.held.once⟩, ok.named, ok.files⟩

/-- What a file's removal leaves, and what it leaves where it is stopped. -/
structure Removes (s : Mounted) (names : OrderedMap JsString Nat) (later : List PoolWrite) (t : Mounted) : Prop where
  ok : t.Ok
  names : t.names = names
  directories : t.directories = s.directories
  count : t.count = s.count
  writes : t.writes = s.writes ++ later
  disk : t.disk = later.foldl (fun disk write => write.apply disk) s.disk
  thins : ∀ disk, Stopped s.disk later disk → Thins s disk

/-- A file's removal. -/
theorem Mounted.Ok.removes (ok : s.Ok) (found : s.names.get? (normal path) = some id) (room : s.sequence < 2 ^ 64) (syscall : String) :
    ∃ t later, (Moe.unlink path syscall).runs s = (.ok (), t) ∧ Removes s (s.names.erase (normal path)) later t ∧
      t.sequence ≤ s.sequence + 1 := by
  have sustains : Sustains { s with writes := [] } (Moe.unlink path syscall) := (ok.rewritten []).unlink rfl room syscall
  obtain ⟨t, clear, lost, disk, place, count, above⟩ := loseName_after (ok.fits ((ok.named _ _).mp found)) (normal path)
  obtain ⟨names, directories⟩ := Prod.mk.inj place
  have run : (Moe.unlink path syscall).runs { s with writes := [] } = (.ok (), { t with names := s.names.erase (normal path) }) := by
    simp only [Moe.unlink, Work.runs_bind, Work.runs_get, Work.andThen, found, clear, Work.runs_modify, names]
  have run' : (Moe.unlink path syscall).runs s =
      (.ok (), { t with names := s.names.erase (normal path), writes := s.writes ++ t.writes }) := by
    simp only [Moe.unlink, Work.runs_bind, Work.runs_get, Work.andThen, found, lost, Work.runs_modify, names]
  obtain ⟨ok', survives, -⟩ := sustains
  rw [run] at ok' survives
  refine ⟨_, t.writes, run', ⟨ok'.rewritten _, rfl, directories, count, rfl, disk, fun later stopped => ?_⟩, above⟩
  have own := survives later stopped
  refine ⟨⟨_, own.ok, fun id out => own.outside id (Nat.le_trans (Nat.le_of_eq count) out)⟩, fun name id owner => ?_⟩
  obtain before | after := own.owners
  · exact (before name id).mp owner
  · have kept := (after name id).mp owner
    simp only [OrderedMap.get?_erase] at kept
    split at kept
    · cases kept
    · exact kept

/-- Files removed in turn. -/
theorem Mounted.Ok.removesAll (ok : s.Ok) (present : ∀ file ∈ files, (s.names.get? file).isSome = true ∧ normal file = file)
    (distinct : files.Nodup) (room : s.sequence + files.length ≤ 2 ^ 64) : ∃ t later,
      (files.forM fun file => Moe.unlink file "rm").runs s = (.ok (), t) ∧ Removes s (files.foldl OrderedMap.erase s.names) later t := by
  induction files generalizing s with
  | nil =>
    refine ⟨s, [], rfl, ok, rfl, rfl, rfl, (List.append_nil _).symm, rfl, fun disk stopped => ?_⟩
    obtain rfl := stopped_nil.mp stopped
    exact ⟨⟨_, ok.held.disk, fun id out => (ok.held.outside id out).1⟩, fun name id own => ok.owner_iff.mp own⟩
  | cons file files ih =>
    obtain ⟨⟨there, same⟩, others⟩ := List.forall_mem_cons.mp present
    obtain ⟨absent, distinct⟩ := List.nodup_cons.mp distinct
    obtain ⟨id, found⟩ := Option.isSome_iff_exists.mp there
    rw [List.length_cons] at room
    obtain ⟨t, later, run, removes, above⟩ := @Mounted.Ok.removes s file id _ ok (same.symm ▸ found) (by omega) "rm"
    rw [same] at removes
    obtain ⟨last, rest, runs, removed⟩ := ih removes.ok (fun other member => by
      obtain ⟨there, same⟩ := others other member
      have apart : file ≠ other := fun own => absent (own ▸ member)
      rw [removes.names, OrderedMap.get?_erase, if_neg apart]
      exact ⟨there, same⟩) distinct (by omega)
    refine ⟨last, later ++ rest, ?_, removed.ok, ?_, removed.directories.trans removes.directories, removed.count.trans removes.count,
      ?_, ?_, fun disk stopped => ?_⟩
    · change Work.runs (Moe.unlink file "rm" >>= fun _ => files.forM fun file => Moe.unlink file "rm") s = _
      rw [Work.runs_bind, run]
      exact runs
    · rw [removed.names, removes.names, List.foldl_cons]
    · rw [removed.writes, removes.writes, List.append_assoc]
    · rw [removed.disk, removes.disk, List.foldl_append]
    · obtain first | rest := stopped_append stopped
      · exact removes.thins disk first
      · rw [← removes.disk] at rest
        obtain ⟨pool, names⟩ := removed.thins disk rest
        refine ⟨removes.count ▸ pool, fun name id own => ?_⟩
        have kept := names name id own
        rw [removes.names, OrderedMap.get?_erase] at kept
        split at kept
        · cases kept
        · exact kept

/-- What a directory's removal comes to: refused, the pool as it was, or its files removed, then it and the directories under it. -/
theorem Mounted.Placed.rmdir_runs (placed : s.Placed) (ok : s.Ok) (recursive : Bool)
    (room : s.sequence + (s.filesUnder (normal path)).length ≤ 2 ^ 64) :
    (∃ failure, (rmdir path recursive).runs s = (.error failure, s)) ∨ s.isDirectory (normal path) = true ∧
      (recursive = false → s.filesUnder (normal path) = [] ∧ s.directoriesUnder (normal path) = []) ∧ ∃ t later directories,
      Removes s ((s.filesUnder (normal path)).foldl OrderedMap.erase s.names) later t ∧
      (rmdir path recursive).runs s = (.ok (), { t with directories }) ∧ ∀ d, d ∈ directories ↔ d ∈ s.directories ∧
        (normal path ≠ [slash] → d ≠ normal path) ∧ (below (normal path)).isPrefixOf d = false := by
  by_cases directory : s.isDirectory (normal path) = false
  · exact .inl ⟨.system "ENOENT" "rmdir" (normal path) "no such file or directory", by
      simp only [rmdir, Work.runs_bind, Work.runs_get, Work.andThen, if_pos directory]
      rfl⟩
  · by_cases refused : recursive = false ∧ (s.filesUnder (normal path) ≠ [] ∨ s.directoriesUnder (normal path) ≠ [])
    · exact .inl ⟨.system "ENOTEMPTY" "rmdir" (normal path) "directory not empty", by
        simp only [rmdir, Work.runs_bind, Work.runs_get, Work.andThen, if_neg directory, if_pos refused]
        rfl⟩
    · have present : ∀ file ∈ s.filesUnder (normal path), (s.names.get? file).isSome = true ∧ normal file = file := by
        intro file member
        have own := OrderedMap.get?_isSome_iff.mpr (List.mem_of_mem_filter member)
        obtain ⟨q, clean, rfl⟩ := placed.named file own
        exact ⟨own, normal_spelling clean⟩
      obtain ⟨t, later, run, removes⟩ := ok.removesAll present (placed.once.filter _) room
      have beside : ∀ d, d ∈ s.directories.filter (fun directory => !(s.directoriesUnder (normal path)).contains directory) ↔
          d ∈ s.directories ∧ (below (normal path)).isPrefixOf d = false := by
        intro d
        rw [List.mem_filter, Bool.not_eq_true', ← Bool.not_eq_true, List.contains_iff_mem, Mounted.directoriesUnder, List.mem_filter]
        exact and_congr_right fun own => by rw [and_iff_right own, Bool.not_eq_true]
      have run' : (rmdir path recursive).runs s = (if normal path ≠ [slash] then
            modify fun s => { s with directories := s.directories.filter (· ≠ normal path) } else pure () : PoolWork Unit).runs
          { t with directories := s.directories.filter fun directory => !(s.directoriesUnder (normal path)).contains directory } := by
        simp only [rmdir, Work.runs_bind, Work.runs_get, Work.andThen, if_neg directory, if_neg refused, run, Work.runs_modify,
          removes.directories]
      refine .inr ⟨by simpa using directory, fun plain => ?_, t, later, ?_⟩
      · simpa [plain] using refused
      · by_cases root : normal path = [slash]
        · rw [if_neg (not_not_intro root)] at run'
          refine ⟨_, removes, run', fun d => (beside d).trans (and_congr_right fun _ => ?_)⟩
          exact (and_iff_right fun other => absurd root other).symm
        · rw [if_pos root] at run'
          refine ⟨_, removes, run', fun d => ?_⟩
          rw [List.mem_filter, beside, decide_eq_true_eq]
          constructor
          · rintro ⟨⟨own, out⟩, apart⟩
            exact ⟨own, fun _ => apart, out⟩
          · rintro ⟨own, apart, out⟩
            exact ⟨⟨own, out⟩, apart root⟩

/-- What a directory's removal leaves: a tree without it and the files under it, the others there. -/
structure Pruned (s : Mounted) (path : JsString) (t : Mounted) : Prop where
  placed : t.Placed
  gone : t.isDirectory (normal path) = false
  names : ∀ name, (t.names.get? name).isSome = true ↔ (s.names.get? name).isSome = true ∧ (below (normal path)).isPrefixOf name = false

omit [Crypto] in
/-- A directory with nothing under it but what it may be made with is removed without leave. -/
theorem Mounted.Placed.prunes (placed : s.Placed) (clean : Clean p) (some_ : p ≠ []) (files : s.filesUnder (spelling p) = [])
    (directories : s.directoriesUnder (spelling p) = []) :
    Upheld (fun f => (s.names.get? f).isSome = true ∧ (below (spelling p)).isPrefixOf f = false)
      fun d => d ∈ s.directories ∧ d ≠ spelling p ∧ (below (spelling p)).isPrefixOf d = false := by
  have outF : ∀ f, (s.names.get? f).isSome = true → (below (spelling p)).isPrefixOf f = false := fun f present => by
    by_contra under
    have member : f ∈ s.filesUnder (spelling p) := List.mem_filter.mpr ⟨OrderedMap.get?_isSome_iff.mp present, by simpa using under⟩
    rw [files] at member
    cases member
  have outD : ∀ d ∈ s.directories, (below (spelling p)).isPrefixOf d = false := fun d own => by
    by_contra under
    have member : d ∈ s.directoriesUnder (spelling p) := List.mem_filter.mpr ⟨own, by simpa using under⟩
    rw [directories] at member
    cases member
  have root : [slash] ∈ s.directories := placed.sound.root.2
  refine ⟨⟨root, (spelling_ne_root clean some_).symm, outD _ root⟩, ?_⟩
  rintro d ⟨own, apart, out⟩ other
  obtain ⟨q, cleanQ, rfl⟩ := placed.made d own
  have nonempty : q ≠ [] := fun none_ => other (by rw [none_]; rfl)
  rw [dirname_spelling cleanQ]
  obtain recorded | ⟨-, f, file, above, apart'⟩ := placed.sound.held ⟨cleanQ, own⟩ nonempty
  · refine .inl ⟨recorded.2, fun same => ?_, outD _ recorded.2⟩
    have within := spelling_inj cleanQ.parent clean same
    have under := (below_isPrefixOf clean cleanQ nonempty).mpr ⟨within ▸ List.dropLast_prefix q, fun own => apart (by rw [own])⟩
    rw [out] at under
    cases under
  · have nonempty' : f ≠ [] := fun none_ => placed.sound.not_file_root (none_ ▸ file)
    exact .inr ⟨spelling f, ⟨file.2, outF _ file.2⟩, (below_isPrefixOf cleanQ.parent file.1 nonempty').mpr ⟨above, apart'⟩⟩

/-- A directory's removal leaves the pool's names a tree. -/
theorem Mounted.Placed.rmdir (placed : s.Placed) (ok : s.Ok) {recursive : Bool}
    (room : s.sequence + (s.filesUnder (normal path)).length ≤ 2 ^ 64) (steady : recursive = true → s.Prunes path) :
    (∃ failure, (rmdir path recursive).runs s = (.error failure, s)) ∨
      ∃ t, (rmdir path recursive).runs s = (.ok (), t) ∧ Pruned s path t := by
  obtain refused | ⟨directory, empty, t, later, directories, removes, run, beside⟩ := placed.rmdir_runs ok recursive room
  · exact .inl refused
  · refine .inr ⟨_, run, ?_⟩
    obtain ⟨p, clean, same⟩ := normal_eq path
    rw [same] at directory empty beside
    rw [Mounted.Prunes, same] at steady
    have own := (placed.isDirectory_iff clean).mp directory
    have other : ¬ s.tree.file p := fun file => placed.sound.not_below_file file (List.prefix_refl p) own
    have some_ : p ≠ [] := by
      rintro rfl
      cases recursive with
      | true => exact (steady rfl).1.2.1 rfl
      | false =>
        have member : [slash] ∈ s.directoriesUnder (spelling []) := List.mem_filter.mpr ⟨placed.sound.root.2, rfl⟩
        rw [(empty rfl).2] at member
        cases member
    have root := spelling_ne_root clean some_
    have upheld : Upheld (fun f => (s.names.get? f).isSome = true ∧ (below (spelling p)).isPrefixOf f = false)
        fun d => d ∈ s.directories ∧ d ≠ spelling p ∧ (below (spelling p)).isPrefixOf d = false := by
      cases recursive with
      | true => exact steady rfl
      | false => exact placed.prunes clean some_ (empty rfl).1 (empty rfl).2
    have names : ∀ name, (t.names.get? name).isSome = true ↔
        (s.names.get? name).isSome = true ∧ (below (spelling p)).isPrefixOf name = false := by
      intro name
      rw [removes.names, OrderedMap.get?_erase_all, same]
      split
      · rename_i member
        have under := (List.mem_filter.mp member).2
        rw [under]
        simp
      · rename_i out
        refine (and_iff_left_of_imp fun present => ?_).symm
        by_contra under
        exact out (List.mem_filter.mpr ⟨OrderedMap.get?_isSome_iff.mp present, by simpa using under⟩)
    have placed' : ({ t with directories } : Mounted).Placed := placed.prune clean some_ upheld other
      (removes.names ▸ OrderedMap.erase_all_keys_nodup placed.once _) names fun d => (beside d).trans (and_congr_right fun _ => and_congr_left fun _ => by
        rw [forall_prop_of_true root])
    refine ⟨placed', same ▸ (placed'.directory_iff clean).mpr ?_, same ▸ names⟩
    rintro (⟨-, member⟩ | ⟨-, f, ⟨cleanF, present⟩, above, apart⟩)
    · exact ((beside _).mp member).2.1 root rfl
    · obtain ⟨old, out⟩ := (names _).mp present
      have nonempty : f ≠ [] := fun none_ => placed.sound.not_file_root (none_ ▸ ⟨cleanF, old⟩)
      have under := (below_isPrefixOf clean cleanF nonempty).mpr ⟨above, apart⟩
      rw [out] at under
      cases under

/-- A pool keeps what holds of it through a directory's removal, and where that is stopped. -/
theorem Mounted.Placed.rmdir_ok (placed : s.Placed) (ok : s.Ok) {recursive : Bool}
    (room : s.sequence + (s.filesUnder (normal path)).length ≤ 2 ^ 64) :
    ((Moe.rmdir path recursive).runs s).2.Ok ∧ ((Moe.rmdir path recursive).runs s).2.count = s.count ∧
      (s.writes = [] → ∀ disk, Stopped s.disk ((Moe.rmdir path recursive).runs s).2.writes disk → Thins s disk) := by
  obtain ⟨failure, run⟩ | ⟨-, -, t, later, directories, removes, run, -⟩ := placed.rmdir_runs ok recursive room
  · rw [run]
    refine ⟨ok, rfl, fun empty disk stopped => ?_⟩
    rw [empty] at stopped
    obtain rfl := stopped_nil.mp stopped
    exact ⟨⟨_, ok.held.disk, fun id out => (ok.held.outside id out).1⟩, fun name id own => ok.owner_iff.mp own⟩
  · rw [run]
    have held := removes.ok.held
    refine ⟨⟨⟨held.disk, held.positive, held.outside, held.coherent, held.free, held.once⟩, removes.ok.named, removes.ok.files⟩,
      removes.count, fun empty disk stopped => removes.thins disk ?_⟩
    simpa only [removes.writes, empty, List.nil_append] using stopped

end Rmdir

end Moe
