import Moe.Browser.FileDirectories

namespace Moe

open JsString

section

variable [Crypto] {s s' : Mounted} {path name : JsString} {id count : Nat} {disk disk' : Nat → Bytes}

/-- A pool's files claim names of one tree, none at or below another. -/
structure Filed (disk : Nat → Bytes) : Prop where
  named : ∀ name id, Owner disk name id → ∃ p, Clean p ∧ p ≠ [] ∧ name = spelling p
  flat : ∀ p q i j, Clean p → Clean q → Owner disk (spelling p) i → Owner disk (spelling q) j → p <+: q → p = q

theorem Mounted.Placed.filed (placed : s.Placed) (names : ∀ name id, Owner disk name id → s.names.get? name = some id) : Filed disk := by
  have present : ∀ {name id}, Owner disk name id → (s.names.get? name).isSome = true := fun own => by rw [names _ _ own]; rfl
  exact ⟨fun name id own => placed.named_parts (present own), fun p q i j clean clean' own own' above =>
    placed.sound.flat ⟨clean, present own⟩ ⟨clean', present own'⟩ above⟩

theorem Filed.congr (filed : Filed disk) (same : ∀ name id, Owner disk' name id ↔ Owner disk name id) : Filed disk' := by
  refine ⟨fun name id own => filed.named name id ((same name id).mp own), fun p q i j clean clean' own own' => ?_⟩
  exact filed.flat p q i j clean clean' ((same _ i).mp own) ((same _ j).mp own')

/-- A pool just mounted is a tree: its files', and the root. -/
theorem Filed.mounted (filed : Filed disk) (names : ∀ name id, s.names.get? name = some id ↔ Owner disk name id)
    (once : (s.names.map (·.1)).Nodup) (directories : s.directories = [[slash]]) : s.Placed := by
  have owned : ∀ {name}, (s.names.get? name).isSome = true → ∃ id, Owner disk name id := fun present => by
    obtain ⟨id, found⟩ := Option.isSome_iff_exists.mp present
    exact ⟨id, (names _ id).mp found⟩
  have root : ∀ {p}, s.tree.recorded p → p = [] := by
    rintro p ⟨clean, member⟩
    rw [directories, List.mem_singleton] at member
    by_contra some_
    exact spelling_ne_root clean some_ member
  refine ⟨once, fun name present => ?_, fun name member => ?_, ⟨⟨by simp [Clean], ?_⟩, ?_, ?_, ?_⟩⟩
  · obtain ⟨id, own⟩ := owned present
    obtain ⟨p, clean, -, same⟩ := filed.named name id own
    exact ⟨p, clean, same⟩
  · rw [directories, List.mem_singleton] at member
    exact ⟨[], by simp [Clean], member⟩
  · rw [directories]
    exact List.mem_singleton.mpr rfl
  · rintro f p ⟨clean, present⟩ own above
    rw [root own, List.prefix_nil] at above
    obtain ⟨id, own'⟩ := owned present
    obtain ⟨q, cleanQ, some_, same⟩ := filed.named _ id own'
    exact some_ (spelling_inj cleanQ clean same.symm |>.trans above)
  · rintro f g ⟨clean, present⟩ ⟨clean', present'⟩ above
    obtain ⟨i, own⟩ := owned present
    obtain ⟨j, own'⟩ := owned present'
    exact filed.flat f g i j clean clean' own own' above
  · intro p own some_
    exact absurd (root own) some_

omit [Crypto] in
theorem foldl_set_once (id : Nat) (names : List JsString) {map : OrderedMap JsString Nat} (once : (map.map (·.1)).Nodup) :
    ((names.foldl (fun map name => map.set name id) map).map (·.1)).Nodup := by
  induction names generalizing map with
  | nil => exact once
  | cons name names ih => exact ih (OrderedMap.set_keys_nodup once name id)

/-- A member settled at a mount leaves each name listed once, and makes no directory. -/
theorem settleMember_once (once : (s.names.map (·.1)).Nodup) (member : Nat) :
    ((((settleMember member).runs s).2.names).map (·.1)).Nodup ∧ ((settleMember member).runs s).2.directories = s.directories := by
  have kept : (if s.kept member = [] then release member else if (s.kept member).length ≠ (s.members member).names.length then
      writeHeader member (s.kept member) else pure ()).Keeps Mounted.place := by
    split
    · exact .modify fun _ => rfl
    · split
      · exact writeHeader_place member _
      · exact .pure
  obtain ⟨names, directories⟩ := Prod.mk.inj (kept (s.named member))
  rw [settleMember_runs]
  refine ⟨?_, directories⟩
  rw [names]
  exact foldl_set_once member _ once

theorem settles_once (ids : List Nat) (once : (s.names.map (·.1)).Nodup) :
    ((((ids.forM settleMember).runs s).2.names).map (·.1)).Nodup ∧ ((ids.forM settleMember).runs s).2.directories = s.directories := by
  induction ids generalizing s with
  | nil => exact ⟨once, rfl⟩
  | cons id ids ih =>
    change ((((settleMember id >>= fun _ => ids.forM settleMember : PoolWork Unit).runs s).2.names).map (·.1)).Nodup ∧
      ((settleMember id >>= fun _ => ids.forM settleMember : PoolWork Unit).runs s).2.directories = s.directories
    obtain ⟨kept, same⟩ := settleMember_once once id
    rw [Work.runs_bind]
    cases ran : (settleMember id).runs s with
    | mk result t =>
      rw [ran] at kept same
      cases result with
      | error failure => exact ⟨kept, same⟩
      | ok _ => exact ⟨(ih kept).1, (ih kept).2.trans same⟩

theorem mountFiles_place {result : Except HostFailure Unit} (mounted : mountFiles count disk = .ok (result, s)) :
    (s.names.map (·.1)).Nodup ∧ s.directories = [[slash]] := by
  rw [mountFiles] at mounted
  cases read : mountMembers disk count with
  | error failure =>
    rw [read] at mounted
    cases mounted
  | ok members =>
    rw [read] at mounted
    have run : ((mountOrder count members).forM settleMember : PoolWork Unit).runs (mountState count disk members) = (result, s) :=
      Except.ok.inj mounted
    have settled := settles_once (mountOrder count members) (s := mountState count disk members) List.nodup_nil
    rw [run] at settled
    exact settled

/-- What changes the pool's names: a call on its files, a directory's making or removal, or what a pool's files go through besides. -/
inductive TreeEvent
  | pool (event : PoolEvent)
  | mkdir (path : JsString) (recursive : Bool)
  | rmdir (path : JsString) (recursive : Bool)
  | rmdirCrash (path : JsString) (recursive : Bool)

inductive TreeStep : PoolState → TreeEvent → PoolState → Prop
  | pool {state state' : PoolState} {event : PoolEvent} : PoolStep state event state' → TreeStep state (.pool event) state'
  | mkdir {s : Mounted} {path : JsString} {recursive : Bool} :
      TreeStep (.mounted s) (.mkdir path recursive) (.mounted { ((mkdir path recursive).runs s).2 with writes := [] })
  | rmdir {s : Mounted} {path : JsString} {recursive : Bool} :
      TreeStep (.mounted s) (.rmdir path recursive) (.mounted { ((rmdir path recursive).runs s).2 with writes := [] })
  | rmdirCrash {s : Mounted} {path : JsString} {recursive : Bool} {disk disk' : Nat → Bytes} :
      Stopped s.disk ((rmdir path recursive).runs s).2.writes disk → Lost (atRisk s ((rmdir path recursive).runs s).2) disk disk' →
      TreeStep (.mounted s) (.rmdirCrash path recursive) (.files s.count disk')

/-- Room in the pool's sequence for the headers a directory's removal writes. -/
def Mounted.Room (s : Mounted) (path : JsString) : Prop := s.sequence + (s.filesUnder (normal path)).length ≤ 2 ^ 64

/-- An event whose header writes are read back, and that leaves standing every directory made. -/
def TreeEvent.Steady : PoolState → TreeEvent → Prop
  | .mounted s, .pool (.call c) => c.Plain s ∧ c.Steady s
  | .mounted s, .pool (.crash c) => c.Plain s ∧ c.Steady s
  | _, .pool (.directories _) => False
  | state, .pool event => event.Plain state
  | .mounted s, .rmdir path recursive => s.Room path ∧ (recursive = true → s.Prunes path)
  | .mounted s, .rmdirCrash path _ => s.Room path
  | _, _ => True

/-- The states a pool reaches, made empty. -/
inductive TreeRun : PoolState → Prop
  | start : TreeRun (.files 0 fun _ => [])
  | step {state state' : PoolState} {event : TreeEvent} : TreeRun state → event.Steady state → TreeStep state event state' → TreeRun state'

def PoolState.Tree : PoolState → Prop
  | .mounted s => s.Placed
  | .files _ disk => Filed disk

/-- A pool's own step keeps its names a tree. -/
theorem PoolStep.tree {state state' : PoolState} {event : PoolEvent} (step : PoolStep state event state')
    (steady : (TreeEvent.pool event).Steady state) (ok : state.Ok) (tree : state.Tree) : state'.Ok ∧ state'.Tree := by
  cases step with
  | call meant => exact ⟨(PoolStep.call meant).ok steady.1 ok, (tree.call ok.1 steady.2).placed.of_place rfl⟩
  | refill => exact ⟨PoolStep.refill.ok trivial ok, Mounted.Placed.of_place tree rfl⟩
  | directories => exact absurd steady not_false
  | crash meant stopped lost =>
    rename_i s c disk disk'
    refine ⟨(PoolStep.crash meant stopped lost).ok steady.1 ok, ?_⟩
    have survives := (ok.1.sustains ok.2 meant steady.1).survives disk stopped
    have heads := fun name id => owner_congr lost.heads name id
    obtain before | after := survives.owners
    · exact tree.filed fun name id own => (before name id).mp ((heads name id).mp own)
    · exact (tree.call ok.1 steady.2).placed.filed fun name id own => (after name id).mp ((heads name id).mp own)
  | stop lost =>
    refine ⟨(PoolStep.stop lost).ok trivial ok, ?_⟩
    exact tree.filed fun name id own => ok.1.owner_iff.mp ((owner_congr lost.heads name id).mp own)
  | mount mounted =>
    refine ⟨(PoolStep.mount mounted).ok steady ok, ?_⟩
    obtain ⟨next, pool⟩ := ok
    obtain ⟨once, directories⟩ := mountFiles_place mounted
    obtain ⟨m, run, remounted⟩ := pool.mounts steady
    rw [run] at mounted
    obtain ⟨-, rfl⟩ := Prod.mk.inj (Except.ok.inj mounted)
    exact (Filed.mounted tree remounted.names once directories).of_place rfl
  | mountCrash mounted stopped =>
    refine ⟨(PoolStep.mountCrash mounted stopped).ok steady ok, ?_⟩
    obtain ⟨next, pool⟩ := ok
    obtain ⟨m, run, remounted⟩ := pool.mounts steady
    rw [run] at mounted
    obtain ⟨-, rfl⟩ := Prod.mk.inj (Except.ok.inj mounted)
    exact Filed.congr tree (remounted.stops _ stopped).2.owners

/-- A step keeps the pool's names a tree. -/
theorem TreeStep.tree {state state' : PoolState} {event : TreeEvent} (step : TreeStep state event state') (steady : event.Steady state)
    (ok : state.Ok) (tree : state.Tree) : state'.Ok ∧ state'.Tree := by
  cases step with
  | pool step => exact step.tree steady ok tree
  | mkdir =>
    rename_i s path recursive
    obtain ⟨failure, run⟩ | ⟨first, t, run, placed, frame, -⟩ := Mounted.Placed.mkdir tree path recursive
    · rw [run]
      exact ⟨⟨ok.1.between, rfl⟩, Mounted.Placed.of_place tree rfl⟩
    · rw [run]
      have held := ok.1.held
      refine ⟨⟨?_, rfl⟩, placed.of_place rfl⟩
      rw [frame]
      exact ⟨⟨held.disk, held.positive, held.outside, held.coherent, held.free, held.once⟩, ok.1.named, ok.1.files⟩
  | rmdir =>
    obtain ⟨ok', -, -⟩ := Mounted.Placed.rmdir_ok tree ok.1 steady.1
    refine ⟨⟨ok'.between, rfl⟩, ?_⟩
    obtain ⟨failure, run⟩ | ⟨t, run, pruned⟩ := Mounted.Placed.rmdir tree ok.1 steady.1 steady.2
    · rw [run]
      exact Mounted.Placed.of_place tree rfl
    · rw [run]
      exact pruned.placed.of_place rfl
  | rmdirCrash stopped lost =>
    rename_i s path recursive disk disk'
    obtain ⟨-, count, thins⟩ := @Mounted.Placed.rmdir_ok _ _ _ tree ok.1 recursive steady
    obtain ⟨⟨next, pool⟩, names⟩ := thins ok.2 disk stopped
    refine ⟨⟨next, lost.diskOk pool.ok, fun id out => ?_⟩,
      tree.filed fun name id own => names name id ((owner_congr lost.heads name id).mp own)⟩
    have flushed : atRisk s ((Moe.rmdir path recursive).runs s).2 id = false := by
      simp [atRisk, Nat.not_lt.mpr out]
    rw [lost.kept flushed]
    exact pool.outside id out

theorem TreeRun.tree {state : PoolState} (run : TreeRun state) : state.Ok ∧ state.Tree := by
  induction run with
  | start =>
    refine ⟨PoolRun.start.ok, fun name id own => ?_, fun p q i j _ _ own => ?_⟩
    · obtain ⟨header, found, -⟩ := own
      rw [headerOf_none (newest_none Mounted.Held.copyAt_nil)] at found
      cases found
    · obtain ⟨header, found, -⟩ := own
      rw [headerOf_none (newest_none Mounted.Held.copyAt_nil)] at found
      cases found
  | step run steady step ih => exact step.tree steady ih.1 ih.2

/-- The files and directories a mounted pool shows its callers. -/
structure Mounted.Shows (s : Mounted) : Prop where
  root : s.isDirectory [slash] = true
  file : ∀ path, (s.names.get? (normal path)).isSome = true → s.isDirectory (normal path) = false
  held : ∀ path, (s.names.get? (normal path)).isSome = true ∨ s.isDirectory (normal path) = true →
    s.isDirectory (dirname (normal path)) = true
  under : ∀ file path, (s.names.get? file).isSome = true → (below file).isPrefixOf (normal path) = true →
    s.names.get? (normal path) = none ∧ s.isDirectory (normal path) = false
  lists : ∀ path, s.isDirectory (normal path) = true → ∃ entries, (list path).runs s = (.ok entries, s) ∧ entries.Pairwise (· < ·) ∧
    ∀ part, part ∈ entries ↔ PathPart part ∧
      ((s.names.get? (below (normal path) ++ part)).isSome = true ∨ s.isDirectory (below (normal path) ++ part) = true)
  refuses : ∀ path, s.isDirectory (normal path) = false → ∃ failure, (list path).runs s = (.error failure, s)

omit [Crypto] in
theorem Mounted.Placed.shows (placed : s.Placed) : s.Shows where
  root := (placed.isDirectory_iff (p := []) (by simp [Clean])).mpr placed.sound.root_directory
  file path present := by
    obtain ⟨p, clean, same⟩ := normal_eq path
    rw [same] at present ⊢
    exact (placed.directory_iff clean).mpr (placed.sound.not_below_file ⟨clean, present⟩ (List.prefix_refl p))
  held path there := by
    obtain ⟨p, clean, same⟩ := normal_eq path
    rw [same] at there ⊢
    rw [dirname_spelling clean, placed.isDirectory_iff (Clean.parent clean)]
    obtain present | directory := there
    · exact placed.sound.file_parent ⟨clean, present⟩
    · have own := (placed.isDirectory_iff clean).mp directory
      by_cases root : p = []
      · rwa [root] at own ⊢
      · exact placed.sound.parent own root
  under file path present starts := by
    obtain ⟨f, clean, some_, rfl⟩ := placed.named_parts present
    obtain ⟨p, cleanP, same⟩ := normal_eq path
    rw [same] at starts ⊢
    have nonempty : p ≠ [] := by
      rintro rfl
      have out := below_root_out clean some_
      rw [show spelling [] = [slash] from rfl, out] at starts
      cases starts
    obtain ⟨above, apart⟩ := (below_isPrefixOf clean cleanP nonempty).mp starts
    refine ⟨?_, (placed.directory_iff cleanP).mpr (placed.sound.not_below_file ⟨clean, present⟩ above)⟩
    cases found : s.names.get? (spelling p) with
    | none => rfl
    | some id => exact absurd (placed.sound.flat ⟨clean, present⟩ ⟨cleanP, by rw [found]; rfl⟩ above) apart
  lists path directory := placed.list directory
  refuses path other := by
    by_cases file : (s.names.get? (normal path)).isSome = true
    · exact ⟨.system "ENOTDIR" "scandir" (normal path) "not a directory", by
        simp only [Moe.list, Work.runs_bind, Work.runs_get, Work.andThen, if_pos file]
        rfl⟩
    · exact ⟨.system "ENOENT" "scandir" (normal path) "no such file or directory", by
        simp only [Moe.list, Work.runs_bind, Work.runs_get, Work.andThen, if_neg file, if_pos other]
        rfl⟩

end

section

local instance treeCrypto : Crypto := sampleCrypto

/-- A directory made under one that only its files make one: the last of them removed, nothing holds it. -/
def sampleOrphan : Mounted := { samplePool with
  members := fun _ => { names := [[slash, 0x61, slash, 0x66]] }
  free := []
  names := [([slash, 0x61, slash, 0x66], 0)]
  directories := [[slash], [slash, 0x61, slash, 0x62]] }

example : sampleOrphan.isDirectory [slash, 0x61] = true ∧
    ((unlink [slash, 0x61, slash, 0x66] "unlink").runs sampleOrphan).2.isDirectory [slash, 0x61] = false ∧
    ((unlink [slash, 0x61, slash, 0x66] "unlink").runs sampleOrphan).2.isDirectory [slash, 0x61, slash, 0x62] = true := by decide

end

end Moe
