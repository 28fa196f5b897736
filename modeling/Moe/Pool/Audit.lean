import Moe.Pool.Ledger
import Moe.Pool.Replays

namespace Moe

/-- What every store a replay leaves meets: its rows are sound, no segment imports itself, and every
position of every namespace reads a ledger. -/
structure Store.Audited (s : Store) : Prop extends s.Sound where
  apart : ∀ ns n, s.namespaces ns = some n → n.segment ∉ n.imports.map (·.1)
  ledgers : ∀ ns p, s.Holds ⟨ns, p⟩ → Ledger (s.visible ns p) (s.total ns p)

theorem Store.empty_audited : Store.empty.Audited where
  toWellPlaced := Store.empty_placed
  namespaces _ _ found := nomatch found
  apart _ _ found := nomatch found
  ledgers _ _ := fun ⟨_, found, _⟩ => nomatch found

section

variable [Crypto] {s : Store} {ns : Nat} {n : Namespace} {record : Append} {spent : SpentSet} {demand : Option StoredDemand}

/-- The write of an admissible record leaves an audited store. -/
theorem Store.Audited.written (audited : s.Audited) (found : s.namespaces ns = some n)
    (admissible : Admissible (s.visible ns n.position) (s.total ns n.position) record)
    (room : n.keeps.tree = true → n.leaves + record.outputs.length ≤ noteTreeCapacity) :
    (s.put ns (n.written ns record spent demand)).Audited := by
  have grows := Store.put_grows found (n.written_grown ns record spent demand)
  have own := audited.namespaces ns n found
  refine ⟨⟨audited.toWellPlaced.written found, fun other m seen => ?_⟩, fun other m seen => ?_, fun other p held => ?_⟩
  · rcases Store.written_found seen with ⟨-, rfl⟩ | ⟨-, same⟩
    · exact own.written admissible room
    · exact audited.namespaces other m same
  · rcases Store.written_found seen with ⟨-, rfl⟩ | ⟨-, same⟩
    · exact audited.apart ns n found
    · exact audited.apart other m same
  · by_cases old : s.Holds ⟨other, p⟩
    · exact grows.ledger audited.toWellPlaced old (audited.ledgers other p old)
    · -- The only position the store did not hold before is the record's own.
      obtain ⟨m, seen, bound⟩ := held
      obtain ⟨rfl, rfl⟩ | ⟨-, same⟩ := Store.written_found seen
      · obtain rfl : p = n.position + 1 := by
          have past : ¬p ≤ n.position := fun within => old ⟨n, found, within⟩
          exact le_antisymm bound (Nat.lt_of_not_le past)
        have ledger := audited.ledgers other n.position ⟨n, found, le_rfl⟩
        have totals : (s.put other (n.written other record spent demand)).total other (n.position + 1) =
            fun backing => (s.total other n.position backing).add ((n.eventOf record spent).supplyOf backing) := by
          funext backing
          rw [Store.total_of_found (s.put_self other _), Store.total_of_found found]
          exact own.written_total backing fun supply moved => (admissible.supply supply moved).1
        rw [Store.visible_written audited.toWellPlaced found, totals]
        exact ledger.written admissible
      · exact absurd ⟨m, same, bound⟩ old

end

section

variable [Crypto] {s : Store} {segment identity history evidence : Bytes} {imports : Imports} {keeps : NamespaceConstruction}
  {spent : SpentSet}

theorem Store.fresh_sound : (s.fresh segment identity imports history evidence keeps spent).Sound where
  totals total member := by
    obtain ⟨entry, -, rfl⟩ := List.mem_map.mp member
    exact Nat.zero_le _
  events := by
    rw [Rows.events, Store.fresh_table rfl]
    rfl
  nullifiers spend member := by
    rw [Rows.nullifiers, Store.fresh_table rfl] at member
    cases member
  outputs output member := by
    rw [Rows.outputs, Store.fresh_table rfl] at member
    cases member
  supply event member := by
    rw [Rows.events, Store.fresh_table rfl] at member
    cases member
  leaves _ := Nat.zero_le _

theorem Store.fresh_total (backing : Bytes) : (s.fresh segment identity imports history evidence keeps spent).total 0 backing =
    (OrderedMap.get? imports.totals backing).getD .zero := by
  simp only [Store.fresh, Namespace.total, OrderedMap.get?, List.find?_map, Option.map_map, Function.comp_def]
  simp

/-- A namespace opened over a good frontier that does not name its segment leaves an audited store. -/
theorem Store.Audited.opened (audited : s.Audited) (good : imports.Good s)
    (sources : (imports.segments.map (·.2.ns)).Nodup)
    (kept : ∀ entry ∈ imports.segments, ∃ source, s.namespaces entry.2.ns = some source ∧ source.keeps = keeps)
    (apart : segment ∉ imports.segments.map (·.1)) :
    (s.opened segment identity imports history evidence keeps spent).Audited := by
  have unused : s.namespaces s.next = none := audited.fresh _ le_rfl
  have grows : s.Grows (s.opened segment identity imports history evidence keeps spent) := Store.opened_grows unused
  refine ⟨⟨audited.toWellPlaced.opened good.named sources kept, fun other m seen => ?_⟩, fun other m seen => ?_,
    fun other p ⟨m, seen, bound⟩ => ?_⟩
  all_goals rcases Store.opened_found seen with ⟨rfl, rfl⟩ | ⟨-, same⟩
  · exact Store.fresh_sound
  · exact audited.namespaces other m same
  · exact apart
  · exact audited.apart other m same
  · obtain rfl : p = 0 := Nat.le_zero.mp bound
    have totals : (s.opened segment identity imports history evidence keeps spent).total s.next 0 =
        fun backing => (OrderedMap.get? imports.totals backing).getD .zero := by
      funext backing
      rw [Store.total_of_found Store.opened_self, Store.fresh_total]
    rw [totals]
    refine Ledger.perm ?_ (Store.visible_opened unused good.named.2).symm
    exact good.ledger.cons_rows (Store.fresh_table rfl) (Store.fresh_table rfl) (Store.fresh_table rfl)
  · have old : s.Holds ⟨other, p⟩ := ⟨m, same, bound⟩
    exact grows.ledger audited.toWellPlaced old (audited.ledgers other p old)

end

section Machine

/-- What every replay keeps: an audited store, and frontiers a new segment may start from. -/
structure Replays.Audited (r : Replays) : Prop where
  store : r.store.Audited
  merged : ∀ imports ∈ r.merged, imports.Good r.store

theorem Replays.Audited.frontier {r : Replays} (audited : r.Audited) {ns p : Nat} (held : r.store.Holds ⟨ns, p⟩) :
    (r.store.frontier ns p).Good r.store := by
  obtain ⟨n, found, bound⟩ := id held
  exact audited.store.toWellPlaced.frontier_good found bound (audited.store.apart ns n found) (audited.store.ledgers ns p held)

theorem Replays.Audited.source {r : Replays} (audited : r.Audited) {imported : Option Imports}
    (source : ImportSource r imported) : (imported.getD .empty).Good r.store := by
  cases source with
  | none => exact Imports.empty_good _
  | state made => exact audited.frontier (StateHandle.make_holds made)
  | merged accepted => exact audited.merged _ accepted

/-- A segment opened over a frontier does not import itself. -/
def ReplayAction.Apart : ReplayAction → Prop
  | .opened segment imported => segment ∉ (imported.getD .empty).segments.map (·.1)
  | _ => True

variable [Crypto]

/-- The replays whose segments never import themselves. -/
def apartReplays : Machine Replays ReplayAction :=
  ⟨replays.start, fun r action later => ReplayStep r action later ∧ action.Apart⟩

theorem apartReplays_reach {r : Replays} (reach : apartReplays.Reach r) : replays.Reach r := by
  induction reach with
  | start first => exact .start first
  | next _ step ih => exact .next ih step.1

theorem Replays.Audited.opened {r : Replays} (audited : r.Audited) {R : Type} {construction : Construction R}
    {segment identity : Bytes} {imported : Option Imports} {state : SegmentState R} {later : Store}
    (source : ImportSource r imported) (apart : segment ∉ (imported.getD .empty).segments.map (·.1))
    (run : openSegmentState r.store segment identity imported construction = .ok (state, later)) :
    later.Audited ∧ r.store.Grows later := by
  obtain ⟨history, evidence, spent, -, -, kept, once, -, -, rfl⟩ := openSegmentState_eq_ok.mp run
  exact ⟨audited.store.opened (audited.source source) once kept apart, Store.opened_grows (audited.store.fresh _ le_rfl)⟩

theorem Replays.Audited.applied {r : Replays} (audited : r.Audited) {R : Type} {state : SegmentState R} {n : Namespace}
    {bytes : Bytes} {replay : SegmentReplay} {later : Store} (found : r.store.namespaces state.ns = some n)
    (keeps : n.keeps = state.construction.keeps) (run : applyRecord r.store state bytes replay = .ok later) :
    later.Audited := by
  obtain ⟨judged, judging, applying⟩ := applyRecord_eq_ok.mp run
  obtain ⟨record, m, decoded, foundM, judgeable, checked, finishable, rfl⟩ := judgeRecord_eq_ok.mp judging
  obtain rfl : n = m := Option.some.inj (found.symm.trans foundM)
  obtain ⟨-, m, effects, n', foundM, ran, appended, -, rfl⟩ := applyJudged_eq_ok.mp applying
  obtain rfl : n = m := Option.some.inj (found.symm.trans foundM)
  obtain ⟨-, spent, demand, ended, -, -, -, rfl⟩ := Namespace.append_eq_ok.mp appended
  have tip : state.handle.position r.store = n.position := by
    simp [StateHandle.position, SegmentState.handle, found]
  have carries := Judged.effects_carries ran
  have ledger := audited.store.ledgers state.ns n.position ⟨n, found, le_rfl⟩
  have total : state.handle.total r.store = r.store.total state.ns n.position := by
    funext backing
    rw [StateHandle.total, tip]
    rfl
  have admissible := finishable.admissible (total ▸ ledger.bounded) carries
  rw [total, StateHandle.rows, tip] at admissible
  refine audited.store.written found admissible fun tree => ?_
  have room := finishable.room (keeps ▸ tree)
  rw [← carries.outputs, List.length_map] at room
  exact room

/-- Every call that did not refuse keeps the audit. -/
theorem apartReplays_audited : apartReplays.Invariant Replays.Audited where
  start := by
    rintro _ rfl
    exact ⟨Store.empty_audited, by simp⟩
  step := by
    rintro r action later audited ⟨step, apart⟩
    cases step with
    | opened source run =>
      obtain ⟨store, grows⟩ := audited.opened source apart run
      exact ⟨store, fun imports member => (audited.merged imports member).grows grows⟩
    | merged held run =>
      refine ⟨audited.store, fun imports member => ?_⟩
      rcases List.mem_cons.mp member with rfl | old
      · exact audited.store.toSound.merge_good held run
      · exact audited.merged imports old
    | applied found keeps run =>
      have grows := applyRecord_grows run
      exact ⟨audited.applied found keeps run, fun imports member => (audited.merged imports member).grows grows⟩

/-- No double spend, no duplicated output and bounded supply: whatever opened, merged and applied, the
history visible from any position of any namespace is safe, and its note tree keeps within its depth. -/
theorem replays_safe {r : Replays} (reach : apartReplays.Reach r) {ns p : Nat} {n : Namespace}
    (found : r.store.namespaces ns = some n) (bound : p ≤ n.position) :
    SafeHistory (r.store.visible ns p) (r.store.total ns p) ∧ (n.keeps.tree = true → n.leaves ≤ noteTreeCapacity) := by
  have audited := (apartReplays_audited.reach reach).store
  have held : r.store.Holds ⟨ns, p⟩ := ⟨n, found, bound⟩
  exact ⟨audited.toSound.safe held (audited.ledgers ns p held), (audited.namespaces ns n found).leaves⟩

end Machine

section Sample

local instance : Crypto := sampleCrypto

/-- A 32-byte identifier of one repeated byte. -/
def sampleName (byte : UInt8) : Bytes := List.replicate 32 byte

/-- The two limbs of an identifier. -/
def sampleLimbs (bytes : Bytes) : List Nat := [ofBytes (bytes.take 16), ofBytes (bytes.drop 16)]

/-- An issue of five to output 21, in the segment named 1. -/
def sampleIssue : RecordBody :=
  let capsule : Bytes := 1 :: List.replicate 88 0
  let statement : Statement := ⟨sampleName 0, 1, sampleLimbs (sampleName 0) ++ sampleLimbs (sampleName 1) ++ [5] ++
    sampleLimbs (sampleName 3) ++ [5, 21] ++ sampleLimbs (deliveryHash (sampleName 0) [21] [capsule])⟩
  { statement with
    proof := List.replicate 32 0, capsules := [capsule]
    authorization := toBytes 64 (sampleDigest 13 ((sampleName 4 ++ statementBytes statement).map (·.toNat))) }

/-- A replay of the segment named 1, at index 10. -/
def sampleReplay : SegmentReplay where
  domain := sampleName 0
  backing := sampleName 3
  segment := sampleName 1
  scope := some 5
  terms := ⟨sampleName 4⟩
  scopedTerms := none
  verifier := ⟨fun _ _ _ => .ok true⟩
  index := 10
  admission := false
  lag := none
  revokedAt := none
  revocations := none
  lastValid := none
  block := []
  witness := none

/-- The segment named 1 issues, `second` imports it, and the segment named 6 imports `second`. -/
def sampleSuccession (second : Bytes) : Except Failure Store := do
  let (first, opened) ← openSegmentState Store.empty (sampleName 1) (sampleName 9) none poolV3
  let issued ← applyRecord opened first (encodeRecord sampleIssue) sampleReplay
  let (heir, again) ← openSegmentState issued second (sampleName 9) (some (first.handle.frontier issued)) poolV3
  let (_, last) ← openSegmentState again (sampleName 6) (sampleName 9) (some (heir.handle.frontier again)) poolV3
  return last

/-- A succession is a run of replays, and one of segments that import no namesake where `second` is neither. -/
theorem sampleSuccession_reach {second : Bytes} {s : Store} (run : sampleSuccession second = .ok s) :
    replays.Reach ⟨s, []⟩ ∧ (second ≠ sampleName 1 → second ≠ sampleName 6 → apartReplays.Reach ⟨s, []⟩) := by
  obtain ⟨⟨first, opened⟩, opening, run⟩ := bind_eq_ok.mp run
  obtain ⟨issued, issuing, run⟩ := bind_eq_ok.mp run
  obtain ⟨⟨heir, again⟩, importing, run⟩ := bind_eq_ok.mp run
  obtain ⟨⟨final, last⟩, ending, run⟩ := bind_eq_ok.mp run
  obtain rfl := pure_eq_ok.mp run
  obtain ⟨n, found, named, none, -, keeps⟩ := openSegmentState_opened opening
  obtain ⟨n', found', grown⟩ := applyRecord_grows issuing _ _ found
  obtain ⟨m, foundM, namedM, imports, -, keepsM⟩ := openSegmentState_opened importing
  have opens : ReplayStep ⟨Store.empty, []⟩ _ ⟨opened, []⟩ := .opened .none opening
  have applies : ReplayStep ⟨opened, []⟩ (.applied first.ns (encodeRecord sampleIssue)) ⟨issued, []⟩ := .applied found keeps issuing
  have imported : ReplayStep ⟨issued, []⟩ _ ⟨again, []⟩ :=
    .opened (.tip (r := ⟨issued, []⟩) found' (grown.keeps.trans keeps)) importing
  have ends : ReplayStep ⟨again, []⟩ _ ⟨last, []⟩ :=
    .opened (.tip (r := ⟨again, []⟩) foundM keepsM) ending
  refine ⟨.next (.next (.next (.next (.start rfl) opens) applies) imported) ends, fun other different => ?_⟩
  have names : n'.segment = sampleName 1 ∧ n'.imports = [] := ⟨grown.segment.trans named, grown.imports.trans none⟩
  have first_names : ∀ name, name ∈ (first.handle.frontier issued).segments.map (·.1) ↔ name = sampleName 1 := by
    intro name
    refine (Store.frontier_names found').trans ?_
    simp [names.1, names.2]
  refine .next (.next (.next (.next (.start rfl) ⟨opens, ?_⟩) ⟨applies, True.intro⟩) ⟨imported, ?_⟩) ⟨ends, ?_⟩
  · exact List.not_mem_nil
  · exact fun listed => other ((first_names _).mp listed)
  · intro listed
    rcases (Store.frontier_names foundM).mp listed with same | inherited
    · exact different (namedM.symm.trans same.symm)
    · rw [imports] at inherited
      exact absurd ((first_names _).mp inherited) (by decide)

theorem sampleSuccession_safe : ∃ s n, sampleSuccession (sampleName 2) = .ok s ∧ s.namespaces 2 = some n ∧
    (s.visible 2 0).outputs.length = 1 ∧ SafeHistory (s.visible 2 0) (s.total 2 0) ∧
    (n.keeps.tree = true → n.leaves ≤ noteTreeCapacity) := by
  have runs : (sampleSuccession (sampleName 2)).toOption.any (fun s => (s.namespaces 2).isSome &&
      (s.visible 2 0).outputs.length = 1) = true := by decide +kernel
  obtain ⟨s, run, runs⟩ := ok_of_any runs
  simp only [Bool.and_eq_true, decide_eq_true_eq] at runs
  obtain ⟨n, found⟩ := Option.isSome_iff_exists.mp runs.1
  have reach := (sampleSuccession_reach run).2 (by decide) (by decide)
  exact ⟨s, n, run, found, runs.2, replays_safe reach found (Nat.zero_le _)⟩

/-- A segment opened over its own state hides that state's rows from whoever imports it, and not its total. -/
theorem sampleSuccession_unsafe : ∃ s, sampleSuccession (sampleName 1) = .ok s ∧ replays.Reach ⟨s, []⟩ ∧
    s.Holds ⟨3, 0⟩ ∧ ¬SafeHistory (s.visible 3 0) (s.total 3 0) := by
  have runs : (sampleSuccession (sampleName 1)).toOption.any (fun s => (s.namespaces 3).isSome &&
      s.total 3 0 (sampleName 3) ≠ (s.visible 3 0).supplied (sampleName 3)) = true := by decide +kernel
  obtain ⟨s, run, runs⟩ := ok_of_any runs
  simp only [Bool.and_eq_true, decide_eq_true_eq] at runs
  obtain ⟨n, found⟩ := Option.isSome_iff_exists.mp runs.1
  exact ⟨s, run, (sampleSuccession_reach run).1, ⟨n, found, Nat.zero_le _⟩, fun safe => runs.2 (safe.supply _).1⟩

end Sample

end Moe
