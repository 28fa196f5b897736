import Moe.Lit.Construction
import Moe.Pool.Adoption
import Moe.Pool.HistoricalReads
import Moe.Pool.KeptTipRoots
import Moe.Pool.Known

namespace Moe

variable [Crypto] {R : Type}

/-- A record whose chain values go on from a namespace's. -/
structure Append.Chained (construction : Construction R) (n : Namespace) (record : Append) : Prop where
  history : ∀ noteRoot spentRoot, record.history noteRoot spentRoot =
    construction.nextHistory n.history record.identity noteRoot spentRoot (n.position + 1)
  evidence : record.evidence =
    construction.nextEvidence n.evidence ⟨record.identity, record.proofHash, record.signatureHash⟩ (n.position + 1)

/-- A record judged in a state is written with the chain values after the state's. -/
theorem Applied.chained {s later : Store} {state : SegmentState R} {bytes : Bytes} {replay : SegmentReplay} {record : R} {n : Namespace}
    {effects : Append} {spent : SpentSet} {demand : Option StoredDemand}
    (applied : Applied s state bytes replay record n effects spent demand later)
    (named : (judgedView s state record).digests.statementHash = (judgedView s state record).identity) :
    effects.Chained state.construction n := by
  have position := SegmentState.position applied.found
  obtain ⟨tags, -, outputs, -, rfl⟩ : ∃ tags, _ ∧ ∃ outputs, _ ∧ _ = effects := by
    have ran := applied.ran
    simp only [Judged.effects, bind_eq_ok, pure_eq_ok] at ran
    exact ran
  refine ⟨fun noteRoot spentRoot => ?_, ?_⟩
  · show state.construction.nextHistory n.history _ noteRoot spentRoot (state.handle.position s + 1) = _
    rw [position]
  · show state.construction.nextEvidence n.evidence (judgedView s state record).digests (state.handle.position s + 1) = _
    rw [position]
    congr 1
    show (judgedView s state record).digests = ⟨(judgedView s state record).identity, _, _⟩
    rw [← named]
    rfl

/-- A namespace's rows from its opening on, through the records written at its tip. -/
inductive TipRun (construction : Construction R) (ns : Nat) : TipRows → Prop
  | opened {s : Store} {segment identity history evidence : Bytes} {imports : Imports} {kept : TipRows} :
      construction.genesisHistory segment = .ok history → construction.genesisEvidence segment = .ok evidence →
      TipRows.opened s segment identity imports history evidence construction.keeps = .ok kept → TipRun construction ns kept
  | append {kept later : TipRows} {record : Append} : TipRun construction ns kept → record.Chained construction kept.rows →
      (construction.keeps.tree = true → kept.rows.leaves + record.outputs.length ≤ noteTreeCapacity) →
      kept.append ns record = .ok later → TipRun construction ns later

/-- The tip's chain values are those after its event's, the genesis ones where there is none. -/
structure TipRows.Chains (construction : Construction R) (kept : TipRows) (genesis : Bytes × Bytes) : Prop where
  history : construction.genesisHistory kept.rows.segment = .ok genesis.1
  evidence : construction.genesisEvidence kept.rows.segment = .ok genesis.2
  first : kept.rows.position = 0 → kept.rows.history = genesis.1 ∧ kept.rows.evidence = genesis.2
  later : 0 < kept.rows.position → ∃ event before, kept.rows.event kept.rows.position = some event ∧
    (event.history = kept.rows.history ∧ event.evidence = kept.rows.evidence) ∧ chainsBefore kept genesis = some before ∧
    kept.rows.history =
      construction.nextHistory before.1 event.identity kept.rows.noteRoot kept.rows.spent.root kept.rows.position ∧
    kept.rows.evidence =
      construction.nextEvidence before.2 ⟨event.identity, event.proofHash, event.signatureHash⟩ kept.rows.position

/-- What a namespace's rows keep from its opening on. -/
structure TipRows.Sound (construction : Construction R) (kept : TipRows) : Prop where
  keeps : kept.rows.keeps = construction.keeps
  frontier : decodeOmmers kept.ommers = .ok kept.rows.ommers
  treeless : construction.keeps.tree = false → kept.rows.ommers = emptyOmmers
  notes : construction.keeps.tree = true → ∃ outputs, kept.rows.NotesKept outputs ∧ outputs.length ≤ noteTreeCapacity ∧
    kept.rows.ommers.Standing outputs.length
  set : kept.rows.spent.Sound
  spent : kept.spent.Holds kept.rows.spent.keys.toFinset
  chains : ∃ genesis, kept.Chains construction genesis

omit [Crypto] in
theorem emptyOmmers_canonical : Ommers.Canonical emptyOmmers := by
  intro value member
  cases (List.mem_replicate.mp member).2

theorem SpentSet.Sound.insertAll {set grown : SpentSet} {keys : List Nat} (sound : set.Sound) (run : set.insertAll keys = .ok grown) :
    grown.Sound := foldlM_keeps (fun _ _ _ _ sound run => sound.insert run) run sound

theorem SpentSet.sound_none : SpentSet.Sound none := ⟨fun _ member => absurd member List.not_mem_nil, fun _ none_ => by cases none_⟩

/-- Nodes stored for the keys a spent set takes hold what it holds. -/
theorem SpentTable.Holds.replayed {table grown : SpentTable} {set after : SpentSet} {keys : List Nat} (holds : table.Holds set.keys.toFinset)
    (sound : set.Sound) (inserted : set.insertAll keys = .ok after) (stored : table.insertAll (keys.map (toBytes 32)) = .ok grown) :
    grown.Holds after.keys.toFinset := by
  have members := SpentSet.insertAll_keys inserted
  have bound : ∀ key ∈ keys, key < keyBound := fun key member =>
    (sound.insertAll inserted).1 key ((members key).mpr (Or.inl member))
  have union : after.keys.toFinset = set.keys.toFinset ∪ keys.toFinset := by
    ext key
    rw [Finset.mem_union, List.mem_toFinset, List.mem_toFinset, List.mem_toFinset, members]
    exact Or.comm
  rw [union]
  exact holds.of_insertAll bound stored

theorem TipRows.opened_eq_ok {s : Store} {segment identity history evidence : Bytes} {imports : Imports} {keeps : NamespaceConstruction}
    {kept : TipRows} : TipRows.opened s segment identity imports history evidence keeps = .ok kept ↔
      ∃ ommers held spent, encodeOmmers [] = .ok ommers ∧ SpentSet.insertAll none (s.importedNullifiers imports) = .ok held ∧
        SpentTable.insertAll {} ((s.importedNullifiers imports).map (toBytes 32)) = .ok spent ∧
        kept = ⟨s.fresh segment identity imports history evidence keeps held, ommers, spent⟩ := by
  simp only [TipRows.opened, bind_eq_ok, pure_eq_ok]
  constructor
  · rintro ⟨ommers, packed, held, taken, spent, stored, rfl⟩
    exact ⟨ommers, held, spent, packed, taken, stored, rfl⟩
  · rintro ⟨ommers, held, spent, packed, taken, stored, rfl⟩
    exact ⟨ommers, packed, held, taken, spent, stored, rfl⟩

theorem TipRows.append_eq_ok {kept later : TipRows} {ns : Nat} {record : Append} : kept.append ns record = .ok later ↔
    ∃ before rows spent ommers, decodeOmmers kept.ommers = .ok before ∧ kept.rows.append ns record = .ok rows ∧
      kept.spent.insertAll (record.nullifiers.map fun spend => toBytes 32 spend.nf) = .ok spent ∧
      encodeOmmers (if kept.rows.keeps.tree then
        (appendNotes (record.outputs.map (·.cm)) before kept.rows.leaves kept.rows.noteRoot).ommers else before) = .ok ommers ∧
      later = ⟨rows, ommers, spent⟩ := by
  simp only [TipRows.append, bind_eq_ok, pure_eq_ok]
  constructor
  · rintro ⟨before, read, rows, written, spent, stored, ommers, packed, rfl⟩
    exact ⟨before, rows, spent, ommers, read, written, stored, packed, rfl⟩
  · rintro ⟨before, rows, spent, ommers, read, written, stored, packed, rfl⟩
    exact ⟨before, read, rows, written, spent, stored, ommers, packed, rfl⟩

theorem TipRows.Sound.opened {construction : Construction R} {s : Store} {segment identity history evidence : Bytes} {imports : Imports}
    {kept : TipRows} (first : construction.genesisHistory segment = .ok history) (second : construction.genesisEvidence segment = .ok evidence)
    (run : TipRows.opened s segment identity imports history evidence construction.keeps = .ok kept) : kept.Sound construction := by
  obtain ⟨ommers, held, spent, packed, taken, stored, rfl⟩ := TipRows.opened_eq_ok.mp run
  obtain ⟨blob, written, read⟩ := decodeOmmers_opened
  obtain rfl := Except.ok.inj (packed.symm.trans written)
  refine ⟨rfl, read, fun _ => rfl, fun tree => ⟨[], .fresh tree, Nat.zero_le _, standing_empty⟩, SpentSet.sound_none.insertAll taken,
    SpentTable.holds_empty.replayed SpentSet.sound_none taken stored, (history, evidence), first, second, fun _ => ⟨rfl, rfl⟩, ?_⟩
  intro positive
  exact absurd positive (Nat.lt_irrefl 0)

/-- The tip's chains after a record that goes on from them. -/
theorem TipRows.Chains.append {construction : Construction R} {kept : TipRows} {genesis : Bytes × Bytes} {ns : Nat} {record : Append}
    {spent : SpentSet} {demand : Option StoredDemand} {ommers : Bytes} {table : SpentTable} (chains : kept.Chains construction genesis)
    (chained : record.Chained construction kept.rows) :
    TipRows.Chains construction ⟨kept.rows.written ns record spent demand, ommers, table⟩ genesis := by
  refine ⟨chains.history, chains.evidence, fun none_ => absurd none_ (Nat.succ_ne_zero _), fun _ => ?_⟩
  have before : chainsBefore ⟨kept.rows.written ns record spent demand, ommers, table⟩ genesis =
      some (kept.rows.history, kept.rows.evidence) := by
    show (if kept.rows.position + 1 = 1 then some genesis
      else ((kept.rows.written ns record spent demand).event kept.rows.position).map fun before => (before.history, before.evidence)) = _
    rcases Nat.eq_zero_or_pos kept.rows.position with first | later
    · obtain ⟨history, evidence⟩ := chains.first first
      rw [if_pos (by omega), history, evidence]
    · obtain ⟨event, -, found, ⟨history, evidence⟩, -⟩ := chains.later later
      have earlier := (kept.rows.written_grown ns record spent demand).event (Nat.le_refl kept.rows.position)
      rw [if_neg (by omega), earlier, found, Option.map_some, history, evidence]
  refine ⟨kept.rows.eventOf record spent, _, kept.rows.written_event ns record spent demand, ⟨rfl, rfl⟩, before, ?_, chained.evidence⟩
  exact chained.history _ _

theorem TipRows.Sound.append {construction : Construction R} {kept later : TipRows} (sound : kept.Sound construction) {ns : Nat}
    {record : Append} (chained : record.Chained construction kept.rows)
    (room : construction.keeps.tree = true → kept.rows.leaves + record.outputs.length ≤ noteTreeCapacity)
    (run : kept.append ns record = .ok later) : later.Sound construction := by
  obtain ⟨before, rows, table, ommers, read, written, stored, packed, rfl⟩ := TipRows.append_eq_ok.mp run
  obtain rfl := Except.ok.inj (sound.frontier.symm.trans read)
  obtain ⟨-, spent, demand, ended, spending, -, -, rfl⟩ := Namespace.append_eq_ok.mp written
  obtain ⟨genesis, chains⟩ := sound.chains
  have inserted := Namespace.spend_inserted spending
  have keys : (record.nullifiers.map fun spend => toBytes 32 spend.nf) = (record.nullifiers.map (·.nf)).map (toBytes 32) := by
    simp only [List.map_map, Function.comp_def]
  rw [keys] at stored
  have packs : ∀ after : Ommers, encodeOmmers after = .ok ommers → after.length = noteTreeDepth + 1 → after.Canonical →
      decodeOmmers ommers = .ok after := by
    intro after packed length canonical
    obtain ⟨blob, wrote, read, -⟩ := decodeOmmers_encodeOmmers length canonical
    obtain rfl := Except.ok.inj (packed.symm.trans wrote)
    exact read
  have rest : (kept.rows.written ns record spent demand).spent.Sound ∧ table.Holds spent.keys.toFinset :=
    ⟨sound.set.insertAll inserted, sound.spent.replayed sound.set inserted stored⟩
  rw [sound.keeps] at packed
  have outputs_ : (kept.rows.written ns record spent demand).ommers = (kept.rows.appendOutputs (record.outputs.map (·.cm))).ommers := rfl
  cases tree : construction.keeps.tree with
  | false =>
    have same : (kept.rows.written ns record spent demand).ommers = kept.rows.ommers := by
      rw [outputs_, Namespace.appendOutputs, sound.keeps, tree]
      rfl
    have empty := sound.treeless tree
    rw [if_neg (by simp [tree]), empty] at packed
    refine ⟨sound.keeps, ?_, fun _ => same.trans empty, fun treed => by simp [tree] at treed, rest.1, rest.2, genesis, chains.append chained⟩
    rw [same, empty]
    exact packs _ packed (by rw [emptyOmmers, List.length_replicate]) emptyOmmers_canonical
  | true =>
    obtain ⟨outputs, notes, -, stands⟩ := sound.notes tree
    have fits : outputs.length + record.outputs.length ≤ noteTreeCapacity := notes.leaves ▸ room tree
    have after := notes.append fits written
    have within : outputs.length + (record.outputs.map (·.cm)).length ≤ noteTreeCapacity := by
      rw [List.length_map]
      exact fits
    have taken := stands.appended notes.ommers within kept.rows.noteRoot
    have same : (kept.rows.written ns record spent demand).ommers =
        (appendNotes (record.outputs.map (·.cm)) kept.rows.ommers outputs.length kept.rows.noteRoot).ommers := by
      rw [outputs_, Namespace.appendOutputs, sound.keeps, tree, if_pos rfl, notes.leaves]
    rw [← List.length_append, ← same] at taken
    rw [if_pos tree, notes.leaves, ← same] at packed
    refine ⟨sound.keeps, packs _ packed after.ommers.length (after.ommers.canonical taken after.fields), fun none_ => by simp [tree] at none_,
      fun _ => ⟨_, after, ?_, taken⟩, rest.1, rest.2, genesis, chains.append chained⟩
    rw [List.length_append, List.length_map]
    exact fits

/-- Whatever records were written, the rows are sound. -/
theorem TipRun.sound {construction : Construction R} {ns : Nat} {kept : TipRows} (run : TipRun construction ns kept) :
    kept.Sound construction := by
  induction run with
  | opened first second opened => exact .opened first second opened
  | append _ chained room appended ih => exact ih.append chained room appended

/-- A chain that reads no note root where there is no note tree. -/
def Construction.Rootless (construction : Construction R) : Prop :=
  construction.keeps.tree = false → ∀ previous identity root root' spentRoot position,
    construction.nextHistory previous identity root spentRoot position = construction.nextHistory previous identity root' spentRoot position

/-- The checkpoint is the tip's own: its position, its chain values and, where it has any, its totals. -/
structure TipCheckpoint.Of (lastValid : TipCheckpoint) (n : Namespace) : Prop where
  position : lastValid.position = n.position
  history : lastValid.historyHash = n.history
  evidence : lastValid.evidenceHash = n.evidence
  totals : ∀ totals ∈ lastValid.totals, n.total n.position totals.1 = totals.2

/-- The stored roots are those recomputed. -/
theorem TipRows.Sound.roots {construction : Construction R} {kept : TipRows} (sound : kept.Sound construction) :
    (construction.keeps.tree = true → frontierRoot kept.rows.leaves kept.rows.ommers = some kept.rows.noteRoot) ∧
      kept.spent.rootFromChildren = .ok kept.rows.spent.root := by
  refine ⟨fun tree => ?_, ?_⟩
  · obtain ⟨outputs, notes, room, stands⟩ := sound.notes tree
    rw [notes.leaves, notes.root]
    exact notes.ommers.frontierRoot stands room
  · rw [sound.spent.rootFromChildren, sound.spent.root, sound.set.root]

/-- The chains recomputed over a frontier with some root. -/
theorem keptChains_of {construction : Construction R} {kept : TipRows} {ommers : Ommers} {genesis before : Bytes × Bytes} {event : StoredEvent}
    {spentRoot : Bytes} (tree : construction.keeps.tree = true) (positive : 0 < kept.rows.position)
    (read : decodeOmmers kept.ommers = .ok ommers) (found : kept.rows.event kept.rows.position = some event)
    (earlier : chainsBefore kept genesis = some before) (spent : kept.spent.rootFromChildren = .ok spentRoot) :
    keptChains construction kept genesis = .ok ((frontierRoot kept.rows.leaves ommers).map fun root =>
      (construction.nextHistory before.1 event.identity root spentRoot kept.rows.position,
        construction.nextEvidence before.2 ⟨event.identity, event.proofHash, event.signatureHash⟩ kept.rows.position)) := by
  rw [keptChains, if_neg positive.ne', keptNoteRoot, if_pos tree, read, found, earlier]
  cases root : frontierRoot kept.rows.leaves ommers with
  | none => simp [bind, Except.bind, pure, Except.pure, root]
  | some root => simp [bind, Except.bind, pure, Except.pure, root, spent]

end Moe
