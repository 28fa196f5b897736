import Moe.Pool.KeptTipRuns

namespace Moe

open HashTree

section

variable [Crypto] {R : Type} {construction : Construction R} {kept : TipRows}

/-- A check that reaches the chains answers by them. -/
theorem keptTipHolds_of {lastValid : TipCheckpoint} {genesis : Bytes × Bytes} {found : Option (Bytes × Bytes)}
    (history : construction.genesisHistory kept.rows.segment = .ok genesis.1)
    (evidence : construction.genesisEvidence kept.rows.segment = .ok genesis.2)
    (chains : keptChains construction kept genesis = .ok found) (reached : kept.rows.position = lastValid.position)
    (name : kept.rows.keeps.name = construction.keeps.name) :
    keptTipHolds construction kept lastValid = .ok (found.any fun chains =>
      lastValid.totals.all (fun totals => kept.rows.total kept.rows.position totals.1 = totals.2) &&
        chains.1 = lastValid.historyHash && chains.2 = lastValid.evidenceHash && kept.rows.history = chains.1 &&
        kept.rows.evidence = chains.2) := by
  rw [keptTipHolds, if_neg (by rintro (other | other) <;> contradiction), history, evidence]
  show (keptChains construction kept genesis >>= _) = _
  rw [chains]
  cases found <;> rfl

/-- A tip whose recomputed history is not its own is refused under every checkpoint. -/
theorem keptTipHolds_refused {genesis : Bytes × Bytes} {found : Option (Bytes × Bytes)}
    (history : construction.genesisHistory kept.rows.segment = .ok genesis.1)
    (evidence : construction.genesisEvidence kept.rows.segment = .ok genesis.2)
    (chains : keptChains construction kept genesis = .ok found) (differs : ∀ pair ∈ found, pair.1 ≠ kept.rows.history)
    (lastValid : TipCheckpoint) : keptTipHolds construction kept lastValid = .ok false := by
  by_cases elsewhere : kept.rows.position ≠ lastValid.position ∨ kept.rows.keeps.name ≠ construction.keeps.name
  · rw [keptTipHolds, if_pos elsewhere]
  · rw [not_or, not_not, not_not] at elsewhere
    rw [keptTipHolds_of history evidence chains elsewhere.1 elsewhere.2]
    cases found with
    | none => rfl
    | some pair =>
      have other : ¬kept.rows.history = pair.1 := fun same => differs pair rfl same.symm
      simp [other]

theorem TipRows.Sound.chains_recomputed (sound : kept.Sound construction) (rootless : construction.Rootless) {genesis : Bytes × Bytes}
    (chains : kept.Chains construction genesis) :
    keptChains construction kept genesis = .ok (some (kept.rows.history, kept.rows.evidence)) := by
  obtain ⟨root, spentRoot⟩ := sound.roots
  rcases Nat.eq_zero_or_pos kept.rows.position with first | positive
  · obtain ⟨history, evidence⟩ := chains.first first
    rw [keptChains, if_pos first, history, evidence]
  · obtain ⟨event, before, found, -, earlier, history, evidence⟩ := chains.later positive
    cases tree : construction.keeps.tree with
    | true =>
      rw [keptChains_of tree positive sound.frontier found earlier spentRoot, root tree, Option.map_some, ← history, ← evidence]
    | false =>
      rw [rootless tree _ _ _ 0] at history
      rw [keptChains, if_neg positive.ne', keptNoteRoot, if_neg (by simp [tree]), found, earlier, history, evidence]
      simp only [bind, Except.bind, spentRoot]
      rfl

/-- The check accepts every tip under its own checkpoint. -/
theorem TipRows.Sound.accepts (sound : kept.Sound construction) (rootless : construction.Rootless) {lastValid : TipCheckpoint}
    (own : lastValid.Of kept.rows) : keptTipHolds construction kept lastValid = .ok true := by
  obtain ⟨genesis, chains⟩ := sound.chains
  rw [keptTipHolds_of chains.history chains.evidence (sound.chains_recomputed rootless chains) own.position.symm
    (congrArg NamespaceConstruction.name sound.keeps)]
  have totals : lastValid.totals.all (fun totals => kept.rows.total kept.rows.position totals.1 = totals.2) = true := by
    rw [Option.all_eq_true]
    exact fun totals member => decide_eq_true (own.totals totals member)
  simp [totals, own.history, own.evidence]

/-- The rows with another leaf count. -/
def TipRows.withLeaves (kept : TipRows) (leaves : Nat) : TipRows := { kept with rows := { kept.rows with leaves } }

/-- The rows with another note root stored. -/
def TipRows.withNoteRoot (kept : TipRows) (noteRoot : Nat) : TipRows := { kept with rows := { kept.rows with noteRoot } }

/-- The rows with another frontier packed. -/
def TipRows.withOmmers (kept : TipRows) (ommers : Bytes) : TipRows := { kept with ommers }

/-- A tip with another leaf count has no note root. -/
theorem TipRows.Sound.refuses_leaves (sound : kept.Sound construction) (tree : construction.keeps.tree = true)
    (positive : 0 < kept.rows.position) {leaves : Nat} (changed : leaves ≠ kept.rows.leaves) (lastValid : TipCheckpoint) :
    keptTipHolds construction (kept.withLeaves leaves) lastValid = .ok false := by
  obtain ⟨genesis, chains⟩ := sound.chains
  obtain ⟨event, before, found, -, earlier, -, -⟩ := chains.later positive
  obtain ⟨root, spentRoot⟩ := sound.roots
  have none_ : frontierRoot leaves kept.rows.ommers = none := by
    cases other : frontierRoot leaves kept.rows.ommers with
    | none => rfl
    | some root' => exact absurd (frontierRoot_leaves other (root tree)) changed
  have recomputed := @keptChains_of _ _ construction (kept.withLeaves leaves) _ genesis _ _ _ tree positive sound.frontier found earlier
    spentRoot
  have rootless : frontierRoot (kept.withLeaves leaves).rows.leaves kept.rows.ommers = none := none_
  rw [rootless, Option.map_none] at recomputed
  exact @keptTipHolds_refused _ _ construction (kept.withLeaves leaves) _ _ chains.history chains.evidence recomputed
    (fun _ none_ => by cases none_) lastValid

omit [Crypto] in
theorem storedTip_of (kept : TipRows) : (storedTip kept).Of kept.rows := ⟨rfl, rfl, rfl, fun _ none_ => by cases none_⟩

end

section Frames

variable [Crypto]

/-- What a pool-v3 history value is the hash of. -/
def historyFrame (previous statement : Bytes) (noteRoot : Nat) (spentRoot : Bytes) (position : Nat) : Bytes :=
  tag "moe/pool/v3/history" ++ previous ++ statement ++ fieldToBytes noteRoot ++ spentRoot ++ toBytes 8 position

omit [Crypto] in
/-- The history value before the tip's event. -/
def TipRows.previousHistory (kept : TipRows) (genesis : Bytes) : Option Bytes :=
  if kept.rows.position = 1 then some genesis else (kept.rows.event (kept.rows.position - 1)).map (·.history)

/-- The frame hashed for the tip's history over the root of a frontier. -/
def TipRows.historyFrames (kept : TipRows) (ommers : Ommers) : List Bytes :=
  (poolV3.genesisHistory kept.rows.segment).toOption.toList.flatMap fun genesis =>
    (kept.previousHistory genesis).toList.flatMap fun previous =>
      (kept.rows.event kept.rows.position).toList.flatMap fun event =>
        (frontierRoot kept.rows.leaves ommers).toList.map fun root =>
          historyFrame previous event.identity root kept.rows.spent.root kept.rows.position

/-- No frame hashed for a tip is confused with one hashed over another frontier. -/
structure TipRows.Apart (kept : TipRows) (ommers : Ommers) : Prop where
  frontier : ∀ x ∈ frontierFrames kept.rows.ommers, ∀ y ∈ frontierFrames ommers, poseidon2Hash x = poseidon2Hash y → x = y
  history : HashesApart (kept.historyFrames kept.rows.ommers) (kept.historyFrames ommers)

instance (first second : List Bytes) : Decidable (HashesApart first second) :=
  inferInstanceAs (Decidable (∀ x ∈ first, ∀ y ∈ second, sha256 x = sha256 y → x = y))

attribute [local irreducible] fieldToBytes

omit [Crypto] in
theorem historyFrame_inj {previous statement spentRoot : Bytes} {root root' position : Nat} (canonical : isField root = true)
    (canonical' : isField root' = true) (same : historyFrame previous statement root spentRoot position =
      historyFrame previous statement root' spentRoot position) : root = root' := by
  simp only [historyFrame, List.append_assoc] at same
  obtain ⟨roots, -⟩ := List.append_inj (List.append_cancel_left (List.append_cancel_left (List.append_cancel_left same)))
    ((fieldToBytes_width root).trans (fieldToBytes_width root').symm)
  rw [← ofBytes_fieldToBytes canonical, ← ofBytes_fieldToBytes canonical', roots]

omit [Crypto] in
theorem decodeOmmers_canonical {blob : Bytes} {ommers : Ommers} (read : decodeOmmers blob = .ok ommers) : ommers.Canonical := by
  intro value member
  obtain ⟨i, inside, same⟩ := List.mem_iff_getElem.mp member
  have slots := mapM_eq_ok.mp read
  have within : i < (List.range (noteTreeDepth + 1)).length := by rw [slots.length_eq]; exact inside
  have slot := (List.forall₂_iff_get.mp slots).2 i within inside
  simp only [List.get_eq_getElem, same] at slot
  unfold readSlot at slot
  split at slot
  · cases slot
  · obtain ⟨own, decoded, done⟩ := bind_eq_ok.mp slot
    obtain rfl := Option.some.inj (pure_eq_ok.mp done)
    simp only [bytesToField, requireField, bind_eq_ok, require_eq_ok, pure_eq_ok] at decoded
    obtain ⟨-, -, -, canonical, rfl⟩ := decoded
    exact canonical

theorem gather_isField {slot : Nat → Option Nat} {height root : Nat} (gathered : gather noteNode 0 slot height = some root) :
    isField root = true := by
  cases height with
  | zero => cases gathered
  | succ h =>
    rw [gather] at gathered
    obtain ⟨pair, -, rfl⟩ := Option.map_eq_some_iff.mp gathered
    exact Crypto.poseidon2Hash_isField _

theorem frontierRoot_isField {leaves root : Nat} {ommers : Ommers} (canonical : ommers.Canonical)
    (found : frontierRoot leaves ommers = some root) : isField root = true := by
  obtain ⟨-, top⟩ := frontierRoot_eq_some.mp found
  split at top
  · exact canonical root (List.mem_of_getElem? (Option.join_eq_some_iff.mp top.2))
  · obtain ⟨-, -, rfl⟩ := top
    cases gathered : gather noteNode 0 ommers.slot noteTreeDepth with
    | none => exact Crypto.poseidon2Hash_isField _
    | some node => exact gather_isField gathered

/-- A tip one of whose waiting nodes is another is refused. -/
theorem TipRows.Sound.refuses_ommers {kept : TipRows} (sound : kept.Sound poolV3) (positive : 0 < kept.rows.position) {blob : Bytes}
    {ommers : Ommers} (read : decodeOmmers blob = .ok ommers) {h value : Nat} (held : kept.rows.ommers.slot h = some value)
    (changed : ommers.slot h ≠ some value) (apart : kept.Apart ommers) (lastValid : TipCheckpoint) :
    keptTipHolds poolV3 (kept.withOmmers blob) lastValid = .ok false := by
  obtain ⟨genesis, chains⟩ := sound.chains
  obtain ⟨event, before, found, -, earlier, history, -⟩ := chains.later positive
  obtain ⟨root, spentRoot⟩ := sound.roots
  have recomputed := @keptChains_of _ _ poolV3 (kept.withOmmers blob) _ genesis _ _ _ rfl positive read found earlier spentRoot
  refine @keptTipHolds_refused _ _ poolV3 (kept.withOmmers blob) _ _ chains.history chains.evidence recomputed ?_ lastValid
  intro pair member same
  obtain ⟨root', other, rfl⟩ := Option.map_eq_some_iff.mp member
  have previous : kept.previousHistory genesis.1 = some before.1 := by
    unfold chainsBefore at earlier
    unfold TipRows.previousHistory
    split at earlier
    · rename_i first
      obtain rfl := Option.some.inj earlier
      rw [if_pos first]
    · rename_i later
      obtain ⟨row, seen, rfl⟩ := Option.map_eq_some_iff.mp earlier
      rw [if_neg later, seen]
      rfl
  have frames : ∀ (front : Ommers) (root : Nat), frontierRoot kept.rows.leaves front = some root →
      historyFrame before.1 event.identity root kept.rows.spent.root kept.rows.position ∈ kept.historyFrames front := by
    intro front root rooted
    rw [TipRows.historyFrames, chains.history]
    simp [Except.toOption, previous, found, rooted]
  have equal := apart.history _ (frames _ _ (root rfl)) _ (frames _ _ other) (history.symm.trans same.symm)
  have roots := historyFrame_inj (frontierRoot_isField (decodeOmmers_canonical sound.frontier) (root rfl))
    (frontierRoot_isField (decodeOmmers_canonical read) other) equal
  rw [← roots] at other
  have inside : h ≤ noteTreeDepth := by
    by_contra above
    obtain ⟨outputs, notes, -, -⟩ := sound.notes rfl
    rw [Ommers.slot, List.getElem?_eq_none (by have length := notes.ommers.length; omega)] at held
    cases held
  exact changed ((frontierRoot_inj apart.frontier (root rfl) other h inside).symm.trans held)

/-- What the rows of a pool-v3 namespace recompute, and what its tip's check tells: it accepts the tip under its own checkpoint, and
refuses another leaf count or another waiting node; the stored note root it does not read. -/
structure TipRows.Recomputed (kept : TipRows) : Prop where
  noteRoot : decodeOmmers kept.ommers = .ok kept.rows.ommers ∧ frontierRoot kept.rows.leaves kept.rows.ommers = some kept.rows.noteRoot
  spentRoot : kept.spent.rootFromChildren = .ok kept.rows.spent.root ∧ kept.spent.root = .ok kept.rows.spent.root
  accepted : ∀ lastValid : TipCheckpoint, lastValid.Of kept.rows → keptTipHolds poolV3 kept lastValid = .ok true
  leaves : 0 < kept.rows.position → ∀ leaves ≠ kept.rows.leaves, ∀ lastValid,
    keptTipHolds poolV3 (kept.withLeaves leaves) lastValid = .ok false
  ommers : 0 < kept.rows.position → ∀ blob ommers h value, decodeOmmers blob = .ok ommers → kept.rows.ommers.slot h = some value →
    ommers.slot h ≠ some value → kept.Apart ommers → ∀ lastValid, keptTipHolds poolV3 (kept.withOmmers blob) lastValid = .ok false
  unread : ∀ noteRoot lastValid,
    keptTipHolds poolV3 (kept.withNoteRoot noteRoot) lastValid = keptTipHolds poolV3 kept lastValid

theorem poolV3_rootless : poolV3.Rootless := fun treeless => by cases treeless

theorem TipRows.Sound.recomputed {kept : TipRows} (sound : kept.Sound poolV3) : kept.Recomputed where
  noteRoot := ⟨sound.frontier, sound.roots.1 rfl⟩
  spentRoot := ⟨sound.roots.2, by rw [← sound.spent.rootFromChildren, sound.roots.2]⟩
  accepted _ own := sound.accepts poolV3_rootless own
  leaves positive _ changed lastValid := sound.refuses_leaves rfl positive changed lastValid
  ommers positive _ _ _ _ read held changed apart lastValid := sound.refuses_ommers positive read held changed apart lastValid
  unread _ _ := rfl

variable [PublicKeys]

theorem lit_rootless : Lit.lit.Rootless := fun _ _ _ _ _ _ _ => rfl

/-- A kept tip's roots can be recomputed: a frontier's blob reads back, the frontier and the stored nodes have the stored roots, and the
check answers by them. -/
theorem kept_tip_recomputed :
    (∀ ommers : Ommers, ommers.length = noteTreeDepth + 1 → ommers.Canonical → ∃ blob, encodeOmmers ommers = .ok blob ∧
      decodeOmmers blob = .ok ommers ∧ decodeOmmers (blob.take (33 * noteTreeDepth)) = .ok (ommers.set noteTreeDepth none)) ∧
    (∀ (keys : List Nat) table, (∀ key ∈ keys, key < keyBound) → SpentTable.insertAll {} (keys.map (toBytes 32)) = .ok table →
      table.rootFromChildren = table.root) ∧
    (∀ {R : Type} {s later : Store} {state : SegmentState R} {bytes : Bytes} {replay : SegmentReplay} {record : R} {n : Namespace}
      {effects : Append} {spent : SpentSet} {demand : Option StoredDemand},
      Applied s state bytes replay record n effects spent demand later →
      (judgedView s state record).digests.statementHash = (judgedView s state record).identity →
      effects.Chained state.construction n) ∧
    (∀ ns kept, TipRun poolV3 ns kept → kept.Recomputed) ∧
    ∀ ns kept, TipRun Lit.lit ns kept → ∀ lastValid : TipCheckpoint, lastValid.Of kept.rows →
      keptTipHolds Lit.lit kept lastValid = .ok true := by
  refine ⟨fun _ length canonical => decodeOmmers_encodeOmmers length canonical, fun keys table bound run => ?_,
    fun applied named => applied.chained named, fun _ _ run => run.sound.recomputed, fun _ _ run _ own => run.sound.accepts lit_rootless own⟩
  exact (SpentTable.holds_empty.of_insertAll bound run).rootFromChildren

end Frames

section Sample

local instance tipCrypto : Crypto := sampleCrypto

local instance tipKeys : PublicKeys := ⟨fun _ => False⟩

/-- A record at a namespace's tip: three notes, and two nullifiers. -/
def sampleTipRecord (n : Namespace) : Append where
  identity := toBytes 32 7
  kind := 1
  index := none
  record := []
  proofHash := toBytes 32 8
  signatureHash := toBytes 32 9
  evidence := poolV3.nextEvidence n.evidence ⟨toBytes 32 7, toBytes 32 8, toBytes 32 9⟩ (n.position + 1)
  supply := none
  nullifiers := [⟨1, 1⟩, ⟨2, 2⟩]
  outputs := [⟨11, none, false, none⟩, ⟨12, none, false, none⟩, ⟨13, none, false, none⟩]
  demand := none
  ended := none
  keys := []
  history noteRoot spentRoot := poolV3.nextHistory n.history (toBytes 32 7) noteRoot spentRoot (n.position + 1)

theorem sampleTipRecord_chained (n : Namespace) : (sampleTipRecord n).Chained poolV3 n := ⟨fun _ _ => rfl, rfl⟩

def sampleTipRun : Except Failure TipRows := do
  let history ← poolV3.genesisHistory (toBytes 32 1)
  let evidence ← poolV3.genesisEvidence (toBytes 32 1)
  let kept ← TipRows.opened .empty (toBytes 32 1) (toBytes 32 2) .empty history evidence poolV3Namespace
  kept.append 0 (sampleTipRecord kept.rows)

theorem sampleTipRun_run {kept : TipRows} (ran : sampleTipRun = .ok kept) : TipRun poolV3 0 kept ∧ kept.rows.position = 1 := by
  obtain ⟨history, first, ran⟩ := bind_eq_ok.mp ran
  obtain ⟨evidence, second, ran⟩ := bind_eq_ok.mp ran
  obtain ⟨fresh, opened, appended⟩ := bind_eq_ok.mp ran
  have start : TipRun poolV3 0 fresh := .opened first second opened
  obtain ⟨ommers, held, spent, -, -, -, rfl⟩ := TipRows.opened_eq_ok.mp opened
  refine ⟨.append start (sampleTipRecord_chained _) (fun _ => by show 0 + 3 ≤ noteTreeCapacity; decide) appended, ?_⟩
  obtain ⟨before, rows, table, packed, -, written, -, -, rfl⟩ := TipRows.append_eq_ok.mp appended
  obtain ⟨-, spent, demand, ended, -, -, -, rfl⟩ := Namespace.append_eq_ok.mp written
  rfl

/-- The frontier of three leaves with the lower waiting node another. -/
def sampleOtherOmmers : Ommers := some 14 :: some (noteNode 0 11 12) :: List.replicate 31 none

def sampleOtherBlob : Bytes := (encodeOmmers sampleOtherOmmers).toOption.getD []

theorem sampleOtherBlob_read : decodeOmmers sampleOtherBlob = .ok sampleOtherOmmers := by decide +kernel

theorem sampleTipRun_ok : ∃ kept, sampleTipRun = .ok kept ∧ (kept.rows.leaves = 3 ∧ kept.rows.ommers.slot 0 = some 13) ∧
    (∀ x ∈ frontierFrames kept.rows.ommers, ∀ y ∈ frontierFrames sampleOtherOmmers, poseidon2Hash x = poseidon2Hash y → x = y) ∧
      HashesApart (kept.historyFrames kept.rows.ommers) (kept.historyFrames sampleOtherOmmers) := by
  have made : sampleTipRun.toOption.any (fun kept => decide ((kept.rows.leaves = 3 ∧ kept.rows.ommers.slot 0 = some 13) ∧
      (∀ x ∈ frontierFrames kept.rows.ommers, ∀ y ∈ frontierFrames sampleOtherOmmers, poseidon2Hash x = poseidon2Hash y → x = y) ∧
        HashesApart (kept.historyFrames kept.rows.ommers) (kept.historyFrames sampleOtherOmmers))) = true := by decide +kernel
  obtain ⟨kept, ran, told⟩ := ok_of_any made
  exact ⟨kept, ran, of_decide_eq_true told⟩

/-- A tip after a record, whatever note root its row stores, is accepted. -/
theorem stored_note_root_unread : ∃ kept noteRoot, TipRun poolV3 0 kept ∧ noteRoot ≠ kept.rows.noteRoot ∧
    keptTipHolds poolV3 (kept.withNoteRoot noteRoot) (storedTip (kept.withNoteRoot noteRoot)) = .ok true := by
  obtain ⟨kept, ran, -⟩ := sampleTipRun_ok
  have run := (sampleTipRun_run ran).1
  refine ⟨kept, kept.rows.noteRoot + 1, run, Nat.succ_ne_self _, ?_⟩
  exact (run.sound.recomputed.unread _ _).trans (run.sound.recomputed.accepted _ (storedTip_of kept))

theorem kept_tip_recomputed_sample : ∃ kept, TipRun poolV3 0 kept ∧ kept.Recomputed ∧
    (∀ lastValid, keptTipHolds poolV3 (kept.withLeaves 4) lastValid = .ok false) ∧
    ∀ lastValid, keptTipHolds poolV3 (kept.withOmmers sampleOtherBlob) lastValid = .ok false := by
  obtain ⟨kept, ran, ⟨leaves, held⟩, frontier, history⟩ := sampleTipRun_ok
  obtain ⟨run, first⟩ := sampleTipRun_run ran
  have positive : 0 < kept.rows.position := by omega
  have recomputed := kept_tip_recomputed.2.2.2.1 0 kept run
  refine ⟨kept, run, recomputed, recomputed.leaves positive 4 (by omega), ?_⟩
  exact recomputed.ommers positive sampleOtherBlob sampleOtherOmmers 0 13 sampleOtherBlob_read held (by decide) ⟨frontier, history⟩

end Sample

end Moe
