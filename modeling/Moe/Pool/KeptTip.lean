import Moe.Lib.FrontierRoot
import Moe.Pool.NoteRun
import Moe.Pool.SpentCanonical
import Moe.Writing

namespace Moe

open SpentTable

/-- A frontier's blob: a slot is a flag byte and, where a subtree waits, its node's bytes. -/
def writeSlot (out : Bytes) (slot : Option Nat × Nat) : Except Failure Bytes :=
  match slot.1 with
  | none => .ok out
  | some value => do
    let own ← requireField value "field element"
    setAt (out.set (33 * slot.2) 1) (fieldToBytes own) (33 * slot.2 + 1)

def encodeOmmers (ommers : Ommers) : Except Failure Bytes :=
  ommers.zipIdx.foldlM writeSlot (List.replicate (33 * (noteTreeDepth + 1)) 0)

/-- A row written before the last slot existed reads it absent. -/
def readSlot (blob : Bytes) (h : Nat) : Except Failure (Option Nat) :=
  if blob.length < 33 * h + 33 ∨ blob[33 * h]? = some 0 then .ok none
  else do
    let value ← bytesToField ((blob.drop (33 * h + 1)).take 32)
    return some value

def decodeOmmers (blob : Bytes) : Except Failure Ommers := (List.range (noteTreeDepth + 1)).mapM (readSlot blob)

variable [Crypto]

/-- The slot's waiting subtree, where it holds one. -/
def Ommers.slot (ommers : Ommers) (h : Nat) : Option Nat := ommers[h]?.join

/-- One height of the fold, the node below it so far: nothing where the slot and the leaf count's bit disagree. -/
def frontierStep (leaves : Nat) (ommers : Ommers) (below : Option Nat) (h : Nat) : Option (Option Nat) :=
  if (ommers.slot h).isSome = leaves.testBit h then
    match ommers.slot h, below with
    | some left, below => some (some (noteNode h left (below.getD (emptyNoteSubtree h))))
    | none, some held => some (some (noteNode h held (emptyNoteSubtree h)))
    | none, none => some none
  else none

/-- The note root of a stored frontier: each completed left subtree folded with what lies to its right. A full tree has none
waiting: its root is the stored whole tree. -/
def frontierRoot (leaves : Nat) (ommers : Ommers) : Option Nat := do
  let below ← (List.range noteTreeDepth).foldlM (frontierStep leaves ommers) none
  let full := ommers.slot noteTreeDepth
  if leaves = noteTreeCapacity then if below.isNone then full else none
  else if leaves >>> noteTreeDepth ≠ 0 ∨ full.isSome then none
  else some (below.getD emptyNoteRoot)

/-- The spent root recomputed from the top node's stored children. -/
def SpentTable.rootFromChildren (table : SpentTable) : Except Failure Bytes :=
  match table.top with
  | none => .ok emptySpent
  | some top => do
    let node ← table.get top
    match node.bit with
    | none => return sha256 (tag "moe/pool/v3/spent/leaf" ++ node.key)
    | some bit => do
      let left ← known node.l
      let leftRow ← table.get left
      let right ← known node.r
      let rightRow ← table.get right
      return spentBranchHash bit leftRow.hash rightRow.hash

/-- A namespace with the columns its row packs: the frontier as one blob, the spent set as stored nodes. -/
structure TipRows where
  rows : Namespace
  ommers : Bytes
  spent : SpentTable

namespace TipRows

/-- A fresh namespace's rows: an empty frontier, and the imported nullifiers' nodes. -/
def opened (s : Store) (segment identity : Bytes) (imports : Imports) (history evidence : Bytes) (keeps : NamespaceConstruction) :
    Except Failure TipRows := do
  let ommers ← encodeOmmers []
  let held ← SpentSet.insertAll none (s.importedNullifiers imports)
  let spent ← SpentTable.insertAll {} ((s.importedNullifiers imports).map (toBytes 32))
  return { rows := s.fresh segment identity imports history evidence keeps held, ommers, spent }

/-- Write one judged record at the tip: its rows, and the packed columns after it. -/
def append (kept : TipRows) (ns : Nat) (record : Append) : Except Failure TipRows := do
  let before ← decodeOmmers kept.ommers
  let rows ← kept.rows.append ns record
  let spent ← kept.spent.insertAll (record.nullifiers.map fun spend => toBytes 32 spend.nf)
  let after := if kept.rows.keeps.tree then
    (appendNotes (record.outputs.map (·.cm)) before kept.rows.leaves kept.rows.noteRoot).ommers else before
  let ommers ← encodeOmmers after
  return { rows, ommers, spent }

end TipRows

/-- What of a valid checkpoint the snapshot check reads. -/
structure TipCheckpoint where
  position : Nat
  historyHash : Bytes
  evidenceHash : Bytes
  totals : Option (Bytes × Totals)

section

variable {R : Type} (construction : Construction R) (kept : TipRows)

/-- Both chains' values before the tip's event: the genesis ones at the first. -/
def chainsBefore (genesis : Bytes × Bytes) : Option (Bytes × Bytes) :=
  if kept.rows.position = 1 then some genesis
  else (kept.rows.event (kept.rows.position - 1)).map fun before => (before.history, before.evidence)

/-- The note root recomputed from the stored frontier; a construction without a note tree has none. -/
def keptNoteRoot : Except Failure (Option Nat) :=
  if construction.keeps.tree then do
    let ommers ← decodeOmmers kept.ommers
    return frontierRoot kept.rows.leaves ommers
  else .ok (some 0)

/-- Both chains' values at the tip, from those before its event. -/
def keptChains (genesis : Bytes × Bytes) : Except Failure (Option (Bytes × Bytes)) :=
  if kept.rows.position = 0 then .ok (some genesis)
  else do
    let noteRoot ← keptNoteRoot construction kept
    match kept.rows.event kept.rows.position, chainsBefore kept genesis, noteRoot with
    | some event, some before, some root => do
      let spentRoot ← kept.spent.rootFromChildren
      return some (construction.nextHistory before.1 event.identity root spentRoot kept.rows.position,
        construction.nextEvidence before.2 ⟨event.identity, event.proofHash, event.signatureHash⟩ kept.rows.position)
    | _, _, _ => return none

/-- The snapshot check before resuming: the roots and both chains recomputed against the checkpoint's. -/
def keptTipHolds (lastValid : TipCheckpoint) : Except Failure Bool :=
  if kept.rows.position ≠ lastValid.position ∨ kept.rows.keeps.name ≠ construction.keeps.name then .ok false
  else do
    let history ← construction.genesisHistory kept.rows.segment
    let evidence ← construction.genesisEvidence kept.rows.segment
    match ← keptChains construction kept (history, evidence) with
    | none => return false
    | some chains =>
      return lastValid.totals.all (fun totals => kept.rows.total kept.rows.position totals.1 = totals.2) &&
        chains.1 = lastValid.historyHash && chains.2 = lastValid.evidenceHash && kept.rows.history = chains.1 &&
        kept.rows.evidence = chains.2

/-- The tip's own chain values in the snapshot's place. -/
def storedTip : TipCheckpoint := ⟨kept.rows.position, kept.rows.history, kept.rows.evidence, none⟩

end

end Moe

namespace Moe

open HashTree

/-- A slot's bytes: its flag, and its node's bytes or as many zeros. -/
def slotForm : Option Nat → Bytes
  | none => List.replicate 33 0
  | some value => 1 :: fieldToBytes value

/-- Every waiting node is a canonical field element. -/
def Ommers.Canonical (ommers : Ommers) : Prop := ∀ value, some value ∈ ommers → isField value = true

attribute [local irreducible] fieldToBytes

theorem fieldToBytes_width (value : Nat) : (fieldToBytes value).length = 32 := by
  unfold fieldToBytes
  exact toBytes_length 32 value

theorem bytesToField_fieldToBytes {value : Nat} (canonical : isField value = true) : bytesToField (fieldToBytes value) = .ok value := by
  have read := readField_inverts.reads canonical []
  simp only [readField, read_bind_eq_ok, read_lift_eq_ok, Reader.raw_inverts _ _ _ _, List.append_nil] at read
  obtain ⟨bytes, rest, ⟨-, same⟩, owned, rfl⟩ := read
  rw [List.append_nil] at same
  rw [same]
  exact owned

theorem slotForm_length (slot : Option Nat) : (slotForm slot).length = 33 := by
  cases slot with
  | none => exact List.length_replicate
  | some value => rw [slotForm, List.length_cons, fieldToBytes_width]

theorem slots_length (ommers : Ommers) : (ommers.flatMap slotForm).length = 33 * ommers.length :=
  flatMap_length fun slot _ => slotForm_length slot

/-- A blob's zeros past the slots written. -/
def emptySlots (count : Nat) : Bytes := List.replicate (33 * count) 0

theorem emptySlots_succ (count : Nat) : emptySlots (count + 1) = List.replicate 33 0 ++ emptySlots count := by
  rw [emptySlots, emptySlots, List.replicate_append_replicate]
  congr 1
  omega

theorem emptySlots_eq (count : Nat) : emptySlots count = (List.replicate count (none : Option Nat)).flatMap slotForm := by
  induction count with
  | zero => rfl
  | succ count ih =>
    rw [emptySlots_succ, ih]
    rfl

/-- A slot is written in its place, what is before and after it unchanged. -/
theorem writeSlot_at {front back : Bytes} {slot : Option Nat} {h : Nat} (offset : front.length = 33 * h)
    (canonical : ∀ value, slot = some value → isField value = true) :
    writeSlot (front ++ (List.replicate 33 0 ++ back)) (slot, h) = .ok (front ++ (slotForm slot ++ back)) := by
  cases slot with
  | none => rfl
  | some value =>
    have own : requireField value "field element" = .ok value := by
      rw [requireField]
      exact bind_eq_ok.mpr ⟨(), require_eq_ok.mpr (canonical value rfl), rfl⟩
    have flagged : (front ++ (List.replicate 33 0 ++ back)).set (33 * h) 1 = front ++ [1] ++ (List.replicate 32 (0 : UInt8) ++ back) := by
      rw [← offset, List.set_append_right _ _ le_rfl, Nat.sub_self, List.append_assoc]
      rfl
    have written := @setAt_over (front ++ [1]) (List.replicate 32 0) back (fieldToBytes value) (33 * h + 1)
      (by rw [List.length_append, offset, List.length_singleton]) (by rw [List.length_replicate, fieldToBytes_width])
    rw [writeSlot]
    refine bind_eq_ok.mpr ⟨value, own, ?_⟩
    rw [flagged, written, List.append_assoc]
    rfl

/-- A frontier of at most every slot is written slot by slot, the others empty. -/
theorem encodeOmmers_eq {ommers : Ommers} (few : ommers.length ≤ noteTreeDepth + 1) (canonical : ommers.Canonical) :
    encodeOmmers ommers = .ok (ommers.flatMap slotForm ++ emptySlots (noteTreeDepth + 1 - ommers.length)) := by
  have writes : ∀ (rest done : Ommers), (done ++ rest).length ≤ noteTreeDepth + 1 → (∀ value, some value ∈ rest → isField value = true) →
      (rest.zipIdx done.length).foldlM writeSlot (done.flatMap slotForm ++ emptySlots (noteTreeDepth + 1 - done.length)) =
        .ok ((done ++ rest).flatMap slotForm ++ emptySlots (noteTreeDepth + 1 - (done ++ rest).length)) := by
    intro rest
    induction rest with
    | nil =>
      intro done _ _
      rw [List.append_nil]
      rfl
    | cons slot rest ih =>
      intro done few fields
      have whole : done ++ slot :: rest = done ++ [slot] ++ rest := by simp
      have left : noteTreeDepth + 1 - done.length = noteTreeDepth + 1 - (done ++ [slot]).length + 1 := by
        simp only [List.length_append, List.length_cons] at few ⊢
        simp only [List.length_nil]
        omega
      have next := ih (done ++ [slot]) (whole ▸ few) fun value member => fields value (List.mem_cons_of_mem _ member)
      have written := @writeSlot_at (done.flatMap slotForm) (emptySlots (noteTreeDepth + 1 - (done ++ [slot]).length)) slot done.length
        (slots_length done) fun value same => fields value (same ▸ List.mem_cons_self)
      rw [List.length_append, List.length_singleton, List.flatMap_append, List.flatMap_singleton, List.append_assoc] at next
      rw [List.length_append, List.length_singleton] at written left
      rw [List.zipIdx_cons, List.foldlM_cons, left, emptySlots_succ, written, whole]
      exact next
  exact writes ommers [] few canonical

/-- A slot of a blob of slots; past its end, none. -/
theorem readSlot_eq {ommers : Ommers} (canonical : ommers.Canonical) (h : Nat) :
    readSlot (ommers.flatMap slotForm) h = .ok ommers[h]?.join := by
  unfold readSlot
  rcases Nat.lt_or_ge h ommers.length with inside | past
  · have parts := List.take_append_drop h ommers
    rw [List.drop_eq_getElem_cons inside] at parts
    have bytes : ommers.flatMap slotForm =
        (ommers.take h).flatMap slotForm ++ (slotForm ommers[h] ++ (ommers.drop (h + 1)).flatMap slotForm) := by
      rw [← List.flatMap_cons, ← List.flatMap_append, parts]
    have offset : ((ommers.take h).flatMap slotForm).length = 33 * h := by
      rw [slots_length, List.length_take, Nat.min_eq_left inside.le]
    have long : ¬(ommers.flatMap slotForm).length < 33 * h + 33 := by
      rw [slots_length]
      omega
    have flag : (ommers.flatMap slotForm)[33 * h]? = (slotForm ommers[h])[0]? := by
      rw [bytes, List.getElem?_append_right offset.le, offset, Nat.sub_self, List.getElem?_append_left]
      rw [slotForm_length]
      decide
    rw [flag, List.getElem?_eq_getElem inside]
    cases slot : ommers[h] with
    | none =>
      have clear : (slotForm none)[0]? = some 0 := rfl
      rw [if_pos (Or.inr clear)]
      rfl
    | some value =>
      have field := canonical value (slot ▸ List.getElem_mem inside)
      have node : ((ommers.flatMap slotForm).drop (33 * h + 1)).take 32 = fieldToBytes value := by
        rw [bytes, slot, ← offset, ← List.drop_drop, List.drop_left, slotForm, List.cons_append, List.drop_succ_cons, List.drop_zero,
          ← fieldToBytes_width value, List.take_left]
      have set : ¬((ommers.flatMap slotForm).length < 33 * h + 33 ∨ (slotForm (some value))[0]? = some 0) := by
        rintro (short | clear)
        · exact long short
        · rw [slotForm] at clear
          simp at clear
      rw [if_neg set, node, bytesToField_fieldToBytes field]
      rfl
  · rw [if_pos (Or.inl (by rw [slots_length]; omega)), List.getElem?_eq_none past]
    rfl

/-- Slots decode to a frontier with every slot, those past them absent. -/
theorem decodeOmmers_eq {ommers : Ommers} (few : ommers.length ≤ noteTreeDepth + 1) (canonical : ommers.Canonical) :
    decodeOmmers (ommers.flatMap slotForm) = .ok (ommers ++ List.replicate (noteTreeDepth + 1 - ommers.length) none) := by
  have slots : (List.range (noteTreeDepth + 1)).map (fun h => ommers[h]?.join) =
      ommers ++ List.replicate (noteTreeDepth + 1 - ommers.length) none := by
    refine List.ext_getElem (by simp; omega) fun h inside inside' => ?_
    rw [List.getElem_map, List.getElem_range]
    rcases Nat.lt_or_ge h ommers.length with within | past
    · rw [List.getElem_append_left within, List.getElem?_eq_getElem within]
      rfl
    · rw [List.getElem_append_right past, List.getElem_replicate, List.getElem?_eq_none past]
      rfl
  rw [decodeOmmers, mapM_written fun h _ => readSlot_eq canonical h, slots]

/-- A frontier of every slot reads back, and so does a blob written before the last slot existed. -/
theorem decodeOmmers_encodeOmmers {ommers : Ommers} (length : ommers.length = noteTreeDepth + 1) (canonical : ommers.Canonical) :
    ∃ blob, encodeOmmers ommers = .ok blob ∧ decodeOmmers blob = .ok ommers ∧
      decodeOmmers (blob.take (33 * noteTreeDepth)) = .ok (ommers.set noteTreeDepth none) := by
  refine ⟨ommers.flatMap slotForm, ?_, ?_, ?_⟩
  · rw [encodeOmmers_eq length.le canonical, length, Nat.sub_self]
    exact congrArg Except.ok (List.append_nil _)
  · rw [decodeOmmers_eq length.le canonical, length, Nat.sub_self]
    exact congrArg Except.ok (List.append_nil _)
  · have inside : noteTreeDepth < ommers.length := by omega
    have short : (ommers.take noteTreeDepth).length = noteTreeDepth := by rw [List.length_take, Nat.min_eq_left inside.le]
    have parts : (ommers.flatMap slotForm).take (33 * noteTreeDepth) = (ommers.take noteTreeDepth).flatMap slotForm := by
      conv_lhs => rw [← List.take_append_drop noteTreeDepth ommers, List.flatMap_append]
      rw [List.take_left' (by rw [slots_length, short])]
    have last : ommers.set noteTreeDepth none = ommers.take noteTreeDepth ++ [none] := by
      rw [List.set_eq_take_append_cons_drop, if_pos inside, List.drop_eq_nil_of_le (by omega)]
    rw [parts, decodeOmmers_eq (by omega) fun value member => canonical value (List.mem_of_mem_take member), short, last]
    rfl

/-- An empty frontier's blob reads as no slot in use. -/
theorem decodeOmmers_opened : ∃ blob, encodeOmmers [] = .ok blob ∧ decodeOmmers blob = .ok emptyOmmers := by
  have none_ : Ommers.Canonical [] := fun _ member => absurd member List.not_mem_nil
  refine ⟨_, encodeOmmers_eq (Nat.zero_le _) none_, ?_⟩
  have unused : Ommers.Canonical emptyOmmers := by
    intro value member
    cases (List.mem_replicate.mp member).2
  have read := @decodeOmmers_eq emptyOmmers (by rw [emptyOmmers, List.length_replicate]) unused
  rw [List.flatMap_nil, List.nil_append, List.length_nil, Nat.sub_zero, emptySlots_eq]
  rw [emptyOmmers, List.length_replicate, Nat.sub_self] at read
  rw [read, emptyOmmers]
  exact congrArg Except.ok (List.append_nil _)

end Moe
