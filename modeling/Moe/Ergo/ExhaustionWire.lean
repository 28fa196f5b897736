import Moe.Ergo.Section
import Moe.Ergo.SubjectMap
import Moe.Writing

namespace Moe.ExhaustionWire

/-- A fold proof's bytes at most. -/
def maxFoldProofBytes : Nat := 2 ^ 20

/-- An unsigned transaction at most. -/
def maxTransactionBytes : Nat := 4 * 2 ^ 20

/-- Entries one key answer holds at most. -/
def maxKeyEntries : Nat := 2 ^ 20

structure FoldInputs where
  startId : Bytes
  startHeight : Nat
  endId : Bytes
  endHeight : Nat
  mapRoot : Nat
  foldKeyHash : Nat
  deriving DecidableEq

/-- A fold proof with its inputs; `first` names the circuit whose key it verifies under. -/
structure Fold where
  first : Bool
  inputs : FoldInputs
  proof : Bytes
  deriving DecidableEq

/-- A key's path at a fold and its entries after a given count, as a supplier gives them. -/
structure KeyAnswer where
  path : MapPath
  entries : List MapEntry
  deriving DecidableEq

/-- A transaction a supplier gives: its unsigned bytes and an inclusion path. -/
structure IncludedTransaction where
  unsigned : Bytes
  steps : List InclusionStep
  deriving DecidableEq

def encodeFold (fold : Fold) : Except Failure Bytes := do
  let flag ← ByteWriter.u8 (if fold.first then 1 else 0)
  let startId ← ByteWriter.key32 fold.inputs.startId "start id"
  let startHeight ← ByteWriter.u64 fold.inputs.startHeight
  let endId ← ByteWriter.key32 fold.inputs.endId "end id"
  let endHeight ← ByteWriter.u64 fold.inputs.endHeight
  let mapRoot ← ByteWriter.field32 fold.inputs.mapRoot "map root"
  let foldKeyHash ← ByteWriter.field32 fold.inputs.foldKeyHash "fold key hash"
  let proof ← ByteWriter.lengthPrefixed fold.proof
  return flag ++ startId ++ startHeight ++ endId ++ endHeight ++ mapRoot ++ foldKeyHash ++ proof

def readFold : Reader Fold := do
  let flag ← Reader.u8
  require (flag ≤ 1) (.encoding "a fold is first or next")
  let startId ← Reader.raw 32
  let startHeight ← Reader.u64
  let endId ← Reader.raw 32
  let endHeight ← Reader.u64
  let mapRoot ← readField
  let foldKeyHash ← readField
  let proof ← Reader.lengthPrefixed maxFoldProofBytes
  return { first := flag = 1, inputs := { startId, startHeight, endId, endHeight, mapRoot, foldKeyHash }, proof }

def decodeFold (bytes : Bytes) : Except Failure Fold := wholly (.encoding "trailing bytes") readFold bytes

def encodeEntry (entry : MapEntry) : Except Failure Bytes := do
  let subject ← ByteWriter.key32 entry.subject "subject"
  let height ← ByteWriter.u64 entry.height
  let position ← ByteWriter.u64 entry.position
  let output ← ByteWriter.u64 entry.output
  return subject ++ height ++ position ++ output

def encodeKeyAnswer (answer : KeyAnswer) : Except Failure Bytes := do
  let count ← ByteWriter.u64 answer.path.count
  let chain ← ByteWriter.field32 answer.path.chain "chain value"
  require (answer.path.siblings.length = mapDepth) (.encoding "a path has 32 siblings")
  let siblings ← answer.path.siblings.mapM fun sibling => ByteWriter.field32 sibling "sibling"
  require (answer.entries.length ≤ maxKeyEntries) (.encoding "too many entries for one answer")
  let n ← ByteWriter.u32 answer.entries.length
  let entries ← answer.entries.mapM encodeEntry
  return count ++ chain ++ siblings.flatten ++ n ++ entries.flatten

def readEntry : Reader MapEntry := do
  let subject ← Reader.raw 32
  let height ← Reader.u64
  let position ← Reader.u64
  let output ← Reader.u64
  return { subject, height, position, output }

/-- With `asked`, the entries asked after, an answer whose entries are not exactly the path's count less it is refused. -/
def readKeyAnswer (asked : Option Int) : Reader KeyAnswer := do
  let count ← Reader.u64
  let chain ← readField
  let siblings ← Reader.times readField mapDepth
  let n ← Reader.u32
  require (n ≤ maxKeyEntries) (.encoding "too many entries for one answer")
  require (asked.all fun start => (n : Int) = count - start) (.encoding "an answer's entries are not the path's count after the first asked")
  let entries ← Reader.times readEntry n
  return { path := { count, chain, siblings }, entries }

def decodeKeyAnswer (bytes : Bytes) (asked : Option Int) : Except Failure KeyAnswer :=
  wholly (.encoding "trailing bytes") (readKeyAnswer asked) bytes

def encodeStep : InclusionStep → Except Failure Bytes
  | none => ByteWriter.u8 0
  | some step => do
    let flag ← ByteWriter.u8 1
    let sibling ← ByteWriter.key32 step "sibling"
    return flag ++ sibling

def encodeIncluded (included : IncludedTransaction) : Except Failure Bytes := do
  let unsigned ← ByteWriter.lengthPrefixed included.unsigned
  require (included.steps.length ≤ maxInclusionSteps) (.encoding "too many inclusion steps")
  let n ← ByteWriter.u8 included.steps.length
  let steps ← included.steps.mapM encodeStep
  return unsigned ++ n ++ steps.flatten

def readStep : Reader InclusionStep := do
  let flag ← Reader.u8
  if flag = 0 then return none
  else if flag = 1 then do
    let sibling ← Reader.raw 32
    return some sibling
  else throw (.encoding "a step is a sibling or a lone child")

def readIncluded : Reader IncludedTransaction := do
  let unsigned ← Reader.lengthPrefixed maxTransactionBytes
  let n ← Reader.u8
  require (n ≤ maxInclusionSteps) (.encoding "too many inclusion steps")
  let steps ← Reader.times readStep n
  return { unsigned, steps }

def decodeIncluded (bytes : Bytes) : Except Failure IncludedTransaction := wholly (.encoding "trailing bytes") readIncluded bytes

/-- A fold whose parts have their widths, its proof within its maximum. -/
structure Fold.Bounded (fold : Fold) : Prop where
  startId : fold.inputs.startId.length = 32
  startHeight : fold.inputs.startHeight < 2 ^ 64
  endId : fold.inputs.endId.length = 32
  endHeight : fold.inputs.endHeight < 2 ^ 64
  mapRoot : isField fold.inputs.mapRoot = true
  foldKeyHash : isField fold.inputs.foldKeyHash = true
  proof : fold.proof.length ≤ maxFoldProofBytes

def Fold.form (fold : Fold) : Bytes :=
  toBytes 1 (if fold.first then 1 else 0) ++ fold.inputs.startId ++ toBytes 8 fold.inputs.startHeight ++ fold.inputs.endId ++
    toBytes 8 fold.inputs.endHeight ++ fieldToBytes fold.inputs.mapRoot ++ fieldToBytes fold.inputs.foldKeyHash ++ lengthPrefixed fold.proof

/-- An entry whose parts have their widths. -/
structure EntryBounded (entry : MapEntry) : Prop where
  subject : entry.subject.length = 32
  height : entry.height < 2 ^ 64
  position : entry.position < 2 ^ 64
  output : entry.output < 2 ^ 64

def entryForm (entry : MapEntry) : Bytes := entry.subject ++ toBytes 8 entry.height ++ toBytes 8 entry.position ++ toBytes 8 entry.output

/-- An answer whose parts have their widths, within the most entries, with exactly those after the count asked. -/
structure KeyAnswer.Answers (asked : Option Int) (answer : KeyAnswer) : Prop where
  count : answer.path.count < 2 ^ 64
  chain : isField answer.path.chain = true
  depth : answer.path.siblings.length = mapDepth
  siblings : ∀ sibling ∈ answer.path.siblings, isField sibling = true
  few : answer.entries.length ≤ maxKeyEntries
  asked : ∀ start ∈ asked, (answer.entries.length : Int) = answer.path.count - start
  entries : ∀ entry ∈ answer.entries, EntryBounded entry

def KeyAnswer.form (answer : KeyAnswer) : Bytes :=
  toBytes 8 answer.path.count ++ fieldToBytes answer.path.chain ++ answer.path.siblings.flatMap fieldToBytes ++
    toBytes 4 answer.entries.length ++ answer.entries.flatMap entryForm

def StepBounded (step : InclusionStep) : Prop := ∀ sibling ∈ step, sibling.length = 32

def stepForm : InclusionStep → Bytes
  | none => [0]
  | some sibling => [1] ++ sibling

/-- An included transaction within its maxima, its siblings 32 bytes each. -/
structure IncludedTransaction.Bounded (included : IncludedTransaction) : Prop where
  unsigned : included.unsigned.length ≤ maxTransactionBytes
  few : included.steps.length ≤ maxInclusionSteps
  steps : ∀ step ∈ included.steps, StepBounded step

def IncludedTransaction.form (included : IncludedTransaction) : Bytes :=
  lengthPrefixed included.unsigned ++ toBytes 1 included.steps.length ++ included.steps.flatMap stepForm

attribute [local irreducible] fieldToBytes

theorem encodeFold_of {fold : Fold} (bounded : fold.Bounded) : encodeFold fold = .ok fold.form := by
  have flag : (if fold.first then 1 else 0) < 2 ^ 8 := by split <;> decide
  have small : fold.proof.length < 2 ^ 32 := Nat.lt_of_le_of_lt bounded.proof (by decide)
  simp only [encodeFold, ByteWriter.u8_of flag, ByteWriter.key32_of bounded.startId, ByteWriter.u64_of bounded.startHeight,
    ByteWriter.key32_of bounded.endId, ByteWriter.u64_of bounded.endHeight, ByteWriter.field32_of bounded.mapRoot,
    ByteWriter.field32_of bounded.foldKeyHash, ByteWriter.lengthPrefixed_of small]
  rfl

theorem readFold_inverts : Inverts readFold Fold.form Fold.Bounded := by
  intro s fold t
  simp only [readFold, read_bind_eq_ok, read_pure_eq_ok, read_lift_eq_ok, require_eq_ok, decide_eq_true_eq, Reader.u8_inverts _ _ _,
    Reader.u64_inverts _ _ _, Reader.raw_inverts _ _ _ _, readField_inverts _ _ _, Reader.lengthPrefixed_inverts _ _ _ _]
  constructor
  · rintro ⟨flag, _, ⟨-, rfl⟩, _, _, ⟨one, rfl⟩, startId, _, ⟨wideStart, rfl⟩, startHeight, _, ⟨lowStart, rfl⟩, endId, _, ⟨wideEnd, rfl⟩,
      endHeight, _, ⟨lowEnd, rfl⟩, mapRoot, _, ⟨root, rfl⟩, foldKeyHash, _, ⟨key, rfl⟩, proof, _, ⟨⟨small, -⟩, rfl⟩, rfl, rfl⟩
    refine ⟨⟨wideStart, lowStart, wideEnd, lowEnd, root, key, small⟩, ?_⟩
    have same : (if flag = 1 then 1 else 0) = flag := by split <;> omega
    simp only [Fold.form, decide_eq_true_eq, same, List.append_assoc, id_eq]
  · rintro ⟨bounded, rfl⟩
    have small : fold.proof.length < 2 ^ 32 := Nat.lt_of_le_of_lt bounded.proof (by decide)
    refine ⟨if fold.first then 1 else 0, _, ⟨by split <;> decide, ?_⟩, (), _, ⟨by split <;> decide, rfl⟩, fold.inputs.startId, _,
      ⟨bounded.startId, rfl⟩, fold.inputs.startHeight, _, ⟨bounded.startHeight, rfl⟩, fold.inputs.endId, _, ⟨bounded.endId, rfl⟩,
      fold.inputs.endHeight, _, ⟨bounded.endHeight, rfl⟩, fold.inputs.mapRoot, _, ⟨bounded.mapRoot, rfl⟩, fold.inputs.foldKeyHash, _,
      ⟨bounded.foldKeyHash, rfl⟩, fold.proof, t, ⟨⟨bounded.proof, small⟩, rfl⟩, ?_, rfl⟩
    · simp only [Fold.form, List.append_assoc, id_eq]
    · obtain ⟨first, inputs, proof⟩ := fold
      cases first <;> rfl

theorem encodeEntry_of {entry : MapEntry} (bounded : EntryBounded entry) : encodeEntry entry = .ok (entryForm entry) := by
  simp only [encodeEntry, ByteWriter.key32_of bounded.subject, ByteWriter.u64_of bounded.height, ByteWriter.u64_of bounded.position,
    ByteWriter.u64_of bounded.output]
  rfl

theorem readEntry_inverts : Inverts readEntry entryForm EntryBounded := by
  intro s entry t
  simp only [readEntry, read_bind_eq_ok, read_pure_eq_ok, Reader.u64_inverts _ _ _, Reader.raw_inverts _ _ _ _]
  constructor
  · rintro ⟨subject, _, ⟨wide, rfl⟩, height, _, ⟨low, rfl⟩, position, _, ⟨front, rfl⟩, output, _, ⟨first, rfl⟩, rfl, rfl⟩
    exact ⟨⟨wide, low, front, first⟩, by simp only [entryForm, List.append_assoc, id_eq]⟩
  · rintro ⟨bounded, rfl⟩
    exact ⟨entry.subject, _, ⟨bounded.subject, by simp only [entryForm, List.append_assoc, id_eq]⟩, entry.height, _, ⟨bounded.height, rfl⟩,
      entry.position, _, ⟨bounded.position, rfl⟩, entry.output, t, ⟨bounded.output, rfl⟩, rfl, rfl⟩

theorem encodeKeyAnswer_of {asked : Option Int} {answer : KeyAnswer} (answers : answer.Answers asked) :
    encodeKeyAnswer answer = .ok answer.form := by
  have siblings : (answer.path.siblings.mapM fun sibling => ByteWriter.field32 sibling "sibling") =
      .ok (answer.path.siblings.map fieldToBytes) := mapM_written fun sibling member => ByteWriter.field32_of (answers.siblings sibling member)
  have entries : answer.entries.mapM encodeEntry = .ok (answer.entries.map entryForm) :=
    mapM_written fun entry member => encodeEntry_of (answers.entries entry member)
  have small : answer.entries.length < 2 ^ 32 := Nat.lt_of_le_of_lt answers.few (by decide)
  have depth : require (answer.path.siblings.length = mapDepth) (.encoding "a path has 32 siblings") = .ok () :=
    require_eq_ok.mpr (decide_eq_true answers.depth)
  have few : require (answer.entries.length ≤ maxKeyEntries) (.encoding "too many entries for one answer") = .ok () :=
    require_eq_ok.mpr (decide_eq_true answers.few)
  simp only [encodeKeyAnswer, ByteWriter.u64_of answers.count, ByteWriter.field32_of answers.chain, siblings, entries, depth, few,
    ByteWriter.u32_of small, KeyAnswer.form, List.flatMap_def]
  rfl

theorem readKeyAnswer_inverts (asked : Option Int) : Inverts (readKeyAnswer asked) KeyAnswer.form (KeyAnswer.Answers asked) := by
  intro s answer t
  simp only [readKeyAnswer, read_bind_eq_ok, read_pure_eq_ok, read_lift_eq_ok, require_eq_ok, decide_eq_true_eq, Reader.u64_inverts _ _ _,
    readField_inverts _ _ _, Reader.times_inverts readField_inverts _ _ _ _, Reader.u32_inverts _ _ _,
    Reader.times_inverts readEntry_inverts _ _ _ _, Option.all_eq_true]
  constructor
  · rintro ⟨count, _, ⟨low, rfl⟩, chain, _, ⟨canonical, rfl⟩, siblings, _, ⟨⟨depth, fields⟩, rfl⟩, n, _, ⟨-, rfl⟩, _, _, ⟨few, rfl⟩, _, _,
      ⟨own, rfl⟩, entries, _, ⟨⟨rfl, bounded⟩, rfl⟩, rfl, rfl⟩
    exact ⟨⟨low, canonical, depth, fields, few, own, bounded⟩, by simp only [KeyAnswer.form, List.append_assoc]⟩
  · rintro ⟨answers, rfl⟩
    have small : answer.entries.length < 2 ^ 32 := Nat.lt_of_le_of_lt answers.few (by decide)
    exact ⟨answer.path.count, _, ⟨answers.count, by simp only [KeyAnswer.form, List.append_assoc]⟩, answer.path.chain, _, ⟨answers.chain, rfl⟩,
      answer.path.siblings, _, ⟨⟨answers.depth, answers.siblings⟩, rfl⟩, answer.entries.length, _, ⟨small, rfl⟩, (), _, ⟨answers.few, rfl⟩,
      (), _, ⟨answers.asked, rfl⟩, answer.entries, t, ⟨⟨rfl, answers.entries⟩, rfl⟩, rfl, rfl⟩

theorem encodeStep_of {step : InclusionStep} (bounded : StepBounded step) : encodeStep step = .ok (stepForm step) := by
  cases step with
  | none => rfl
  | some sibling =>
    rw [encodeStep, ByteWriter.key32_of (bounded sibling rfl)]
    rfl

theorem readStep_inverts : Inverts readStep stepForm StepBounded := by
  intro s step t
  rw [readStep, read_bind_eq_ok]
  constructor
  · rintro ⟨flag, m, ran, read⟩
    obtain ⟨-, rfl⟩ := (Reader.u8_inverts _ _ _).mp ran
    split at read
    · rename_i lone
      obtain ⟨rfl, rfl⟩ := read_pure_eq_ok.mp read
      exact ⟨fun _ own => absurd own (Option.not_mem_none _), by rw [lone]; rfl⟩
    split at read
    · rename_i paired
      obtain ⟨sibling, rest, ran, done⟩ := read_bind_eq_ok.mp read
      obtain ⟨wide, rfl⟩ := (Reader.raw_inverts _ _ _ _).mp ran
      obtain ⟨rfl, rfl⟩ := read_pure_eq_ok.mp done
      refine ⟨fun other own => ?_, by rw [paired]; rfl⟩
      obtain rfl := Option.some.inj own
      exact wide
    · cases read
  · rintro ⟨bounded, rfl⟩
    cases step with
    | none => exact ⟨0, t, (Reader.u8_inverts _ 0 _).mpr ⟨by decide, rfl⟩, rfl⟩
    | some sibling =>
      refine ⟨1, sibling ++ t, (Reader.u8_inverts _ 1 _).mpr ⟨by decide, ?_⟩, ?_⟩
      · rw [stepForm, List.append_assoc]
        rfl
      rw [if_neg (by decide), if_pos rfl]
      exact read_bind_eq_ok.mpr ⟨sibling, t, (Reader.raw_inverts 32).reads (bounded sibling rfl) t, rfl⟩

theorem encodeIncluded_of {included : IncludedTransaction} (bounded : included.Bounded) : encodeIncluded included = .ok included.form := by
  have steps : included.steps.mapM encodeStep = .ok (included.steps.map stepForm) :=
    mapM_written fun step member => encodeStep_of (bounded.steps step member)
  have small : included.unsigned.length < 2 ^ 32 := Nat.lt_of_le_of_lt bounded.unsigned (by decide)
  have byte : included.steps.length < 2 ^ 8 := Nat.lt_of_le_of_lt bounded.few (by decide)
  have few : require (included.steps.length ≤ maxInclusionSteps) (.encoding "too many inclusion steps") = .ok () :=
    require_eq_ok.mpr (decide_eq_true bounded.few)
  simp only [encodeIncluded, ByteWriter.lengthPrefixed_of small, few, ByteWriter.u8_of byte, steps, IncludedTransaction.form, List.flatMap_def]
  rfl

theorem readIncluded_inverts : Inverts readIncluded IncludedTransaction.form IncludedTransaction.Bounded := by
  intro s included t
  simp only [readIncluded, read_bind_eq_ok, read_pure_eq_ok, read_lift_eq_ok, require_eq_ok, decide_eq_true_eq, Reader.u8_inverts _ _ _,
    Reader.lengthPrefixed_inverts _ _ _ _, Reader.times_inverts readStep_inverts _ _ _ _]
  constructor
  · rintro ⟨unsigned, _, ⟨⟨fits, -⟩, rfl⟩, n, _, ⟨-, rfl⟩, _, _, ⟨few, rfl⟩, steps, _, ⟨⟨rfl, bounded⟩, rfl⟩, rfl, rfl⟩
    exact ⟨⟨fits, few, bounded⟩, by simp only [IncludedTransaction.form, List.append_assoc]⟩
  · rintro ⟨bounded, rfl⟩
    have small : included.unsigned.length < 2 ^ 32 := Nat.lt_of_le_of_lt bounded.unsigned (by decide)
    have byte : included.steps.length < 2 ^ 8 := Nat.lt_of_le_of_lt bounded.few (by decide)
    exact ⟨included.unsigned, _, ⟨⟨bounded.unsigned, small⟩, by simp only [IncludedTransaction.form, List.append_assoc]⟩, included.steps.length,
      _, ⟨byte, rfl⟩, (), _, ⟨bounded.few, rfl⟩, included.steps, t, ⟨⟨rfl, bounded.steps⟩, rfl⟩, rfl, rfl⟩

end Moe.ExhaustionWire
