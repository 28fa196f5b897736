import Moe.Ergo.ExhaustionWire
import Moe.Ergo.HeaderRows
import Moe.Pool.WalletSnapshot

namespace Moe.ErgoStore

open ExhaustionWire (StepBounded stepForm encodeFold decodeFold encodeKeyAnswer decodeKeyAnswer encodeIncluded decodeIncluded)
open HeaderStore (invalidStored)

/-- A section's transaction views as one blob: a count, then each view's unsigned bytes and witness id, length-prefixed. A length past
32 bits is written as its low bits. -/
def encodeViews (views : List ErgoTransactionView) : Bytes :=
  toBytes 4 views.length ++ views.flatMap fun view => lengthPrefixed view.unsigned ++ lengthPrefixed view.witnessId

def takeView (n : Nat) : Reader Bytes := takeOr invalidStored n

def takeLength : Reader Nat := do return ofBytes (← takeView 4)

def takeSized : Reader Bytes := do takeView (← takeLength)

def takeTransaction : Reader ErgoTransactionView := do
  let unsigned ← takeSized
  let witnessId ← takeSized
  return { unsigned, witnessId }

def readViews : Reader (List ErgoTransactionView) := do
  let count ← takeLength
  Reader.times takeTransaction count

def decodeViews (bytes : Bytes) : Except Failure (List ErgoTransactionView) := wholly invalidStored readViews bytes

def stepBytes (step : InclusionStep) : Nat := if step.isNone then 1 else 33

def writeStep (written : Bytes × Nat) (step : InclusionStep) : Except Failure (Bytes × Nat) :=
  match step with
  | none => do
    let out ← setAt written.1 [0] written.2
    return (out, written.2 + 1)
  | some sibling => do
    let flagged ← setAt written.1 [1] written.2
    let out ← setAt flagged sibling (written.2 + 1)
    return (out, written.2 + 33)

/-- An inclusion path's steps as one blob: per step a flag byte (0 a lone child, 1 a sibling) and the sibling's bytes. -/
def encodeSteps (steps : List InclusionStep) : Except Failure Bytes := do
  let written ← steps.foldlM writeStep (List.replicate (steps.map stepBytes).sum 0, 0)
  return written.1

def decodeSteps : Bytes → Except Failure (List InclusionStep)
  | [] => .ok []
  | flag :: rest =>
    if flag = 0 then do
      let steps ← decodeSteps rest
      return none :: steps
    else do
      require (flag = 1 && 32 ≤ rest.length) invalidStored
      let steps ← decodeSteps (rest.drop 32)
      return some (rest.take 32) :: steps
termination_by bytes => bytes.length
decreasing_by
  · simp
  · simp only [List.length_drop, List.length_cons]
    omega

/-- A view whose parts' lengths 32 bits hold. -/
structure ViewBounded (view : ErgoTransactionView) : Prop where
  unsigned : view.unsigned.length < 2 ^ 32
  witnessId : view.witnessId.length < 2 ^ 32

structure ViewsBounded (views : List ErgoTransactionView) : Prop where
  count : views.length < 2 ^ 32
  each : ∀ view ∈ views, ViewBounded view

def viewForm (view : ErgoTransactionView) : Bytes := lengthPrefixed view.unsigned ++ lengthPrefixed view.witnessId

theorem takeLength_inverts : Inverts takeLength (toBytes 4) (· < 2 ^ 32) := Reader.uintOr_inverts _ 4

theorem takeSized_inverts : Inverts takeSized lengthPrefixed fun bytes => bytes.length < 2 ^ 32 := Reader.sizedOr_inverts _

theorem takeTransaction_inverts : Inverts takeTransaction viewForm ViewBounded := by
  intro s view t
  simp only [takeTransaction, read_bind_eq_ok, read_pure_eq_ok, takeSized_inverts _ _ _]
  constructor
  · rintro ⟨unsigned, _, ⟨first, rfl⟩, witnessId, _, ⟨second, rfl⟩, rfl, rfl⟩
    exact ⟨⟨first, second⟩, by rw [viewForm, List.append_assoc]⟩
  · rintro ⟨⟨first, second⟩, rfl⟩
    exact ⟨view.unsigned, _, ⟨first, by rw [viewForm, List.append_assoc]⟩, view.witnessId, t, ⟨second, rfl⟩, rfl, rfl⟩

theorem readViews_inverts : Inverts readViews encodeViews ViewsBounded :=
  (takeLength_inverts.bind List.length (fun n _ => Reader.times_inverts takeTransaction_inverts n) fun _ _ _ many => many.1).congr
    (fun _ => ⟨fun formed => ⟨formed.1, formed.2.2⟩, fun formed => ⟨formed.count, rfl, formed.each⟩⟩) fun _ _ => rfl

theorem stepForm_length {step : InclusionStep} (bounded : StepBounded step) : (stepForm step).length = stepBytes step := by
  cases step with
  | none => rfl
  | some sibling =>
    have wide := bounded sibling rfl
    simp [stepForm, stepBytes, wide]

/-- A step written over zeros at the end of what is written takes their place. -/
theorem writeStep_of {front back : Bytes} {step : InclusionStep} (bounded : StepBounded step) :
    writeStep (front ++ (List.replicate (stepBytes step) 0 ++ back), front.length) step =
      .ok (front ++ (stepForm step ++ back), front.length + stepBytes step) := by
  cases step with
  | none =>
    have placed := @setAt_over front [0] back [0] front.length rfl rfl
    rw [writeStep, show List.replicate (stepBytes none) (0 : UInt8) = [0] from rfl, placed]
    rfl
  | some sibling =>
    have wide := bounded sibling rfl
    have flagged := @setAt_over front [0] (List.replicate 32 0 ++ back) [1] front.length rfl rfl
    have placed := @setAt_over (front ++ [1]) (List.replicate 32 0) back sibling (front.length + 1) (by simp) (by simp [wide])
    have zeros : List.replicate (stepBytes (some sibling)) (0 : UInt8) ++ back = [0] ++ (List.replicate 32 0 ++ back) := rfl
    rw [List.append_assoc] at placed
    rw [writeStep, zeros, flagged]
    show (setAt (front ++ ([1] ++ (List.replicate 32 0 ++ back))) sibling (front.length + 1) >>= _) = _
    rw [placed]
    simp [stepForm, stepBytes, bind, Except.bind, pure, Except.pure]

theorem foldlM_writeStep {steps : List InclusionStep} (bounded : ∀ step ∈ steps, StepBounded step) (front : Bytes) :
    steps.foldlM writeStep (front ++ List.replicate (steps.map stepBytes).sum 0, front.length) =
      .ok (front ++ steps.flatMap stepForm, front.length + (steps.map stepBytes).sum) := by
  induction steps generalizing front with
  | nil => simp [pure, Except.pure]
  | cons step rest ih =>
    obtain ⟨first, others⟩ := List.forall_mem_cons.mp bounded
    have next := ih others (front ++ stepForm step)
    rw [List.length_append, stepForm_length first, List.append_assoc, List.append_assoc] at next
    rw [List.foldlM_cons, List.map_cons, List.sum_cons, List.replicate_add, writeStep_of first]
    show rest.foldlM writeStep _ = _
    rw [next, List.flatMap_cons, Nat.add_assoc]

theorem encodeSteps_of {steps : List InclusionStep} (bounded : ∀ step ∈ steps, StepBounded step) :
    encodeSteps steps = .ok (steps.flatMap stepForm) := by
  have written := foldlM_writeStep bounded []
  rw [List.nil_append, List.length_nil] at written
  rw [encodeSteps, written]
  rfl

/-- A step's form is read first, and the rest after it. -/
theorem decodeSteps_form {step : InclusionStep} (bounded : StepBounded step) (rest : Bytes) :
    decodeSteps (stepForm step ++ rest) = (decodeSteps rest >>= fun steps => .ok (step :: steps)) := by
  cases step with
  | none =>
    show decodeSteps (0 :: rest) = _
    rw [decodeSteps, if_pos rfl]
    rfl
  | some sibling =>
    have wide : sibling.length = 32 := bounded sibling rfl
    have inside : ((1 : UInt8) = 1 && 32 ≤ (sibling ++ rest).length) = true := by simp [wide]
    show decodeSteps (1 :: (sibling ++ rest)) = _
    rw [decodeSteps, if_neg (by decide), require, if_pos inside, ← wide, List.take_left, List.drop_left]
    rfl

theorem decodeSteps_forms {steps : List InclusionStep} (bounded : ∀ step ∈ steps, StepBounded step) (rest : Bytes) :
    decodeSteps (steps.flatMap stepForm ++ rest) = (decodeSteps rest >>= fun more => .ok (steps ++ more)) := by
  induction steps with
  | nil =>
    rw [List.flatMap_nil, List.nil_append]
    cases decodeSteps rest <;> rfl
  | cons step steps ih =>
    obtain ⟨first, others⟩ := List.forall_mem_cons.mp bounded
    rw [List.flatMap_cons, List.append_assoc, decodeSteps_form first, ih others]
    cases decodeSteps rest <;> rfl

/-- Steps are read from exactly their forms, one after another. -/
theorem decodeSteps_sound {bytes : Bytes} {steps : List InclusionStep} (read : decodeSteps bytes = .ok steps) :
    (∀ step ∈ steps, StepBounded step) ∧ bytes = steps.flatMap stepForm := by
  induction bytes using decodeSteps.induct generalizing steps with
  | case1 =>
    rw [decodeSteps] at read
    obtain rfl := Except.ok.inj read
    exact ⟨fun _ none_ => absurd none_ List.not_mem_nil, rfl⟩
  | case2 rest ih =>
    rw [decodeSteps, if_pos rfl] at read
    obtain ⟨others, ran, done⟩ := bind_eq_ok.mp read
    obtain rfl := pure_eq_ok.mp done
    obtain ⟨bounded, rfl⟩ := ih ran
    exact ⟨List.forall_mem_cons.mpr ⟨fun _ own => absurd own (Option.not_mem_none _), bounded⟩, rfl⟩
  | case3 flag rest other ih =>
    rw [decodeSteps, if_neg other] at read
    simp only [bind_eq_ok, require_eq_ok, pure_eq_ok, Bool.and_eq_true, decide_eq_true_eq] at read
    obtain ⟨-, ⟨rfl, inside⟩, others, ran, rfl⟩ := read
    obtain ⟨bounded, same⟩ := ih ran
    refine ⟨List.forall_mem_cons.mpr ⟨fun sibling own => ?_, bounded⟩, ?_⟩
    · obtain rfl := Option.some.inj own
      rw [List.length_take, Nat.min_eq_left inside]
    · rw [List.flatMap_cons, ← same, stepForm, List.append_assoc, List.take_append_drop]
      rfl

theorem decodeSteps_strict : StrictCodec encodeSteps decodeSteps fun steps => ∀ step ∈ steps, StepBounded step where
  encodes steps bounded := by
    refine ⟨_, encodeSteps_of bounded, ?_⟩
    have read := decodeSteps_forms bounded []
    rw [List.append_nil, decodeSteps] at read
    simpa [bind, Except.bind] using read
  canonical bytes steps read := by
    obtain ⟨bounded, rfl⟩ := decodeSteps_sound read
    exact ⟨bounded, encodeSteps_of bounded⟩

/-- A path's blob goes on from another's: the steps carry no count. -/
theorem decodeSteps_append {first second : Bytes} {steps more : List InclusionStep} (read : decodeSteps first = .ok steps)
    (readMore : decodeSteps second = .ok more) : decodeSteps (first ++ second) = .ok (steps ++ more) := by
  obtain ⟨bounded, rfl⟩ := decodeSteps_sound read
  rw [decodeSteps_forms bounded, readMore]
  rfl

/-- The stored and exchanged forms are strict inverses, and every one that carries its count accepts no extension. -/
theorem stored_forms_strict :
    (∀ columns, StrictCodec WalletSnapshots.encodeWalletSnapshot (WalletSnapshots.decodeWalletSnapshot · columns)
      (WalletSnapshots.WalletSnapshot.Formed columns) ∧ PrefixFree (WalletSnapshots.decodeWalletSnapshot · columns)) ∧
    (StrictCodec encodeFold decodeFold ExhaustionWire.Fold.Bounded ∧ PrefixFree decodeFold) ∧
    (∀ asked, StrictCodec encodeKeyAnswer (decodeKeyAnswer · asked) (ExhaustionWire.KeyAnswer.Answers asked) ∧
      PrefixFree (decodeKeyAnswer · asked)) ∧
    (StrictCodec encodeIncluded decodeIncluded ExhaustionWire.IncludedTransaction.Bounded ∧ PrefixFree decodeIncluded) ∧
    (StrictCodec (fun views => .ok (encodeViews views)) decodeViews ViewsBounded ∧ PrefixFree decodeViews) ∧
    StrictCodec encodeSteps decodeSteps (fun steps => ∀ step ∈ steps, StepBounded step) ∧
    ∀ first second steps more, decodeSteps first = .ok steps → decodeSteps second = .ok more →
      decodeSteps (first ++ second) = .ok (steps ++ more) := by
  refine ⟨fun columns => ⟨?_, ?_⟩, ⟨?_, ?_⟩, fun asked => ⟨?_, ?_⟩, ⟨?_, ?_⟩, ⟨?_, ?_⟩, decodeSteps_strict, ?_⟩
  · exact (WalletSnapshots.readSnapshot_inverts columns).strict fun _ formed => WalletSnapshots.encodeWalletSnapshot_of formed
  · exact (WalletSnapshots.readSnapshot_inverts columns).prefixFree
  · exact ExhaustionWire.readFold_inverts.strict fun _ bounded => ExhaustionWire.encodeFold_of bounded
  · exact ExhaustionWire.readFold_inverts.prefixFree
  · exact (ExhaustionWire.readKeyAnswer_inverts asked).strict fun _ answers => ExhaustionWire.encodeKeyAnswer_of answers
  · exact (ExhaustionWire.readKeyAnswer_inverts asked).prefixFree
  · exact ExhaustionWire.readIncluded_inverts.strict fun _ bounded => ExhaustionWire.encodeIncluded_of bounded
  · exact ExhaustionWire.readIncluded_inverts.prefixFree
  · exact readViews_inverts.strict fun _ _ => rfl
  · exact readViews_inverts.prefixFree
  · exact fun _ _ _ _ read more => decodeSteps_append read more

/-- A lone child's path is a proper prefix of two lone children's. -/
theorem decodeSteps_not_prefixFree : ¬PrefixFree decodeSteps := by
  intro free
  have one : decodeSteps [0] = .ok [none] := by simp [decodeSteps, bind, Except.bind, pure, Except.pure]
  exact absurd (free [0] [0] [none] [none, none] one (decodeSteps_append one one)) (by decide)

end Moe.ErgoStore
