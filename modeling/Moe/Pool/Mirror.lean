import Moe.Pool.Adoption
import Moe.Pool.Audit

namespace Moe

variable {R : Type}

/-- A publication the force walk reads: its record's bytes, its index and the venue's lag there. -/
structure Publication where
  bytes : Bytes
  index : Nat
  lag : Nat

/-- A publication as an adopted block lists it. -/
def Publication.adopted (publication : Publication) : Adopted := ⟨publication.bytes, publication.index⟩

def ForceContext.at (context : ForceContext) (publication : Publication) : ForceContext :=
  { context with index := publication.index, lag := publication.lag }

/-- Publications forced one after another over one overlay. -/
def forceAll (construction : Construction R) (context : ForceContext) (state : ForceState) (publications : List Publication) :
    Except Failure ForceState :=
  publications.foldlM (fun state publication => applyForceRecord state publication.bytes (context.at publication) construction) state

/-- Whether a record's bytes are a settlement's. -/
def Construction.settles (construction : Construction R) (bytes : Bytes) : Bool :=
  match construction.decode bytes with
  | .ok record => construction.kind record = 6
  | .error _ => false

theorem StatementView.Fits.alike {view : StatementView} {force segment : StateView} (fits : view.Fits force)
    (same : SameAnswers segment force) : view.Fits segment where
  fresh := (same.isEffective _).trans fits.fresh
  cases := by
    rcases fits.cases with stands | ⟨id, demand, none, ends, read, kinds⟩
    · exact .inl stands
    · exact .inr ⟨id, demand, none, ends, (same.demand id).trans read, kinds⟩

theorem StatementView.Fits.outputs_length {view : StatementView} {state : StateView} (fits : view.Fits state) :
    view.outputs.length = if view.kind = 6 then 1 else 0 := by
  rcases fits.cases with ⟨_, four, -, -, -, barren, -⟩ | ⟨_, _, -, -, -, ⟨five, -, barren⟩ | ⟨six, cm, one⟩⟩
  · simp [four, barren]
  · simp [five, barren]
  · simp [six, one]

/-- A segment that adopted what force took, beside the overlay force keeps of it. -/
structure Mirrors (state : SegmentState R) (force : ForceState) (s : Store) (n : Namespace) : Prop where
  placed : s.WellPlaced
  stood : s.Stood
  found : s.namespaces state.ns = some n
  keeps : n.keeps = state.construction.keeps
  adopting : n.Adopting (state.handle.rows s)
  presented : ∀ id, (state.handle.rows s).isEnded id = true → (state.handle.rows s).isEffective id = true
  kept : force.Kept
  same : SameAnswers (state.handle.view s) force.view
  anchors : ∀ root, (state.handle.view s).hasAnchor root = (decide (root ∈ n.rows.anchors.map (·.row)) || force.view.hasAnchor root)
  inputs : ∀ cm, (state.handle.view s).isInput cm = (decide (cm ∈ n.rows.outputs.map (·.row.cm)) || force.view.isInput cm)

section Step

variable {s : Store} {state : SegmentState R} {n : Namespace} {bytes : Bytes} {replay : SegmentReplay} {index : Nat}
  {force later : ForceState} {context : ForceContext}

/-- What force takes, the segment that mirrors it judges as forced. -/
theorem Mirrors.forced (mirrors : Mirrors state force s n)
    (run : applyForceRecord force bytes context state.construction = .ok later) :
    ∃ record, state.construction.decode bytes = .ok record ∧
      (judgedView s state record).ForcedIn (state.handle.view s) context.backing ∧
      (judgedView s state record).Fits force.view ∧ later = applyForceView force (judgedView s state record) := by
  obtain ⟨record, decoded, kind, checked, rfl⟩ := applyForceRecord_eq_ok.mp run
  have reads : force.demand = (state.handle.view s).demand := funext fun id => (mirrors.same.demand id).symm
  have view : state.construction.view record force.demand = judgedView s state record := by
    rw [reads]
    rfl
  rw [view] at checked ⊢
  have regular := judgedView_regular mirrors.placed mirrors.stood mirrors.found record
  have named : (judgedView s state record).kind = state.construction.kind record := state.construction.view_kind ..
  obtain ⟨backings, recovery, unique⟩ := checkForceView_eq_ok checked
  have fits : (judgedView s state record).Fits force.view := by
    rw [← reads] at regular
    exact checkRecovery_fits regular (named ▸ kind) recovery
  refine ⟨record, decoded, ⟨named ▸ kind, fits.alike mirrors.same, named ▸ backings, fun id demand ends read => ?_, ?_⟩, fits, rfl⟩
  · obtain ⟨-, -, -, ending, -⟩ := checkRecovery_eq_ok.mp recovery
    have kinds := (regular.ends.mp (by rw [ends]; rfl))
    obtain ⟨other, value, named, standing, same, -⟩ := checkEnding_eq_ok.mp (ending kinds)
    obtain rfl := Option.some.inj (ends.symm.trans named)
    obtain rfl := Option.some.inj ((read.symm.trans (mirrors.same.demand id)).trans standing)
    exact same
  · rw [checkUniqueEffects_eq_ok] at unique ⊢
    simpa only [mirrors.same.hasNullifier, mirrors.same.hasOutput] using unique

variable [Crypto]

/-- One record of an adopted block judged and applied. -/
def adoptRecord (s : Store) (state : SegmentState R) (bytes : Bytes) (replay : SegmentReplay) : Except Failure Store := do
  let judged ← judgeAdopted s state bytes replay
  applyJudged s state judged replay

/-- An adopted block's records judged and applied one after another. -/
def adoptAll (s : Store) (state : SegmentState R) (replay : SegmentReplay) (block : List Bytes) : Except Failure Store :=
  block.foldlM (fun s bytes => adoptRecord s state bytes replay) s

theorem Namespace.written_leaves {ns : Nat} {record : Append} {spent : SpentSet} {demand : Option StoredDemand} :
    (n.written ns record spent demand).leaves = n.leaves + record.outputs.length := by
  show (n.appendOutputs (record.outputs.map (·.cm))).leaves = _
  unfold Namespace.appendOutputs
  split <;> simp

/-- What force takes, a segment that mirrors it adopts, and mirrors what force then keeps. -/
theorem Mirrors.step (mirrors : Mirrors state force s n)
    (run : applyForceRecord force bytes context state.construction = .ok later)
    (adopts : replay.Adopts state.construction context.backing) (block : replay.block[n.position]? = some ⟨bytes, index⟩)
    (capacity : n.position + 1 < valueBound)
    (room : state.construction.keeps.tree = true →
      n.leaves + (if state.construction.settles bytes then 1 else 0) ≤ noteTreeCapacity) :
    ∃ s' n', adoptRecord s state bytes replay = .ok s' ∧ Mirrors state later s' n' ∧ n'.position = n.position + 1 ∧
      n'.leaves = n.leaves + (if state.construction.settles bytes then 1 else 0) := by
  obtain ⟨record, decoded, forced, fits, rfl⟩ := mirrors.forced run
  have named : (judgedView s state record).kind = state.construction.kind record := state.construction.view_kind ..
  have width : (judgedView s state record).outputs.length = if state.construction.settles bytes then 1 else 0 := by
    rw [fits.outputs_length, named]
    simp [Construction.settles, decoded]
  rw [← width] at room ⊢
  obtain ⟨effects, spent, demand, s', applied⟩ := forced.applied mirrors.placed mirrors.stood mirrors.found mirrors.keeps
    mirrors.adopting mirrors.presented decoded adopts block capacity room
  have moved := applied.moved mirrors.placed mirrors.stood mirrors.presented forced.fits
  obtain ⟨kept, movedForce⟩ := applyForceView_moved mirrors.kept fits
  have created : effects.outputs.map (·.cm) = (judgedView s state record).outputs := applied.carries.outputs
  have rows := applied.rows mirrors.placed
  have written : s'.namespaces state.ns = some (n.written state.ns effects spent demand) := by
    rw [applied.later]
    exact s.put_self _ _
  have adopting : (n.written state.ns effects spent demand).Adopting (state.handle.rows s') := by
    refine ⟨fun event member => ?_, fun nf held => ?_⟩
    · simp only [Namespace.written, Rows.events_append, Namespace.added_events, List.mem_append, List.mem_singleton] at member
      rcases member with rfl | old
      · exact (forced.kinds.1).trans (le_of_eq applied.carries.kind.symm)
      · exact mirrors.adopting.own event old
    · have inserted := Namespace.spend_inserted applied.spend
      have hasNullifier : (state.handle.rows s').hasNullifier nf = _ := moved.hasNullifier nf
      rw [hasNullifier, Bool.or_eq_true, decide_eq_true_eq]
      rcases (SpentSet.insertAll_keys inserted nf).mp held with new | old
      · rw [applied.nfs] at new
        exact ⟨(judgedView_regular mirrors.placed mirrors.stood mirrors.found record).nfKeys nf new, .inl new⟩
      · exact ⟨(mirrors.adopting.spent nf old).1, .inr (mirrors.adopting.spent nf old).2⟩
  have mode : replay.modeAt (state.handle.position s) = .adoption := by
    simp [SegmentReplay.modeAt, SegmentState.position mirrors.found, block]
  refine ⟨s', _, ?_, ⟨applied.placed mirrors.placed, applied.stood mirrors.placed mirrors.stood, written, mirrors.keeps, adopting,
    fun id => applied.presented mirrors.placed mirrors.stood mirrors.presented forced.fits, kept,
    mirrors.same.moved moved movedForce, fun root => ?_, fun cm => ?_⟩, rfl, ?_⟩
  · obtain ⟨judged, judging, applying⟩ := applyRecord_eq_ok.mp (applyRecord_applied.mpr ⟨_, _, _, _, _, applied⟩)
    exact bind_eq_ok.mpr ⟨judged, judgeAdopted_eq_ok.mpr ⟨mode, judging⟩, applying⟩
  · show (state.handle.rows s').hasAnchor root = _
    have before : (state.handle.rows s).hasAnchor root = _ := mirrors.anchors root
    rw [rows, Rows.hasAnchor_append, before, ← Rows.hasAnchor_eq, ← Rows.hasAnchor_eq, ← Bool.or_assoc, ← Rows.hasAnchor_append]
    rfl
  · show (state.handle.rows s').hasOutput cm = _
    have before : (state.handle.rows s).hasOutput cm = _ := mirrors.inputs cm
    rw [rows, Rows.hasOutput_append, before, ← Rows.hasOutput_eq, ← Rows.hasOutput_eq, ← Bool.or_assoc, ← Rows.hasOutput_append]
    rfl
  · rw [Namespace.written_leaves, ← created, List.length_map]

end Step

end Moe
