import Moe.Pool.Construction
import Moe.Pool.ReplayStore

namespace Moe

variable [Crypto] {R : Type}

/-- One segment's replay state: its namespace read at a fixed position, or at its tip. -/
structure StateHandle (R : Type) where
  ns : Nat
  fixed : Option Nat
  construction : Construction R

namespace StateHandle

/-- A namespace is read through the construction it replays, at or below its tip. -/
def make (s : Store) (ns : Nat) (fixed : Option Nat) (construction : Construction R) : Except Failure (StateHandle R) := do
  let n ← s.find ns
  require (n.keeps.name = construction.keeps.name) (.typeError "the namespace replays another construction")
  require (fixed.all (· ≤ n.position)) (.rangeError "a state is read at or below its tip")
  return ⟨ns, fixed, construction⟩

def position (s : Store) (h : StateHandle R) : Nat :=
  h.fixed.getD (((s.namespaces h.ns).map (·.position)).getD 0)

def rows (s : Store) (h : StateHandle R) : Rows := s.visible h.ns (h.position s)

def total (s : Store) (h : StateHandle R) (backing : Bytes) : Totals := s.total h.ns (h.position s) backing

/-- The demand whose settlement created output `cm`, where a settlement did. -/
def settledFor (s : Store) (h : StateHandle R) (cm : Nat) : Option Bytes :=
  match (h.rows s).output cm with
  | some stored =>
    if stored.row.settlement then
      ((s.event stored.ns stored.position).bind (·.settlement)).bind h.construction.settledDemand
    else none
  | none => none

def view (s : Store) (h : StateHandle R) : StateView :=
  let rows := h.rows s
  { hasNullifier := rows.hasNullifier, hasOutput := rows.hasOutput, hasAnchor := rows.hasAnchor
    isInput := rows.hasOutput, settledFor := h.settledFor s, presentedWithTag := rows.presentedWithTag
    demand := rows.demand, demandsWithTag := rows.demandsWithTag, isEffective := rows.isEffective
    hasSpentTag := rows.hasSpentTag }

def frontier (s : Store) (h : StateHandle R) : Imports := s.frontier h.ns (h.position s)

end StateHandle

/-- The state one segment replay moves: its namespace at its tip. -/
structure SegmentState (R : Type) where
  ns : Nat
  construction : Construction R

def SegmentState.handle (state : SegmentState R) : StateHandle R := ⟨state.ns, none, state.construction⟩

/-- A fresh namespace for `segment`, over the imported frontier or else the empty state. -/
def openSegmentState (s : Store) (segment identity : Bytes) (imported : Option Imports) (construction : Construction R) :
    Except Failure (SegmentState R × Store) := do
  let history ← construction.genesisHistory segment
  let evidence ← construction.genesisEvidence segment
  let (ns, opened) ← s.open segment identity imported history evidence construction.keeps
  return (⟨ns, construction⟩, opened)

/-- A record of the segment's adopted block: its exact admitted bytes and its publication's index. -/
structure Adopted where
  bytes : Bytes
  index : Nat
  deriving DecidableEq

/-- The last valid checkpoint of a segment: the replay must reach it and reproduce its hashes. -/
structure LastValid where
  position : Nat
  historyHash : Bytes
  evidenceHash : Bytes
  judgedIndex : Option (Nat → Option Nat)

/-- What of a backing's terms the state machine reads. -/
structure RootTerms where
  obligor : Bytes

/-- What stays fixed while one segment's trail replays. -/
structure SegmentReplay where
  domain : Bytes
  backing : Bytes
  segment : Bytes
  scope : Option Nat
  terms : RootTerms
  /-- For a multi-backing scope, each scoped backing's terms by name. -/
  scopedTerms : Option (Bytes → Option RootTerms)
  verifier : ProofCheck
  /-- The checkpoint's witnessed index; in admission, the horizon. -/
  index : Nat
  admission : Bool
  lag : Option Nat
  revokedAt : Option Nat
  /-- Per scoped backing. -/
  revocations : Option (Bytes → Option Nat)
  lastValid : Option LastValid
  block : List Adopted
  witness : Option WitnessPredicate

/-- The modes a segment's record applies in. -/
inductive StepMode
  | admission | replay | adoption
  deriving DecidableEq

namespace SegmentReplay

/-- Exact adopted bytes inside the adopted block, then the caller's admission or replay. -/
def modeAt (replay : SegmentReplay) (position : Nat) : StepMode :=
  if (replay.block[position]?).isSome then .adoption else if replay.admission then .admission else .replay

def termsOf (replay : SegmentReplay) (name : Bytes) : Option RootTerms :=
  match replay.scopedTerms with
  | none => some replay.terms
  | some byName => byName name

/-- The index a position is judged at: its publication's, the one a finalized prefix was judged at, or
the replay's own. -/
def judgedAt (replay : SegmentReplay) (position : Nat) : Nat :=
  match replay.block[position]? with
  | some adopted => adopted.index
  | none =>
    (replay.lastValid.bind fun last =>
      if position < last.position then last.judgedIndex.bind (· (position + 1)) else none).getD replay.index

def cutoff (replay : SegmentReplay) (backing : Bytes) : Option Nat :=
  match replay.revocations with
  | none => replay.revokedAt
  | some byName => byName backing

end SegmentReplay

/-- A judged record: its effects on the state it was judged against. -/
structure Judged (R : Type) where
  bytes : Bytes
  record : R
  view : StatementView
  atIndex : Nat
  evidence : Bytes
  backing : Bytes
  /-- The standing demand it ends. -/
  demand : Option Demand
  position : Nat

/-- The inputs a record reads: anchors, or a construction's input commitments. -/
def checkInputs (view : StatementView) (state : StateView) : Except Failure Unit := do
  requireReplay (view.roots.all state.hasAnchor) .anchor
  requireReplay (view.inputs.all state.isInput) .input

def checkUniqueEffects (nfs outputs : List Nat) (state : StateView) : Except Failure Unit := do
  requireReplay (nfs.Nodup ∧ nfs.all fun nf => nf ≠ 0 && !state.hasNullifier nf) .spent
  requireReplay (outputs.Nodup ∧ outputs.all fun cm => cm ≠ 0 && !state.hasOutput cm) .output

/-- An authenticated record that does not decode fails replay at its position. -/
def decodeJudged (construction : Construction R) (bytes : Bytes) : Except Failure R :=
  match construction.decode bytes with
  | .ok record => .ok record
  | .error (.encoding _) => .error (.replay .malformed)
  | .error failure => .error failure

/-- The backing the record is judged under: its demand's where it reads one, else the first it names,
else the selected. -/
def judgedBacking (view : StatementView) (demand : Option Demand) (replay : SegmentReplay) : Bytes :=
  if view.needsDemand then (demand.map (·.backing)).getD replay.backing else view.backings.head?.getD replay.backing

/-- A judgment under way: what is read before the statement check. -/
structure Judgment (R : Type) extends Judged R where
  issuer : Bytes
  check : Bool

section

variable (s : Store) (state : SegmentState R) (record : R) (replay : SegmentReplay)

/-- The view a record is judged by in a state. -/
def judgedView : StatementView := state.construction.view record (state.handle.view s).demand

/-- The standing demand the record ends. -/
def endedDemand : Option Demand := (judgedView s state record).ended.bind (state.handle.view s).demand

def backingOf : Bytes := judgedBacking (judgedView s state record) (endedDemand s state record) replay

/-- The key an issue and a recovery acceptance are signed under. -/
def issuerOf : Bytes := ((replay.termsOf (backingOf s state record replay)).getD replay.terms).obligor

/-- The judgment of a record that passed every check before its statement's. -/
def judgmentFor (bytes : Bytes) (n : Namespace) : Judgment R :=
  { bytes, record, view := judgedView s state record, atIndex := replay.judgedAt (state.handle.position s)
    evidence := state.construction.nextEvidence n.evidence (judgedView s state record).digests (state.handle.position s + 1)
    backing := backingOf s state record replay, demand := endedDemand s state record
    position := state.handle.position s, issuer := issuerOf s state record replay
    check := replay.modeAt (state.handle.position s) ≠ .adoption }

end

/-- Exact admitted bytes, including proof and authorization, survive adoption; another record names the
replay's domain, segment and scope. -/
def checkFrame (replay : SegmentReplay) (position : Nat) (bytes : Bytes) (view : StatementView) : Except Failure Unit :=
  match replay.block[position]? with
  | some adopted => requireReplay (bytes = adopted.bytes) .adoption
  | none => do
    requireReplay (view.domain = replay.domain && view.segment = replay.segment) .context
    requireReplay (view.scope = replay.scope) .scope

/-- The backings a record must find terms for. -/
def termedBackings (view : StatementView) (backing : Bytes) : List Bytes :=
  if view.needsDemand then [backing] else view.backings

/-- The checks before the statement check, in one order for every caller and construction. -/
def judgmentOf (s : Store) (state : SegmentState R) (bytes : Bytes) (replay : SegmentReplay) :
    Except Failure (Judgment R) := do
  let position := state.handle.position s
  let record ← decodeJudged state.construction bytes
  let kind := state.construction.kind record
  requireReplay (1 ≤ kind && kind ≤ 6) .kind
  requireReplay (position + 1 < valueBound) .capacity
  require (!(replay.modeAt position = .admission && 4 ≤ kind) || replay.lag.isSome)
    (.typeError "recovery admission needs the venue's lag")
  let view := judgedView s state record
  let backing := backingOf s state record replay
  checkFrame replay position bytes view
  requireReplay ((termedBackings view backing).all fun name => (replay.termsOf name).isSome) .backing
  requireReplay (!view.needsDemand || ((endedDemand s state record).isSome &&
    (replay.scopedTerms.isSome || backing = replay.backing))) .demand
  requireReplay (!s.hasStatement state.ns position view.identity) .repeatedStatement
  let n ← s.find state.ns
  let judgment := judgmentFor s state record replay bytes n
  requireReplay (replay.lastValid.all fun last => position + 1 ≠ last.position || judgment.evidence = last.evidenceHash)
    .continuity
  -- A position the last valid checkpoint finalized was witnessed at its index, not here.
  requireReplay (kind ≠ 1 || (replay.lastValid.any fun last => position + 1 ≤ last.position) ||
    (replay.cutoff backing).all (replay.index < ·)) .revoked
  return judgment

/-- An issue is signed and stays below the value bound; a burn burns what stands. -/
def checkSupply (view : StatementView) (kind : Nat) (total : Totals) (issuer : Bytes) : Except Failure Unit := do
  if kind = 1 then
    requireReplay (view.issuerSigned issuer) .signature
    let quantity ← known view.quantity
    requireReplay (total.issued + quantity < valueBound) .supply
  else if kind = 3 then
    let quantity ← known view.quantity
    requireReplay ((quantity : Int) ≤ total.issued - total.burned) .supply

/-- The guards exact adopted bytes do not meet again: the force judgment verified them. -/
def checkGuards (j : Judgment R) (kind : Nat) (state : StateView) (replay : SegmentReplay) : Except Failure Unit :=
  if j.check then do
    checkInputs j.view state
    checkRecovery j.view state ⟨j.backing, j.issuer, j.atIndex, replay.lag,
      replay.modeAt j.position = .admission && 4 ≤ kind⟩
  else .ok ()

/-- The checks after the statement check. -/
def Judgment.finish (s : Store) (state : SegmentState R) (replay : SegmentReplay) (j : Judgment R) :
    Except Failure (Judged R) := do
  let kind := state.construction.kind j.record
  requireReplay (j.view.backings.all fun name => replay.scopedTerms.isSome || name = replay.backing) .backing
  checkSupply j.view kind (state.handle.total s j.backing) j.issuer
  checkGuards j kind (state.handle.view s) replay
  checkUniqueEffects j.view.nfs j.view.outputs (state.handle.view s)
  let n ← s.find state.ns
  requireReplay (!state.construction.keeps.tree || n.leaves + j.view.outputs.length ≤ noteTreeCapacity) .capacity
  return j.toJudged

/-- The statement check, not made again on exact adopted bytes. -/
def Judgment.checkStatement (j : Judgment R) (verifier : ProofCheck) : Except Failure Unit :=
  if j.check then j.view.check verifier else .ok ()

/-- Judge the record at the state's position: every guard reads the same pre-state and nothing is written. -/
def judgeRecord (s : Store) (state : SegmentState R) (bytes : Bytes) (replay : SegmentReplay) :
    Except Failure (Judged R) := do
  let judgment ← judgmentOf s state bytes replay
  judgment.checkStatement replay.verifier
  judgment.finish s state replay

/-- Judge the record at a position inside the adopted block; a position outside it is the caller's error. -/
def judgeAdopted (s : Store) (state : SegmentState R) (bytes : Bytes) (replay : SegmentReplay) :
    Except Failure (Judged R) := do
  require (replay.modeAt (state.handle.position s) = .adoption) (.typeError "the position is outside the adopted block")
  let judgment ← judgmentOf s state bytes replay
  judgment.finish s state replay

/-- A mark's nullifier is a field element where a note tree is kept, else a 256-bit value. -/
def markOf (construction : Construction R) (predicate : WitnessPredicate) (output : ScanOutput) :
    Except Failure (Option WitnessMark) := do
  let mark ← predicate output
  require (mark.all fun m => if construction.keeps.tree then isField m.nf else m.nf < keyBound)
    (.typeError "a witness predicate returns a mark \x7b nf, note \x7d or undefined")
  return mark

def SegmentReplay.markFor (replay : SegmentReplay) (construction : Construction R) (output : ScanOutput) :
    Except Failure (Option WitnessMark) :=
  match replay.witness with
  | none => .ok none
  | some predicate => markOf construction predicate output

/-- Output `i` as it is stored, with its mark where the replay chooses it. -/
def Judged.outputOf (construction : Construction R) (judged : Judged R) (replay : SegmentReplay) (entry : Nat × Nat) :
    Except Failure AppendOutput := do
  let (cm, i) := entry
  let witness ← replay.markFor construction (construction.scanOutput judged.record judged.view cm i judged.demand)
  return { cm, capsule := (judged.view.capsules[i]?).join, settlement := judged.view.kind = 6, witness }

/-- The tags an event touches: those it presents, releases or spends. -/
def touchedTags (kind : Nat) (view : StatementView) (ended : Option Demand) : Except Failure (List Nat) :=
  if kind = 4 then do return standingTags (← known view.demand).2
  else if kind = 5 then .ok ((ended.map standingTags).getD [])
  else .ok view.tags

/-- What a judged record writes. -/
def Judged.effects (construction : Construction R) (judged : Judged R) (replay : SegmentReplay)
    (previous : Bytes) : Except Failure Append := do
  let view := judged.view
  let kind := view.kind
  let tags ← touchedTags kind view judged.demand
  let touched := if kind = 4 then some view.identity else view.ended
  let outputs ← view.outputs.zipIdx.mapM (judged.outputOf construction replay)
  return {
    identity := view.identity, kind, index := some judged.atIndex, record := judged.bytes
    proofHash := view.digests.proofHash, signatureHash := view.digests.signatureHash, evidence := judged.evidence
    supply := if kind = 1 then some ⟨judged.backing, view.quantity.getD 0, 0⟩
      else if kind = 3 then some ⟨judged.backing, 0, view.quantity.getD 0⟩ else none
    nullifiers := (view.nfs.zip view.tags).map fun (nf, tag) => ⟨nf, tag⟩
    outputs, demand := view.demand, ended := view.ended
    keys := tags.map .tag ++ touched.toList.map .demand
    history := fun noteRoot spentRoot =>
      construction.nextHistory previous view.identity noteRoot spentRoot (judged.position + 1) }

/-- Write a judged record's effects. Only the last check follows: at the last valid checkpoint's
position the new history hash must be its own. A refusal leaves the store as it was. -/
def applyJudged (s : Store) (state : SegmentState R) (judged : Judged R) (replay : SegmentReplay) :
    Except Failure Store := do
  require (state.handle.position s = judged.position) (.error "the state moved since the record was judged")
  let n ← s.find state.ns
  let effects ← judged.effects state.construction replay n.history
  let written ← s.append state.ns effects
  let tip ← written.find state.ns
  requireReplay (replay.lastValid.all fun last => judged.position + 1 ≠ last.position || tip.history = last.historyHash) .continuity
  return written

/-- Judge then apply the record at the state's position; a refusal leaves the state as it was. -/
def applyRecord (s : Store) (state : SegmentState R) (bytes : Bytes) (replay : SegmentReplay) : Except Failure Store := do
  let judged ← judgeRecord s state bytes replay
  applyJudged s state judged replay

end Moe
