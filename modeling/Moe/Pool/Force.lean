import Moe.Pool.State

namespace Moe

variable [Crypto] {R : Type}

/-- Recovery over a fixed snapshot state, without a segment's local history: the snapshot's view with
forced effects held in memory over it. -/
structure ForceState where
  base : StateView
  nullifiers : List Nat := []
  outputs : List Nat := []
  added : OrderedMap Bytes Demand := []
  /-- Every forced demand, ended or not. -/
  forced : OrderedMap Bytes Demand := []
  ended : List Bytes := []
  effective : List Bytes := []
  spentTags : List Nat := []
  /-- Each forced settlement's output, with its demand. -/
  settled : OrderedMap Nat Bytes := []

def openForceState (source : StateView) : ForceState := { base := source }

def ForceState.demand (state : ForceState) (id : Bytes) : Option Demand :=
  if id ∈ state.ended then none else (OrderedMap.get? state.added id).or (state.base.demand id)

def ForceState.naming (map : OrderedMap Bytes Demand) (tag : Nat) : List (Bytes × Demand) :=
  map.filter fun (_, demand) => tag ∈ demand.tags

/-- Inputs and anchors are read in the snapshot's state only. -/
def ForceState.view (state : ForceState) : StateView :=
  { hasNullifier := fun nf => nf ∈ state.nullifiers || state.base.hasNullifier nf
    hasOutput := fun cm => cm ∈ state.outputs || state.base.hasOutput cm
    hasAnchor := state.base.hasAnchor
    isInput := state.base.isInput
    settledFor := fun cm => (OrderedMap.get? state.settled cm).or (state.base.settledFor cm)
    presentedWithTag := fun tag => state.base.presentedWithTag tag ++ ForceState.naming state.forced tag
    demand := state.demand
    demandsWithTag := fun tag =>
      (state.base.demandsWithTag tag ++ ForceState.naming state.added tag).filter fun (id, _) => id ∉ state.ended
    isEffective := fun id => id ∈ state.effective || state.base.isEffective id
    hasSpentTag := fun tag => tag ∈ state.spentTags || state.base.hasSpentTag tag }

structure ForceContext where
  domain : Bytes
  backing : Bytes
  segment : Bytes
  scope : Option Nat
  issuer : Bytes
  index : Nat
  lag : Nat
  verifier : ProofCheck

/-- A release whose every other condition holds is taken where its output already exists as the output
of a settlement of another demand. -/
def checkTaken (view : StatementView) (state : StateView) : Except Failure Unit := do
  if view.kind = 6 then
    let output ← known view.outputs.head?
    requireReplay ((state.settledFor output).all fun by_ => some by_ = view.ended) .taken

/-- Stand its demand up, end the one it ends, and hold its nullifiers, tags and outputs. -/
def applyForceView (state : ForceState) (view : StatementView) : ForceState :=
  let added := match view.demand with
    | some (id, value) => OrderedMap.set state.added id value
    | none => state.added
  { state with
    added := match view.ended with
      | some ended => OrderedMap.erase added ended
      | none => added
    forced := match view.demand with
      | some (id, value) => OrderedMap.set state.forced id value
      | none => state.forced
    ended := view.ended.toList ++ state.ended
    effective := view.identity :: state.effective
    nullifiers := view.nfs ++ state.nullifiers
    spentTags := view.tags ++ state.spentTags
    outputs := view.outputs ++ state.outputs
    settled := if view.kind = 6 then
        match view.outputs.head?, view.ended with
        | some cm, some ended => OrderedMap.set state.settled cm ended
        | _, _ => state.settled
      else state.settled }

def recoveryKind (kind : Nat) : Bool := kind = 4 || kind = 5 || kind = 6

/-- Apply only an already-verified forced publication's effects when rebuilding its prefix. -/
def applyForceEffects (state : ForceState) (record : R) (construction : Construction R) : Except Failure ForceState := do
  require (recoveryKind (construction.kind record)) (.evidence "unsupported-scope")
  return applyForceView state (construction.view record state.demand)

/-- The checks run in replay's order, new nullifiers and outputs last, so a release refused only for
its output is told apart. Every check precedes mutation. -/
def checkForceView (state : StateView) (view : StatementView) (kind : Nat) (context : ForceContext) :
    Except Failure Unit := do
  requireReplay (view.domain = context.domain && view.segment = context.segment && view.scope = context.scope) .context
  requireReplay (kind = 5 || view.backings.all (· = context.backing)) .backing
  view.check context.verifier
  checkInputs view state
  checkRecovery view state ⟨context.backing, context.issuer, context.index, some context.lag, true⟩
  checkUniqueEffects view.nfs [] state
  checkTaken view state
  checkUniqueEffects [] view.outputs state

def applyForceRecord (state : ForceState) (bytes : Bytes) (context : ForceContext) (construction : Construction R) :
    Except Failure ForceState := do
  let record ← construction.decode bytes
  let kind := construction.kind record
  require (recoveryKind kind) (.evidence "unsupported-scope")
  let view := construction.view record state.demand
  checkForceView state.view view kind context
  return applyForceView state view

end Moe
