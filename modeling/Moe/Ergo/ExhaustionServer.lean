import Moe.Ergo.ExhaustionWire
import Moe.Ergo.SectionBinding
import Moe.Ergo.SubjectMapProofs
import Moe.Lib.Savepoint

namespace Moe.ExhaustionServer

open ExhaustionWire OrderedMap

/-- A block as the server is handed it, authenticated by its caller. -/
structure ServedBlock where
  id : Bytes
  transactionsRoot : Bytes
  section_ : List ErgoTransactionView
  header : Option Bytes
  deriving DecidableEq

def ServedBlock.unsigned (block : ServedBlock) : List Bytes := block.section_.map (·.unsigned)

/-- Where a period begins. -/
structure Begin where
  id : Bytes
  height : Nat
  root : Nat
  deriving DecidableEq

/-- A period as `prove` is handed it: where it begins, its blocks, the map's updates over them and the fold it continues. -/
structure ServerPeriod where
  begin_ : Begin
  blocks : List ServedBlock
  updates : List MapUpdate
  previous : Option Fold

/-- The set's start header and next key hash, and whether the server keeps the blocks itself. -/
structure Options where
  startId : Bytes
  startHeight : Nat
  foldKeyHash : Nat
  keeps : Bool

inductive Code
  | fold | pending | blocks | disagreement
  deriving DecidableEq

/-- What a call throws: a refusal by its code, a malformed value, or what a prover, a verifier or a reading of blocks threw. -/
inductive ServerFailure
  | refused (code : Code) (message : String)
  | failed (failure : Failure)
  | thrown

/-- A fold proof's request: pending until its proof is made. -/
structure Pending where
  inputs : FoldInputs
  period : ServerPeriod

/-- The maps at the last block appended and at the latest fold's end, the blocks kept, the latest fold, why every call is refused, and a
period whose proof has not been made. -/
structure Server where
  ahead : SubjectMap
  served : SubjectMap
  blocks : OrderedMap Nat ServedBlock
  fold : Option Fold
  broken : Option String
  disagreed : Bool
  pending : Option Pending

abbrev ServerWork := Work Server ServerFailure

/-- Each reading of a fold's blocks while it is adopted: its last, each found at hand, each appended, each appended again. -/
inductive Pass
  | last | found | ahead | served
  deriving DecidableEq

/-- A fold's blocks: listed from the next after the map's end, or read by height, each time anew. -/
inductive Source
  | listed (blocks : List ServedBlock)
  | read (given : Pass → Nat → Except ServerFailure (Option ServedBlock))

/-- A block read once into owned bytes, or a refusal before anything is appended. -/
def ownBlock (block : ServedBlock) : Except ServerFailure ServedBlock :=
  if block.id.length = 32 ∧ block.transactionsRoot.length = 32 then .ok block else .error (.failed (.encoding "invalid exhaustion block"))

/-- The block at a height, of those from `first` on. -/
def Source.block (first : Nat) (pass : Pass) (height : Nat) : Source → Except ServerFailure (Option ServedBlock)
  | .listed blocks => .ok (if height - first < blocks.length then blocks[height - first]? else none)
  | .read given => do
    match ← given pass height with
    | none => return none
    | some block => return some (← ownBlock block)

/-- The inputs read once into owned values, or a malformed value. -/
def ownedInputs (inputs : FoldInputs) : Bool :=
  inputs.startId.length = 32 ∧ inputs.endId.length = 32 ∧ inputs.startHeight < 2 ^ 32 ∧ inputs.endHeight < 2 ^ 32 ∧
    isField inputs.mapRoot ∧ isField inputs.foldKeyHash

section

variable [Crypto] (options : Options)

def start : Except Failure Server := do
  let map ← SubjectMap.start options.startId options.startHeight
  return { ahead := map, served := map, blocks := [], fold := none, broken := none, disagreed := false, pending := none }

omit [Crypto] in
/-- A server whose map disagreed with a verified fold, or was left part-appended, serves and extends nothing more. -/
def usable : ServerWork Unit := do
  let s ← get
  match s.broken with
  | none => return
  | some why => throw (.refused (if s.disagreed then .disagreement else .blocks) why)

omit [Crypto] in
def fails {α : Type} : Except Failure α → Except ServerFailure α
  | .ok value => .ok value
  | .error failure => .error (.failed failure)

/-- Append a block to the map ahead. -/
def appendAhead (block : ServedBlock) : ServerWork (List MapUpdate) := do
  let s ← get
  let (updates, ahead) ← liftM (fails (s.ahead.appendBlock block.id block.unsigned))
  modify fun s => { s with ahead, blocks := if options.keeps then s.blocks.set ahead.height block else s.blocks }
  return updates

def appendServed (block : ServedBlock) : ServerWork Unit := do
  let s ← get
  let (_, served) ← liftM (fails (s.served.appendBlock block.id block.unsigned))
  modify fun s => { s with served }

/-- Append a period's blocks, each after the one before it, with their updates in order. -/
def appendPeriod : List ServedBlock → ServerWork (List MapUpdate)
  | [] => return []
  | block :: rest => do
    let updates ← appendAhead options block
    return updates ++ (← appendPeriod rest)

/-- A period begun with no other pending: what it returns with no blocks, or nothing, its proof now pending. -/
def begun (owned : List ServedBlock) : ServerWork (Option Fold) := do
  let s ← get
  if owned = [] then
    match s.fold with
    | some fold => return some fold
    | none => throw (.failed (.encoding "a period holds at least one block"))
  if 2 ^ 32 ≤ s.ahead.height + owned.length then throw (.failed (.encoding "exhaustion height out of range"))
  let begin_ : Begin := ⟨s.ahead.id, s.ahead.height, s.ahead.root⟩
  let updates ← appendPeriod options owned
  modify fun s =>
    let inputs : FoldInputs := ⟨options.startId, options.startHeight, s.ahead.id, s.ahead.height, s.ahead.root, options.foldKeyHash⟩
    { s with pending := some ⟨inputs, ⟨begin_, owned, updates, s.fold⟩⟩ }
  return none

/-- The pending period's fold proved: the served map brought to its end. -/
def sealed (pending : Pending) (proof : Bytes) : ServerWork Fold := do
  pending.period.blocks.forM appendServed
  let fold : Fold := ⟨pending.period.previous.isNone, pending.inputs, proof⟩
  modify fun s => { s with fold := some fold, pending := none }
  return fold

omit [Crypto] in
/-- `throw` where the condition holds. -/
def refuseIf (condition : Bool) (code : Code) (message : String) : ServerWork Unit :=
  if condition then throw (.refused code message) else return

omit [Crypto] in
/-- A list of blocks ends at the fold's. -/
def checkListed (first last : Nat) : Source → ServerWork Unit
  | .listed blocks => refuseIf (first + blocks.length ≠ last + 1) .fold
      s!"the fold ends at {last}, not {blocks.length} blocks above the map's end {first - 1}"
  | .read _ => return

omit [Crypto] in
/-- What an adoption checks before its fold's proof: the block it begins at. -/
def adopting (fold : Fold) (source : Source) : ServerWork Nat := do
  usable
  let s ← get
  refuseIf s.pending.isSome .pending "a period is pending: a fold is adopted only between periods"
  let first := s.ahead.height + 1
  let last := fold.inputs.endHeight
  checkListed first last source
  refuseIf (fold.inputs.startId ≠ options.startId || fold.inputs.startHeight ≠ options.startHeight ||
    fold.inputs.foldKeyHash ≠ options.foldKeyHash) .fold "the fold is of another start or key hash"
  refuseIf (last < first) .fold s!"the fold ends at {last}, not above the map's end {first - 1}"
  match ← liftM (source.block first .last last) with
  | none => throw (.refused .fold s!"the fold's block at {last} is not at hand")
  | some block =>
    refuseIf (block.id ≠ fold.inputs.endId) .fold "the fold ends at another header than its blocks"
    return first

omit [Crypto] in
/-- Each block of a span found at hand. -/
def atHand (source : Source) (first : Nat) : List Nat → ServerWork Unit
  | [] => return
  | height :: rest => do
    match ← liftM (source.block first .found height) with
    | none => throw (.refused .fold s!"the fold's block at {height} is not at hand")
    | some _ => atHand source first rest

omit [Crypto] in
/-- Each block of a span appended: one that is not at hand again leaves the server broken. -/
def each (source : Source) (first : Nat) (pass : Pass) (append : ServedBlock → ServerWork Unit) : List Nat → ServerWork Unit
  | [] => return
  | height :: rest => do
    match source.block first pass height with
    | .ok (some block) => append block
    | _ =>
      modify fun s => { s with broken := some s!"the fold's block at {height} could not be read again while it was adopted" }
      throw (.refused .blocks s!"the fold's block at {height} could not be read again while it was adopted")
    each source first pass append rest

/-- An adoption once its fold's proof is judged. -/
def adopted (fold : Fold) (source : Source) (first : Nat) (verified : Bool) : ServerWork Fold := do
  let last := fold.inputs.endHeight
  refuseIf (!verified) .fold "the fold does not verify"
  usable
  atHand source first (List.range' first (last - first))
  each source first .ahead (fun block => do let _ ← appendAhead options block) (List.range' first (last + 1 - first))
  let s ← get
  if s.ahead.id ≠ fold.inputs.endId ∨ s.ahead.root ≠ fold.inputs.mapRoot then
    modify fun s => { s with
      broken := some s!"a fold to {last} verified, but the map over its blocks has another root"
      disagreed := true }
    throw (.refused .disagreement s!"a fold to {last} verified, but the map over its blocks has another root")
  each source first .served appendServed (List.range' first (last + 1 - first))
  let s ← get
  if s.served.id ≠ fold.inputs.endId ∨ s.served.root ≠ fold.inputs.mapRoot then
    modify fun s => { s with
      broken := some s!"the served map over the fold to {last} has another root than the map just built" }
    throw (.refused .blocks s!"the served map over the fold to {last} has another root than the map just built")
  modify fun s => { s with fold := some fold }
  return fold

end

/-- The key's entries after its first `after`, in chain order. -/
def keyEntriesAfter (map : SubjectMap) (key after : Nat) : List MapEntry := ((get? map.keys key).elim [] KeyState.entries).drop after

namespace Server

def foldTo (s : Server) (maxHeight : Nat) : Option Fold :=
  (if s.broken.isNone then s.fold else none).filter fun fold => fold.inputs.endHeight ≤ maxHeight

def key [Crypto] (s : Server) (endHeight key after : Nat) : Except Failure (Option KeyAnswer) :=
  match s.broken, s.fold with
  | none, some fold =>
    if fold.inputs.endHeight ≠ endHeight ∨ s.served.height ≠ endHeight then .ok none
    else do
      let path ← s.served.path key
      return some ⟨path, keyEntriesAfter s.served key after⟩
  | _, _ => .ok none

def transaction [Blake] (s : Server) (options : Options) (given : Nat → Option ServedBlock) (height position : Nat) :
    Except Failure (Option IncludedTransaction) :=
  if s.broken.isSome ∨ s.ahead.height < height then .ok none
  else match (if options.keeps then none else given height).or (get? s.blocks height) with
    | none => .ok none
    | some block => match block.section_[position]? with
      | none => .ok none
      | some view => do
        match ← sectionInclusionPath block.section_ block.transactionsRoot position with
        | none => return none
        | some steps => return some ⟨view.unsigned, steps⟩

end Server

/-- A call waiting its turn. -/
inductive Request
  | extend (owned : List ServedBlock)
  | adopt (fold : Fold) (source : Source)

/-- The call in progress, at the await it stands at: a proof, then what the call appends after it; its turn again after one; or a fold's
verification. -/
inductive Job
  | proving (rest : Option (List ServedBlock))
  | extending (owned : List ServedBlock)
  | verifying (fold : Fold) (source : Source) (first : Nat)

/-- The server with its queue of calls. -/
structure Serving where
  server : Server
  job : Option Job
  queue : List Request

/-- What happens to it: calls made, a call's turn, and what a prover and a verifier answer, none where they throw. -/
inductive Event
  | extend (blocks : List ServedBlock)
  | adopt (fold : Fold) (source : Source)
  | turn
  | proved (proof : Option Bytes)
  | resumed
  | verified (answer : Option Bool)

/-- What a call comes to. -/
abbrev Reply := Option (Except ServerFailure Fold)

namespace Serving

variable [Crypto] (options : Options)

omit [Crypto] in
def finish (x : Serving) : Except ServerFailure Fold × Server → Serving × Reply
  | (result, server) => ({ x with server, job := none }, some result)

/-- A period begun, then its proof awaited. -/
def begin_ (x : Serving) (owned : List ServedBlock) : Serving × Reply :=
  match (begun options owned).runs x.server with
  | (.error failure, server) => x.finish (.error failure, server)
  | (.ok (some fold), server) => x.finish (.ok fold, server)
  | (.ok none, server) => ({ x with server, job := some (.proving none) }, none)

def turn (x : Serving) : Request → Serving × Reply
  | .extend owned => match usable.runs x.server with
    | (.error failure, server) => x.finish (.error failure, server)
    | (.ok _, server) =>
      if server.pending.isSome then ({ x with server, job := some (.proving (some owned)) }, none) else { x with server }.begin_ options owned
  | .adopt fold source => match (adopting options fold source).runs x.server with
    | (.error failure, server) => x.finish (.error failure, server)
    | (.ok first, server) => ({ x with server, job := some (.verifying fold source first) }, none)

def step (x : Serving) : Event → Serving × Reply
  | .extend blocks => match blocks.mapM ownBlock with
    | .error failure => (x, some (.error failure))
    | .ok owned => ({ x with queue := x.queue ++ [.extend owned] }, none)
  | .adopt fold source =>
    if ownedInputs fold.inputs = false then (x, some (.error (.failed (.encoding "invalid exhaustion fold"))))
    else match source with
      | .read given => ({ x with queue := x.queue ++ [.adopt fold (.read given)] }, none)
      | .listed blocks => match blocks.mapM ownBlock with
        | .error failure => (x, some (.error failure))
        | .ok owned => ({ x with queue := x.queue ++ [.adopt fold (.listed owned)] }, none)
  | .turn => match x.job, x.queue with
    | none, request :: queue => { x with queue }.turn options request
    | _, _ => (x, none)
  | .proved proof => match x.job, x.server.pending with
    | some (.proving rest), some pending => match proof with
      | none => x.finish (.error .thrown, x.server)
      | some proof => match (sealed pending proof).runs x.server, rest with
        | (.ok _, server), some owned => ({ x with server, job := some (.extending owned) }, none)
        | ended, _ => x.finish ended
    | _, _ => (x, none)
  | .resumed => match x.job with
    | some (.extending owned) => x.begin_ options owned
    | _ => (x, none)
  | .verified answer => match x.job, answer with
    | some (.verifying _ _ _), none => x.finish (.error .thrown, x.server)
    | some (.verifying fold source first), some verified => x.finish ((adopted options fold source first verified).runs x.server)
    | _, _ => (x, none)

end Serving

end Moe.ExhaustionServer
