import Mathlib.Logic.Function.Basic
import Moe.Lib.Machine
import Moe.Lib.OrderedMap
import Moe.Scope.Candidates

namespace Moe

/-- A silence clock's running state: read through `upto`, with its boundary if found. -/
structure ClockState where
  upto : Nat
  boundary : Option Nat
  deriving DecidableEq

/-- What a clock read answers. -/
structure ScopeClock where
  duration : Nat
  snapshotIndex : Nat
  gap : Int
  open_ : Bool
  boundary : Option Nat
  opening : Nat
  deriving DecidableEq

def runningClocks : Nat := 256

/-- What the reads of one walk share: each backing's record, cursor and valid rows, the running clocks in the order they were
last kept, and the clock rows the walk keeps. -/
structure Walk where
  views : Bytes → RecordView
  cursors : Bytes → Cursor
  valid : Bytes → List ValidRow
  running : OrderedMap (Bytes × Nat) ClockState
  clocks : Bytes → Nat → Option ClockState

/-- What a clock read waits for: the snapshot strictly before a breakpoint, or strictly before the index it reads through. -/
inductive Stage
  | point (at_ : Nat)
  | last
  deriving DecidableEq

/-- A clock read in progress. -/
structure ClockCall where
  backing : Bytes
  duration : Nat
  opening : Nat
  through : Nat
  began : ClockState
  state : ClockState
  stage : Stage
  deriving DecidableEq

/-- A read in progress: a clock's, or one of a backing's latest valid checkpoint. -/
inductive Task
  | clock (call : ClockCall)
  | latest (backing : Bytes) (bound : Bound)
  deriving DecidableEq

/-- A read in progress, and the checkpoint whose class it waits for. -/
structure Call where
  task : Task
  judging : Option HeldCommitment
  deriving DecidableEq

/-- The boundary of a gap that starts after a snapshot, no earlier than the index after the opening. -/
def boundaryAfter (opening duration last : Nat) : Nat :=
  if opening < last + duration + 1 then last + duration + 1 else opening + 1

namespace ClockCall

def index (call : ClockCall) : Nat :=
  match call.stage with
  | .point at_ => at_
  | .last => call.through

/-- The state kept for later reads: a found boundary stands through the index read. -/
def kept (call : ClockCall) : ClockState :=
  if call.state.boundary ≠ none ∧ call.state.upto < call.through then { call.state with upto := call.through } else call.state

/-- The walk's row moves forward only, and the running clock to the furthest state, the oldest of too many evicted. -/
def save (call : ClockCall) (w : Walk) : Walk :=
  let key := (call.backing, call.opening)
  let forward := (w.clocks call.backing call.opening).all (·.upto ≤ call.state.upto)
  let clocks := if call.state ≠ call.began ∧ forward then
      Function.update w.clocks call.backing (Function.update (w.clocks call.backing) call.opening (some call.state))
    else w.clocks
  let moved := OrderedMap.set (OrderedMap.erase w.running key) key call.kept
  let running := if (OrderedMap.get? w.running key).all (·.upto ≤ call.kept.upto) then
      if runningClocks < moved.length then moved.tail else moved
    else w.running
  { w with running, clocks }

/-- On to a breakpoint, or to the index read through. -/
def goOn (call : ClockCall) (w : Walk) (at_ : Option Nat) : Walk × ClockCall :=
  match at_, call.state.boundary with
  | some at_, none => (w, { call with stage := .point at_ })
  | _, _ => (call.save w, { call with state := call.kept, stage := .last })

/-- The row a walk keeps of a clock, where it runs no state of it. -/
def row (w : Walk) (backing : Bytes) (opening : Nat) : Option ClockState :=
  match OrderedMap.get? w.running (backing, opening) with
  | some _ => none
  | none => w.clocks backing opening

/-- The walk with that row running again. -/
def recalled (w : Walk) (backing : Bytes) (opening : Nat) : Walk :=
  match row w backing opening with
  | some state => { w with running := OrderedMap.set w.running (backing, opening) state }
  | none => w

/-- The furthest state kept, where it is at or below the index read through; else the opening's. -/
def startState (w : Walk) (backing : Bytes) (opening through : Nat) : ClockState :=
  match (OrderedMap.get? w.running (backing, opening)).or (row w backing opening) with
  | some state => if state.upto ≤ through then state else ⟨opening, none⟩
  | none => ⟨opening, none⟩

/-- A clock read as it starts. -/
def begin_ (w : Walk) (backing : Bytes) (duration opening through : Nat) : Walk × ClockCall :=
  let state := startState w backing opening through
  goOn ⟨backing, duration, opening, through, state, state, .last⟩ (recalled w backing opening)
    ((w.views backing).firstPoint (state.upto + 1) through)

/-- The state past a breakpoint. -/
def passed (call : ClockCall) (at_ last : Nat) : ClockState :=
  ⟨at_, if call.duration < at_ - last then some (boundaryAfter call.opening call.duration last) else call.state.boundary⟩

/-- What a clock read answers once it has the snapshot before its index. -/
def answer (call : ClockCall) (last : Nat) : ScopeClock :=
  { duration := call.duration, snapshotIndex := last, gap := (call.through : Int) - last, open_ := call.duration < call.through - last
    boundary := if call.state.boundary = none ∧ call.opening < call.through ∧ call.duration < call.through - last then
        some (boundaryAfter call.opening call.duration last)
      else call.state.boundary
    opening := call.opening }

end ClockCall

namespace Call

def backing (call : Call) : Bytes :=
  match call.task with
  | .clock clock => clock.backing
  | .latest backing _ => backing

def bound (call : Call) : Bound :=
  match call.task with
  | .clock clock => .strict clock.index
  | .latest _ bound => bound

/-- What one turn of a read comes to. -/
inductive Outcome
  | runs (w : Walk) (call : Call)
  | returns (w : Walk) (clock : Option ScopeClock)
  | throws

/-- A read whose checkpoints are classified goes on with the latest snapshot. -/
def resume (call : Call) (w : Walk) : Outcome :=
  match call.task with
  | .latest _ _ => .returns w none
  | .clock clock =>
    let last := latestIndexIn (w.valid clock.backing) clock.index
    match clock.stage with
    | .point at_ =>
      let next := { clock with state := clock.passed at_ last }
      let (later, on) := next.goOn w ((w.views clock.backing).firstPoint (at_ + 1) clock.through)
      .runs later ⟨.clock on, none⟩
    | .last => .returns w (some (clock.answer last))

/-- One turn of a read: the class it waited for is stored, or its advance goes on. -/
def step (valid : Bytes → HeldCommitment → Bool) (call : Call) (w : Walk) : Outcome :=
  let cursor := w.cursors call.backing
  match call.judging with
  | some h =>
    let rows := if valid call.backing h then putValid (w.valid call.backing) ⟨h.index, h.sequence, h.operator⟩ else w.valid call.backing
    .runs { w with cursors := Function.update w.cursors call.backing (cursor.past h), valid := Function.update w.valid call.backing rows }
      { call with judging := none }
  | none =>
    match cursor.turn (w.views call.backing) call.bound with
    | .done => call.resume w
    | .moved moved => .runs { w with cursors := Function.update w.cursors call.backing moved } call
    | .judge h => .runs { w with cursors := Function.update w.cursors call.backing { cursor with busy := true } } { call with judging := some h }
    | .conflict => .throws

end Call

/-- A record read again to a later index: earlier rows and terms as they were. -/
structure RecordView.Extends (view later : RecordView) : Prop where
  t : view.t ≤ later.t
  chain : ∃ added, later.chain = view.chain ++ added ∧ ∀ link ∈ added, view.t < link.start
  held : ∀ operator h, h.index ≤ view.t → (h ∈ later.held operator ↔ h ∈ view.held operator)

/-- The reads of a walk that are in progress. -/
structure Reading where
  walk : Walk
  calls : List Call

inductive ReadAction
  | clock (backing : Bytes) (opening through : Nat)
  | latest (backing : Bytes) (bound : Bound)
  | turn
  | returns (call : Call) (clock : Option ScopeClock)
  | throws
  | reopens

/-- One step of a walk's reads: one starts, one takes a turn, returns or throws, or a later read resumes the walk. -/
inductive ReadStep (durations : Bytes → Option Nat) (valid : Bytes → HeldCommitment → Bool) : Reading → ReadAction → Reading → Prop
  | clock {w : Walk} {calls : List Call} {backing : Bytes} {duration opening through : Nat} :
      durations backing = some duration → ReadStep durations valid ⟨w, calls⟩ (.clock backing opening through)
        ⟨(ClockCall.begin_ w backing duration opening through).1, calls ++ [⟨.clock (ClockCall.begin_ w backing duration opening through).2, none⟩]⟩
  | latest {w : Walk} {calls : List Call} (backing : Bytes) (bound : Bound) :
      ReadStep durations valid ⟨w, calls⟩ (.latest backing bound) ⟨w, calls ++ [⟨.latest backing bound, none⟩]⟩
  | turn {w later : Walk} {before after : List Call} {call next : Call} :
      call.step valid w = .runs later next → ReadStep durations valid ⟨w, before ++ call :: after⟩ .turn ⟨later, before ++ next :: after⟩
  | returns {w later : Walk} {before after : List Call} {call : Call} {clock : Option ScopeClock} :
      call.step valid w = .returns later clock → ReadStep durations valid ⟨w, before ++ call :: after⟩ (.returns call clock) ⟨later, before ++ after⟩
  | throws {w : Walk} {before after : List Call} {call : Call} :
      call.step valid w = .throws → ReadStep durations valid ⟨w, before ++ call :: after⟩ .throws ⟨w, before ++ after⟩
  | refuses {w : Walk} {before after : List Call} {call : Call} {h : HeldCommitment} : call.judging = some h →
      ReadStep durations valid ⟨w, before ++ call :: after⟩ .throws
        ⟨{ w with cursors := Function.update w.cursors call.backing { w.cursors call.backing with busy := false } }, before ++ after⟩
  | reopens {w : Walk} {calls : List Call} {views : Bytes → RecordView} : (∀ backing, (w.views backing).Extends (views backing)) →
      ReadStep durations valid ⟨w, calls⟩ .reopens
        ⟨{ w with views, cursors := fun backing => { w.cursors backing with busy := false }, running := [] }, []⟩

/-- A walk as it is begun. -/
def Walk.empty (views : Bytes → RecordView) : Walk := ⟨views, fun _ => .start, fun _ => [], [], fun _ _ => none⟩

def walkReads (durations : Bytes → Option Nat) (valid : Bytes → HeldCommitment → Bool) : Machine Reading ReadAction where
  start r := ∃ views, r = ⟨.empty views, []⟩
  step := ReadStep durations valid

end Moe
