import Moe.Bytes
import Moe.Lib.Machine
import Moe.Refusals

namespace Moe

/-- What a verifier is asked: a proof of a kind over its public inputs. -/
structure Question where
  kind : Nat
  inputs : List Nat
  proof : Bytes
  deriving DecidableEq

/-- What a verifier does with a question: it returns a verdict, promises one that may fail, or throws. -/
inductive Reply
  | returns (verdict : Bool)
  | promises (outcome : Except Failure Bool)
  | throws (failure : Failure)

def Reply.outcome : Reply → Except Failure Bool
  | .returns verdict => .ok verdict
  | .promises outcome => outcome
  | .throws failure => .error failure

/-- The judgment of one record: what it comes to, at once or under the verdict it asks for. -/
inductive Judging (S : Type)
  | done (result : Except Failure S)
  | asks (question : Question) (result : Except Failure Bool → Except Failure S)

/-- One record's judgment as it is seen: the verdict it was handed, and the state after it or its refusal. -/
structure Passage (S : Type) where
  bytes : Bytes
  verdict : Option (Except Failure Bool)
  result : Except Failure S

/-- What a replay of records is given. A verifier may remember what it has been asked. -/
structure AheadReplay (V S : Type) where
  verify : V → Question → V × Reply
  judge : S → Bytes → Judging S
  /-- The question a record's proof is at a position, if it has one to start. -/
  asked : Nat → Bytes → Option Question
  /-- A failure reading the records, after all that are read. -/
  fails : Option Failure
  window : Nat

variable {V S : Type}

/-- What is judged from a passage on. -/
def Passage.before (passage : Passage S) (later : S → List (Passage S) × Except Failure S) : List (Passage S) × Except Failure S :=
  match passage.result with
  | .error failure => ([passage], .error failure)
  | .ok s => (passage :: (later s).1, (later s).2)

/-- How a replay ends once every record is judged. -/
def AheadReplay.ends (replay : AheadReplay V S) (s : S) : Except Failure S :=
  match replay.fails with
  | none => .ok s
  | some failure => .error failure

/-- Records judged one after the other, each proof verified as its judgment asks for it. -/
def AheadReplay.inTurn (replay : AheadReplay V S) (v : V) (s : S) : List Bytes → List (Passage S) × Except Failure S
  | [] => ([], replay.ends s)
  | bytes :: rest =>
    match replay.judge s bytes with
    | .done result => Passage.before ⟨bytes, none, result⟩ fun s => replay.inTurn v s rest
    | .asks question result =>
      let outcome := (replay.verify v question).2.outcome
      Passage.before ⟨bytes, some outcome, result outcome⟩ fun s => replay.inTurn (replay.verify v question).1 s rest

/-- A verification the verifier was called for, ahead of its judgment or by it. -/
structure Verification where
  question : Question
  outcome : Except Failure Bool
  ahead : Bool
  settled : Bool

structure Queued where
  bytes : Bytes
  place : Nat
  started : Bool

/-- The verifier, the verifications it was called for, and those started ahead that no judgment has asked for, in order. `held` counts
the verifier's unsettled ones across every replay it is shared by. -/
structure Bench (V : Type) where
  verifier : V
  checks : List Verification
  held : Nat
  started : List (Question × Nat)

/-- The records read ahead. -/
structure Feed where
  source : List Bytes
  queued : List Queued
  next : Nat
  done : Bool
  failure : Option Failure

/-- Where a replay stands: about to take its next record, judging it, awaiting a verdict for it, or ended. -/
inductive Phase (S : Type)
  | filling
  | judging (bytes : Bytes)
  | waiting (bytes : Bytes) (place : Nat) (result : Except Failure Bool → Except Failure S)
  | finished (result : Except Failure S)

structure AheadRun (V S : Type) where
  bench : Bench V
  feed : Feed
  /-- Proofs its judgments were handed as valid. -/
  earned : Nat
  state : S
  passages : List (Passage S)
  phase : Phase S

/-- Records read from the source until the window is queued; a failure reading ahead is kept for when it is due. -/
def pullFrom (window : Nat) (fails : Option Failure) : List Bytes → Feed → Feed
  | [], feed => if feed.done || window ≤ feed.queued.length then { feed with source := [] } else { feed with source := [], done := true, failure := fails }
  | bytes :: rest, feed =>
    if feed.done || window ≤ feed.queued.length then { feed with source := bytes :: rest }
    else pullFrom window fails rest { feed with queued := feed.queued ++ [⟨bytes, feed.next, false⟩], next := feed.next + 1 }

def Feed.pull (window : Nat) (fails : Option Failure) (feed : Feed) : Feed := pullFrom window fails feed.source feed

namespace AheadReplay

variable (replay : AheadReplay V S)

/-- A queued record's proof started, if it has one; a verifier that throws at the call is surfaced as its judgment would see it. -/
def start (bench : Bench V) (entry : Queued) : Bench V :=
  match replay.asked entry.place entry.bytes with
  | none => bench
  | some question =>
    let called := replay.verify bench.verifier question
    { verifier := called.1, checks := bench.checks ++ [⟨question, called.2.outcome, true, false⟩], held := bench.held + 1
      started := bench.started ++ [(question, bench.checks.length)] }

/-- Queued records' proofs started in order, as many as were seen to verify and the window has room for. -/
def startQueued (earned : Nat) : Bench V → List Queued → Bench V × List Queued
  | bench, [] => (bench, [])
  | bench, entry :: rest =>
    if entry.started then
      let later := startQueued earned bench rest
      (later.1, entry :: later.2)
    else if min replay.window earned ≤ bench.started.length || replay.window ≤ bench.held then (bench, entry :: rest)
    else
      let later := startQueued earned (replay.start bench entry) rest
      (later.1, { entry with started := true } :: later.2)

/-- The next record taken, after what can be is read and started ahead. -/
def fill (run : AheadRun V S) : AheadRun V S :=
  let feed := run.feed.pull replay.window replay.fails
  let filled := replay.startQueued run.earned run.bench feed.queued
  match filled.2 with
  | [] =>
    { run with
      bench := filled.1, feed := { feed with queued := [] }
      phase := .finished (match feed.failure with | none => .ok run.state | some failure => .error failure) }
  | entry :: rest => { run with bench := filled.1, feed := { feed with queued := rest }, phase := .judging entry.bytes }

/-- A record's judgment ended. -/
def conclude (run : AheadRun V S) (passage : Passage S) : AheadRun V S :=
  match passage.result with
  | .ok s => { run with state := s, passages := run.passages ++ [passage], phase := .filling }
  | .error failure => { run with passages := run.passages ++ [passage], phase := .finished (.error failure) }

/-- A verdict handed to its judgment. -/
def hand (run : AheadRun V S) (bytes : Bytes) (outcome : Except Failure Bool) (result : Except Failure Bool → Except Failure S) : AheadRun V S :=
  conclude { run with earned := if outcome = .ok true then run.earned + 1 else run.earned } ⟨bytes, some outcome, result outcome⟩

/-- The verdict a judgment asks for: the one started for it, else the verifier's own answer. -/
def ask (run : AheadRun V S) (bytes : Bytes) (question : Question) (result : Except Failure Bool → Except Failure S) : AheadRun V S :=
  match run.bench.started.findIdx? (·.1 = question) with
  | some i =>
    { run with
      bench := { run.bench with started := run.bench.started.drop (i + 1) }
      phase := .waiting bytes ((run.bench.started[i]?.map (·.2)).getD 0) result }
  | none =>
    let called := replay.verify run.bench.verifier question
    let place := run.bench.checks.length
    match called.2 with
    | .promises outcome =>
      { run with
        bench := { run.bench with verifier := called.1, checks := run.bench.checks ++ [⟨question, outcome, false, false⟩] }
        phase := .waiting bytes place result }
    | reply =>
      hand { run with bench := { run.bench with verifier := called.1, checks := run.bench.checks ++ [⟨question, reply.outcome, false, true⟩] } }
        bytes reply.outcome result

def judgeNext (run : AheadRun V S) (bytes : Bytes) : AheadRun V S :=
  match replay.judge run.state bytes with
  | .done result => conclude run ⟨bytes, none, result⟩
  | .asks question result => replay.ask run bytes question result

end AheadReplay

/-- Verifications called for and not yet settled that pass a test. -/
def Bench.unsettled (bench : Bench V) (test : Verification → Bool) : Nat := bench.checks.countP fun check => !check.settled && test check

/-- One verification settled, and the count of those started ahead released. -/
def Bench.settle (bench : Bench V) (place : Nat) (check : Verification) : Bench V :=
  { bench with
    checks := bench.checks.set place { check with settled := true }
    held := if check.ahead then bench.held - 1 else bench.held }

/-- What happens in a replay: a verification settles, the verifier's other replays start or settle theirs, or the replay goes on. -/
inductive AheadAction
  | settle (place : Nat) | share (others : Nat) | own

inductive AheadStep (replay : AheadReplay V S) : AheadRun V S → AheadAction → AheadRun V S → Prop
  | settle {run : AheadRun V S} {place : Nat} {check : Verification} : run.bench.checks[place]? = some check → check.settled = false →
      AheadStep replay run (.settle place) { run with bench := run.bench.settle place check }
  | share {run : AheadRun V S} {others : Nat} : run.bench.unsettled (·.ahead) + others ≤ replay.window →
      AheadStep replay run (.share others) { run with bench := { run.bench with held := run.bench.unsettled (·.ahead) + others } }
  | fill {run : AheadRun V S} : run.phase = .filling → AheadStep replay run .own (replay.fill run)
  | judge {run : AheadRun V S} {bytes : Bytes} : run.phase = .judging bytes → AheadStep replay run .own (replay.judgeNext run bytes)
  | resume {run : AheadRun V S} {bytes : Bytes} {place : Nat} {result : Except Failure Bool → Except Failure S} {check : Verification} :
      run.phase = .waiting bytes place result → run.bench.checks[place]? = some check → check.settled = true →
      AheadStep replay run .own (AheadReplay.hand run bytes check.outcome result)

/-- A replay before its first record, whose verifier may hold other replays' verifications. -/
def AheadRun.start (v : V) (s : S) (position : Nat) (records : List Bytes) (held : Nat) : AheadRun V S :=
  ⟨⟨v, [], held, []⟩, ⟨records, [], position, false, none⟩, 0, s, [], .filling⟩

/-- The replay of records that verifies ahead. -/
def AheadReplay.verifyAhead (replay : AheadReplay V S) (v : V) (s : S) (position : Nat) (records : List Bytes) :
    Machine (AheadRun V S) AheadAction :=
  ⟨fun run => ∃ held ≤ replay.window, run = AheadRun.start v s position records held, AheadStep replay⟩

end Moe
