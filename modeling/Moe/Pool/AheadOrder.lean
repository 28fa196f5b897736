import Moe.Pool.VerifyAhead

namespace Moe

variable {V S : Type} {replay : AheadReplay V S}

section Bench

/-- The verifications of `checks` are among those of `later`, each with its outcome. -/
def Holds (checks later : List Verification) : Prop :=
  ∀ (place : Nat) check, checks[place]? = some check → ∃ check', later[place]? = some check' ∧ check'.outcome = check.outcome

theorem Holds.append (checks more : List Verification) : Holds checks (checks ++ more) := by
  intro place check there
  obtain ⟨inside, -⟩ := List.getElem?_eq_some_iff.mp there
  exact ⟨check, by rw [List.getElem?_append_left inside, there], rfl⟩

theorem Holds.settle {checks : List Verification} {place : Nat} {check : Verification} (there : checks[place]? = some check) :
    Holds checks (checks.set place { check with settled := true }) := by
  intro other check' found
  obtain ⟨inside, -⟩ := List.getElem?_eq_some_iff.mp found
  rw [List.getElem?_set]
  by_cases same : place = other
  · subst same
    obtain rfl := Option.some.inj (there.symm.trans found)
    exact ⟨{ check with settled := true }, by rw [if_pos rfl, if_pos inside], rfl⟩
  · exact ⟨check', by rw [if_neg same, found], rfl⟩

/-- From a verifier as it was, the queued records whose proofs were started, each for its own question and with the verifier's outcome,
lead to the verifier as it is; the rest of the queue is not started. -/
inductive Outstanding (replay : AheadReplay V S) (checks : List Verification) : V → List Queued → List (Question × Nat) → V → Prop
  | rest {v : V} {queued : List Queued} : (∀ entry ∈ queued, entry.started = false) → Outstanding replay checks v queued [] v
  | quiet {v v' : V} {entry : Queued} {queued : List Queued} {started : List (Question × Nat)} : entry.started = true →
      replay.asked entry.place entry.bytes = none → Outstanding replay checks v queued started v' →
      Outstanding replay checks v (entry :: queued) started v'
  | asked {v v' : V} {entry : Queued} {queued : List Queued} {started : List (Question × Nat)} {question : Question} {place : Nat}
      {check : Verification} : entry.started = true → replay.asked entry.place entry.bytes = some question → checks[place]? = some check →
      check.outcome = (replay.verify v question).2.outcome → Outstanding replay checks (replay.verify v question).1 queued started v' →
      Outstanding replay checks v (entry :: queued) ((question, place) :: started) v'

theorem Outstanding.holds {checks later : List Verification} {v v' : V} {queued : List Queued} {started : List (Question × Nat)}
    (outstanding : Outstanding replay checks v queued started v') (holds : Holds checks later) :
    Outstanding replay later v queued started v' := by
  induction outstanding with
  | rest idle => exact .rest idle
  | quiet flagged none_ _ ih => exact .quiet flagged none_ ih
  | @asked v v' entry queued started question place check flagged some_ there outcome _ ih =>
    obtain ⟨check', there', same⟩ := holds place check there
    exact .asked flagged some_ there' (same.trans outcome) ih

/-- More of a queue's proofs started, in order, after those already started. -/
theorem AheadReplay.startQueued_outstanding {earned : Nat} {bench : Bench V} {queued : List Queued} {v : V} {before started : List (Question × Nat)}
    (outstanding : Outstanding replay bench.checks v queued started bench.verifier) (all : bench.started = before ++ started) :
    ∃ started', (replay.startQueued earned bench queued).1.started = before ++ started' ∧
      Outstanding replay (replay.startQueued earned bench queued).1.checks v (replay.startQueued earned bench queued).2 started'
        (replay.startQueued earned bench queued).1.verifier ∧
      (replay.startQueued earned bench queued).2.map (fun entry => (entry.bytes, entry.place)) = queued.map (fun entry => (entry.bytes, entry.place)) ∧
      Holds bench.checks (replay.startQueued earned bench queued).1.checks := by
  have self : ∀ checks : List Verification, Holds checks checks := fun checks => by
    have := Holds.append checks []
    rwa [List.append_nil] at this
  induction queued generalizing bench v before started with
  | nil => exact ⟨started, all, outstanding, rfl, self _⟩
  | cons entry rest ih =>
    rw [startQueued]
    by_cases flagged : entry.started = true
    · rw [if_pos flagged]
      cases outstanding with
      | rest idle => exact absurd (flagged.symm.trans (idle entry List.mem_cons_self)) (by decide)
      | quiet _ none_ later =>
        obtain ⟨started', grown, out, same, holds⟩ := ih later all
        exact ⟨started', grown, .quiet flagged none_ out, by rw [List.map_cons, List.map_cons, same], holds⟩
      | @asked _ _ _ _ started question place check _ some_ there outcome later =>
        have all' : bench.started = (before ++ [(question, place)]) ++ started := by rw [all, List.append_assoc]; rfl
        obtain ⟨started', grown, out, same, holds⟩ := ih later all'
        obtain ⟨check', there', kept⟩ := holds place check there
        exact ⟨(question, place) :: started', by rw [grown, List.append_assoc]; rfl, .asked flagged some_ there' (kept.trans outcome) out,
          by rw [List.map_cons, List.map_cons, same], holds⟩
    · rw [if_neg flagged]
      split
      · exact ⟨started, all, outstanding, rfl, self _⟩
      · have idle : started = [] ∧ bench.verifier = v ∧ ∀ entry ∈ rest, entry.started = false := by
          cases outstanding with
          | rest idle => exact ⟨rfl, rfl, fun entry member => idle entry (List.mem_cons_of_mem _ member)⟩
          | quiet flag => exact absurd flag flagged
          | asked flag => exact absurd flag flagged
        obtain ⟨rfl, same, idle⟩ := idle
        rw [List.append_nil] at all
        cases question_ : replay.asked entry.place entry.bytes with
        | none =>
          have kept : replay.start bench entry = bench := by rw [start, question_]
          rw [kept]
          have all' : bench.started = before ++ [] := by rw [all, List.append_nil]
          obtain ⟨started', grown, out, same', holds⟩ := ih (.rest idle) all'
          rw [same] at out
          exact ⟨started', grown, .quiet rfl question_ out, by rw [List.map_cons, List.map_cons, same'], holds⟩
        | some question =>
          have called : replay.start bench entry = ⟨(replay.verify bench.verifier question).1,
              bench.checks ++ [⟨question, (replay.verify bench.verifier question).2.outcome, true, false⟩], bench.held + 1,
              bench.started ++ [(question, bench.checks.length)]⟩ := by rw [start, question_]
          have later : Outstanding replay (replay.start bench entry).checks (replay.start bench entry).verifier rest []
              (replay.start bench entry).verifier := .rest idle
          have all' : (replay.start bench entry).started = (before ++ [(question, bench.checks.length)]) ++ [] := by rw [called, all, List.append_nil]
          obtain ⟨started', grown, out, same', holds⟩ := ih later all'
          have there : (replay.start bench entry).checks[bench.checks.length]? =
              some ⟨question, (replay.verify bench.verifier question).2.outcome, true, false⟩ := by
            rw [called, List.getElem?_append_right (Nat.le_refl _), Nat.sub_self]
            rfl
          obtain ⟨check', there', kept⟩ := holds _ _ there
          have grows : Holds bench.checks (replay.start bench entry).checks := by
            rw [called]
            exact Holds.append _ _
          have verifier_ : (replay.start bench entry).verifier = (replay.verify v question).1 := by rw [called, same]
          rw [verifier_] at out
          refine ⟨(question, bench.checks.length) :: started', by rw [grown, List.append_assoc]; rfl,
            .asked rfl question_ there' (by rw [kept, same]) out, by rw [List.map_cons, List.map_cons, same'], fun place check there => ?_⟩
          obtain ⟨middle, found, same₁⟩ := grows place check there
          obtain ⟨last, found', same₂⟩ := holds place middle found
          exact ⟨last, found', same₂.trans same₁⟩

end Bench

section Feeding

def Feed.records (feed : Feed) : List Bytes := feed.queued.map (·.bytes) ++ feed.source

/-- A feed whose queue stands at successive positions from one on, and which ends as its source does. -/
structure Feed.Of (fails : Option Failure) (feed : Feed) (position : Nat) : Prop where
  places : feed.queued.map (·.place) = List.range' position feed.queued.length
  next : feed.next = position + feed.queued.length
  ended : feed.done = true → feed.source = [] ∧ feed.failure = fails

theorem Feed.pullFrom_of {window : Nat} {fails : Option Failure} {source : List Bytes} {feed : Feed} {position : Nat}
    (of : { feed with source := source }.Of fails position) : ∃ more, (pullFrom window fails source feed).queued = feed.queued ++ more ∧
      (∀ entry ∈ more, entry.started = false) ∧ more.map (·.bytes) ++ (pullFrom window fails source feed).source = source ∧
      (pullFrom window fails source feed).Of fails position ∧
      (0 < window → (pullFrom window fails source feed).queued = [] → (pullFrom window fails source feed).done = true) := by
  have full : ∀ {feed : Feed}, (feed.done || decide (window ≤ feed.queued.length)) = true → 0 < window → feed.queued = [] → feed.done = true := by
    intro feed stops wide empty
    rcases (Bool.or_eq_true _ _).mp stops with done | enough
    · exact done
    · have := of_decide_eq_true enough
      rw [empty] at this
      exact absurd wide (Nat.not_lt_of_le this)
  induction source generalizing feed with
  | nil =>
    rw [pullFrom]
    split
    · rename_i stops
      exact ⟨[], (List.append_nil _).symm, fun _ none_ => absurd none_ List.not_mem_nil, rfl, of, full stops⟩
    · exact ⟨[], (List.append_nil _).symm, fun _ none_ => absurd none_ List.not_mem_nil, rfl, ⟨of.places, of.next, fun _ => ⟨rfl, rfl⟩⟩,
        fun _ _ => rfl⟩
  | cons bytes rest ih =>
    rw [pullFrom]
    split
    · rename_i stops
      exact ⟨[], (List.append_nil _).symm, fun _ none_ => absurd none_ List.not_mem_nil, rfl, of, full stops⟩
    · rename_i goes
      have open_ : feed.done = false := (Bool.or_eq_false_iff.mp (Bool.eq_false_iff.mpr goes)).1
      have next : feed.next = position + feed.queued.length := of.next
      have places : feed.queued.map (·.place) = List.range' position feed.queued.length := of.places
      have later : ({ feed with queued := feed.queued ++ [⟨bytes, feed.next, false⟩], next := feed.next + 1, source := rest } : Feed).Of fails position := by
        refine ⟨?_, ?_, fun done => absurd (open_.symm.trans done) (by decide)⟩
        · rw [List.map_append, places, List.length_append, List.length_singleton, List.range'_concat, next, Nat.one_mul]
          rfl
        · rw [List.length_append, List.length_singleton, next, Nat.add_assoc]
      obtain ⟨more, queued, idle, source, of', ends⟩ :=
        @ih { feed with queued := feed.queued ++ [⟨bytes, feed.next, false⟩], next := feed.next + 1 } later
      refine ⟨⟨bytes, feed.next, false⟩ :: more, by rw [queued, List.append_assoc]; rfl, fun entry member => ?_, by rw [List.map_cons, List.cons_append, source],
        of', ends⟩
      rcases List.mem_cons.mp member with rfl | inside
      · rfl
      · exact idle entry inside

theorem Outstanding.append {checks : List Verification} {v v' : V} {queued more : List Queued} {started : List (Question × Nat)}
    (outstanding : Outstanding replay checks v queued started v') (idle : ∀ entry ∈ more, entry.started = false) :
    Outstanding replay checks v (queued ++ more) started v' := by
  induction outstanding with
  | rest before => exact .rest fun entry member => (List.mem_append.mp member).elim (before entry) (idle entry)
  | quiet flagged none_ _ ih => exact .quiet flagged none_ ih
  | asked flagged some_ there outcome _ ih => exact .asked flagged some_ there outcome ih

theorem Outstanding.of_quiet {checks : List Verification} {v v' : V} {entry : Queued} {queued : List Queued} {started : List (Question × Nat)}
    (outstanding : Outstanding replay checks v (entry :: queued) started v') (quiet : replay.asked entry.place entry.bytes = none) :
    Outstanding replay checks v queued started v' := by
  cases outstanding with
  | rest idle => exact .rest fun entry member => idle entry (List.mem_cons_of_mem _ member)
  | quiet _ _ later => exact later
  | asked _ some_ => cases quiet.symm.trans some_

/-- A queue's first record with a proof is the one first started, unless none is. -/
theorem Outstanding.of_asked {checks : List Verification} {v v' : V} {entry : Queued} {queued : List Queued} {started : List (Question × Nat)}
    {question : Question} (outstanding : Outstanding replay checks v (entry :: queued) started v')
    (asked : replay.asked entry.place entry.bytes = some question) :
    started = [] ∧ v' = v ∧ (∀ entry ∈ queued, entry.started = false) ∨ ∃ place rest check, started = (question, place) :: rest ∧
      checks[place]? = some check ∧ check.outcome = (replay.verify v question).2.outcome ∧
      Outstanding replay checks (replay.verify v question).1 queued rest v' := by
  cases outstanding with
  | rest idle => exact .inl ⟨rfl, rfl, fun entry member => idle entry (List.mem_cons_of_mem _ member)⟩
  | quiet _ none_ => cases asked.symm.trans none_
  | asked _ some_ there outcome later =>
    obtain rfl := Option.some.inj (asked.symm.trans some_)
    exact .inr ⟨_, _, _, rfl, there, outcome, later⟩

end Feeding

/-- A judgment whose record moves the position on, and asks for the question its record's proof is, or for none. -/
structure AheadReplay.Follows (replay : AheadReplay V S) (position : S → Nat) : Prop where
  quiet : ∀ s bytes s', replay.judge s bytes = .done (.ok s') → replay.asked (position s) bytes = none ∧ position s' = position s + 1
  asks : ∀ s bytes question result, replay.judge s bytes = .asks question result →
    replay.asked (position s) bytes = some question ∧ ∀ outcome s', result outcome = .ok s' → position s' = position s + 1
  wide : 0 < replay.window

/-- What is seen of a replay, before what is judged from here on. -/
def Passage.after (passages : List (Passage S)) (later : List (Passage S) × Except Failure S) : List (Passage S) × Except Failure S :=
  (passages ++ later.1, later.2)

/-- What every replay that verifies ahead keeps of the judgments in turn: they are those so far, and then those of the records left from
the verifier as it was before the verifications no judgment has asked for. -/
def AheadReplay.Kept (replay : AheadReplay V S) (position : S → Nat) (whole : List (Passage S) × Except Failure S) (run : AheadRun V S) : Prop :=
  match run.phase with
  | .filling => ∃ v, Outstanding replay run.bench.checks v run.feed.queued run.bench.started run.bench.verifier ∧
      run.feed.Of replay.fails (position run.state) ∧ whole = Passage.after run.passages (replay.inTurn v run.state run.feed.records)
  | .judging bytes => ∃ v flag, Outstanding replay run.bench.checks v (⟨bytes, position run.state, flag⟩ :: run.feed.queued) run.bench.started
      run.bench.verifier ∧ run.feed.Of replay.fails (position run.state + 1) ∧
      whole = Passage.after run.passages (replay.inTurn v run.state (bytes :: run.feed.records))
  | .waiting bytes place result => ∃ v question check, replay.judge run.state bytes = .asks question result ∧
      run.bench.checks[place]? = some check ∧ check.outcome = (replay.verify v question).2.outcome ∧
      Outstanding replay run.bench.checks (replay.verify v question).1 run.feed.queued run.bench.started run.bench.verifier ∧
      run.feed.Of replay.fails (position run.state + 1) ∧
      whole = Passage.after run.passages (replay.inTurn v run.state (bytes :: run.feed.records))
  | .finished result => whole = (run.passages, result)

section Keeping

variable {position : S → Nat} {whole : List (Passage S) × Except Failure S} {run : AheadRun V S}

theorem AheadReplay.kept_conclude {passage : Passage S} {v : V}
    (outstanding : Outstanding replay run.bench.checks v run.feed.queued run.bench.started run.bench.verifier)
    (of : run.feed.Of replay.fails (position run.state + 1)) (moves : ∀ s, passage.result = .ok s → position s = position run.state + 1)
    (so : whole = Passage.after run.passages (passage.before fun s => replay.inTurn v s run.feed.records)) :
    replay.Kept position whole (conclude run passage) := by
  cases result : passage.result with
  | ok s =>
    have concluded : conclude run passage = { run with state := s, passages := run.passages ++ [passage], phase := .filling } := by
      rw [conclude, result]
    have before : passage.before (fun s => replay.inTurn v s run.feed.records) =
        (passage :: (replay.inTurn v s run.feed.records).1, (replay.inTurn v s run.feed.records).2) := by rw [Passage.before, result]
    rw [concluded]
    refine ⟨v, outstanding, ?_, ?_⟩
    · rw [moves s result]
      exact of
    · rw [so, before, Passage.after, Passage.after, List.append_assoc]
      rfl
  | error failure =>
    have concluded : conclude run passage = { run with passages := run.passages ++ [passage], phase := .finished (.error failure) } := by
      rw [conclude, result]
    have before : passage.before (fun s => replay.inTurn v s run.feed.records) = ([passage], .error failure) := by rw [Passage.before, result]
    rw [concluded]
    exact so.trans (by rw [before]; rfl)

theorem AheadReplay.inTurn_asks {v : V} {s : S} {bytes : Bytes} {rest : List Bytes} {question : Question}
    {result : Except Failure Bool → Except Failure S} (asks : replay.judge s bytes = .asks question result) :
    replay.inTurn v s (bytes :: rest) = Passage.before ⟨bytes, some (replay.verify v question).2.outcome, result (replay.verify v question).2.outcome⟩
      fun s => replay.inTurn (replay.verify v question).1 s rest := by
  rw [inTurn, asks]

theorem AheadReplay.inTurn_done {v : V} {s : S} {bytes : Bytes} {rest : List Bytes} {result : Except Failure S}
    (done : replay.judge s bytes = .done result) :
    replay.inTurn v s (bytes :: rest) = Passage.before ⟨bytes, none, result⟩ fun s => replay.inTurn v s rest := by
  rw [inTurn, done]

/-- A verdict handed to the judgment that asked for it. -/
theorem AheadReplay.kept_hand (follows : replay.Follows position) {bytes : Bytes} {v : V} {question : Question}
    {result : Except Failure Bool → Except Failure S} {outcome : Except Failure Bool} (asks : replay.judge run.state bytes = .asks question result)
    (own : outcome = (replay.verify v question).2.outcome)
    (outstanding : Outstanding replay run.bench.checks (replay.verify v question).1 run.feed.queued run.bench.started run.bench.verifier)
    (of : run.feed.Of replay.fails (position run.state + 1))
    (so : whole = Passage.after run.passages (replay.inTurn v run.state (bytes :: run.feed.records))) :
    replay.Kept position whole (hand run bytes outcome result) := by
  rw [inTurn_asks asks, ← own] at so
  exact kept_conclude outstanding of (fun s moved => (follows.asks _ _ _ _ asks).2 _ s moved) so

theorem AheadReplay.kept_fill (follows : replay.Follows position) (kept : replay.Kept position whole run) (filling : run.phase = .filling) :
    replay.Kept position whole (replay.fill run) := by
  unfold Kept at kept
  rw [filling] at kept
  obtain ⟨v, outstanding, of, so⟩ := kept
  obtain ⟨more, queued, idle, source, of', ends⟩ := @Feed.pullFrom_of replay.window replay.fails run.feed.source run.feed (position run.state) of
  have pulled : run.feed.pull replay.window replay.fails = pullFrom replay.window replay.fails run.feed.source run.feed := rfl
  rw [← pulled] at queued source of' ends
  have records : (run.feed.pull replay.window replay.fails).records = run.feed.records := by
    rw [Feed.records, queued, List.map_append, List.append_assoc, source]
    rfl
  have longer := outstanding.append idle
  rw [← queued] at longer
  have all : run.bench.started = [] ++ run.bench.started := rfl
  obtain ⟨started', grown, out, same, -⟩ := @startQueued_outstanding _ _ replay run.earned _ _ _ _ _ longer all
  rw [List.nil_append] at grown
  rw [fill]
  generalize replay.startQueued run.earned run.bench (run.feed.pull replay.window replay.fails).queued = filled at grown out same
  rw [← grown] at out
  cases entries : filled.2 with
  | nil =>
    rw [entries] at same
    have empty : (run.feed.pull replay.window replay.fails).queued = [] := List.map_eq_nil_iff.mp same.symm
    obtain ⟨none_, failure⟩ := of'.ended (ends follows.wide empty)
    have left : run.feed.records = [] := by rw [← records, Feed.records, empty, none_]; rfl
    rw [left] at so
    refine so.trans ?_
    rw [Passage.after, inTurn, List.append_nil, AheadReplay.ends, failure]
  | cons entry rest =>
    rw [entries] at same out
    cases queue : (run.feed.pull replay.window replay.fails).queued with
    | nil => rw [queue] at same; cases same
    | cons first others =>
      rw [queue, List.map_cons, List.map_cons] at same
      obtain ⟨head, tail⟩ := List.cons.inj same
      obtain ⟨bytes_, place_⟩ := Prod.mk.inj head
      have places := of'.places
      rw [queue, List.map_cons, List.length_cons, List.range'_succ] at places
      obtain ⟨first_, others_⟩ := List.cons.inj places
      have at_ : entry.place = position run.state := place_.trans first_
      have bytesTail : rest.map (·.bytes) = others.map (·.bytes) := by
        have := congrArg (List.map Prod.fst) tail
        rwa [List.map_map, List.map_map] at this
      have placesTail : rest.map (·.place) = others.map (·.place) := by
        have := congrArg (List.map Prod.snd) tail
        rwa [List.map_map, List.map_map] at this
      have length : rest.length = others.length := by
        have := congrArg List.length tail
        rwa [List.length_map, List.length_map] at this
      have entry_ : entry = ⟨entry.bytes, position run.state, entry.started⟩ := by rw [← at_]
      rw [entry_] at out
      refine ⟨v, entry.started, out, ⟨?_, ?_, of'.ended⟩, ?_⟩
      · simp only [placesTail, others_, length]
      · have next := of'.next
        rw [queue, List.length_cons] at next
        simp only [length]
        omega
      · have whole_ : run.feed.records = entry.bytes :: (rest.map (·.bytes) ++ (run.feed.pull replay.window replay.fails).source) := by
          rw [← records, Feed.records, queue, List.map_cons, bytesTail, bytes_]
          rfl
        rw [so, whole_]
        rfl

theorem AheadReplay.kept_judge (follows : replay.Follows position) {bytes : Bytes} (kept : replay.Kept position whole run)
    (judging : run.phase = .judging bytes) : replay.Kept position whole (replay.judgeNext run bytes) := by
  unfold Kept at kept
  rw [judging] at kept
  obtain ⟨v, flag, outstanding, of, so⟩ := kept
  rw [judgeNext]
  cases judged : replay.judge run.state bytes with
  | done result =>
    simp only
    rw [inTurn_done judged] at so
    cases result with
    | error failure =>
      exact so
    | ok s =>
      obtain ⟨quiet, moved⟩ := follows.quiet _ _ _ judged
      have later := outstanding.of_quiet quiet
      exact kept_conclude later of (fun s' same => by rw [← Except.ok.inj same, moved]) so
  | asks question result =>
    simp only
    obtain ⟨asked, -⟩ := follows.asks _ _ _ _ judged
    rcases outstanding.of_asked asked with ⟨none_, same, idle⟩ | ⟨place, rest, check, some_, there, outcome, later⟩
    · have missed : run.bench.started.findIdx? (·.1 = question) = none := by rw [none_]; rfl
      have later : Outstanding replay (run.bench.checks ++ [⟨question, (replay.verify v question).2.outcome, false, false⟩])
          (replay.verify v question).1 run.feed.queued [] (replay.verify v question).1 := .rest idle
      have settled : Outstanding replay (run.bench.checks ++ [⟨question, (replay.verify v question).2.outcome, false, true⟩])
          (replay.verify v question).1 run.feed.queued [] (replay.verify v question).1 := .rest idle
      have place : (run.bench.checks ++ [⟨question, (replay.verify v question).2.outcome, false, false⟩])[run.bench.checks.length]? =
          some ⟨question, (replay.verify v question).2.outcome, false, false⟩ := by
        rw [List.getElem?_append_right (Nat.le_refl _), Nat.sub_self]
        rfl
      rw [ask, missed]
      simp only [same]
      rw [← none_] at later settled
      cases reply : (replay.verify v question).2 with
      | promises outcome =>
        rw [reply] at later place
        exact ⟨v, question, _, judged, place, by rw [reply], later, of, so⟩
      | returns verdict =>
        rw [reply] at settled
        exact kept_hand follows judged (by rw [reply]) settled of so
      | throws failure =>
        rw [reply] at settled
        exact kept_hand follows judged (by rw [reply]) settled of so
    · have found : run.bench.started.findIdx? (·.1 = question) = some 0 := by
        rw [some_, List.findIdx?_cons, if_pos (decide_eq_true rfl)]
      rw [ask, found]
      simp only [some_, List.drop_succ_cons, List.drop_zero, List.getElem?_cons_zero, Option.map_some, Option.getD_some]
      exact ⟨v, question, check, judged, there, outcome, later, of, so⟩

end Keeping

end Moe
