import Moe.Pool.AheadOrder

namespace Moe

variable {V S : Type} {replay : AheadReplay V S} {position : S → Nat} {v₀ : V} {s₀ : S} {records : List Bytes}

/-- Verifications that settle leave what is kept of the judgments in turn. -/
theorem AheadReplay.Kept.bench {whole : List (Passage S) × Except Failure S} {run : AheadRun V S} {bench : Bench V}
    (kept : replay.Kept position whole run) (verifier : bench.verifier = run.bench.verifier) (started : bench.started = run.bench.started)
    (holds : Holds run.bench.checks bench.checks) : replay.Kept position whole { run with bench := bench } := by
  unfold AheadReplay.Kept at kept ⊢
  cases phase : run.phase with
  | filling =>
    rw [phase] at kept
    obtain ⟨v, outstanding, of, so⟩ := kept
    exact ⟨v, by rw [verifier, started]; exact outstanding.holds holds, of, so⟩
  | judging bytes =>
    rw [phase] at kept
    obtain ⟨v, flag, outstanding, of, so⟩ := kept
    exact ⟨v, flag, by rw [verifier, started]; exact outstanding.holds holds, of, so⟩
  | waiting bytes place result =>
    rw [phase] at kept
    obtain ⟨v, question, check, judged, there, outcome, outstanding, of, so⟩ := kept
    obtain ⟨check', there', same⟩ := holds place check there
    exact ⟨v, question, check', judged, there', same.trans outcome, by rw [verifier, started]; exact outstanding.holds holds, of, so⟩
  | finished result =>
    rw [phase] at kept
    exact kept

/-- Every replay that verifies ahead keeps the judgments in turn. -/
theorem AheadReplay.verifyAhead_kept (follows : replay.Follows position) :
    (replay.verifyAhead v₀ s₀ (position s₀) records).Invariant (replay.Kept position (replay.inTurn v₀ s₀ records)) where
  start := by
    rintro run ⟨held, -, rfl⟩
    exact ⟨v₀, .rest fun _ none_ => absurd none_ List.not_mem_nil, ⟨rfl, rfl, fun done => by cases done⟩, rfl⟩
  step := by
    intro run action later kept step
    cases step with
    | settle there unsettled => exact kept.bench rfl rfl (Holds.settle there)
    | share => exact kept.bench rfl rfl fun place check there => ⟨check, there, rfl⟩
    | fill filling => exact kept_fill follows kept filling
    | judge judging => exact kept_judge follows kept judging
    | resume waiting there settled =>
      unfold Kept at kept
      rw [waiting] at kept
      obtain ⟨v, question, check', judged, there', outcome, outstanding, of, so⟩ := kept
      obtain rfl := Option.some.inj (there.symm.trans there')
      exact kept_hand follows judged outcome outstanding of so

section Counting

/-- Unsettled verifications started ahead are counted among those held, which the window bounds. -/
structure Bench.Counted (bench : Bench V) (window : Nat) : Prop where
  counted : bench.unsettled (·.ahead) ≤ bench.held
  within : bench.held ≤ window

/-- Every unsettled verification was started ahead and is still to be asked for. -/
def Bench.Listed (bench : Bench V) : Prop :=
  ∀ (place : Nat) check, bench.checks[place]? = some check → check.settled = false → check.ahead = true ∧ place ∈ bench.started.map (·.2)

/-- A replay's unsettled verifications are counted, and all but one that is awaited are listed. -/
structure AheadRun.Bounded (run : AheadRun V S) (window : Nat) : Prop where
  counted : run.bench.Counted window
  listed : (∀ bytes place result, run.phase ≠ .waiting bytes place result) → run.bench.Listed
  awaited : ∀ bytes place result, run.phase = .waiting bytes place result → ∀ (other : Nat) check, other ≠ place →
    run.bench.checks[other]? = some check → check.settled = false → check.ahead = true ∧ other ∈ run.bench.started.map (·.2)
  own : ∀ bytes place result, run.phase = .waiting bytes place result → ∀ check, run.bench.checks[place]? = some check → check.settled = false →
    check.ahead = false → run.bench.started = []

theorem Bench.unsettled_settle {bench : Bench V} {place : Nat} {check : Verification} {test : Verification → Bool}
    (there : bench.checks[place]? = some check) (open_ : check.settled = false) :
    (bench.settle place check).unsettled test = bench.unsettled test - if test check then 1 else 0 := by
  obtain ⟨inside, at_⟩ := List.getElem?_eq_some_iff.mp there
  rw [unsettled, settle, List.countP_set inside, at_, open_]
  simp only [Bool.not_true, Bool.not_false, Bool.false_and, Bool.true_and, Bool.false_eq_true, if_false, Nat.add_zero]
  rfl

theorem Bench.settle_checks {bench : Bench V} {place other : Nat} {check check' : Verification} (there : (bench.settle place check).checks[other]? = some check')
    (open_ : check'.settled = false) : other ≠ place ∧ bench.checks[other]? = some check' := by
  rw [settle, List.getElem?_set] at there
  split at there
  · split at there
    · obtain rfl := Option.some.inj there
      cases open_
    · cases there
  · rename_i apart
    exact ⟨fun same => apart same.symm, there⟩

theorem Bench.Counted.settle {bench : Bench V} {window place : Nat} {check : Verification} (counted : bench.Counted window)
    (there : bench.checks[place]? = some check) (open_ : check.settled = false) : (bench.settle place check).Counted window := by
  have counts := counted.counted
  have within := counted.within
  refine ⟨?_, ?_⟩
  · rw [unsettled_settle there open_, Bench.settle]
    split <;> simp only <;> omega
  · rw [Bench.settle]
    split <;> simp only <;> omega

theorem AheadReplay.startQueued_keeps {P : Bench V → Prop}
    (each : ∀ bench entry, P bench → bench.held < replay.window → P (replay.start bench entry)) {earned : Nat} {bench : Bench V}
    {queued : List Queued} (kept : P bench) : P (replay.startQueued earned bench queued).1 := by
  induction queued generalizing bench with
  | nil => exact kept
  | cons entry rest ih =>
    rw [startQueued]
    split
    · exact ih kept
    · split
      · exact kept
      · rename_i room
        refine ih (each bench entry kept ?_)
        have goes := Bool.or_eq_false_iff.mp (Bool.eq_false_iff.mpr room)
        exact Nat.lt_of_not_le (of_decide_eq_false goes.2)

theorem AheadReplay.start_counted {bench : Bench V} {entry : Queued} (counted : bench.Counted replay.window) (room : bench.held < replay.window) :
    (replay.start bench entry).Counted replay.window := by
  rw [start]
  split
  · exact counted
  · have counts := counted.counted
    refine ⟨?_, room⟩
    rw [Bench.unsettled, List.countP_append, List.countP_singleton]
    exact Nat.add_le_add counts (by split <;> omega)

theorem AheadReplay.start_listed {bench : Bench V} {entry : Queued} (listed : bench.Listed) : (replay.start bench entry).Listed := by
  rw [start]
  split
  · exact listed
  · intro place check there open_
    simp only [List.map_append, List.mem_append, List.map_cons, List.map_nil, List.mem_singleton]
    rcases Nat.lt_or_ge place bench.checks.length with old | new
    · simp only [List.getElem?_append_left old] at there
      obtain ⟨ahead, member⟩ := listed place check there open_
      exact ⟨ahead, .inl member⟩
    · simp only [List.getElem?_append_right new, List.getElem?_singleton] at there
      split at there
      · rw [← Option.some.inj there]
        exact ⟨rfl, .inr (by omega)⟩
      · cases there

variable {run : AheadRun V S}

theorem AheadReplay.conclude_bench (passage : Passage S) : (conclude run passage).bench = run.bench := by
  rw [conclude]
  split <;> rfl

theorem AheadReplay.conclude_moves (passage : Passage S) (bytes : Bytes) (place : Nat) (result : Except Failure Bool → Except Failure S) :
    (conclude run passage).phase ≠ .waiting bytes place result := by
  rw [conclude]
  split <;> (intro waiting; cases waiting)

theorem AheadRun.bounded_of {window : Nat} (counted : run.bench.Counted window) (listed : run.bench.Listed)
    (moves : ∀ bytes place result, run.phase ≠ .waiting bytes place result) : run.Bounded window where
  counted := counted
  listed _ := listed
  awaited bytes place result waiting := absurd waiting (moves bytes place result)
  own bytes place result waiting := absurd waiting (moves bytes place result)

/-- A judgment that ended, with every unsettled verification listed. -/
theorem AheadReplay.bounded_conclude {window : Nat} {passage : Passage S} (counted : run.bench.Counted window) (listed : run.bench.Listed) :
    (conclude run passage).Bounded window :=
  AheadRun.bounded_of (by rwa [conclude_bench]) (by rwa [conclude_bench]) (conclude_moves passage)

theorem AheadReplay.bounded_fill (bounded : run.Bounded replay.window) (filling : run.phase = .filling) :
    (replay.fill run).Bounded replay.window := by
  have listed := bounded.listed fun bytes place result waiting => by rw [filling] at waiting; cases waiting
  obtain ⟨counted', listed'⟩ : (replay.startQueued run.earned run.bench (run.feed.pull replay.window replay.fails).queued).1.Counted replay.window ∧
      (replay.startQueued run.earned run.bench (run.feed.pull replay.window replay.fails).queued).1.Listed :=
    @startQueued_keeps _ _ replay (fun bench => bench.Counted replay.window ∧ bench.Listed)
      (fun bench entry both room => ⟨start_counted both.1 room, start_listed both.2⟩) _ _ _ ⟨bounded.counted, listed⟩
  rw [fill]
  split
  · exact AheadRun.bounded_of counted' listed' fun _ _ _ waiting => by cases waiting
  · exact AheadRun.bounded_of counted' listed' fun _ _ _ waiting => by cases waiting

/-- A verification called for by its judgment adds nothing to those held. -/
theorem Bench.Counted.called {bench : Bench V} {window : Nat} {v : V} {check : Verification} (counted : bench.Counted window)
    (direct : check.ahead = false) : ({ bench with verifier := v, checks := bench.checks ++ [check] } : Bench V).Counted window := by
  refine ⟨?_, counted.within⟩
  have counts := counted.counted
  rw [unsettled, List.countP_append, List.countP_singleton, direct, Bool.and_false, if_neg Bool.false_ne_true, Nat.add_zero]
  exact counts

theorem AheadReplay.bounded_judge (follows : replay.Follows position) {whole : List (Passage S) × Except Failure S} {bytes : Bytes}
    (kept : replay.Kept position whole run) (bounded : run.Bounded replay.window) (judging : run.phase = .judging bytes) :
    (replay.judgeNext run bytes).Bounded replay.window := by
  have listed := bounded.listed fun bytes place result waiting => by rw [judging] at waiting; cases waiting
  unfold Kept at kept
  rw [judging] at kept
  obtain ⟨v, flag, outstanding, -, -⟩ := kept
  rw [judgeNext]
  cases judged : replay.judge run.state bytes with
  | done result => exact bounded_conclude bounded.counted listed
  | asks question result =>
    simp only
    obtain ⟨asked, -⟩ := follows.asks _ _ _ _ judged
    rcases outstanding.of_asked asked with ⟨none_, -, -⟩ | ⟨place, rest, check, some_, -, -, -⟩
    · have missed : run.bench.started.findIdx? (·.1 = question) = none := by rw [none_]; rfl
      have settled : ∀ (other : Nat) check, run.bench.checks[other]? = some check → check.settled = true := by
        intro other check there
        by_contra open_
        have member := (listed other check there (Bool.eq_false_iff.mpr open_)).2
        rw [none_] at member
        exact absurd member List.not_mem_nil
      have old : ∀ {added check : Verification} {other : Nat}, other ≠ run.bench.checks.length → (run.bench.checks ++ [added])[other]? = some check →
          check.settled = true := by
        intro added check other apart there
        rcases Nat.lt_or_ge other run.bench.checks.length with before | after
        · rw [List.getElem?_append_left before] at there
          exact settled other check there
        · rw [List.getElem?_append_right after, List.getElem?_singleton, if_neg (by omega)] at there
          cases there
      rw [ask, missed]
      simp only
      cases reply : (replay.verify run.bench.verifier question).2 with
      | promises outcome =>
        refine ⟨bounded.counted.called rfl, fun moved => absurd rfl (moved bytes _ result), fun bytes' place' result' waiting other check apart there open_ => ?_,
          fun bytes' place' result' waiting check there open_ direct => none_⟩
        obtain ⟨-, rfl, -⟩ := Phase.waiting.inj waiting
        cases (old apart there).symm.trans open_
      | returns verdict =>
        refine bounded_conclude (bounded.counted.called rfl) fun other check there open_ => ?_
        by_cases new : other = run.bench.checks.length
        · subst new
          simp only [List.getElem?_append_right (Nat.le_refl _), Nat.sub_self, List.getElem?_cons_zero] at there
          rw [← Option.some.inj there] at open_
          cases open_
        · cases (old new there).symm.trans open_
      | throws failure =>
        refine bounded_conclude (bounded.counted.called rfl) fun other check there open_ => ?_
        by_cases new : other = run.bench.checks.length
        · subst new
          simp only [List.getElem?_append_right (Nat.le_refl _), Nat.sub_self, List.getElem?_cons_zero] at there
          rw [← Option.some.inj there] at open_
          cases open_
        · cases (old new there).symm.trans open_
    · have found : run.bench.started.findIdx? (·.1 = question) = some 0 := by
        rw [some_, List.findIdx?_cons, if_pos (decide_eq_true rfl)]
      rw [ask, found]
      simp only [some_, List.drop_succ_cons, List.drop_zero, List.getElem?_cons_zero, Option.map_some, Option.getD_some]
      refine ⟨⟨bounded.counted.counted, bounded.counted.within⟩, fun moved => absurd rfl (moved bytes place result),
        fun bytes' place' result' waiting other check apart there open_ => ?_, fun bytes' place' result' waiting check there open_ direct => ?_⟩
      · obtain ⟨-, rfl, -⟩ := Phase.waiting.inj waiting
        obtain ⟨ahead, member⟩ := listed other check there open_
        rw [some_, List.map_cons] at member
        exact ⟨ahead, (List.mem_cons.mp member).resolve_left apart⟩
      · obtain ⟨-, rfl, -⟩ := Phase.waiting.inj waiting
        cases (listed _ check there open_).1.symm.trans direct

theorem AheadReplay.bounded_resume {window place : Nat} {bytes : Bytes} {result : Except Failure Bool → Except Failure S} {check : Verification}
    {outcome : Except Failure Bool} (bounded : run.Bounded window) (waiting : run.phase = .waiting bytes place result)
    (there : run.bench.checks[place]? = some check) (settled : check.settled = true) : (hand run bytes outcome result).Bounded window := by
  refine bounded_conclude bounded.counted fun other check' there' open_ => ?_
  refine bounded.awaited bytes place result waiting other check' (fun same => ?_) there' open_
  subst same
  obtain rfl := Option.some.inj (there.symm.trans there')
  cases settled.symm.trans open_

theorem AheadReplay.bounded_settle {window place : Nat} {check : Verification} (bounded : run.Bounded window)
    (there : run.bench.checks[place]? = some check) (open_ : check.settled = false) :
    ({ run with bench := run.bench.settle place check } : AheadRun V S).Bounded window where
  counted := bounded.counted.settle there open_
  listed moves other check' there' open' := by
    obtain ⟨-, before⟩ := Bench.settle_checks there' open'
    exact bounded.listed moves other check' before open'
  awaited bytes place' result waiting other check' apart there' open' := by
    obtain ⟨-, before⟩ := Bench.settle_checks there' open'
    exact bounded.awaited bytes place' result waiting other check' apart before open'
  own bytes place' result waiting check' there' open' direct := by
    obtain ⟨-, before⟩ := Bench.settle_checks there' open'
    exact bounded.own bytes place' result waiting check' before open' direct

/-- No replay that verifies ahead holds more unsettled verifications than its window. -/
theorem AheadReplay.verifyAhead_bounded (follows : replay.Follows position) :
    (replay.verifyAhead v₀ s₀ (position s₀) records).Invariant fun run =>
      replay.Kept position (replay.inTurn v₀ s₀ records) run ∧ run.Bounded replay.window where
  start := by
    rintro run ⟨held, within, rfl⟩
    refine ⟨verifyAhead_kept follows |>.start _ ⟨held, within, rfl⟩, AheadRun.bounded_of ⟨Nat.zero_le _, within⟩ ?_ ?_⟩
    · intro place check there
      cases there
    · intro bytes place result waiting
      cases waiting
  step := by
    rintro run action later ⟨kept, bounded⟩ step
    refine ⟨verifyAhead_kept follows |>.step _ _ _ kept step, ?_⟩
    cases step with
    | settle there open_ => exact bounded_settle bounded there open_
    | share within => exact ⟨⟨Nat.le_add_right _ _, within⟩, bounded.listed, bounded.awaited, bounded.own⟩
    | fill filling => exact bounded_fill bounded filling
    | judge judging => exact bounded_judge follows kept bounded judging
    | resume waiting there settled => exact bounded_resume bounded waiting there settled

theorem countP_le_one {α : Type} {test : α → Bool} {entries : List α} {place : Nat}
    (only : ∀ (i : Nat) a, entries[i]? = some a → test a = true → i = place) : entries.countP test ≤ 1 := by
  induction entries generalizing place with
  | nil => exact Nat.zero_le 1
  | cons first rest ih =>
    rw [List.countP_cons]
    by_cases passes : test first = true
    · have here : 0 = place := only 0 first rfl passes
      have none_ : rest.countP test = 0 := by
        rw [List.countP_eq_zero]
        intro a member also
        obtain ⟨i, there⟩ := List.mem_iff_getElem?.mp member
        have := only (i + 1) a there also
        omega
      rw [if_pos passes]
      omega
    · have later : rest.countP test ≤ 1 := @ih (place - 1) fun i a there also => by
        have := only (i + 1) a there also
        omega
      rw [if_neg passes]
      exact later

theorem AheadRun.Bounded.unsettled_le {window : Nat} (bounded : run.Bounded window) (wide : 0 < window) :
    run.bench.unsettled (fun _ => true) ≤ window := by
  by_cases ahead : ∀ (place : Nat) check, run.bench.checks[place]? = some check → check.settled = false → check.ahead = true
  · have same : run.bench.unsettled (fun _ => true) = run.bench.unsettled (·.ahead) := by
      refine List.countP_congr fun check member => ?_
      obtain ⟨place, there⟩ := List.mem_iff_getElem?.mp member
      cases settled : check.settled with
      | true => rfl
      | false =>
        have started := ahead place check there settled
        simp only [started]
    rw [same]
    exact Nat.le_trans bounded.counted.counted bounded.counted.within
  · push Not at ahead
    obtain ⟨place, check, there, open_, direct⟩ := ahead
    have only : ∀ (i : Nat) a, run.bench.checks[i]? = some a → (!a.settled && true) = true → i = place := by
      intro i a there' open'
      have open' : a.settled = false := by simpa using open'
      cases phase : run.phase with
      | waiting bytes at_ result =>
        have here : place = at_ := by
          by_contra apart
          exact direct (bounded.awaited bytes at_ result phase place check apart there open_).1
        subst here
        by_contra apart
        have member := (bounded.awaited bytes place result phase i a apart there' open').2
        rw [bounded.own bytes place result phase check there open_ (Bool.eq_false_iff.mpr direct)] at member
        exact absurd member List.not_mem_nil
      | filling => exact absurd (bounded.listed (fun _ _ _ waiting => by rw [phase] at waiting; cases waiting) place check there open_).1 direct
      | judging bytes => exact absurd (bounded.listed (fun _ _ _ waiting => by rw [phase] at waiting; cases waiting) place check there open_).1 direct
      | finished result => exact absurd (bounded.listed (fun _ _ _ waiting => by rw [phase] at waiting; cases waiting) place check there open_).1 direct
    exact Nat.le_trans (countP_le_one only) wide

end Counting

section Finishing

variable {run later : AheadRun V S} {whole : List (Passage S) × Except Failure S}

theorem AheadReplay.startQueued_entries {earned : Nat} {bench : Bench V} {queued : List Queued} :
    (replay.startQueued earned bench queued).2.map (·.bytes) = queued.map (·.bytes) := by
  induction queued generalizing bench with
  | nil => rfl
  | cons entry rest ih =>
    rw [startQueued]
    split
    · rw [List.map_cons, List.map_cons, ih]
    · split
      · rfl
      · rw [List.map_cons, List.map_cons, ih]

/-- A replay takes the first of the records left, or ends where none is. -/
theorem AheadReplay.fill_takes {n : Nat} (of : run.feed.Of replay.fails n) : (∃ result, (replay.fill run).phase = .finished result) ∨
    ∃ bytes, (replay.fill run).phase = .judging bytes ∧ run.feed.records = bytes :: (replay.fill run).feed.records := by
  obtain ⟨more, queued, -, source, -, -⟩ := @Feed.pullFrom_of replay.window replay.fails run.feed.source run.feed n of
  have pulled : run.feed.pull replay.window replay.fails = pullFrom replay.window replay.fails run.feed.source run.feed := rfl
  rw [← pulled] at queued source
  have records : run.feed.records = (run.feed.pull replay.window replay.fails).records := by
    rw [Feed.records, Feed.records, queued, List.map_append, List.append_assoc, source]
  have entries := @startQueued_entries _ _ replay run.earned run.bench (run.feed.pull replay.window replay.fails).queued
  rw [fill]
  split
  · exact .inl ⟨_, rfl⟩
  · rename_i entry rest filled
    rw [filled, List.map_cons] at entries
    refine .inr ⟨entry.bytes, rfl, ?_⟩
    rw [records, Feed.records, ← entries]
    rfl

/-- How much of a replay is left. -/
def AheadRun.left (run : AheadRun V S) : Nat :=
  match run.phase with
  | .filling => 3 * run.feed.records.length + 1
  | .judging _ => 3 * run.feed.records.length + 3
  | .waiting _ _ _ => 3 * run.feed.records.length + 2
  | .finished _ => 0

theorem AheadReplay.left_conclude (passage : Passage S) : (conclude run passage).left ≤ 3 * run.feed.records.length + 1 := by
  rw [conclude]
  split
  · exact Nat.le_refl _
  · exact Nat.zero_le _

theorem AheadReplay.left_hand (bytes : Bytes) (outcome : Except Failure Bool) (result : Except Failure Bool → Except Failure S) :
    (hand run bytes outcome result).left ≤ 3 * run.feed.records.length + 1 := left_conclude _

/-- Whatever a replay does of its own leaves less to do. -/
theorem AheadReplay.left_step (kept : replay.Kept position whole run) (step : AheadStep replay run .own later) : later.left < run.left := by
  unfold Kept at kept
  cases step with
  | fill filling =>
    rw [filling] at kept
    obtain ⟨v, -, of, -⟩ := kept
    rcases fill_takes of with ⟨result, ended⟩ | ⟨bytes, judging, records⟩
    · simp only [AheadRun.left, filling, ended]
      omega
    · simp only [AheadRun.left, filling, judging, records, List.length_cons]
      omega
  | @judge bytes judging =>
    have start : run.left = 3 * run.feed.records.length + 3 := by simp only [AheadRun.left, judging]
    rw [start, judgeNext]
    split
    · exact Nat.lt_of_le_of_lt (left_conclude _) (by omega)
    · rw [ask]
      split
      · simp only [AheadRun.left]
        omega
      · simp only
        split
        · simp only [AheadRun.left]
          omega
        · refine Nat.lt_of_le_of_lt (left_hand _ _ _) ?_
          simp only
          omega
  | @resume bytes place result check waiting there settled =>
    have start : run.left = 3 * run.feed.records.length + 2 := by simp only [AheadRun.left, waiting]
    rw [start]
    exact Nat.lt_of_le_of_lt (left_hand _ _ _) (by omega)

/-- A replay that has not ended goes on, or awaits a verification that is still to settle. -/
theorem AheadReplay.goes_on (kept : replay.Kept position whole run) : (∃ result, run.phase = .finished result) ∨
    (∃ later, AheadStep replay run .own later) ∨ ∃ (place : Nat) (check : Verification), run.bench.checks[place]? = some check ∧
      check.settled = false ∧ ∃ later, AheadStep replay { run with bench := run.bench.settle place check } .own later := by
  unfold Kept at kept
  cases phase : run.phase with
  | filling => exact .inr (.inl ⟨_, .fill phase⟩)
  | judging bytes => exact .inr (.inl ⟨_, .judge phase⟩)
  | finished result => exact .inl ⟨result, rfl⟩
  | waiting bytes place result =>
    rw [phase] at kept
    obtain ⟨v, question, check, -, there, -⟩ := kept
    cases settled : check.settled with
    | true => exact .inr (.inl ⟨_, .resume phase there settled⟩)
    | false =>
      refine .inr (.inr ⟨place, check, there, settled, _, @AheadStep.resume _ _ _ _ bytes place result { check with settled := true } rfl ?_ rfl⟩)
      obtain ⟨inside, -⟩ := List.getElem?_eq_some_iff.mp there
      rw [Bench.settle, List.getElem?_set, if_pos rfl, if_pos inside]

/-- Where every awaited verification settles, a replay ends. -/
theorem AheadReplay.verifyAhead_ends (follows : replay.Follows position) (reach : (replay.verifyAhead v₀ s₀ (position s₀) records).Reach run) :
    ∃ actions later result, (replay.verifyAhead v₀ s₀ (position s₀) records).Run run actions later ∧ later.phase = .finished result := by
  induction size : run.left using Nat.strongRecOn generalizing run with
  | ind n ih =>
    have kept := (verifyAhead_kept follows).reach reach
    rcases goes_on kept with ⟨result, ended⟩ | ⟨later, step⟩ | ⟨place, check, there, open_, later, step⟩
    · exact ⟨[], run, result, .nil, ended⟩
    · obtain ⟨actions, last, result, ran, ended⟩ := ih later.left (by rw [← size]; exact left_step kept step) (.next reach step) rfl
      exact ⟨.own :: actions, last, result, .cons step ran, ended⟩
    · have settles : (replay.verifyAhead v₀ s₀ (position s₀) records).step run (.settle place) { run with bench := run.bench.settle place check } :=
        .settle there open_
      have kept' := (verifyAhead_kept follows).reach (reach.next settles)
      have less : later.left < n := by
        have := left_step kept' step
        rwa [show ({ run with bench := run.bench.settle place check } : AheadRun V S).left = n from size] at this
      obtain ⟨actions, last, result, ran, ended⟩ := ih later.left less ((reach.next settles).next step) rfl
      exact ⟨.settle place :: .own :: actions, last, result, .cons settles (.cons step ran), ended⟩

/-- What settles or is started once a replay has ended changes neither its end nor what it judged. -/
theorem AheadStep.ended {action : AheadAction} {result : Except Failure S} (step : AheadStep replay run action later)
    (ended : run.phase = .finished result) : later.phase = .finished result ∧ later.passages = run.passages := by
  cases step with
  | settle => exact ⟨ended, rfl⟩
  | share => exact ⟨ended, rfl⟩
  | fill filling => cases filling.symm.trans ended
  | judge judging => cases judging.symm.trans ended
  | resume waiting => cases waiting.symm.trans ended

theorem AheadReplay.Kept.prefixed (kept : replay.Kept position whole run) : run.passages <+: whole.1 := by
  unfold Kept at kept
  cases phase : run.phase with
  | filling =>
    rw [phase] at kept
    obtain ⟨v, -, -, so⟩ := kept
    rw [so]
    exact List.prefix_append _ _
  | judging bytes =>
    rw [phase] at kept
    obtain ⟨v, flag, -, -, so⟩ := kept
    rw [so]
    exact List.prefix_append _ _
  | waiting bytes place result =>
    rw [phase] at kept
    obtain ⟨v, question, check, -, -, -, -, -, so⟩ := kept
    rw [so]
    exact List.prefix_append _ _
  | finished result =>
    rw [phase] at kept
    obtain rfl : whole = (run.passages, result) := kept
    exact List.prefix_refl _

end Finishing

end Moe
