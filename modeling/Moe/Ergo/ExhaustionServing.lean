import Moe.Ergo.ExhaustionServerRuns

namespace Moe.ExhaustionServer

open ExhaustionWire OrderedMap

section

variable [Crypto] {options : Options} {chain : List ServedBlock} {s : Server} {n : Nat} {x : Serving}

/-- A call as it waits: its blocks owned, and read steadily. -/
def Request.Owned : Request → Prop
  | .extend owned => ∀ block ∈ owned, block.id.length = 32
  | .adopt fold source => fold.inputs.endHeight < 2 ^ 32 ∧ source.Owned ∧ source.Steady

/-- What a call in progress counts on at its await. -/
def Job.Fits (options : Options) (s : Server) : Job → Prop
  | .proving rest => s.pending.isSome = true ∧ ∀ owned ∈ rest, ∀ block ∈ owned, block.id.length = 32
  | .extending owned => s.pending = none ∧ ∀ block ∈ owned, block.id.length = 32
  | .verifying fold source first => Continues options s fold first ∧ fold.inputs.endHeight < 2 ^ 32 ∧ source.Owned ∧ source.Steady

/-- A fold adopted with blocks read by height reads the same block at a height each time it reads one to append. -/
def Event.Steady : Event → Prop
  | .adopt _ source => source.Steady
  | _ => True

/-- What a step comes to from a server over a chain: broken; or over the same chain and blocks after it, folded no less far, a refused call
leaving it as it was and a fold returned its latest. -/
def Moves (options : Options) (chain : List ServedBlock) (n : Nat) (s : Server) (y : Serving × Reply) : Prop :=
  (y.1.server.broken ≠ none ∧ y.1.job = none ∧ ∃ failure, y.2 = some (.error failure)) ∨
    ∃ chain' n', Stands options y.1.server chain' n' ∧ chain <+: chain' ∧ n ≤ n' ∧ (n' = n → y.1.server.fold = s.fold) ∧
      (∀ job, y.1.job = some job → job.Fits options y.1.server) ∧ (∀ failure, y.2 = some (.error failure) → y.1.server = s) ∧
      ∀ fold, y.2 = some (.ok fold) → y.1.server.fold = some fold

theorem Moves.refused (stands : Stands options s chain n) (failure : ServerFailure) : Moves options chain n s (x.finish (.error failure, s)) := by
  refine .inr ⟨chain, n, stands, List.prefix_refl _, Nat.le_refl _, fun _ => rfl, fun job own => ?_, fun _ _ => rfl, fun fold own => ?_⟩
  · cases own
  · cases own

/-- A step that leaves the server as it was, and replies with no fold. -/
theorem Moves.same (stands : Stands options x.server chain n) (fits : ∀ job, x.job = some job → job.Fits options x.server)
    {y : Serving × Reply} (server : y.1.server = x.server) (job : y.1.job = x.job) (reply : ∀ fold, y.2 ≠ some (.ok fold)) :
    Moves options chain n x.server y := by
  refine .inr ⟨chain, n, server ▸ stands, List.prefix_refl _, Nat.le_refl _, fun _ => by rw [server], fun own same => ?_, fun _ _ => server,
    fun fold own => absurd own (reply fold)⟩
  rw [server]
  exact fits own (job ▸ same)

/-- A period begun. -/
theorem Moves.begin_ (stands : Stands options x.server chain n) (none_ : x.server.pending = none) {owned : List ServedBlock}
    (named : ∀ block ∈ owned, block.id.length = 32) : Moves options chain n x.server (x.begin_ options owned) := by
  rw [Serving.begin_]
  obtain ⟨failure, run⟩ | ⟨fold, run, latest⟩ | ⟨t, run, stands', waits, same⟩ := stands.begun none_ named
  · rw [run]
    exact .refused stands failure
  · rw [run]
    refine .inr ⟨chain, n, stands, List.prefix_refl _, Nat.le_refl _, fun _ => rfl, fun job own => ?_, fun _ _ => rfl, fun own same => ?_⟩
    · cases own
    · obtain rfl := Except.ok.inj (Option.some.inj same)
      exact latest
  · rw [run]
    refine .inr ⟨chain ++ owned, n, stands', List.prefix_append _ _, Nat.le_refl _, fun _ => same, fun job own => ?_, fun failure own => ?_,
      fun fold own => ?_⟩
    · obtain rfl := Option.some.inj own
      exact ⟨waits, fun owned member => by cases member⟩
    · cases own
    · cases own

/-- A call's turn. -/
theorem Moves.turn (stands : Stands options x.server chain n) {request : Request} (owned : request.Owned) :
    Moves options chain n x.server (x.turn options request) := by
  cases request with
  | extend blocks =>
    rw [Serving.turn, usable_whole stands.whole]
    simp only
    split
    · rename_i waits
      refine .inr ⟨chain, n, stands, List.prefix_refl _, Nat.le_refl _, fun _ => rfl, fun job own => ?_, fun _ own => ?_, fun fold own => ?_⟩
      · obtain rfl := Option.some.inj own
        exact ⟨waits, fun rest member => by
          obtain rfl := Option.some.inj member
          exact owned⟩
      · cases own
      · cases own
    · rename_i settled
      exact @Moves.begin_ _ options chain n { x with server := x.server } stands (by simpa using settled) _ owned
  | adopt fold source =>
    rw [Serving.turn]
    obtain ⟨failure, run⟩ | ⟨first, run, continues⟩ := @adopting_cases options x.server stands.whole fold source
    · rw [run]
      exact .refused stands failure
    · rw [run]
      refine .inr ⟨chain, n, stands, List.prefix_refl _, Nat.le_refl _, fun _ => rfl, fun job own => ?_, fun _ own => ?_, fun fold own => ?_⟩
      · obtain rfl := Option.some.inj own
        exact ⟨continues, owned⟩
      · cases own
      · cases own

/-- A step moves a server over its chain, or breaks it. -/
theorem Moves.step (stands : Stands options x.server chain n) (fits : ∀ job, x.job = some job → job.Fits options x.server)
    (queue : ∀ request ∈ x.queue, request.Owned) (event : Event) : Moves options chain n x.server (x.step options event) := by
  cases event with
  | extend blocks =>
    simp only [Serving.step]
    split
    · exact .same stands fits rfl rfl fun fold own => by cases own
    · exact .same stands fits rfl rfl fun fold own => by cases own
  | adopt fold source =>
    simp only [Serving.step]
    split
    · exact .same stands fits rfl rfl fun fold own => by cases own
    · split
      · exact .same stands fits rfl rfl fun fold own => by cases own
      · split
        · exact .same stands fits rfl rfl fun fold own => by cases own
        · exact .same stands fits rfl rfl fun fold own => by cases own
  | turn =>
    simp only [Serving.step]
    split
    · rename_i request rest idle waiting
      exact @Moves.turn _ options chain n { x with queue := rest } stands _ (queue request (waiting ▸ List.mem_cons_self))
    · exact .same stands fits rfl rfl fun fold own => by cases own
  | proved proof =>
    simp only [Serving.step]
    split
    · rename_i rest pending at_ waits
      cases proof with
      | none => exact .refused stands _
      | some proof =>
        obtain ⟨fold, t, run, stands', latest, done, -, more⟩ := stands.sealed waits proof
        have later : ∀ y : Serving × Reply, y.1.server = t → (∀ job, y.1.job = some job → job.Fits options t) →
            (∀ failure, y.2 ≠ some (.error failure)) → (∀ own, y.2 = some (.ok own) → own = fold) → Moves options chain n x.server y := by
          intro y server job refused reply
          refine .inr ⟨chain, chain.length, server ▸ stands', List.prefix_refl _, Nat.le_of_lt more, fun same => by omega, fun own same => ?_,
            fun failure own => absurd own (refused failure), fun own same => ?_⟩
          · rw [server]
            exact job own same
          · rw [server, reply own same, latest]
        cases rest with
        | none =>
          simp only [run]
          exact later _ rfl (fun job own => by cases own) (fun failure own => by cases own) fun own same => by cases same; rfl
        | some owned =>
          simp only [run]
          refine later _ rfl (fun job own => ?_) (fun failure own => by cases own) fun own same => by cases same
          obtain rfl := Option.some.inj own
          exact ⟨done, (fits _ at_).2 owned rfl⟩
    · exact .same stands fits rfl rfl fun fold own => by cases own
  | resumed =>
    simp only [Serving.step]
    split
    · rename_i owned at_
      obtain ⟨none_, named⟩ := fits _ at_
      exact .begin_ stands none_ named
    · exact .same stands fits rfl rfl fun fold own => by cases own
  | verified answer =>
    simp only [Serving.step]
    split
    · exact .refused stands _
    · rename_i fold source first verified at_
      obtain ⟨continues, below, owned, steady⟩ := fits _ at_
      obtain ⟨failure, run⟩ | ⟨failure, t, run, broken⟩ | ⟨blocks, t, run, some_, stands', latest, done⟩ :=
        stands.adopted continues below owned steady verified
      · rw [run]
        exact .refused stands failure
      · rw [run]
        exact .inl ⟨broken, rfl, failure, rfl⟩
      · rw [run]
        have more := List.length_pos_of_ne_nil some_
        have inside := stands.inside
        refine .inr ⟨chain ++ blocks, _, stands', List.prefix_append _ _, ?_, fun same => ?_, fun job own => ?_, fun _ own => ?_, fun own same => ?_⟩
        · rw [List.length_append]
          omega
        · rw [List.length_append] at same
          omega
        · cases own
        · cases own
        · obtain rfl := Except.ok.inj (Option.some.inj same)
          exact latest
    · exact .same stands fits rfl rfl fun fold own => by cases own

theorem begin_queue (owned : List ServedBlock) : (x.begin_ options owned).1.queue = x.queue := by
  unfold Serving.begin_
  split <;> rfl

theorem turn_queue (request : Request) : (x.turn options request).1.queue = x.queue := by
  unfold Serving.turn
  split
  · split
    · rfl
    · split
      · rfl
      · exact begin_queue _
  · split <;> rfl

omit [Crypto] in
theorem mapM_ownBlock {blocks owned : List ServedBlock} (read : blocks.mapM ownBlock = .ok owned) : ∀ block ∈ owned, block.id.length = 32 := by
  induction blocks generalizing owned with
  | nil =>
    obtain rfl := Except.ok.inj read
    exact fun _ member => by cases member
  | cons block blocks ih =>
    rw [List.mapM_cons] at read
    cases first : ownBlock block with
    | error failure =>
      rw [first] at read
      cases read
    | ok own =>
      cases rest : blocks.mapM ownBlock with
      | error failure =>
        rw [first, rest] at read
        cases read
      | ok others =>
        rw [first, rest] at read
        obtain rfl := Except.ok.inj read
        intro other member
        obtain rfl | later := List.mem_cons.mp member
        · exact (ownBlock_named first).2
        · exact ih rest other later

omit [Crypto] in
theorem ownedInputs_below {inputs : FoldInputs} (owned : ¬ ownedInputs inputs = false) : inputs.endHeight < 2 ^ 32 := by
  rw [Bool.not_eq_false, ownedInputs, decide_eq_true_eq] at owned
  exact owned.2.2.2.1

/-- The calls waiting after a step are owned. -/
theorem step_queue (queue : ∀ request ∈ x.queue, request.Owned) {event : Event} (steady : event.Steady) :
    ∀ request ∈ (x.step options event).1.queue, request.Owned := by
  have added : ∀ {request : Request}, request.Owned → ∀ other ∈ x.queue ++ [request], other.Owned := fun owned other member =>
    (List.mem_append.mp member).elim (queue other) fun last => List.mem_singleton.mp last ▸ owned
  cases event with
  | extend blocks =>
    simp only [Serving.step]
    split
    · exact queue
    · rename_i read
      exact added (mapM_ownBlock read)
  | adopt fold source =>
    simp only [Serving.step]
    split
    · exact queue
    · rename_i formed
      split
      · exact added ⟨ownedInputs_below formed, Source.read_owned _, steady⟩
      · split
        · exact queue
        · rename_i read
          refine added ⟨ownedInputs_below formed, Source.listed_owned (mapM_ownBlock read), fun first height a b found found' => ?_⟩
          exact Option.some.inj (Except.ok.inj (found.symm.trans found'))
  | turn =>
    simp only [Serving.step]
    split
    · rename_i request rest idle waiting
      rw [turn_queue]
      exact fun other member => queue other (waiting ▸ List.mem_cons_of_mem _ member)
    · exact queue
  | proved proof =>
    simp only [Serving.step]
    split
    · split
      · exact queue
      · split <;> exact queue
    · exact queue
  | resumed =>
    simp only [Serving.step]
    split
    · rw [begin_queue]
      exact queue
    · exact queue
  | verified answer =>
    simp only [Serving.step]
    split <;> exact queue

/-- A broken server refuses every call and stays as it is. -/
theorem broken_step (broken : x.server.broken ≠ none) (idle : x.job = none) (event : Event) :
    (x.step options event).1.server = x.server ∧ (x.step options event).1.job = none ∧ ∀ fold, (x.step options event).2 ≠ some (.ok fold) := by
  obtain ⟨failure, run⟩ := usable_broken broken
  cases event with
  | extend blocks =>
    simp only [Serving.step]
    split <;> exact ⟨rfl, idle, fun fold own => by cases own⟩
  | adopt fold source =>
    simp only [Serving.step]
    split
    · exact ⟨rfl, idle, fun fold own => by cases own⟩
    · split
      · exact ⟨rfl, idle, fun fold own => by cases own⟩
      · split <;> exact ⟨rfl, idle, fun fold own => by cases own⟩
  | turn =>
    simp only [Serving.step]
    split
    · rename_i request rest _ _
      cases request with
      | extend owned =>
        simp only [Serving.turn, run]
        exact ⟨rfl, rfl, fun fold own => by cases own⟩
      | adopt fold source =>
        have refused : (adopting options fold source).runs x.server = (.error failure, x.server) := by
          rw [adopting, Work.runs_bind, run, andThen_error]
        simp only [Serving.turn, refused]
        exact ⟨rfl, rfl, fun fold own => by cases own⟩
    · exact ⟨rfl, idle, fun fold own => by cases own⟩
  | proved proof =>
    simp only [Serving.step, idle]
    exact ⟨trivial, trivial, fun fold own => by cases own⟩
  | resumed =>
    simp only [Serving.step, idle]
    exact ⟨trivial, trivial, fun fold own => by cases own⟩
  | verified answer =>
    simp only [Serving.step, idle]
    exact ⟨trivial, trivial, fun fold own => by cases own⟩

/-- What holds of the server between steps: broken with no call in progress, or over a chain. -/
structure Sound (options : Options) (x : Serving) : Prop where
  queue : ∀ request ∈ x.queue, request.Owned
  stands : (x.server.broken ≠ none ∧ x.job = none) ∨
    (∃ chain n, Stands options x.server chain n) ∧ ∀ job, x.job = some job → job.Fits options x.server

theorem Sound.step (sound : Sound options x) {event : Event} (steady : event.Steady) : Sound options (x.step options event).1 := by
  refine ⟨step_queue sound.queue steady, ?_⟩
  obtain ⟨broken, idle⟩ | ⟨⟨chain, n, stands⟩, fits⟩ := sound.stands
  · obtain ⟨server, job, -⟩ := @broken_step _ options x broken idle event
    exact .inl ⟨server ▸ broken, job⟩
  · obtain ⟨broken, idle, -⟩ | ⟨chain', n', stands', -, -, -, fits', -⟩ := Moves.step stands fits sound.queue event
    · exact .inl ⟨broken, idle⟩
    · exact .inr ⟨⟨chain', n', stands'⟩, fits'⟩

/-- The server after a sequence of events. -/
def Serving.run (options : Options) (x : Serving) (events : List Event) : Serving := events.foldl (fun x event => (x.step options event).1) x

theorem Sound.run (sound : Sound options x) {events : List Event} (steady : ∀ event ∈ events, event.Steady) :
    Sound options (x.run options events) := by
  induction events generalizing x with
  | nil => exact sound
  | cons event events ih =>
    obtain ⟨first, rest⟩ := List.forall_mem_cons.mp steady
    exact ih (sound.step first) rest

/-- A broken server stays as it is. -/
theorem broken_run (broken : x.server.broken ≠ none) (idle : x.job = none) (events : List Event) :
    (x.run options events).server = x.server := by
  induction events generalizing x with
  | nil => rfl
  | cons event events ih =>
    obtain ⟨server, job, -⟩ := @broken_step _ options x broken idle event
    exact (ih (server ▸ broken) job).trans server

/-- A server's chain only grows, and its folds only reach further, until it is broken. -/
theorem Stands.run (stands : Stands options x.server chain n) (fits : ∀ job, x.job = some job → job.Fits options x.server)
    (queue : ∀ request ∈ x.queue, request.Owned) {events : List Event} (steady : ∀ event ∈ events, event.Steady) :
    (x.run options events).server.broken ≠ none ∨
      ∃ chain' n', Stands options (x.run options events).server chain' n' ∧ chain <+: chain' ∧ n ≤ n' := by
  induction events generalizing x chain n with
  | nil => exact .inr ⟨chain, n, stands, List.prefix_refl _, Nat.le_refl _⟩
  | cons event events ih =>
    obtain ⟨first, rest⟩ := List.forall_mem_cons.mp steady
    obtain ⟨broken, idle, -⟩ | ⟨chain₁, n₁, stands₁, grown, further, -, fits₁, -⟩ := Moves.step stands fits queue event
    · have same := @broken_run _ options _ broken idle events
      exact .inl (same ▸ broken)
    · obtain broken | ⟨chain₂, n₂, stands₂, grown', further'⟩ := ih stands₁ fits₁ (step_queue queue first) rest
      · exact .inl broken
      · exact .inr ⟨chain₂, n₂, stands₂, grown.trans grown', Nat.le_trans further further'⟩

theorem Stands.start (made : start options = .ok s) : Stands options s [] 0 := by
  rw [ExhaustionServer.start, bind_eq_ok] at made
  obtain ⟨map, started, made⟩ := made
  rw [SubjectMap.start, bind_unit_eq_ok, require_eq_ok, pure_eq_ok, Bool.and_eq_true, decide_eq_true_eq, decide_eq_true_eq] at started
  rw [pure_eq_ok] at made
  obtain ⟨⟨-, below⟩, rfl⟩ := started
  subst made
  refine ⟨⟨by simp, below⟩, rfl, Nat.le_refl _, rfl, rfl, fun _ height => ?_, .inl ⟨rfl, rfl⟩, .inl ⟨rfl, rfl⟩⟩
  simp

/-- What a server answers over a chain of which the first `n` blocks are folded. -/
structure Answers [Blake] (options : Options) (s : Server) (chain : List ServedBlock) (n : Nat) : Prop where
  fold : ∀ maxHeight fold, s.foldTo maxHeight = some fold → fold.inputs = inputsOver options (chain.take n) ∧
    fold.inputs.endHeight = options.startHeight + n ∧ fold.inputs.endHeight ≤ maxHeight
  key : ∀ fold, s.fold = some fold → ∀ key < 2 ^ 32, ∀ after, ∃ answer, s.key fold.inputs.endHeight key after = .ok (some answer) ∧
    answer.path.count = (keyEntries (entriesOver options (chain.take n)) key).length ∧
    answer.path.chain = chainOf (keyEntries (entriesOver options (chain.take n)) key) ∧
    answer.entries = (keyEntries (entriesOver options (chain.take n)) key).drop after ∧
    (answer.path.count < 2 ^ 64 → pathRoot key answer.path = some fold.inputs.mapRoot)
  elsewhere : ∀ endHeight key after answer, s.key endHeight key after = .ok (some answer) →
    ∃ fold, s.fold = some fold ∧ fold.inputs.endHeight = endHeight
  transaction : options.keeps = true → ∀ given height position own, s.transaction options given height position = .ok (some own) →
    ∃ block, options.startHeight < height ∧ chain[height - options.startHeight - 1]? = some block ∧
      (block.section_[position]?).map (·.unsigned) = some own.unsigned ∧
      inclusionRoot (blake2b own.unsigned) position own.steps = some block.transactionsRoot
  transacted : options.keeps = true → ∀ given height position block view, options.startHeight < height →
    chain[height - options.startHeight - 1]? = some block → block.section_[position]? = some view → Held (committed block.section_) →
    sectionMatchesRoot (committed block.section_) block.transactionsRoot = .ok true →
    ∃ steps, s.transaction options given height position = .ok (some ⟨view.unsigned, steps⟩)

omit [Crypto] in
theorem pathUnder_included [Blake] {id root : Bytes} {j : Nat} {rules : List (List Bytes)} {steps : List InclusionStep}
    (found : pathUnder id root j rules = .ok (some steps)) : inclusionRoot id j steps = some root := by
  induction rules with
  | nil => cases found
  | cons leaves rules ih =>
    rw [pathUnder, bind_eq_ok] at found
    obtain ⟨path, -, found⟩ := found
    split at found
    · rename_i own
      rw [pure_eq_ok, Option.some.injEq] at found
      exact found ▸ own
    · exact ih found

omit [Crypto] in
theorem sectionInclusionPath_included [Blake] {views : List ErgoTransactionView} {view : ErgoTransactionView} {root : Bytes} {j : Nat}
    {steps : List InclusionStep} (at_ : views[j]? = some view) (found : sectionInclusionPath views root j = .ok (some steps)) :
    inclusionRoot (blake2b view.unsigned) j steps = some root := by
  rw [sectionInclusionPath, bind_eq_ok] at found
  obtain ⟨matched, -, found⟩ := found
  split at found
  · cases found
  · have id : (((committed views)[j]?).map (·.id)).getD [] = blake2b view.unsigned := by
      rw [committed, List.getElem?_map, at_]
      rfl
    rw [id] at found
    exact pathUnder_included found

/-- Over a chain the server answers its fold's end, every key there, and the transactions of its blocks. -/
theorem Stands.answers [Blake] (stands : Stands options s chain n) : Answers options s chain n := by
  have folded : (mapOver options (chain.take n)).height = options.startHeight + n := by
    rw [mapOver_height (stands.fits.less (List.take_prefix n chain)), List.length_take, Nat.min_eq_left stands.inside]
  have latest : ∀ fold, s.fold = some fold → fold.inputs = inputsOver options (chain.take n) := by
    intro fold some_
    obtain ⟨none_, -⟩ | ⟨own, same, -, inputs⟩ := stands.fold
    · rw [none_] at some_
      cases some_
    · obtain rfl := Option.some.inj (same.symm.trans some_)
      exact inputs
  have ends : ∀ fold, s.fold = some fold → fold.inputs.endHeight = options.startHeight + n := fun fold some_ => by
    rw [latest fold some_]
    exact folded
  refine ⟨fun maxHeight fold found => ?_, fun fold some_ key small after => ?_, fun endHeight key after answer found => ?_,
    fun keeps given height position own found => ?_, fun keeps given height position block view above at_ inside held matches_ => ?_⟩
  · simp only [Server.foldTo, stands.whole, Option.isNone_none, if_true, Option.filter_eq_some_iff, decide_eq_true_eq] at found
    exact ⟨latest fold found.1, ends fold found.1, found.2⟩
  · have holds := mapOver_holds options (chain.take n)
    have path := holds.path small
    refine ⟨⟨pathOf (entriesOver options (chain.take n)) key, keyEntriesAfter s.served key after⟩, ?_, rfl, rfl, ?_, fun short => ?_⟩
    · simp only [Server.key, stands.whole, some_, stands.served, folded, ends fold some_, ne_eq, not_true_eq_false, or_self, if_false, path,
        bind, Except.bind]
      rfl
    · simp only [keyEntriesAfter, stands.served, holds.keys]
      split
      · rename_i none_
        rw [none_]
        rfl
      · rfl
    · rw [pathRoot_pathOf _ small, latest fold some_]
      exact (if_pos short).trans (congrArg some holds.root.symm)
  · simp only [Server.key, stands.whole] at found
    cases some_ : s.fold with
    | none =>
      rw [some_] at found
      cases found
    | some fold =>
      simp only [some_] at found
      split at found
      · cases found
      · rename_i same
        exact ⟨fold, rfl, by simpa using (not_or.mp same).1⟩
  · simp only [Server.transaction, stands.whole, Option.isSome_none, keeps, if_true, Option.none_or, stands.kept keeps] at found
    split at found
    · cases found
    · split at found
      · cases found
      · rename_i block at_
        split at found
        · cases found
        · rename_i view inside
          rw [bind_eq_ok] at found
          obtain ⟨path, sealed, found⟩ := found
          split at found
          · cases found
          · rename_i steps
            obtain rfl := Option.some.inj (Except.ok.inj found)
            split at at_
            · rename_i above
              exact ⟨block, above, at_, by rw [inside]; rfl, sectionInclusionPath_included inside sealed⟩
            · cases at_
  · obtain ⟨steps, sealed⟩ := (sectionInclusionPath_iff (List.getElem?_eq_some_iff.mp inside).choose held).mpr matches_
    have reached : height ≤ s.ahead.height := by
      have short := (List.getElem?_eq_some_iff.mp at_).choose
      rw [stands.ahead, mapOver_height stands.fits]
      omega
    refine ⟨steps, ?_⟩
    simp only [Server.transaction, stands.whole, Option.isSome_none, keeps, if_true, Option.none_or, stands.kept keeps, above, at_, inside, sealed,
      Nat.not_lt.mpr reached, Bool.false_eq_true, or_self, if_false]
    rfl

end

section

local instance serverCrypto : Crypto := sampleCrypto

local instance serverBlake : Blake := ⟨fun bytes => toBytes 32 bytes.length, fun _ => toBytes_length ..⟩

def sampleOptions : Options := ⟨List.replicate 32 1, 7, 0, true⟩

/-- Two periods asked for before the first is proved. -/
def sampleEvents : List Event :=
  [.extend [⟨List.replicate 32 2, List.replicate 32 0, [], none⟩], .extend [⟨List.replicate 32 3, List.replicate 32 0, [], none⟩], .turn, .turn,
    .proved (some [1]), .turn, .proved none, .turn]

end

end Moe.ExhaustionServer
