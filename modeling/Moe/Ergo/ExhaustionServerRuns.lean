import Moe.Ergo.ExhaustionServer

namespace Moe

theorem SubjectMap.run_append [Crypto] (map : SubjectMap) (first later : List (Bytes × List Bytes)) :
    map.run (first ++ later) = ((map.run first).1 ++ ((map.run first).2.run later).1, ((map.run first).2.run later).2) := by
  induction first generalizing map with
  | nil => rfl
  | cons call first ih =>
    obtain ⟨id, transactions⟩ := call
    rw [List.cons_append, SubjectMap.run, SubjectMap.run]
    cases map.appendBlock id transactions with
    | error failure => exact ih map
    | ok after =>
      obtain ⟨updates, next⟩ := after
      simp only [ih next, List.append_assoc]

theorem SubjectMap.appendBlock_id [Crypto] {map next : SubjectMap} {id : Bytes} {transactions : List Bytes} {updates : List MapUpdate}
    (run : map.appendBlock id transactions = .ok (updates, next)) : next.id = id := by
  rw [SubjectMap.appendBlock, bind_unit_eq_ok, bind_unit_eq_ok, bind_eq_ok] at run
  obtain ⟨-, -, after, -, made⟩ := run
  rw [pure_eq_ok] at made
  exact congrArg SubjectMap.id (Prod.mk.inj made).2.symm

namespace ExhaustionServer

open ExhaustionWire OrderedMap

variable [Crypto] {options : Options} {chain : List ServedBlock} {block : ServedBlock} {s t : Server} {n : Nat}

def calls (chain : List ServedBlock) : List (Bytes × List Bytes) := chain.map fun block => (block.id, block.unsigned)

/-- The subject map over a chain's blocks from the set's start. -/
def mapOver (options : Options) (chain : List ServedBlock) : SubjectMap :=
  (SubjectMap.run { height := options.startHeight, id := options.startId } (calls chain)).2

/-- The entries of a chain's blocks. -/
def entriesOver (options : Options) (chain : List ServedBlock) : List MapEntry := entriesFrom options.startHeight (calls chain)

/-- A fold's inputs at a chain's end. -/
def inputsOver (options : Options) (chain : List ServedBlock) : FoldInputs :=
  ⟨options.startId, options.startHeight, (mapOver options chain).id, (mapOver options chain).height, (mapOver options chain).root,
    options.foldKeyHash⟩

/-- Blocks a map may be made over: each of a 32-byte id, at a height below 2^32. -/
structure Fits (options : Options) (chain : List ServedBlock) : Prop where
  named : ∀ block ∈ chain, block.id.length = 32
  below : options.startHeight + chain.length < 2 ^ 32

omit [Crypto] in
theorem Fits.less (fits : Fits options chain) {shorter : List ServedBlock} (within : shorter <+: chain) : Fits options shorter :=
  ⟨fun block member => fits.named block (within.subset member), Nat.lt_of_le_of_lt (Nat.add_le_add_left within.length_le _) fits.below⟩

theorem mapOver_holds (options : Options) (chain : List ServedBlock) : (mapOver options chain).Holds (entriesOver options chain) := by
  have holds : SubjectMap.Holds { height := options.startHeight, id := options.startId } [] := SubjectMap.holds_nil
  have last := (holds.run (calls chain)).1
  rwa [List.nil_append] at last

/-- A chain's next block appended to its map. -/
theorem mapOver_append (fits : Fits options (chain ++ [block])) (height : (mapOver options chain).height = options.startHeight + chain.length) :
    ∃ updates, (mapOver options chain).appendBlock block.id block.unsigned = .ok (updates, mapOver options (chain ++ [block])) ∧
      (mapOver options (chain ++ [block])).height = options.startHeight + (chain ++ [block]).length ∧
      (mapOver options (chain ++ [block])).id = block.id := by
  have below := fits.below
  have named := fits.named block (List.mem_append_right _ (List.mem_singleton.mpr rfl))
  rw [List.length_append, List.length_singleton] at below
  have made : mapOver options (chain ++ [block]) = ((mapOver options chain).run [(block.id, block.unsigned)]).2 := by
    rw [mapOver, calls, List.map_append, SubjectMap.run_append]
    rfl
  obtain ⟨refused, -⟩ | ⟨-, updates, next, run, high, -⟩ := (mapOver_holds options chain).appendBlock block.id block.unsigned
  · exact absurd ⟨named, by rw [height]; omega⟩ refused
  · have last : mapOver options (chain ++ [block]) = next := by
      rw [made, SubjectMap.run, run]
      rfl
    refine ⟨updates, by rw [last, run], ?_, ?_⟩
    · rw [last, high, height, List.length_append, List.length_singleton, Nat.add_assoc]
    · rw [last]
      exact SubjectMap.appendBlock_id run

theorem mapOver_height (fits : Fits options chain) : (mapOver options chain).height = options.startHeight + chain.length := by
  induction chain using List.reverseRecOn with
  | nil => rfl
  | append_singleton chain block ih =>
    obtain ⟨_, -, height, -⟩ := mapOver_append fits (ih (fits.less (List.prefix_append _ _)))
    exact height

/-- The blocks kept, where the server keeps them: a chain's, each at its height. -/
def Kept (options : Options) (chain : List ServedBlock) (blocks : OrderedMap Nat ServedBlock) : Prop :=
  options.keeps = true → ∀ height, get? blocks height = if options.startHeight < height then chain[height - options.startHeight - 1]? else none

omit [Crypto] in
theorem Kept.append {blocks : OrderedMap Nat ServedBlock} (kept : Kept options chain blocks) {height : Nat}
    (next : height = options.startHeight + chain.length + 1) :
    Kept options (chain ++ [block]) (if options.keeps then blocks.set height block else blocks) := by
  intro keeps at_
  rw [if_pos keeps, OrderedMap.get?_set, kept keeps]
  by_cases own : height = at_
  · subst own
    have last : height - options.startHeight - 1 = chain.length := by omega
    rw [if_pos rfl, if_pos (by omega), last, List.getElem?_concat_length]
  · rw [if_neg own]
    split
    · by_cases before : at_ - options.startHeight - 1 < chain.length
      · rw [List.getElem?_append_left before]
      · rw [List.getElem?_eq_none (by omega), List.getElem?_eq_none (by rw [List.length_append, List.length_singleton]; omega)]
    · rfl

/-- What the server knows of the blocks appended, of which the first `n` are folded: the maps over them, the blocks kept, the fold's inputs
at its end, and a period's from there to the last. -/
structure Stands (options : Options) (s : Server) (chain : List ServedBlock) (n : Nat) : Prop where
  fits : Fits options chain
  whole : s.broken = none
  inside : n ≤ chain.length
  ahead : s.ahead = mapOver options chain
  served : s.served = mapOver options (chain.take n)
  kept : Kept options chain s.blocks
  fold : s.fold = none ∧ n = 0 ∨ ∃ fold, s.fold = some fold ∧ 0 < n ∧ fold.inputs = inputsOver options (chain.take n)
  pending : s.pending = none ∧ n = chain.length ∨ ∃ pending, s.pending = some pending ∧ n < chain.length ∧
    pending.inputs = inputsOver options chain ∧ pending.period = ⟨⟨s.served.id, s.served.height, s.served.root⟩, chain.drop n,
      (s.served.run (calls (chain.drop n))).1, s.fold⟩

/-- The map ahead over a chain, and the blocks kept of it. -/
structure AheadOver (options : Options) (s : Server) (chain : List ServedBlock) (t : Server) : Prop where
  frame : t = { s with ahead := t.ahead, blocks := t.blocks }
  ahead : t.ahead = mapOver options chain
  kept : Kept options chain t.blocks

theorem appendAhead_runs {updates : List MapUpdate} {ahead : SubjectMap}
    (run : t.ahead.appendBlock block.id block.unsigned = .ok (updates, ahead)) : (appendAhead options block).runs t =
      (.ok updates, { t with ahead, blocks := (if options.keeps then t.blocks.set ahead.height block else t.blocks) }) := by
  simp only [appendAhead, Work.runs_bind, Work.runs_get, Work.andThen, run, fails, Work.runs_lift, Work.runs_modify, Work.runs_pure]

theorem AheadOver.append (made : AheadOver options s chain t) (fits : Fits options (chain ++ [block])) :
    ∃ updates next, (appendAhead options block).runs t = (.ok updates, next) ∧ AheadOver options s (chain ++ [block]) next ∧
      (mapOver options chain).appendBlock block.id block.unsigned = .ok (updates, mapOver options (chain ++ [block])) := by
  have height := mapOver_height (fits.less (List.prefix_append _ _))
  obtain ⟨updates, run, high, -⟩ := mapOver_append fits height
  have next : (mapOver options (chain ++ [block])).height = options.startHeight + chain.length + 1 := by
    rw [high, List.length_append, List.length_singleton, Nat.add_assoc]
  refine ⟨updates, _, appendAhead_runs (made.ahead ▸ run), ⟨?_, rfl, made.kept.append next⟩, run⟩
  rw [made.frame]

/-- A period's blocks appended: its updates are the map's over them. -/
theorem AheadOver.appendPeriod (made : AheadOver options s chain t) {owned : List ServedBlock} (fits : Fits options (chain ++ owned)) :
    ∃ next, (appendPeriod options owned).runs t = (.ok ((mapOver options chain).run (calls owned)).1, next) ∧
      AheadOver options s (chain ++ owned) next := by
  induction owned generalizing chain t with
  | nil => exact ⟨t, rfl, by rwa [List.append_nil]⟩
  | cons block owned ih =>
    rw [← List.singleton_append, ← List.append_assoc] at fits
    obtain ⟨updates, next, run, appended, added⟩ := made.append (fits.less (List.prefix_append _ _))
    obtain ⟨last, runs, appended'⟩ := ih appended fits
    refine ⟨last, ?_, by rwa [List.append_assoc, List.singleton_append] at appended'⟩
    have split_ : ((mapOver options chain).run (calls (block :: owned))).1 =
        updates ++ ((mapOver options (chain ++ [block])).run (calls owned)).1 := by
      rw [calls, List.map_cons, SubjectMap.run, added]
      rfl
    rw [split_]
    simp only [ExhaustionServer.appendPeriod, Work.runs_bind, Work.andThen, run, runs, Work.runs_pure]

/-- The served map brought over more blocks. -/
theorem appendServed_runs (served : t.served = mapOver options chain) (fits : Fits options (chain ++ [block])) :
    (appendServed block).runs t = (.ok (), { t with served := mapOver options (chain ++ [block]) }) := by
  obtain ⟨updates, run, -⟩ := mapOver_append fits (mapOver_height (fits.less (List.prefix_append _ _)))
  simp only [appendServed, Work.runs_bind, Work.runs_get, Work.andThen, served, run, fails, Work.runs_lift, Work.runs_modify]

theorem serve_runs {blocks : List ServedBlock} (served : t.served = mapOver options chain) (fits : Fits options (chain ++ blocks)) :
    (blocks.forM appendServed).runs t = (.ok (), { t with served := mapOver options (chain ++ blocks) }) := by
  induction blocks generalizing chain t with
  | nil =>
    rw [List.append_nil, ← served]
    rfl
  | cons block blocks ih =>
    rw [← List.singleton_append, ← List.append_assoc] at fits ⊢
    change Work.runs (appendServed block >>= fun _ => blocks.forM appendServed) t = _
    rw [Work.runs_bind, appendServed_runs served (fits.less (List.prefix_append _ _)), Work.andThen, ih rfl fits]

omit [Crypto] in
theorem usable_whole (whole : s.broken = none) : usable.runs s = (.ok (), s) := by
  simp only [usable, Work.runs_bind, Work.runs_get, Work.andThen, whole, Work.runs_pure]

omit [Crypto] in
theorem usable_broken (broken : s.broken ≠ none) : ∃ failure, usable.runs s = (.error failure, s) := by
  cases why : s.broken with
  | none => exact absurd why broken
  | some why_ =>
    refine ⟨.refused (if s.disagreed then .disagreement else .blocks) why_, ?_⟩
    simp only [usable, Work.runs_bind, Work.runs_get, Work.andThen, why, Work.runs_throw]

theorem AheadOver.refl (stands : Stands options s chain n) : AheadOver options s chain s := ⟨rfl, stands.ahead, stands.kept⟩

theorem Stands.folded (stands : Stands options s chain n) (none_ : s.pending = none) : n = chain.length := by
  obtain ⟨-, whole⟩ | ⟨pending, some_, -⟩ := stands.pending
  · exact whole
  · rw [none_] at some_
    cases some_

/-- A period begun where none is pending: refused or already folded, the server as it was, or its blocks appended and its proof pending. -/
theorem Stands.begun (stands : Stands options s chain n) (none_ : s.pending = none) {owned : List ServedBlock}
    (named : ∀ block ∈ owned, block.id.length = 32) :
    (∃ failure, (begun options owned).runs s = (.error failure, s)) ∨
      (∃ fold, (begun options owned).runs s = (.ok (some fold), s) ∧ s.fold = some fold) ∨
      ∃ t, (begun options owned).runs s = (.ok none, t) ∧ Stands options t (chain ++ owned) n ∧ t.pending.isSome = true ∧ t.fold = s.fold := by
  have whole := stands.folded none_
  by_cases empty : owned = []
  · cases latest : s.fold with
    | none => exact .inl ⟨.failed (.encoding "a period holds at least one block"), by
        simp only [ExhaustionServer.begun, Work.runs_bind, Work.runs_get, Work.andThen, if_pos empty, latest]
        rfl⟩
    | some fold => exact .inr (.inl ⟨fold, by
        simp only [ExhaustionServer.begun, Work.runs_bind, Work.runs_get, Work.andThen, if_pos empty, latest]
        rfl, rfl⟩)
  · by_cases high : 2 ^ 32 ≤ s.ahead.height + owned.length
    · exact .inl ⟨.failed (.encoding "exhaustion height out of range"), by
        simp only [ExhaustionServer.begun, Work.runs_bind, Work.runs_get, Work.andThen, if_neg empty, if_pos high]
        rfl⟩
    · have fits : Fits options (chain ++ owned) := by
        refine ⟨fun block member => (List.mem_append.mp member).elim (stands.fits.named block) (named block), ?_⟩
        rw [stands.ahead, mapOver_height stands.fits] at high
        rw [List.length_append]
        omega
      obtain ⟨t, run, made⟩ := (AheadOver.refl stands).appendPeriod fits
      have some_ := List.length_pos_of_ne_nil empty
      refine .inr (.inr ⟨_, by
        simp only [ExhaustionServer.begun, Work.runs_bind, Work.runs_get, Work.andThen, if_neg empty, if_neg high, run, Work.runs_modify,
          Work.runs_pure]
        rfl, ?_, rfl, ?_⟩)
      · have served : s.served = mapOver options chain := by rw [stands.served, whole, List.take_length]
        have left : (chain ++ owned).take n = chain := by rw [whole, List.take_left]
        have right : (chain ++ owned).drop n = owned := by rw [whole, List.drop_left]
        have kept : t.served = s.served ∧ t.fold = s.fold ∧ t.broken = s.broken := by
          rw [made.frame]
          exact ⟨rfl, rfl, rfl⟩
        have latest := stands.fold
        rw [whole, List.take_length] at latest
        refine ⟨fits, kept.2.2.trans stands.whole, by rw [List.length_append]; omega, made.ahead, ?_, made.kept, ?_, .inr ⟨_, rfl, ?_, ?_, ?_⟩⟩
        · rw [left, ← served]
          exact kept.1
        · rw [left, whole]
          simp only [kept.2.1]
          exact latest
        · rw [List.length_append]
          omega
        · simp only [made.ahead]
          rfl
        · simp only [right, kept.1, kept.2.1, served, stands.ahead]
      · rw [made.frame]

theorem sealed_runs {pending : Pending} {proof : Bytes} {served : SubjectMap}
    (run : (pending.period.blocks.forM appendServed).runs s = (.ok (), { s with served })) : (sealed pending proof).runs s =
      (.ok ⟨pending.period.previous.isNone, pending.inputs, proof⟩,
        { s with served, fold := some ⟨pending.period.previous.isNone, pending.inputs, proof⟩, pending := none }) := by
  simp only [ExhaustionServer.sealed, Work.runs_bind, Work.andThen, run, Work.runs_modify, Work.runs_pure]

/-- A pending period proved: the served map is brought to its end, and its fold is the latest. -/
theorem Stands.sealed (stands : Stands options s chain n) {pending : Pending} (some_ : s.pending = some pending) (proof : Bytes) :
    ∃ fold t, (sealed pending proof).runs s = (.ok fold, t) ∧ Stands options t chain chain.length ∧ t.fold = some fold ∧ t.pending = none ∧
      fold = ⟨s.fold.isNone, inputsOver options chain, proof⟩ ∧ n < chain.length := by
  obtain ⟨none_, -⟩ | ⟨own, same, more, inputs, period⟩ := stands.pending
  · rw [none_] at some_
    cases some_
  · obtain rfl : own = pending := Option.some.inj (same.symm.trans some_)
    have blocks : chain.take n ++ own.period.blocks = chain := by rw [period, List.take_append_drop]
    have run := @serve_runs _ options (chain.take n) s own.period.blocks stands.served (blocks.symm ▸ stands.fits)
    rw [blocks] at run
    refine ⟨_, _, sealed_runs run, ⟨stands.fits, stands.whole, Nat.le_refl _, stands.ahead, ?_, stands.kept, .inr ⟨_, rfl, ?_, ?_⟩, .inl ⟨rfl, rfl⟩⟩, rfl, rfl, ?_, more⟩
    · rw [List.take_length]
    · omega
    · rw [List.take_length]
      exact inputs
    · rw [inputs, period]

/-- Every block a source gives is one a map appends. -/
def Source.Owned (source : Source) : Prop :=
  ∀ first pass height block, source.block first pass height = .ok (some block) → block.id.length = 32

/-- A block read to be appended again is the one appended. -/
def Source.Steady (source : Source) : Prop :=
  ∀ first height a b, source.block first .ahead height = .ok (some a) → source.block first .served height = .ok (some b) → a = b

omit [Crypto] in
theorem ownBlock_named {given : ServedBlock} (owned : ownBlock given = .ok block) : block = given ∧ block.id.length = 32 := by
  unfold ownBlock at owned
  split at owned
  · rename_i formed
    obtain rfl := Except.ok.inj owned
    exact ⟨rfl, formed.1⟩
  · cases owned

omit [Crypto] in
theorem Source.read_owned (given : Pass → Nat → Except ServerFailure (Option ServedBlock)) : (Source.read given).Owned := by
  intro first pass height block found
  simp only [Source.block, bind, Except.bind] at found
  split at found
  · cases found
  · split at found
    · cases found
    · split at found
      · cases found
      · rename_i own
        obtain rfl := Option.some.inj (Except.ok.inj found)
        exact (ownBlock_named own).2

omit [Crypto] in
theorem Source.listed_owned {blocks : List ServedBlock} (named : ∀ block ∈ blocks, block.id.length = 32) : (Source.listed blocks).Owned := by
  intro first pass height block found
  simp only [Source.block, Except.ok.injEq] at found
  split at found
  · exact named block (List.mem_of_getElem? found)
  · cases found

variable {source : Source} {first : Nat} {pass : Pass} {append : ServedBlock → ServerWork Unit} {P : List ServedBlock → Server → Prop}

omit [Crypto] in
theorem atHand_cases (source : Source) (first : Nat) (heights : List Nat) :
    (atHand source first heights).runs s = (.ok (), s) ∨ ∃ failure, (atHand source first heights).runs s = (.error failure, s) := by
  induction heights with
  | nil => exact .inl rfl
  | cons height heights ih =>
    cases found : source.block first .found height with
    | error failure => exact .inr ⟨failure, by simp only [atHand, Work.runs_bind, Work.runs_lift, found, Work.andThen]⟩
    | ok block =>
      cases block with
      | none => exact .inr ⟨.refused .fold s!"the fold's block at {height} is not at hand", by
          simp only [atHand, Work.runs_bind, Work.runs_lift, found, Work.andThen]
          rfl⟩
      | some block =>
        have run : (atHand source first (height :: heights)).runs s = (atHand source first heights).runs s := by
          simp only [atHand, Work.runs_bind, Work.runs_lift, found, Work.andThen]
        rw [run]
        exact ih

omit [Crypto] in
/-- A span's blocks appended in turn, or one not at hand again and the server broken. -/
theorem each_cases {total : Nat} (owned : source.Owned) (step : ∀ done u block, done.length < total → P done u → block.id.length = 32 →
      ∃ v, (append block).runs u = (.ok (), v) ∧ P (done ++ [block]) v) {heights : List Nat} {done : List ServedBlock} (at_ : P done s)
    (room : done.length + heights.length = total) :
    (∃ why t, (each source first pass append heights).runs s = (.error (.refused .blocks why), t) ∧ t.broken = some why) ∨
      ∃ blocks t, (each source first pass append heights).runs s = (.ok (), t) ∧ P (done ++ blocks) t ∧
        List.Forall₂ (fun height block => source.block first pass height = .ok (some block)) heights blocks := by
  induction heights generalizing done s with
  | nil => exact .inr ⟨[], s, rfl, by rwa [List.append_nil], .nil⟩
  | cons height heights ih =>
    rw [List.length_cons] at room
    have lost : (∀ block, source.block first pass height ≠ .ok (some block)) → ∃ why t,
        (each source first pass append (height :: heights)).runs s = (.error (.refused .blocks why), t) ∧ t.broken = some why := by
      intro absent
      refine ⟨s!"the fold's block at {height} could not be read again while it was adopted", { s with
        broken := some s!"the fold's block at {height} could not be read again while it was adopted" }, ?_, rfl⟩
      cases found : source.block first pass height with
      | error failure => simp only [each, found, Work.runs_bind, Work.runs_modify, Work.andThen, Work.runs_throw]
      | ok block =>
        cases block with
        | none => simp only [each, found, Work.runs_bind, Work.runs_modify, Work.andThen, Work.runs_throw]
        | some block => exact absurd found (absent block)
    by_cases there : ∃ block, source.block first pass height = .ok (some block)
    · obtain ⟨block, found⟩ := there
      obtain ⟨t, run, next⟩ := step done s block (by omega) at_ (owned _ _ _ _ found)
      have runs : (each source first pass append (height :: heights)).runs s = (each source first pass append heights).runs t := by
        simp only [each, found, Work.runs_bind, run, Work.andThen]
      rw [runs]
      obtain broken | ⟨blocks, last, ended, kept, read⟩ := ih next (by rw [List.length_append, List.length_singleton]; omega)
      · exact .inl broken
      · rw [List.append_assoc, List.singleton_append] at kept
        exact .inr ⟨block :: blocks, last, ended, kept, .cons found read⟩
    · exact .inl (lost fun block found => there ⟨block, found⟩)

/-- What a fold is checked to be of before its proof. -/
structure Continues (options : Options) (s : Server) (fold : Fold) (first : Nat) : Prop where
  none_ : s.pending = none
  next : first = s.ahead.height + 1
  above : first ≤ fold.inputs.endHeight
  startId : fold.inputs.startId = options.startId
  startHeight : fold.inputs.startHeight = options.startHeight
  foldKeyHash : fold.inputs.foldKeyHash = options.foldKeyHash

omit [Crypto] in
theorem refuseIf_andThen {α : Type} {condition : Bool} {code : Code} {message : String} {rest : Unit → ServerWork α} :
    Work.andThen rest ((refuseIf condition code message).runs s) =
      if condition then (.error (.refused code message), s) else (rest ()).runs s := by
  unfold refuseIf
  split <;> rfl

omit [Crypto] in
theorem andThen_ok {α β : Type} (rest : α → ServerWork β) (value : α) (u : Server) : Work.andThen rest (.ok value, u) = (rest value).runs u := rfl

omit [Crypto] in
theorem andThen_error {α β : Type} (rest : α → ServerWork β) (failure : ServerFailure) (u : Server) :
    Work.andThen rest (.error failure, u) = (.error failure, u) := rfl

omit [Crypto] in
theorem checkListed_cases (first last : Nat) (source : Source) :
    (checkListed first last source).runs s = (.ok (), s) ∨ ∃ failure, (checkListed first last source).runs s = (.error failure, s) := by
  cases source with
  | listed blocks =>
    simp only [checkListed, refuseIf]
    split
    · exact .inr ⟨_, rfl⟩
    · exact .inl rfl
  | read given => exact .inl rfl

omit [Crypto] in
theorem adopting_cases (whole : s.broken = none) (fold : Fold) (source : Source) :
    (∃ failure, (adopting options fold source).runs s = (.error failure, s)) ∨
      ∃ first, (adopting options fold source).runs s = (.ok first, s) ∧ Continues options s fold first := by
  obtain listed | ⟨failure, listed⟩ := @checkListed_cases s (s.ahead.height + 1) fold.inputs.endHeight source
  · simp only [adopting, Work.runs_bind, usable_whole whole, andThen_ok, Work.runs_get, refuseIf_andThen, listed, Work.runs_lift]
    split
    · exact .inl ⟨_, rfl⟩
    rename_i settled
    split
    · exact .inl ⟨_, rfl⟩
    rename_i same
    split
    · exact .inl ⟨_, rfl⟩
    rename_i above
    simp only [Bool.or_eq_true, decide_eq_true_eq, not_or, not_not, ne_eq] at same above
    cases found : source.block (s.ahead.height + 1) .last fold.inputs.endHeight with
    | error failure => exact .inl ⟨failure, rfl⟩
    | ok block =>
      cases block with
      | none => exact .inl ⟨_, rfl⟩
      | some block =>
        simp only [andThen_ok, Work.runs_bind, refuseIf_andThen]
        split
        · exact .inl ⟨_, rfl⟩
        · exact .inr ⟨_, rfl, by simpa using settled, rfl, by omega, same.1.1, same.1.2, same.2⟩
  · simp only [adopting, Work.runs_bind, usable_whole whole, andThen_ok, Work.runs_get, refuseIf_andThen, listed]
    split
    · exact .inl ⟨_, rfl⟩
    · exact .inl ⟨failure, rfl⟩

omit [Crypto] in
/-- A span's blocks read twice, steadily, are the same. -/
theorem Source.Steady.same (steady : source.Steady) {heights : List Nat} {blocks again : List ServedBlock}
    (read : List.Forall₂ (fun height block => source.block first .ahead height = .ok (some block)) heights blocks)
    (read' : List.Forall₂ (fun height block => source.block first .served height = .ok (some block)) heights again) : again = blocks := by
  induction read generalizing again with
  | nil =>
    cases read'
    rfl
  | cons found _ ih =>
    cases read' with
    | cons found' read' => rw [ih read', steady _ _ _ _ found found']

/-- An adoption: refused, the server as it was; broken; or its blocks appended and the fold the latest. -/
theorem Stands.adopted (stands : Stands options s chain n) {fold : Fold} (continues : Continues options s fold first)
    (below : fold.inputs.endHeight < 2 ^ 32) (owned : source.Owned) (steady : source.Steady) (verified : Bool) :
    (∃ failure, (adopted options fold source first verified).runs s = (.error failure, s)) ∨
      (∃ failure t, (adopted options fold source first verified).runs s = (.error failure, t) ∧ t.broken ≠ none) ∨
      ∃ blocks t, (adopted options fold source first verified).runs s = (.ok fold, t) ∧ blocks ≠ [] ∧
        Stands options t (chain ++ blocks) (chain ++ blocks).length ∧ t.fold = some fold ∧ t.pending = none := by
  have whole := stands.folded continues.none_
  have served : s.served = mapOver options chain := by rw [stands.served, whole, List.take_length]
  have height := mapOver_height stands.fits
  have next := continues.next
  have above := continues.above
  rw [stands.ahead, height] at next
  have fits : ∀ {done : List ServedBlock} {block}, (∀ block ∈ done, block.id.length = 32) → block.id.length = 32 →
      done.length < fold.inputs.endHeight + 1 - first → Fits options (chain ++ (done ++ [block])) := by
    intro done block named own room
    refine ⟨fun other member => ?_, ?_⟩
    · obtain old | new := List.mem_append.mp member
      · exact stands.fits.named other old
      · obtain old | last := List.mem_append.mp new
        · exact named other old
        · exact List.mem_singleton.mp last ▸ own
    · simp only [List.length_append, List.length_singleton]
      omega
  have grown : ∀ {done : List ServedBlock} {block}, (∀ block ∈ done, block.id.length = 32) → block.id.length = 32 →
      ∀ other ∈ done ++ [block], other.id.length = 32 := fun named own other member =>
    (List.mem_append.mp member).elim (named other) fun last => List.mem_singleton.mp last ▸ own
  simp only [ExhaustionServer.adopted, Work.runs_bind, refuseIf_andThen]
  split
  · exact .inl ⟨_, rfl⟩
  rw [usable_whole stands.whole, andThen_ok, Work.runs_bind]
  obtain found | ⟨failure, found⟩ := @atHand_cases s source first (List.range' first (fold.inputs.endHeight - first))
  swap
  · rw [found]
    exact .inl ⟨failure, rfl⟩
  rw [found, andThen_ok, Work.runs_bind]
  -- the map ahead over the span
  obtain ⟨why, t, run, broken⟩ | ⟨blocks, t, run, ⟨named, made⟩, read⟩ := @each_cases s source first .ahead
    (fun block => do let _ ← appendAhead options block)
    (fun done u => (∀ block ∈ done, block.id.length = 32) ∧ AheadOver options s (chain ++ done) u) (fold.inputs.endHeight + 1 - first) owned
    (by
      rintro done u block room ⟨named, made⟩ own
      have fits := fits named own room
      rw [← List.append_assoc] at fits
      obtain ⟨updates, v, run, made', -⟩ := made.append fits
      refine ⟨v, ?_, grown named own, by rwa [List.append_assoc] at made'⟩
      simp only [Work.runs_bind, run, andThen_ok, Work.runs_pure])
    (List.range' first (fold.inputs.endHeight + 1 - first)) [] ⟨by simp, by rw [List.append_nil]; exact .refl stands⟩
    (by rw [List.length_nil, List.length_range', Nat.zero_add])
  · rw [run]
    exact .inr (.inl ⟨_, t, rfl, by rw [broken]; exact Option.some_ne_none _⟩)
  rw [List.nil_append] at made named
  rw [run, andThen_ok, Work.runs_bind, Work.runs_get, andThen_ok]
  have kept : t.served = s.served ∧ t.broken = s.broken ∧ t.pending = s.pending := by
    rw [made.frame]
    exact ⟨rfl, rfl, rfl⟩
  split
  · exact .inr (.inl ⟨_, _, rfl, Option.some_ne_none _⟩)
  rename_i agrees
  rw [not_or, not_not, not_not, made.ahead] at agrees
  have count : blocks.length = fold.inputs.endHeight + 1 - first := by rw [← read.length_eq, List.length_range']
  have long : (chain ++ blocks).length = chain.length + blocks.length := List.length_append
  have fitsAll : Fits options (chain ++ blocks) := by
    refine ⟨fun other member => (List.mem_append.mp member).elim (stands.fits.named other) (named other), ?_⟩
    rw [long]
    omega
  -- the served map over the same
  rw [Work.runs_bind]
  obtain ⟨why, u, run', broken⟩ | ⟨again, u, run', ⟨-, last⟩, read'⟩ := @each_cases t source first .served appendServed
    (fun done u => (∀ block ∈ done, block.id.length = 32) ∧ u = { t with served := mapOver options (chain ++ done) })
    (fold.inputs.endHeight + 1 - first) owned
    (by
      rintro done u block room ⟨named, rfl⟩ own
      have fits := fits named own room
      rw [← List.append_assoc] at fits
      refine ⟨_, appendServed_runs rfl fits, grown named own, ?_⟩
      rw [List.append_assoc])
    (List.range' first (fold.inputs.endHeight + 1 - first)) [] ⟨by simp, by rw [List.append_nil, ← served, ← kept.1]⟩
    (by rw [List.length_nil, List.length_range', Nat.zero_add])
  · rw [run']
    exact .inr (.inl ⟨_, u, rfl, by rw [broken]; exact Option.some_ne_none _⟩)
  rw [List.nil_append, steady.same read read'] at last
  rw [run', andThen_ok, Work.runs_bind, Work.runs_get, andThen_ok]
  split
  · exact .inr (.inl ⟨_, _, rfl, Option.some_ne_none _⟩)
  subst last
  refine .inr (.inr ⟨blocks, _, rfl, fun none_ => ?_, ⟨fitsAll, kept.2.1.trans stands.whole, Nat.le_refl _, made.ahead, ?_, made.kept,
    .inr ⟨fold, rfl, ?_, ?_⟩, .inl ⟨kept.2.2.trans continues.none_, rfl⟩⟩, rfl, kept.2.2.trans continues.none_⟩)
  · rw [none_, List.length_nil] at count
    omega
  · rw [List.take_length]
  · rw [long]
    omega
  · have ends : fold.inputs.endHeight = (mapOver options (chain ++ blocks)).height := by
      rw [mapOver_height fitsAll, long]
      omega
    rw [List.take_length, inputsOver, agrees.1, agrees.2, ← ends, ← continues.startId, ← continues.startHeight, ← continues.foldKeyHash]

end ExhaustionServer

end Moe
