import Mathlib.Data.List.Pairwise
import Mathlib.Logic.Relation
import Mathlib.Order.MinMax
import Moe.Refusals

namespace Moe

namespace Schedule

/-- The clock a scope's schedule reads: the current witnessed index, the lag, the ends of the scope's terms, and the last signed but not yet
witnessed commitment and the restart, where there are any. -/
structure ScopeClock where
  now : Int
  lag : Int
  boundaries : List Int
  unwitnessedSignedAt : Option Int
  resumedAt : Option Int
  deriving DecidableEq, Repr

structure ScopeSchedule where
  nextSigningIndex : Int
  boundary : Option Int
  lastSigningIndex : Option Int
  admissionOpen : Bool
  commitNow : Bool
  lapsed : Bool
  deriving DecidableEq, Repr

def requireIndex (value : Int) : Except Failure Unit := require (0 ≤ value) (.encoding "scope clocks must be nonnegative bigints")

/-- The least of the boundaries so far. -/
def earlierBoundary (boundary : Option Int) (at_ : Int) : Except Failure (Option Int) := do
  requireIndex at_
  return match boundary with
    | none => some at_
    | some least => if at_ < least then some at_ else some least

/-- The next signing index after a wait of the lag from an index. -/
def waitFrom (clock : ScopeClock) (next : Int) : Option Int → Except Failure Int
  | none => .ok next
  | some at_ => do
    requireIndex at_
    require (at_ ≤ clock.now) (.encoding "a signing or restart index is in the future")
    return if at_ + clock.lag > next then at_ + clock.lag else next

def scopeSchedule (clock : ScopeClock) : Except Failure ScopeSchedule := do
  requireIndex clock.now
  requireIndex clock.lag
  let boundary ← clock.boundaries.foldlM earlierBoundary none
  let next ← [clock.unwitnessedSignedAt, clock.resumedAt].foldlM (waitFrom clock) clock.now
  let last := boundary.map fun end_ => end_ - clock.lag - 1
  let admissionOpen := last.all fun last => next ≤ last
  let recovered := clock.resumedAt.all fun at_ => at_ + clock.lag ≤ clock.now
  let reserveLast := last.any fun last => clock.now < last ∧ last < clock.now + clock.lag
  return { nextSigningIndex := next, boundary, lastSigningIndex := last, admissionOpen := admissionOpen && recovered
           commitNow := next = clock.now && admissionOpen && !reserveLast
           lapsed := boundary.any fun end_ => end_ ≤ clock.now }

/-- The clock the calendar model enumerates. -/
structure Calendar where
  now : Int
  lag : Int
  boundaries : List Int
  unwitnessed : Option Int
  resumed : Option Int

namespace Calendar

variable (c : Calendar)

def live (at_ : Int) : Bool := c.boundaries.all fun end_ => at_ < end_

def free (at_ : Int) : Bool :=
  (c.unwitnessed.all fun signed => signed + c.lag ≤ at_) && c.resumed.all fun resumed => resumed + c.lag ≤ at_

/-- The last index a commitment may be signed at: a term's end, or past every wait where no term ends. -/
def horizon : Int :=
  match c.boundaries with
  | [] => max c.now (max (c.unwitnessed.getD 0) (c.resumed.getD 0)) + 2 * c.lag + 1
  | first :: rest => rest.foldl max first

/-- Every possible commitment clock before all terms end. -/
def candidates : List Int :=
  (((List.range (c.horizon - c.now + 1).toNat).map fun step : Nat => c.now + step)).filter fun sign => c.free sign && c.live (sign + c.lag)

end Calendar

/-- The model's clock of a scope's clock. -/
def ScopeClock.calendar (clock : ScopeClock) : Calendar :=
  ⟨clock.now, clock.lag, clock.boundaries, clock.unwitnessedSignedAt, clock.resumedAt⟩

end Schedule

end Moe

namespace Moe

namespace Schedule

/-- The clocks the schedule admits. -/
structure ScopeClock.Admitted (clock : ScopeClock) : Prop where
  now : 0 ≤ clock.now
  lag : 0 ≤ clock.lag
  boundaries : ∀ end_ ∈ clock.boundaries, 0 ≤ end_
  unwitnessed : ∀ at_ ∈ clock.unwitnessedSignedAt, 0 ≤ at_ ∧ at_ ≤ clock.now
  resumed : ∀ at_ ∈ clock.resumedAt, 0 ≤ at_ ∧ at_ ≤ clock.now

namespace ScopeClock

variable {clock : ScopeClock} {schedule : ScopeSchedule}

theorem earlierBoundary_eq_ok {boundary next : Option Int} {at_ : Int} :
    earlierBoundary boundary at_ = .ok next ↔ 0 ≤ at_ ∧ next = some (boundary.elim at_ fun least => min least at_) := by
  simp only [earlierBoundary, requireIndex, bind_unit_eq_ok, require_eq_ok, decide_eq_true_eq]
  refine and_congr_right fun _ => ?_
  cases boundary with
  | none => exact ⟨fun made => (Except.ok.inj made).symm, fun own => by rw [own]; rfl⟩
  | some least =>
    have same : (if at_ < least then some at_ else some least) = some (min least at_) := by split <;> congr 1 <;> omega
    rw [Option.elim_some, ← same]
    exact ⟨fun made => (Except.ok.inj made).symm, fun own => congrArg Except.ok own.symm⟩

theorem foldlM_boundary_eq_ok {boundaries : List Int} {least : Int} {boundary : Option Int} :
    boundaries.foldlM earlierBoundary (some least) = .ok boundary ↔
      (∀ end_ ∈ boundaries, 0 ≤ end_) ∧ boundary = some (boundaries.foldl min least) := by
  induction boundaries generalizing least with
  | nil => simp [pure, Except.pure, eq_comm]
  | cons first rest ih =>
    rw [List.foldlM_cons, bind_eq_ok]
    simp only [earlierBoundary_eq_ok, Option.elim_some, List.mem_cons, forall_eq_or_imp, List.foldl_cons]
    constructor
    · rintro ⟨next, ⟨nonneg, rfl⟩, walked⟩
      obtain ⟨others, own⟩ := ih.mp walked
      exact ⟨⟨nonneg, others⟩, own⟩
    · rintro ⟨⟨nonneg, others⟩, own⟩
      exact ⟨_, ⟨nonneg, rfl⟩, ih.mpr ⟨others, own⟩⟩

/-- The boundary a schedule reads is the least of the ends. -/
theorem boundary_eq_ok {boundaries : List Int} {boundary : Option Int} :
    boundaries.foldlM earlierBoundary none = .ok boundary ↔ (∀ end_ ∈ boundaries, 0 ≤ end_) ∧ boundary = boundaries.min? := by
  cases boundaries with
  | nil => simp [pure, Except.pure, eq_comm]
  | cons first rest =>
    rw [List.foldlM_cons, bind_eq_ok]
    simp only [earlierBoundary_eq_ok, Option.elim_none, List.mem_cons, forall_eq_or_imp, List.min?_cons']
    constructor
    · rintro ⟨next, ⟨nonneg, rfl⟩, walked⟩
      obtain ⟨others, own⟩ := foldlM_boundary_eq_ok.mp walked
      exact ⟨⟨nonneg, others⟩, own⟩
    · rintro ⟨⟨nonneg, others⟩, own⟩
      exact ⟨_, ⟨nonneg, rfl⟩, foldlM_boundary_eq_ok.mpr ⟨others, own⟩⟩

/-- An index after the wait of the lag from another. -/
def after (clock : ScopeClock) (next : Int) (at_ : Option Int) : Int := at_.elim next fun at_ => max next (at_ + clock.lag)

theorem waitFrom_eq_ok {next waited : Int} {at_ : Option Int} :
    waitFrom clock next at_ = .ok waited ↔ (∀ index ∈ at_, 0 ≤ index ∧ index ≤ clock.now) ∧ waited = clock.after next at_ := by
  cases at_ with
  | none => simp [waitFrom, after, eq_comm]
  | some index =>
    have same : (if index + clock.lag > next then index + clock.lag else next) = max next (index + clock.lag) := by split <;> omega
    simp only [waitFrom, requireIndex, bind_unit_eq_ok, require_eq_ok, decide_eq_true_eq, Option.mem_some_iff, forall_eq', after, Option.elim_some,
      and_assoc, same]
    refine and_congr_right fun _ => and_congr_right fun _ => ⟨fun made => (Except.ok.inj made).symm, fun own => by rw [own]; rfl⟩

/-- The first index past every wait. -/
def next (clock : ScopeClock) : Int := clock.after (clock.after clock.now clock.unwitnessedSignedAt) clock.resumedAt

/-- The last index a commitment is in term after the lag. -/
def last (clock : ScopeClock) : Option Int := clock.boundaries.min?.map fun end_ => end_ - clock.lag - 1

def planned (clock : ScopeClock) : ScopeSchedule where
  nextSigningIndex := clock.next
  boundary := clock.boundaries.min?
  lastSigningIndex := clock.last
  admissionOpen := (clock.last.all fun last => clock.next ≤ last) && clock.resumedAt.all fun at_ => at_ + clock.lag ≤ clock.now
  commitNow := clock.next = clock.now && (clock.last.all fun last => clock.next ≤ last) &&
    !clock.last.any fun last => clock.now < last ∧ last < clock.now + clock.lag
  lapsed := clock.boundaries.min?.any fun end_ => end_ ≤ clock.now

/-- The schedule refuses exactly the clocks it does not admit. -/
theorem scopeSchedule_eq_ok : scopeSchedule clock = .ok schedule ↔ clock.Admitted ∧ schedule = clock.planned := by
  unfold scopeSchedule
  simp only [requireIndex, bind_unit_eq_ok, require_eq_ok, decide_eq_true_eq]
  simp only [bind_eq_ok, boundary_eq_ok, List.foldlM_cons, List.foldlM_nil, waitFrom_eq_ok]
  constructor
  · rintro ⟨now, lag, boundary, ⟨ends, rfl⟩, next, ⟨waited, ⟨signed, rfl⟩, waited', ⟨resumed, rfl⟩, own⟩, made⟩
    obtain rfl := Except.ok.inj own
    exact ⟨⟨now, lag, ends, signed, resumed⟩, (Except.ok.inj made).symm⟩
  · rintro ⟨admitted, rfl⟩
    exact ⟨admitted.now, admitted.lag, _, ⟨admitted.boundaries, rfl⟩, _, ⟨_, ⟨admitted.unwitnessed, rfl⟩, _, ⟨admitted.resumed, rfl⟩, rfl⟩, rfl⟩

end ScopeClock

theorem le_foldl_max (ends : List Int) (first : Int) : first ≤ ends.foldl max first ∧ ∀ end_ ∈ ends, end_ ≤ ends.foldl max first := by
  induction ends generalizing first with
  | nil => exact ⟨Int.le_refl _, fun end_ member => by cases member⟩
  | cons second rest ih =>
    obtain ⟨own, others⟩ := ih (max first second)
    rw [List.foldl_cons]
    refine ⟨by omega, fun end_ member => ?_⟩
    rcases List.mem_cons.mp member with rfl | inside
    · omega
    · exact others end_ inside

namespace Calendar

variable {c : Calendar} {index : Int}

theorem mem_candidates : index ∈ c.candidates ↔ c.now ≤ index ∧ index ≤ c.horizon ∧ c.free index = true ∧ c.live (index + c.lag) = true := by
  unfold candidates
  rw [List.mem_filter, List.mem_map, Bool.and_eq_true]
  constructor
  · rintro ⟨⟨step, inside, rfl⟩, rest⟩
    rw [List.mem_range] at inside
    exact ⟨by omega, by omega, rest⟩
  · rintro ⟨low, high, rest⟩
    refine ⟨⟨(index - c.now).toNat, ?_, ?_⟩, rest⟩
    · rw [List.mem_range]
      omega
    · omega

theorem live_iff : c.live index = true ↔ ∀ end_ ∈ c.boundaries, index < end_ := by simp [live]

theorem le_horizon {end_ : Int} (member : end_ ∈ c.boundaries) : end_ ≤ c.horizon := by
  unfold horizon
  cases ends : c.boundaries with
  | nil => simp [ends] at member
  | cons first rest =>
    obtain ⟨own, others⟩ := le_foldl_max rest first
    rw [ends] at member
    rcases List.mem_cons.mp member with rfl | inside
    · exact own
    · exact others end_ inside

end Calendar

namespace ScopeClock

variable {clock : ScopeClock} {index end_ : Int}

/-- An index is past every wait from the first one on. -/
theorem next_le : clock.next ≤ index ↔ clock.now ≤ index ∧ clock.calendar.free index = true := by
  unfold next after Calendar.free calendar
  cases clock.unwitnessedSignedAt with
  | none => cases clock.resumedAt <;> simp
  | some signed =>
    cases clock.resumedAt with
    | none => simp
    | some resumed =>
      simp
      omega

theorem calendar_live (least : clock.boundaries.min? = some end_) : clock.calendar.live index = true ↔ index < end_ := by
  obtain ⟨own, below⟩ := List.min?_eq_some_iff.mp least
  rw [Calendar.live_iff]
  refine ⟨fun live => live end_ own, fun before other member => ?_⟩
  have low := below other member
  omega

/-- With a boundary the candidates run from the first free index through the last signing index. -/
theorem mem_candidates (least : clock.boundaries.min? = some end_) (lag : 0 ≤ clock.lag) :
    index ∈ clock.calendar.candidates ↔ clock.next ≤ index ∧ index ≤ end_ - clock.lag - 1 := by
  have high : end_ ≤ clock.calendar.horizon := Calendar.le_horizon (List.min?_eq_some_iff.mp least).1
  have same : clock.calendar.lag = clock.lag ∧ clock.calendar.now = clock.now := ⟨rfl, rfl⟩
  rw [Calendar.mem_candidates, calendar_live least, next_le, same.1, same.2]
  constructor
  · rintro ⟨now, -, free, live⟩
    exact ⟨⟨now, free⟩, by omega⟩
  · rintro ⟨⟨now, free⟩, before⟩
    exact ⟨now, by omega, free, by omega⟩

end ScopeClock

/-- A scope's signings on its clock: the indices of the commitments not yet witnessed, newest first, and of all signed ones. -/
structure SigningRun where
  now : Int
  unwitnessed : List Int
  signed : List Int

namespace SigningRun

/-- A run starts at an index with nothing signed. -/
def opened (now : Int) : SigningRun := ⟨now, [], []⟩

def clock (run : SigningRun) (lag : Int) (boundaries : List Int) : ScopeClock := ⟨run.now, lag, boundaries, run.unwitnessed.head?, none⟩

/-- The clock moves on while no commitment is past its witnessing, a commitment is signed where the schedule has one signed now, and one in
flight is witnessed. -/
inductive Step (lag : Int) (boundaries : List Int) : SigningRun → SigningRun → Prop
  | tick {run : SigningRun} (met : ∀ signed ∈ run.unwitnessed, run.now < signed + lag) : Step lag boundaries run { run with now := run.now + 1 }
  | sign {run : SigningRun} {schedule : ScopeSchedule} (read : scopeSchedule (run.clock lag boundaries) = .ok schedule)
      (due : schedule.commitNow = true) :
      Step lag boundaries run { run with unwitnessed := run.now :: run.unwitnessed, signed := run.now :: run.signed }
  | witness {run : SigningRun} {signed : Int} (flying : signed ∈ run.unwitnessed) :
      Step lag boundaries run { run with unwitnessed := run.unwitnessed.erase signed }

/-- Every signing is at the last signing index or leaves it free. -/
structure Reserving (lag : Int) (boundaries : List Int) (run : SigningRun) : Prop where
  now : 0 ≤ run.now
  flying : ∀ signed ∈ run.unwitnessed, 0 ≤ signed ∧ signed ≤ run.now
  recorded : ∀ signed ∈ run.unwitnessed, signed ∈ run.signed
  free : ∀ end_, boundaries.min? = some end_ → ∀ signed ∈ run.signed, signed = end_ - lag - 1 ∨ signed + lag ≤ end_ - lag - 1

variable {lag end_ : Int} {boundaries : List Int} {run next : SigningRun} {schedule : ScopeSchedule}

theorem Reserving.admitted (reserving : run.Reserving lag boundaries) (waits : 0 ≤ lag) (ends : ∀ end_ ∈ boundaries, 0 ≤ end_) :
    (run.clock lag boundaries).Admitted where
  now := reserving.now
  lag := waits
  boundaries := ends
  unwitnessed at_ newest := reserving.flying at_ (List.mem_of_mem_head? newest)
  resumed at_ absent := by cases absent

/-- A commitment due now is at the last signing index or leaves it free. -/
theorem due_reserves (read : scopeSchedule (run.clock lag boundaries) = .ok schedule) (due : schedule.commitNow = true)
    (least : boundaries.min? = some end_) : run.now = end_ - lag - 1 ∨ run.now + lag ≤ end_ - lag - 1 := by
  obtain ⟨-, rfl⟩ := ScopeClock.scopeSchedule_eq_ok.mp read
  have last : (run.clock lag boundaries).last = some (end_ - lag - 1) := by simp [ScopeClock.last, clock, least]
  simp only [ScopeClock.planned, last, Option.all_some, Option.any_some, Bool.and_eq_true, Bool.not_eq_true', decide_eq_true_eq,
    decide_eq_false_iff_not] at due
  have now : (run.clock lag boundaries).now = run.now ∧ (run.clock lag boundaries).lag = lag := ⟨rfl, rfl⟩
  omega

theorem Step.reserving (step : Step lag boundaries run next) (before : run.Reserving lag boundaries) : next.Reserving lag boundaries := by
  cases step with
  | tick met =>
    refine ⟨?_, fun signed flying => ?_, before.recorded, before.free⟩
    · have now := before.now
      dsimp only
      omega
    · have own := before.flying signed flying
      dsimp only
      omega
  | sign read due =>
    refine ⟨before.now, fun signed member => ?_, fun signed member => ?_, fun end_ least signed member => ?_⟩
    · rcases List.mem_cons.mp member with rfl | older
      · exact ⟨before.now, Int.le_refl _⟩
      · exact before.flying signed older
    · rcases List.mem_cons.mp member with rfl | older
      · exact List.mem_cons_self
      · exact List.mem_cons_of_mem _ (before.recorded signed older)
    · rcases List.mem_cons.mp member with rfl | older
      · exact due_reserves read due least
      · exact before.free end_ least signed older
  | witness flying =>
    refine ⟨before.now, fun signed member => ?_, fun signed member => ?_, before.free⟩
    · exact before.flying signed (List.mem_of_mem_erase member)
    · exact before.recorded signed (List.mem_of_mem_erase member)

/-- At the last signing index a commitment is due unless one signed there is in flight. -/
theorem Reserving.due (reserving : run.Reserving lag boundaries) (least : boundaries.min? = some end_) (reached : run.now = end_ - lag - 1)
    (own : run.now ∉ run.unwitnessed) : (run.clock lag boundaries).planned.commitNow = true := by
  have last : (run.clock lag boundaries).last = some (end_ - lag - 1) := by simp [ScopeClock.last, clock, least]
  have now : (run.clock lag boundaries).now = run.now := rfl
  have free : (run.clock lag boundaries).next = run.now := by
    unfold ScopeClock.next ScopeClock.after clock
    cases newest : run.unwitnessed.head? with
    | none => rfl
    | some signed =>
      have flying := List.mem_of_mem_head? newest
      rcases reserving.free end_ least signed (reserving.recorded signed flying) with same | below
      · rw [← reached] at same
        rw [same] at flying
        exact absurd flying own
      · simp only [Option.elim_some, Option.elim_none]
        omega
  simp only [ScopeClock.planned, last, free, now, Option.all_some, Option.any_some, Bool.and_eq_true, Bool.not_eq_true', decide_eq_true_eq,
    decide_eq_false_iff_not]
  exact ⟨⟨trivial, by omega⟩, by omega⟩

end SigningRun

end Schedule

end Moe
