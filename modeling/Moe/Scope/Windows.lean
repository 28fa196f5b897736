import Moe.Scope.KeptAnswers

namespace Moe

/-- The order entries of one kind stand in. -/
def RangeEntry.Follows (kind : RecordKind) (a b : RangeEntry) : Prop :=
  a.index < b.index ∨ a.index = b.index ∧ if kind = .publication then a.ordinal < b.ordinal else byteValues a.record ≤ byteValues b.record

/-- What a frame requires of one entry. -/
structure RangeEntry.Framed (kind : RecordKind) (e : RangeEntry) : Prop where
  index : isU64 e.index = true
  ordinal : isU64 e.ordinal = true
  fits : recordLengthFits kind e.record.length = true
  zero : kind ≠ .publication → e.ordinal = 0

/-- All a venue has witnessed: each subject's entries of each kind, in their order. -/
structure VenueRecord where
  entries : RecordKind → Bytes → List RangeEntry
  ordered : ∀ kind subject, (entries kind subject).Pairwise (RangeEntry.Follows kind)
  framed : ∀ kind subject, ∀ e ∈ entries kind subject, e.Framed kind

namespace VenueRecord

variable (record : VenueRecord) (kind : RecordKind) (subject : Bytes)

/-- What is witnessed before an index. -/
def before (n : Nat) : List RangeEntry := (record.entries kind subject).filter fun e => e.index < n

/-- What is witnessed in a range. -/
def within (low high : Nat) : List RangeEntry := (record.entries kind subject).filter fun e => low ≤ e.index && e.index ≤ high

/-- The one answer to a whole range through `t`. -/
def whole (venueId : Bytes) (t : Nat) : RangeAnswer := ⟨⟨venueId, kind, subject, 0, t⟩, record.within kind subject 0 t⟩

theorem before_zero : record.before kind subject 0 = [] := List.filter_eq_nil_iff.mpr fun e _ => by simp

theorem before_within (t : Nat) : record.before kind subject (t + 1) = record.within kind subject 0 t := by
  refine List.filter_congr fun e _ => ?_
  simp only [Nat.zero_le, decide_true, Bool.true_and, Nat.lt_succ_iff]

variable {record kind subject}

theorem rising : (record.entries kind subject).Pairwise (·.index ≤ ·.index) :=
  (record.ordered kind subject).imp fun follows => by
    rcases follows with less | ⟨same, -⟩
    · exact less.le
    · exact same.le

/-- A list whose indices rise is cut at an index. -/
theorem filter_cut {l : List RangeEntry} (rising : l.Pairwise (·.index ≤ ·.index)) (low high : Nat) (le : low ≤ high + 1) :
    l.filter (fun e => e.index < high + 1) =
      l.filter (fun e => e.index < low) ++ l.filter fun e => low ≤ e.index && e.index ≤ high := by
  induction l with
  | nil => rfl
  | cons e rest ih =>
    obtain ⟨first, later⟩ := List.pairwise_cons.mp rising
    by_cases below : e.index < low
    · have notIn : ¬low ≤ e.index := Nat.not_le_of_lt below
      have inside : e.index < high + 1 := by omega
      simp only [List.filter_cons, below, notIn, inside, decide_true, decide_false, if_true, Bool.false_and, ih later, List.cons_append,
        Bool.false_eq_true, if_false]
    · have none_ : (e :: rest).filter (fun e => e.index < low) = [] := by
        refine List.filter_eq_nil_iff.mpr fun other member => ?_
        simp only [decide_eq_true_eq]
        rcases List.mem_cons.mp member with rfl | inside
        · exact below
        · have := first other inside
          omega
      have same : ((e :: rest).filter fun e => e.index < high + 1) = (e :: rest).filter fun e => low ≤ e.index && e.index ≤ high := by
        refine List.filter_congr fun other member => ?_
        have above : low ≤ other.index := by
          rcases List.mem_cons.mp member with rfl | inside
          · omega
          · have := first other inside
            omega
        simp only [above, decide_true, Bool.true_and, Nat.lt_succ_iff]
      rw [same, none_, List.nil_append]

theorem before_cut {low high : Nat} (le : low ≤ high + 1) :
    record.before kind subject (high + 1) = record.before kind subject low ++ record.within kind subject low high :=
  filter_cut rising low high le

theorem within_cut {low middle high : Nat} (first : low ≤ middle + 1) (second : middle ≤ high) :
    record.within kind subject low high = record.within kind subject low middle ++ record.within kind subject (middle + 1) high := by
  have whole := @before_cut record kind subject low high (by omega)
  have parts := @before_cut record kind subject (middle + 1) high (by omega)
  rw [before_cut first, List.append_assoc] at parts
  rw [parts] at whole
  exact (List.append_cancel_left whole).symm

theorem within_empty {low high : Nat} (empty : high < low) : record.within kind subject low high = [] :=
  List.filter_eq_nil_iff.mpr fun e _ => by simp only [Bool.and_eq_true, decide_eq_true_eq]; omega

theorem mem_within {low high : Nat} {e : RangeEntry} :
    e ∈ record.within kind subject low high ↔ e ∈ record.entries kind subject ∧ low ≤ e.index ∧ e.index ≤ high := by
  rw [within, List.mem_filter, Bool.and_eq_true, decide_eq_true_eq, decide_eq_true_eq]

end VenueRecord

/-- A venue whose answers to a reader's own requests are exactly what it has witnessed there. -/
def Venue.Honest {V : Type} (venue : Venue V) (record : VenueRecord) (venueId : Bytes) : Prop :=
  ∀ v request limits v' bytes answer, request.venue = venueId → venue.range v request limits = (v', .bytes bytes) →
    decodeRangeAnswer bytes request limits = .ok answer →
    answer.entries = record.within request.kind request.subject request.fromIndex request.toIndex

/-- Successive windows of one reading, each answered for its own range and taken in turn. -/
inductive WindowRun {σ : Type} (record : VenueRecord) (venueId : Bytes) (kind : RecordKind) (subject : Bytes) (t : Nat)
    (take : σ → RangeAnswer → σ × Except Failure Bool) : Nat → σ → List RangeRequest → σ → Prop
  | done {start : Nat} {s : σ} : t < start → WindowRun record venueId kind subject t take start s [] s
  | stop {start stop : Nat} {s s' : σ} : start ≤ stop → stop ≤ t →
      take s ⟨⟨venueId, kind, subject, start, stop⟩, record.within kind subject start stop⟩ = (s', .ok true) →
      WindowRun record venueId kind subject t take start s [⟨venueId, kind, subject, start, stop⟩] s'
  | next {start stop : Nat} {s s' s'' : σ} {windows : List RangeRequest} : start ≤ stop → stop ≤ t →
      take s ⟨⟨venueId, kind, subject, start, stop⟩, record.within kind subject start stop⟩ = (s', .ok false) →
      WindowRun record venueId kind subject t take (stop + 1) s' windows s'' →
      WindowRun record venueId kind subject t take start s (⟨venueId, kind, subject, start, stop⟩ :: windows) s''

theorem copyRequest_eq_ok {r r' : RangeRequest} (copied : copyRequest r = .ok r') : r' = r := by
  obtain ⟨_, -, same⟩ := bind_eq_ok.mp copied
  exact (Except.ok.inj same).symm

/-- A decoded answer is to the request it was asked for. -/
theorem decodeRangeAnswer_request {bytes : Bytes} {request : RangeRequest} {limits : RangeLimits} {answer : RangeAnswer}
    (decoded : decodeRangeAnswer bytes request limits = .ok answer) : answer.request = request := by
  obtain ⟨_, -, bounded⟩ := bind_eq_ok.mp decoded
  obtain ⟨_, -, budgeted⟩ := bind_eq_ok.mp bounded
  obtain ⟨expected, copied, framed⟩ := bind_eq_ok.mp budgeted
  obtain ⟨_, -, long⟩ := bind_eq_ok.mp framed
  obtain ⟨_, -, tagged⟩ := bind_eq_ok.mp long
  cases kind : recordKindOf (frameInt bytes 49 1) with
  | none =>
    rw [kind] at tagged
    cases tagged
  | some kind =>
    rw [kind] at tagged
    obtain ⟨_, -, carried⟩ := bind_eq_ok.mp tagged
    obtain ⟨_, -, counted⟩ := bind_eq_ok.mp carried
    obtain ⟨_, -, possible⟩ := bind_eq_ok.mp counted
    obtain ⟨entries, -, read⟩ := bind_eq_ok.mp possible
    rw [← Except.ok.inj read]
    exact copyRequest_eq_ok copied

section Asking

variable {V σ : Type} {venue : Venue V} {record : VenueRecord} {venueId : Bytes}

theorem takeReply_eq_ok {v v' : V} {request : RangeRequest} {limits : RangeLimits} {answer : RangeAnswer} {reply : VenueReply}
    (honest : venue.Honest record venueId) (own : request.venue = venueId) (asked : venue.range v request limits = (v', reply))
    (taken : takeReply request limits reply = .ok answer) :
    answer = ⟨request, record.within request.kind request.subject request.fromIndex request.toIndex⟩ := by
  cases reply with
  | bytes bytes =>
    have entries := honest v request limits v' bytes answer own asked taken
    have same := decodeRangeAnswer_request taken
    rw [← entries, ← same]
  | limited => cases taken
  | venueError => cases taken
  | throws failure => cases taken
  | absent => cases taken

theorem askIndex_eq_ok {v v' : V} {request : RangeRequest} {answer : RangeAnswer} (honest : venue.Honest record venueId)
    (own : request.venue = venueId) (asked : askIndex venue v request = (v', .ok answer)) :
    answer = ⟨request, record.within request.kind request.subject request.fromIndex request.toIndex⟩ := by
  rw [askIndex] at asked
  split at asked
  · cases asked
  · split at asked
    · cases asked
    · split at asked
      · obtain ⟨-, taken⟩ := Prod.mk.inj asked
        exact takeReply_eq_ok honest own rfl taken
      · cases asked

/-- A window that is answered is answered with what the venue has witnessed in it. -/
theorem askWindow_eq_ok {v v' : V} {request : RangeRequest} {answer : RangeAnswer} (honest : venue.Honest record venueId)
    (own : request.venue = venueId) (asked : askWindow venue v request = (v', .ok (some answer))) :
    answer = ⟨request, record.within request.kind request.subject request.fromIndex request.toIndex⟩ := by
  have found : ∀ {result : Except Failure RangeAnswer}, result.map some = .ok (some answer) → result = .ok answer := by
    intro result same
    cases result with
    | error failure => cases same
    | ok value => exact congrArg Except.ok (Option.some.inj (Except.ok.inj same))
  rw [askWindow] at asked
  simp only at asked
  split at asked
  · split at asked
    · cases asked
    · exact askIndex_eq_ok honest own (Prod.ext rfl (found (Prod.mk.inj asked).2))
  · exact takeReply_eq_ok honest own rfl (found (Prod.mk.inj asked).2)

/-- What a reading answers is a run of windows. -/
theorem readWindows_run (honest : venue.Honest record venueId) {kind : RecordKind} {subject : Bytes} {t : Nat}
    {take : σ → RangeAnswer → σ × Except Failure Bool} {state state' : WindowState V σ} {start span : Nat} {wide : 0 < span}
    (read : readWindows venue venueId kind subject t take state start span wide = (state', .ok ())) :
    ∃ windows, state'.answered = state.answered ++ windows ∧
      WindowRun record venueId kind subject t take start state.read windows state'.read := by
  fun_induction readWindows venue venueId kind subject t take state start span wide with
  | case1 => cases read
  | case2 state start span wide started stop v asked more ih => exact ih read
  | case3 =>
    obtain ⟨-, thrown⟩ := Prod.mk.inj read
    cases thrown
  | case4 state start span wide started stop v answer asked taken next last =>
    obtain ⟨rfl, -⟩ := Prod.mk.inj read
    obtain rfl := askWindow_eq_ok honest rfl asked
    have bound : stop = if t < start + span - 1 then t else start + span - 1 := rfl
    refine ⟨_, rfl, .stop ?_ ?_ (Prod.ext rfl last)⟩ <;> split at bound <;> omega
  | case5 state start span wide started stop v answer asked taken next more ih =>
    obtain rfl := askWindow_eq_ok honest rfl asked
    obtain ⟨windows, answered, run⟩ := ih read
    have bound : stop = if t < start + span - 1 then t else start + span - 1 := rfl
    refine ⟨_ :: windows, ?_, .next ?_ ?_ (Prod.ext rfl more) run⟩
    · rw [answered, List.append_assoc]
      rfl
    · split at bound <;> omega
    · split at bound <;> omega
  | case6 state start span wide ended =>
    obtain ⟨rfl, -⟩ := Prod.mk.inj read
    exact ⟨[], (List.append_nil _).symm, .done (Nat.lt_of_not_le ended)⟩

end Asking

section Steps

variable {V σ : Type} {venue : Venue V} {venueId : Bytes} {kind : RecordKind} {subject : Bytes} {t start stop span : Nat} {wide : 0 < span}
  {take : σ → RangeAnswer → σ × Except Failure Bool} {state : WindowState V σ} {v : V}

/-- A window over the budget is asked again, half as wide. -/
theorem readWindows_halves (started : start ≤ t) (ends : stop = if t < start + span - 1 then t else start + span - 1)
    (asked : askWindow venue state.venue ⟨venueId, kind, subject, start, stop⟩ = (v, .ok none)) :
    ∃ wide', readWindows venue venueId kind subject t take state start span wide =
      readWindows venue venueId kind subject t take { state with venue := v } start ((stop - start + 1) / 2) wide' := by
  have more : start < stop := askWindow_none venue asked
  refine ⟨by omega, ?_⟩
  subst ends
  conv_lhs => rw [readWindows]
  rw [dif_pos started]
  simp only
  split
  · rename_i again
    cases again.symm.trans asked
  · rename_i again
    obtain rfl := (Prod.mk.inj (again.symm.trans asked)).1
    rfl
  · rename_i again
    cases again.symm.trans asked

/-- An answer that needs no later window ends a reading. -/
theorem readWindows_stops {answer : RangeAnswer} {s : σ} (started : start ≤ t) (ends : stop = if t < start + span - 1 then t else start + span - 1)
    (asked : askWindow venue state.venue ⟨venueId, kind, subject, start, stop⟩ = (v, .ok (some answer)))
    (taken : take state.read answer = (s, .ok true)) :
    readWindows venue venueId kind subject t take state start span wide = (⟨v, state.answered ++ [answer.request], s⟩, .ok ()) := by
  subst ends
  rw [readWindows, dif_pos started]
  simp only
  split
  · rename_i again
    cases again.symm.trans asked
  · rename_i again
    cases again.symm.trans asked
  · rename_i again
    obtain ⟨rfl, same⟩ := Prod.mk.inj (again.symm.trans asked)
    obtain rfl := Option.some.inj (Except.ok.inj same)
    rw [taken]
end Steps

end Moe
