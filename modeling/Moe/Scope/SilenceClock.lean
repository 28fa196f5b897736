import Moe.Scope.ClockWalk

namespace Moe

/-- An index further past the latest valid checkpoint before it than the duration. -/
def RecordView.Gap (view : RecordView) (valid : HeldCommitment → Bool) (duration i : Nat) : Prop := view.latestIndex valid i + duration < i

/-- The least gap after an opening through an index, or none where there is none. -/
def FirstGap (view : RecordView) (valid : HeldCommitment → Bool) (duration opening through : Nat) : Option Nat → Prop
  | none => ∀ i, opening < i → i ≤ through → ¬view.Gap valid duration i
  | some boundary => (opening < boundary ∧ boundary ≤ through ∧ view.Gap valid duration boundary) ∧
      ∀ i, opening < i → i < boundary → ¬view.Gap valid duration i

section Gaps

variable {view : RecordView} {valid : HeldCommitment → Bool} {duration opening : Nat}

theorem RecordView.latestIndex_mono {i j : Nat} (le : i ≤ j) : view.latestIndex valid i ≤ view.latestIndex valid j := by
  obtain ⟨-, chosen⟩ := view.latestIndex_spec valid i
  obtain ⟨above, -⟩ := view.latestIndex_spec valid j
  rcases chosen with zero | ⟨h, point, judged, same, less⟩
  · omega
  · exact same ▸ above h point judged (by omega)

/-- With no point between, every index up to a breakpoint is after the same checkpoint. -/
theorem RecordView.latestIndex_const {low at_ i : Nat} (clear : ∀ p ∈ view.points, low < p.index → at_ ≤ p.index) (past : low < i)
    (upto : i ≤ at_) : view.latestIndex valid i = view.latestIndex valid at_ := by
  refine le_antisymm (RecordView.latestIndex_mono upto) ?_
  obtain ⟨above, -⟩ := view.latestIndex_spec valid i
  obtain ⟨-, chosen⟩ := view.latestIndex_spec valid at_
  rcases chosen with zero | ⟨h, point, judged, same, less⟩
  · omega
  · have within : h.index ≤ low := by
      by_contra beyond
      have := clear h point (by omega)
      omega
    exact same ▸ above h point judged (by omega)

/-- A read through the next breakpoint: the first gap is after the snapshot there, or there is none yet. -/
theorem FirstGap.step {upto at_ : Nat} (opened : opening ≤ upto) (none_ : FirstGap view valid duration opening upto none) (past : upto < at_)
    (clear : ∀ p ∈ view.points, upto < p.index → at_ ≤ p.index) :
    FirstGap view valid duration opening at_
      (if duration < at_ - view.latestIndex valid at_ then some (boundaryAfter opening duration (view.latestIndex valid at_)) else none) := by
  have earlier : ∀ i, opening < i → i ≤ at_ → i ≤ view.latestIndex valid at_ + duration → ¬view.Gap valid duration i := by
    intro i after within short gap
    rcases Nat.lt_or_ge upto i with new | old
    · have same := @RecordView.latestIndex_const _ valid _ _ _ clear new within
      simp only [RecordView.Gap] at gap
      omega
    · exact none_ i after old gap
  split
  · rename_i long
    have least : boundaryAfter opening duration (view.latestIndex valid at_) ≤ at_ ∧
        view.latestIndex valid at_ + duration < boundaryAfter opening duration (view.latestIndex valid at_) ∧
        opening < boundaryAfter opening duration (view.latestIndex valid at_) ∧
        ∀ i, opening < i → i < boundaryAfter opening duration (view.latestIndex valid at_) → i ≤ view.latestIndex valid at_ + duration := by
      simp only [boundaryAfter]
      split <;> refine ⟨by omega, by omega, by omega, fun i _ _ => by omega⟩
    obtain ⟨within, long, after, first⟩ := least
    refine ⟨⟨after, within, ?_⟩, fun i past less => earlier i past (by omega) (first i past less)⟩
    have mono := @RecordView.latestIndex_mono view valid _ _ within
    simp only [RecordView.Gap]
    omega
  · intro i after within
    exact earlier i after within (by omega)

/-- A found boundary stands through every later index. -/
theorem FirstGap.later {upto through boundary : Nat} (found : FirstGap view valid duration opening upto (some boundary)) (le : upto ≤ through) :
    FirstGap view valid duration opening through (some boundary) :=
  ⟨⟨found.1.1, found.1.2.1.trans le, found.1.2.2⟩, found.2⟩

end Gaps

/-- A running state that is right: read from the opening, its boundary the first gap up to it. -/
structure ClockState.Settled (view : RecordView) (valid : HeldCommitment → Bool) (duration opening : Nat) (state : ClockState) : Prop where
  opened : opening ≤ state.upto
  first : FirstGap view valid duration opening state.upto state.boundary

section Extension

variable {view later : RecordView} {valid : HeldCommitment → Bool}

theorem RecordView.Extends.link (extends_ : view.Extends later) {i : Nat} (inside : i < view.chain.length) : later.chain[i]? = view.chain[i]? := by
  obtain ⟨added, chain, -⟩ := extends_.chain
  rw [chain, List.getElem?_append_left inside]

theorem RecordView.Extends.termEnd (extends_ : view.Extends later) {i : Nat} (inside : i + 1 < view.chain.length) :
    later.termEnd i = view.termEnd i := by
  rw [RecordView.termEnd, RecordView.termEnd, extends_.link inside, List.getElem?_eq_getElem inside]

theorem RecordView.termEnd_last {i : Nat} (last : view.chain.length ≤ i + 1) : view.termEnd i = view.t := by
  rw [RecordView.termEnd, List.getElem?_eq_none last]

/-- Up to an earlier read's index a term's checkpoints stay. -/
theorem RecordView.Extends.candidates (extends_ : view.Extends later) {i : Nat} {h : HeldCommitment} :
    h ∈ view.candidates i ↔ h ∈ later.candidates i ∧ h.index ≤ view.t ∧ i < view.chain.length := by
  have ends : ∀ {i}, i < view.chain.length → h.index ≤ view.t → (h.index ≤ later.termEnd i ↔ h.index ≤ view.termEnd i) := by
    intro i inside within
    rcases Nat.lt_or_ge (i + 1) view.chain.length with more | last
    · rw [extends_.termEnd more]
    · refine ⟨fun _ => by rw [RecordView.termEnd_last last]; exact within, fun _ => ?_⟩
      obtain ⟨added, chain, past⟩ := extends_.chain
      rw [RecordView.termEnd]
      cases next : later.chain[i + 1]? with
      | none => exact within.trans extends_.t
      | some link =>
        have new : link ∈ added := by
          rw [chain, List.getElem?_append_right last] at next
          exact List.mem_of_getElem? next
        have := past link new
        simp only
        omega
  constructor
  · intro member
    obtain ⟨term, found, held, starts, within⟩ := RecordView.mem_candidates.mp member
    have inside := (List.getElem?_eq_some_iff.mp found).1
    have bound : h.index ≤ view.t := within.trans (RecordView.termEnd_le i)
    refine ⟨RecordView.mem_candidates.mpr ⟨term, (extends_.link inside).trans found, (extends_.held _ h bound).mpr held, starts, ?_⟩, bound, inside⟩
    exact (ends inside bound).mpr within
  · rintro ⟨member, bound, inside⟩
    obtain ⟨term, found, held, starts, within⟩ := RecordView.mem_candidates.mp member
    exact RecordView.mem_candidates.mpr ⟨term, (extends_.link inside).symm.trans found, (extends_.held _ h bound).mp held, starts,
      (ends inside bound).mp within⟩

theorem RecordView.Extends.points (extends_ : view.Extends later) {h : HeldCommitment} :
    h ∈ view.points ↔ h ∈ later.points ∧ h.index ≤ view.t := by
  rw [RecordView.mem_points, RecordView.mem_points]
  constructor
  · rintro ⟨i, member⟩
    obtain ⟨there, bound, -⟩ := extends_.candidates.mp member
    exact ⟨⟨i, there⟩, bound⟩
  · rintro ⟨⟨i, member⟩, bound⟩
    refine ⟨i, extends_.candidates.mpr ⟨member, bound, ?_⟩⟩
    by_contra past
    obtain ⟨term, found, -, starts, -⟩ := RecordView.mem_candidates.mp member
    obtain ⟨added, chain, after⟩ := extends_.chain
    rw [chain, List.getElem?_append_right (Nat.le_of_not_lt past)] at found
    have := after term (List.mem_of_getElem? found)
    omega

theorem RecordView.Extends.latestIndex (extends_ : view.Extends later) {i : Nat} (within : i ≤ view.t + 1) :
    later.latestIndex valid i = view.latestIndex valid i := by
  obtain ⟨above, chosen⟩ := view.latestIndex_spec valid i
  obtain ⟨above', chosen'⟩ := later.latestIndex_spec valid i
  refine le_antisymm ?_ ?_
  · rcases chosen' with zero | ⟨h, point, judged, same, less⟩
    · omega
    · exact same ▸ above h (extends_.points.mpr ⟨point, by omega⟩) judged less
  · rcases chosen with zero | ⟨h, point, judged, same, less⟩
    · omega
    · exact same ▸ above' h (extends_.points.mp point).1 judged less

theorem FirstGap.extends (extends_ : view.Extends later) {duration opening upto : Nat} (within : upto ≤ view.t) {boundary : Option Nat}
    (first : FirstGap view valid duration opening upto boundary) : FirstGap later valid duration opening upto boundary := by
  have gaps : ∀ i ≤ upto, (later.Gap valid duration i ↔ view.Gap valid duration i) := by
    intro i le
    rw [RecordView.Gap, RecordView.Gap, extends_.latestIndex (by omega)]
  cases boundary with
  | none => exact fun i after le gap => first i after le ((gaps i le).mp gap)
  | some boundary =>
    obtain ⟨⟨after, le, gap⟩, earlier⟩ := first
    exact ⟨⟨after, le, (gaps boundary le).mpr gap⟩, fun i past less gap => earlier i past less ((gaps i (by omega)).mp gap)⟩

/-- A cursor resumed on a later record has passed what it had. -/
theorem Cursor.passed_extends (extends_ : view.Extends later) {cursor : Cursor} (well : Well view cursor)
    (term : cursor.term < view.chain.length ∨ cursor.term = 0) (h : HeldCommitment) : Passed later cursor h ↔ Passed view cursor h := by
  constructor
  · rintro ⟨i, candidate, less | ⟨rfl, a, after, le⟩⟩
    · have inside : i + 1 < view.chain.length := by omega
      have bound : h.index ≤ view.t := by
        obtain ⟨_, -, -, -, within⟩ := RecordView.mem_candidates.mp candidate
        rw [extends_.termEnd inside] at within
        exact within.trans (RecordView.termEnd_le i)
      exact ⟨i, extends_.candidates.mpr ⟨candidate, bound, by omega⟩, .inl less⟩
    · obtain ⟨g, member, rfl⟩ := well a after
      obtain ⟨there, bound, inside⟩ := extends_.candidates.mp member
      refine ⟨_, extends_.candidates.mpr ⟨candidate, le_trans ?_ bound, inside⟩, .inr ⟨rfl, _, after, le⟩⟩
      rcases Nat.lt_or_eq_of_le le with less | same
      · exact RecordView.candidates_le candidate there less
      · exact (congrArg HeldCommitment.index (RecordView.candidates_inj candidate there same)).le
  · rintro ⟨i, candidate, place⟩
    exact ⟨i, (extends_.candidates.mp candidate).1, place⟩

theorem Cursor.well_extends (extends_ : view.Extends later) {cursor : Cursor} (well : Well view cursor) : Well later cursor := by
  intro a after
  obtain ⟨g, member, same⟩ := well a after
  exact ⟨g, (extends_.candidates.mp member).1, same⟩

end Extension

variable {durations : Bytes → Option Nat} {valid : Bytes → HeldCommitment → Bool}

/-- What a walk keeps is right: each cursor's valid rows are those it passed, and each clock's state is settled. -/
structure Walk.Sound (durations : Bytes → Option Nat) (valid : Bytes → HeldCommitment → Bool) (w : Walk) : Prop where
  well : ∀ b, Cursor.Well (w.views b) (w.cursors b)
  term : ∀ b, (w.cursors b).term < (w.views b).chain.length ∨ (w.cursors b).term = 0
  rows : ∀ b, Cursor.Rows (w.views b) (valid b) (w.cursors b) (w.valid b)
  running : ∀ entry ∈ w.running, ∀ duration, durations entry.1.1 = some duration →
    entry.2.Settled (w.views entry.1.1) (valid entry.1.1) duration entry.1.2
  clocks : ∀ b opening state, w.clocks b opening = some state → ∀ duration, durations b = some duration →
    state.Settled (w.views b) (valid b) duration opening ∧ state.upto ≤ (w.views b).t

/-- A clock read in progress is right: its state is settled, and it waits at the next breakpoint or past the last. -/
structure ClockCall.Fine (durations : Bytes → Option Nat) (valid : Bytes → HeldCommitment → Bool) (views : Bytes → RecordView)
    (call : ClockCall) : Prop where
  duration : durations call.backing = some call.duration
  settled : call.state.Settled (views call.backing) (valid call.backing) call.duration call.opening
  found : call.state.boundary ≠ none → call.state.upto ≤ call.through
  point : ∀ at_, call.stage = .point at_ → call.state.boundary = none ∧
    (views call.backing).firstPoint (call.state.upto + 1) call.through = some at_
  last : call.stage = .last → call.state.boundary = none → (views call.backing).firstPoint (call.state.upto + 1) call.through = none

structure Reading.Sound (durations : Bytes → Option Nat) (valid : Bytes → HeldCommitment → Bool) (r : Reading) : Prop where
  walk : r.walk.Sound durations valid
  fine : ∀ call ∈ r.calls, ∀ clock, call.task = .clock clock → clock.Fine durations valid r.walk.views
  judging : ∀ call ∈ r.calls, ∀ h, call.judging = some h →
    (r.walk.cursors call.backing).busy = true ∧ (r.walk.cursors call.backing).next (r.walk.views call.backing) = some h
  apart : r.calls.Pairwise fun a b => a.judging ≠ none → b.judging ≠ none → a.backing ≠ b.backing

/-- A state ready to be saved: settled, and where it moved, at a point of the record. -/
structure ClockCall.Ready (durations : Bytes → Option Nat) (valid : Bytes → HeldCommitment → Bool) (views : Bytes → RecordView)
    (call : ClockCall) : Prop where
  duration : durations call.backing = some call.duration
  settled : call.state.Settled (views call.backing) (valid call.backing) call.duration call.opening
  found : call.state.boundary ≠ none → call.state.upto ≤ call.through
  moved : call.state ≠ call.began → call.state.upto ≤ (views call.backing).t

theorem ClockCall.kept_settled {call : ClockCall} {view : RecordView} {valid : HeldCommitment → Bool}
    (settled : call.state.Settled view valid call.duration call.opening) : call.kept.Settled view valid call.duration call.opening := by
  rw [kept]
  split
  · rename_i extended
    refine ⟨settled.opened.trans extended.2.le, ?_⟩
    obtain ⟨boundary, found⟩ := Option.ne_none_iff_exists'.mp extended.1
    have first := settled.first
    rw [found] at first ⊢
    exact first.later extended.2.le
  · exact settled

theorem ClockCall.save_sound {call : ClockCall} {w : Walk} (sound : w.Sound durations valid) (ready : call.Ready durations valid w.views) :
    (call.save w).Sound durations valid := by
  have own : ∀ duration, durations call.backing = some duration → duration = call.duration := fun duration same =>
    Option.some.inj (same.symm.trans ready.duration)
  refine ⟨sound.well, sound.term, sound.rows, ?_, ?_⟩
  · intro entry member duration fixed
    have kept : ∀ entry ∈ OrderedMap.set (OrderedMap.erase w.running (call.backing, call.opening)) (call.backing, call.opening) call.kept,
        ∀ duration, durations entry.1.1 = some duration → entry.2.Settled (w.views entry.1.1) (valid entry.1.1) duration entry.1.2 := by
      intro entry member duration fixed
      rcases OrderedMap.mem_of_mem_set member with rfl | old
      · rw [own duration fixed]
        exact ClockCall.kept_settled ready.settled
      · exact sound.running entry (List.mem_of_mem_filter old) duration fixed
    simp only [save] at member
    split at member
    · split at member
      · exact kept entry (List.mem_of_mem_tail member) duration fixed
      · exact kept entry member duration fixed
    · exact sound.running entry member duration fixed
  · intro b opening state held duration fixed
    simp only [save] at held
    split at held
    · rename_i writes
      by_cases sameBacking : b = call.backing
      · subst sameBacking
        rw [Function.update_self] at held
        by_cases sameOpening : opening = call.opening
        · subst sameOpening
          rw [Function.update_self] at held
          obtain rfl := Option.some.inj held
          rw [own duration fixed]
          exact ⟨ready.settled, ready.moved writes.1⟩
        · rw [Function.update_of_ne sameOpening] at held
          exact sound.clocks _ _ _ held duration fixed
      · rw [Function.update_of_ne sameBacking] at held
        exact sound.clocks _ _ _ held duration fixed
    · exact sound.clocks _ _ _ held duration fixed

/-- A read that goes on from a settled state keeps the walk and itself right. -/
theorem ClockCall.goOn_sound {call : ClockCall} {w : Walk} {at_ : Option Nat} (sound : w.Sound durations valid)
    (ready : call.Ready durations valid w.views) (next : (w.views call.backing).firstPoint (call.state.upto + 1) call.through = at_) :
    (call.goOn w at_).1.Sound durations valid ∧ (call.goOn w at_).2.Fine durations valid w.views := by
  have saved : (call.save w).Sound durations valid ∧
      ({ call with state := call.kept, stage := .last } : ClockCall).Fine durations valid w.views ∨ call.state.boundary = none ∧ at_ ≠ none := by
    by_cases waits : call.state.boundary = none ∧ at_ ≠ none
    · exact .inr waits
    · refine .inl ⟨ClockCall.save_sound sound ready, ready.duration, ClockCall.kept_settled ready.settled, ?_, fun _ same => ?_, ?_⟩
      · intro found
        simp only [kept] at found ⊢
        split at found
        · rename_i extended
          rw [if_pos extended]
        · rename_i stays
          rw [if_neg stays]
          exact ready.found found
      · cases same
      · intro _ none_
        have unfound : call.state.boundary = none := by
          simp only [kept] at none_
          split at none_ <;> exact none_
        have same : call.kept = call.state := if_neg fun extended => extended.1 unfound
        have past : at_ = none := by
          by_contra some_
          exact waits ⟨unfound, some_⟩
        simp only [same]
        rw [next, past]
  unfold goOn
  split
  · rename_i place unfound
    refine ⟨sound, ready.duration, ready.settled, ready.found, fun at_ same => ?_, fun same => ?_⟩
    · obtain rfl := Stage.point.inj same
      exact ⟨unfound, next⟩
    · cases same
  · rename_i ends
    rcases saved with done | ⟨unfound, some_⟩
    · exact done
    · obtain ⟨place, rfl⟩ := Option.ne_none_iff_exists'.mp some_
      exact absurd unfound (ends place rfl)

theorem ClockCall.goOn_frame (call : ClockCall) (w : Walk) (at_ : Option Nat) : (call.goOn w at_).1.views = w.views ∧
    (call.goOn w at_).1.cursors = w.cursors ∧ (call.goOn w at_).1.valid = w.valid ∧ (call.goOn w at_).2.backing = call.backing := by
  unfold goOn
  split <;> exact ⟨rfl, rfl, rfl, rfl⟩

theorem ClockState.fresh_settled (view : RecordView) (judge : HeldCommitment → Bool) (duration opening : Nat) :
    ClockState.Settled view judge duration opening ⟨opening, none⟩ :=
  ⟨le_rfl, fun _ after le => absurd after (Nat.not_lt.mpr le)⟩

theorem ClockCall.row_settled {w : Walk} (sound : w.Sound durations valid) {backing : Bytes} {duration opening : Nat}
    (silent : durations backing = some duration) {state : ClockState} (held : row w backing opening = some state) :
    state.Settled (w.views backing) (valid backing) duration opening := by
  rw [row] at held
  split at held
  · cases held
  · exact (sound.clocks backing opening state held duration silent).1

theorem ClockCall.recalled_frame (w : Walk) (backing : Bytes) (opening : Nat) : (recalled w backing opening).views = w.views ∧
    (recalled w backing opening).cursors = w.cursors ∧ (recalled w backing opening).valid = w.valid := by
  rw [recalled]
  split <;> exact ⟨rfl, rfl, rfl⟩

theorem ClockCall.recalled_sound {w : Walk} (sound : w.Sound durations valid) {backing : Bytes} {duration : Nat} (opening : Nat)
    (silent : durations backing = some duration) : (recalled w backing opening).Sound durations valid := by
  rw [recalled]
  split
  · rename_i state held
    refine ⟨sound.well, sound.term, sound.rows, fun entry member other fixed => ?_, sound.clocks⟩
    rcases OrderedMap.mem_of_mem_set member with rfl | old
    · obtain rfl := Option.some.inj (fixed.symm.trans silent)
      exact row_settled sound silent held
    · exact sound.running entry old other fixed
  · exact sound

theorem ClockCall.startState_settled {w : Walk} (sound : w.Sound durations valid) {backing : Bytes} {duration : Nat} (opening through : Nat)
    (silent : durations backing = some duration) :
    (startState w backing opening through).Settled (w.views backing) (valid backing) duration opening ∧
      ((startState w backing opening through).boundary ≠ none → (startState w backing opening through).upto ≤ through) := by
  have fresh : ClockState.Settled (w.views backing) (valid backing) duration opening ⟨opening, none⟩ := ClockState.fresh_settled ..
  rw [startState]
  split
  · rename_i kept held
    split
    · rename_i below
      refine ⟨?_, fun _ => below⟩
      rcases Option.or_eq_some_iff.mp held with running | ⟨-, stored⟩
      · exact sound.running _ (OrderedMap.mem_of_get? running) duration silent
      · exact row_settled sound silent stored
    · exact ⟨fresh, fun found => absurd rfl found⟩
  · exact ⟨fresh, fun found => absurd rfl found⟩

/-- A read starts from a settled state. -/
theorem ClockCall.begin_sound {w : Walk} (sound : w.Sound durations valid) {backing : Bytes} {duration : Nat} (opening through : Nat)
    (silent : durations backing = some duration) : (begin_ w backing duration opening through).1.Sound durations valid ∧
      (begin_ w backing duration opening through).2.Fine durations valid w.views := by
  obtain ⟨views, -, -⟩ := recalled_frame w backing opening
  obtain ⟨settled, below⟩ := startState_settled sound opening through silent
  rw [← views]
  rw [← views] at settled
  refine ClockCall.goOn_sound (recalled_sound sound opening silent) ⟨silent, settled, below, fun differs => absurd rfl differs⟩ ?_
  rw [views]

theorem ClockCall.begin_frame (w : Walk) (backing : Bytes) (duration opening through : Nat) :
    (begin_ w backing duration opening through).1.views = w.views ∧ (begin_ w backing duration opening through).1.cursors = w.cursors ∧
      (begin_ w backing duration opening through).1.valid = w.valid ∧ (begin_ w backing duration opening through).2.backing = backing := by
  obtain ⟨views, cursors, rows⟩ := recalled_frame w backing opening
  obtain ⟨views', cursors', rows', same⟩ := goOn_frame ⟨backing, duration, opening, through, startState w backing opening through,
    startState w backing opening through, .last⟩ (recalled w backing opening)
    ((w.views backing).firstPoint ((startState w backing opening through).upto + 1) through)
  exact ⟨views'.trans views, cursors'.trans cursors, rows'.trans rows, same⟩

theorem ClockCall.begin_index (w : Walk) (backing : Bytes) (duration opening through : Nat) :
    (begin_ w backing duration opening through).2.duration = duration ∧ (begin_ w backing duration opening through).2.opening = opening ∧
      (begin_ w backing duration opening through).2.through = through := by
  simp only [begin_, goOn]
  split <;> exact ⟨rfl, rfl, rfl⟩

/-- Where an advance is done, the latest snapshot read is the record's. -/
theorem Walk.Sound.snapshot {w : Walk} (sound : w.Sound durations valid) {b : Bytes} {i : Nat}
    (done : (w.cursors b).turn (w.views b) (.strict i) = .done) : latestIndexIn (w.valid b) i = (w.views b).latestIndex (valid b) i :=
  (sound.rows b).latestIndex (Cursor.turn_done (sound.well b) done)

theorem RecordView.point_le {view : RecordView} {h : HeldCommitment} (member : h ∈ view.points) : h.index ≤ view.t := by
  obtain ⟨i, candidate⟩ := RecordView.mem_points.mp member
  obtain ⟨_, -, -, -, within⟩ := RecordView.mem_candidates.mp candidate
  exact within.trans (RecordView.termEnd_le i)

/-- Past a breakpoint the state is ready again. -/
theorem ClockCall.Fine.passed {w : Walk} {call : ClockCall} (fine : call.Fine durations valid w.views) {at_ : Nat} (stage : call.stage = .point at_) :
    ({ call with state := call.passed at_ ((w.views call.backing).latestIndex (valid call.backing) at_) } : ClockCall).Ready durations valid w.views := by
  obtain ⟨unfound, next⟩ := fine.point at_ stage
  obtain ⟨⟨h, point, same⟩, lower, upper, least⟩ := RecordView.firstPoint_eq_some next
  have settled := fine.settled
  have first := settled.first
  rw [unfound] at first
  have stepped := first.step settled.opened (Nat.lt_of_succ_le lower) fun p member past => least p member past
  refine ⟨fine.duration, ⟨settled.opened.trans (by simp only [ClockCall.passed]; omega), ?_⟩, fun _ => upper, fun _ => ?_⟩
  · simp only [ClockCall.passed, unfound]
    exact stepped
  · simp only [ClockCall.passed]
    exact same ▸ RecordView.point_le point

/-- What a clock read answers: the first gap, the latest snapshot, and whether the index read through is in a gap. -/
structure ScopeClock.Right (view : RecordView) (valid : HeldCommitment → Bool) (duration opening through : Nat) (clock : ScopeClock) : Prop where
  boundary : FirstGap view valid duration opening through clock.boundary
  open_ : clock.open_ = true ↔ view.Gap valid duration through
  snapshot : clock.snapshotIndex = view.latestIndex valid through

theorem ClockCall.Fine.answer {w : Walk} {call : ClockCall} (fine : call.Fine durations valid w.views) (stage : call.stage = .last) :
    (call.answer ((w.views call.backing).latestIndex (valid call.backing) call.through)).Right (w.views call.backing) (valid call.backing)
      call.duration call.opening call.through := by
  refine ⟨?_, ?_, rfl⟩
  · have first := fine.settled.first
    have opened := fine.settled.opened
    simp only [ClockCall.answer]
    cases found : call.state.boundary with
    | some boundary =>
      rw [found] at first
      rw [if_neg (by simp)]
      exact first.later (fine.found (by simp [found]))
    | none =>
      rw [found] at first
      have clear := RecordView.firstPoint_eq_none (fine.last stage found)
      rcases Nat.lt_or_ge call.state.upto call.through with before | past
      · have stepped := first.step opened before fun p member after => (clear p member after).le
        simp only [true_and, show call.opening < call.through by omega]
        exact stepped
      · have quiet : ∀ i, call.opening < i → i ≤ call.through → ¬(w.views call.backing).Gap (valid call.backing) call.duration i :=
          fun i after le => first i after (le.trans past)
        rw [if_neg]
        · exact quiet
        · rintro ⟨-, after, long⟩
          refine quiet call.through after le_rfl ?_
          simp only [RecordView.Gap]
          omega
  · simp only [ClockCall.answer, RecordView.Gap, decide_eq_true_eq]
    omega

/-- What one turn of a read leaves: a walk that is right, of the same record, and the read on its way. -/
structure Call.Turned (durations : Bytes → Option Nat) (valid : Bytes → HeldCommitment → Bool) (w later : Walk) (call next : Call) : Prop where
  walk : later.Sound durations valid
  views : later.views = w.views
  backing : next.backing = call.backing
  fine : ∀ clock, next.task = .clock clock → clock.Fine durations valid w.views
  others : ∀ b, b ≠ call.backing → later.cursors b = w.cursors b
  judging : ∀ h, next.judging = some h → call.judging = none ∧ (w.cursors call.backing).busy = false ∧
    (later.cursors call.backing).busy = true ∧ (later.cursors call.backing).next (w.views call.backing) = some h
  own : call.judging = none → next.judging = none → (later.cursors call.backing).busy = (w.cursors call.backing).busy ∧
    ∀ h, (w.cursors call.backing).next (w.views call.backing) = some h → later.cursors call.backing = w.cursors call.backing

theorem Call.judged {w later : Walk} {call next : Call} {h : HeldCommitment} (sound : w.Sound durations valid)
    (fine : ∀ clock, call.task = .clock clock → clock.Fine durations valid w.views) (judging : call.judging = some h)
    (found : (w.cursors call.backing).next (w.views call.backing) = some h) (run : call.step valid w = .runs later next) :
    call.Turned durations valid w later next := by
  simp only [Call.step, judging, Outcome.runs.injEq] at run
  obtain ⟨rfl, rfl⟩ := run
  have own := sound.well call.backing
  refine ⟨⟨?_, ?_, ?_, sound.running, sound.clocks⟩, rfl, rfl, fine, ?_, ?_, ?_⟩
  · intro b
    by_cases same : b = call.backing
    · subst same
      simp only [Function.update_self]
      exact Cursor.past_well own found
    · simp only [Function.update_of_ne same]
      exact sound.well b
  · intro b
    by_cases same : b = call.backing
    · subst same
      simp only [Function.update_self]
      exact sound.term _
    · simp only [Function.update_of_ne same]
      exact sound.term b
  · intro b
    by_cases same : b = call.backing
    · subst same
      simp only [Function.update_self]
      exact (sound.rows _).past own found
    · simp only [Function.update_of_ne same]
      exact sound.rows b
  · intro b other
    exact Function.update_of_ne other _ _
  · intro h' none_
    cases none_
  · intro none_
    rw [judging] at none_
    cases none_

/-- A cursor of a backing put in the walk, its rows as they were. -/
theorem Walk.Sound.moved {w : Walk} (sound : w.Sound durations valid) {b : Bytes} {cursor : Cursor} (well : Cursor.Well (w.views b) cursor)
    (term : cursor.term < (w.views b).chain.length ∨ cursor.term = 0)
    (passed : ∀ h, Cursor.Passed (w.views b) cursor h ↔ Cursor.Passed (w.views b) (w.cursors b) h) :
    ({ w with cursors := Function.update w.cursors b cursor } : Walk).Sound durations valid := by
  refine ⟨?_, ?_, ?_, sound.running, sound.clocks⟩
  · intro other
    by_cases same : other = b
    · subst same
      simpa only [Function.update_self] using well
    · simpa only [Function.update_of_ne same] using sound.well other
  · intro other
    by_cases same : other = b
    · subst same
      simpa only [Function.update_self] using term
    · simpa only [Function.update_of_ne same] using sound.term other
  · intro other
    by_cases same : other = b
    · subst same
      simp only [Function.update_self]
      intro i
      rw [sound.rows other i]
      simp only [passed]
    · simpa only [Function.update_of_ne same] using sound.rows other

theorem Call.resumed {w later : Walk} {call next : Call} (sound : w.Sound durations valid)
    (fine : ∀ clock, call.task = .clock clock → clock.Fine durations valid w.views) (idle : call.judging = none)
    (done : (w.cursors call.backing).turn (w.views call.backing) call.bound = .done) (run : call.resume w = .runs later next) :
    call.Turned durations valid w later next := by
  obtain ⟨task, judging⟩ := call
  cases task with
  | latest b bound =>
    simp only [Call.resume] at run
    cases run
  | clock clock =>
    have right := fine clock rfl
    simp only [Call.resume] at run
    split at run
    · rename_i at_ stage
      have done : (w.cursors clock.backing).turn (w.views clock.backing) (.strict at_) = .done := by
        simpa only [Call.backing, Call.bound, ClockCall.index, stage] using done
      have snapshot : latestIndexIn (w.valid clock.backing) clock.index = (w.views clock.backing).latestIndex (valid clock.backing) at_ := by
        rw [ClockCall.index, stage]
        exact sound.snapshot done
      rw [snapshot] at run
      simp only [Outcome.runs.injEq] at run
      obtain ⟨rfl, rfl⟩ := run
      obtain ⟨walk, fine'⟩ := ClockCall.goOn_sound sound (right.passed stage) rfl
      obtain ⟨views, cursors, -, backing⟩ := ClockCall.goOn_frame { clock with
        state := clock.passed at_ ((w.views clock.backing).latestIndex (valid clock.backing) at_) } w
        ((w.views clock.backing).firstPoint (at_ + 1) clock.through)
      refine ⟨walk, views, backing, ?_, ?_, ?_, ?_⟩
      · intro clock' same
        obtain rfl := Task.clock.inj same
        exact fine'
      · intro b _
        exact congrFun cursors b
      · intro h none_
        cases none_
      · intro _ _
        exact ⟨congrArg Cursor.busy (congrFun cursors _), fun _ _ => congrFun cursors _⟩
    · cases run

/-- Every turn of a read that goes on keeps the walk right. -/
theorem Call.turned {w later : Walk} {call next : Call} (sound : w.Sound durations valid)
    (fine : ∀ clock, call.task = .clock clock → clock.Fine durations valid w.views)
    (judging : ∀ h, call.judging = some h → (w.cursors call.backing).next (w.views call.backing) = some h)
    (run : call.step valid w = .runs later next) : call.Turned durations valid w later next := by
  cases idle : call.judging with
  | some h => exact Call.judged sound fine idle (judging h idle) run
  | none =>
    have well := sound.well call.backing
    simp only [Call.step, idle] at run
    split at run
    · rename_i done
      exact Call.resumed sound fine idle done run
    · rename_i moved turn
      simp only [Outcome.runs.injEq] at run
      obtain ⟨rfl, rfl⟩ := run
      obtain ⟨none_, more, rfl⟩ := Cursor.turn_moved turn
      refine ⟨sound.moved (fun a absent => ?_) (.inl more) (fun h => Cursor.passed_moved well none_ h), rfl, rfl, fine, ?_, ?_, ?_⟩
      · cases absent
      · intro b other
        exact Function.update_of_ne other _ _
      · intro h same
        rw [idle] at same
        cases same
      · intro _ _
        simp only [Function.update_self, true_and]
        intro h found
        rw [none_] at found
        cases found
    · rename_i h turn
      simp only [Outcome.runs.injEq] at run
      obtain ⟨rfl, rfl⟩ := run
      obtain ⟨found, free⟩ := Cursor.turn_judge turn
      refine ⟨sound.moved well (sound.term _) (fun _ => Iff.rfl), rfl, rfl, fine, ?_, ?_, ?_⟩
      · intro b other
        exact Function.update_of_ne other _ _
      · intro h' same
        obtain rfl := Option.some.inj same
        refine ⟨idle, free, ?_, ?_⟩
        · simp only [Function.update_self]
        · simp only [Function.update_self]
          exact found
      · intro _ none_
        cases none_
    · cases run

theorem Call.step_returns {w later : Walk} {call : Call} {clock : Option ScopeClock} (run : call.step valid w = .returns later clock) :
    later = w ∧ call.judging = none ∧ (w.cursors call.backing).turn (w.views call.backing) call.bound = .done ∧
      call.resume w = .returns later clock := by
  cases idle : call.judging with
  | some h => simp [Call.step, idle] at run
  | none =>
    simp only [Call.step, idle] at run
    split at run
    · rename_i done
      refine ⟨?_, rfl, done, run⟩
      obtain ⟨task, judging⟩ := call
      cases task with
      | latest b bound =>
        simp only [Call.resume, Outcome.returns.injEq] at run
        exact run.1.symm
      | clock clock =>
        simp only [Call.resume] at run
        split at run
        · cases run
        · simp only [Outcome.returns.injEq] at run
          exact run.1.symm
    · cases run
    · cases run
    · cases run

/-- A read's turn keeps every other read right. -/
theorem Reading.Sound.turned {w later : Walk} {before after : List Call} {call next : Call}
    (sound : Reading.Sound durations valid ⟨w, before ++ call :: after⟩) (turned : call.Turned durations valid w later next) :
    Reading.Sound durations valid ⟨later, before ++ next :: after⟩ := by
  have member : ∀ other, other ∈ before ∨ other ∈ after → other ∈ before ++ call :: after := by
    intro other place
    rcases place with inside | inside
    · exact List.mem_append_left _ inside
    · exact List.mem_append_right _ (List.mem_cons_of_mem _ inside)
  have own : call ∈ before ++ call :: after := List.mem_append_right _ List.mem_cons_self
  obtain ⟨apartBefore, apartAfter, apartAcross⟩ := List.pairwise_append.mp sound.apart
  have apart : ∀ other, other ∈ before ∨ other ∈ after → other.judging ≠ none → call.judging ≠ none → other.backing ≠ call.backing := by
    intro other place waits judging
    rcases place with inside | inside
    · exact apartAcross other inside call List.mem_cons_self waits judging
    · exact ((List.pairwise_cons.mp apartAfter).1 other inside judging waits).symm
  have stays : ∀ other, other ∈ before ∨ other ∈ after → ∀ h, other.judging = some h →
      (later.cursors other.backing).busy = true ∧ (later.cursors other.backing).next (later.views other.backing) = some h := by
    intro other place h waits
    obtain ⟨busy, found⟩ := sound.judging other (member other place) h waits
    rw [turned.views]
    by_cases same : other.backing = call.backing
    · cases judging : call.judging with
      | some held => exact absurd same (apart other place (by simp [waits]) (by simp [judging]))
      | none =>
        cases judging' : next.judging with
        | some held =>
          have free := (turned.judging held judging').2.1
          rw [← same, busy] at free
          cases free
        | none =>
          obtain ⟨-, keeps⟩ := turned.own judging judging'
          have kept := keeps h (same ▸ found)
          rw [same, kept, ← same]
          exact ⟨busy, found⟩
    · rw [turned.others _ same]
      exact ⟨busy, found⟩
  refine ⟨turned.walk, ?_, ?_, ?_⟩
  · intro other inside clock task
    rw [turned.views]
    rcases List.mem_append.mp inside with first | rest
    · exact sound.fine other (member other (.inl first)) clock task
    · rcases List.mem_cons.mp rest with rfl | last
      · exact turned.fine clock task
      · exact sound.fine other (member other (.inr last)) clock task
  · intro other inside h waits
    rcases List.mem_append.mp inside with first | rest
    · exact stays other (.inl first) h waits
    · rcases List.mem_cons.mp rest with rfl | last
      · obtain ⟨-, -, busy, found⟩ := turned.judging h waits
        rw [turned.backing, turned.views]
        exact ⟨busy, found⟩
      · exact stays other (.inr last) h waits
  · have across : ∀ other, other ∈ before ∨ other ∈ after → other.judging ≠ none → next.judging ≠ none → other.backing ≠ next.backing := by
      intro other place waits judging same
      obtain ⟨h, held⟩ := Option.ne_none_iff_exists'.mp judging
      obtain ⟨g, holds⟩ := Option.ne_none_iff_exists'.mp waits
      obtain ⟨-, free, -⟩ := turned.judging h held
      have busy := (sound.judging other (member other place) g holds).1
      rw [same, turned.backing, free] at busy
      cases busy
    refine List.pairwise_append.mpr ⟨apartBefore, List.pairwise_cons.mpr ⟨?_, (List.pairwise_cons.mp apartAfter).2⟩, ?_⟩
    · exact fun other inside judging waits same => across other (.inr inside) waits judging same.symm
    · intro first inside second place
      rcases List.mem_cons.mp place with rfl | last
      · exact fun waits judging => across first (.inl inside) waits judging
      · exact apartAcross first inside second (List.mem_cons_of_mem _ last)

/-- Reads that end leave the others right. -/
theorem Reading.Sound.ended {w : Walk} {before after : List Call} {call : Call}
    (sound : Reading.Sound durations valid ⟨w, before ++ call :: after⟩) : Reading.Sound durations valid ⟨w, before ++ after⟩ := by
  have sub : (before ++ after).Sublist (before ++ call :: after) := (List.sublist_cons_self call after).append_left before
  exact ⟨sound.walk, fun other inside => sound.fine other (sub.subset inside), fun other inside => sound.judging other (sub.subset inside),
    sound.apart.sublist sub⟩

theorem Reading.Sound.started {w later : Walk} {calls : List Call} {call : Call} (sound : Reading.Sound durations valid ⟨w, calls⟩)
    (walk : later.Sound durations valid) (views : later.views = w.views) (cursors : later.cursors = w.cursors) (idle : call.judging = none)
    (fine : ∀ clock, call.task = .clock clock → clock.Fine durations valid w.views) :
    Reading.Sound durations valid ⟨later, calls ++ [call]⟩ := by
  refine ⟨walk, ?_, ?_, ?_⟩
  · intro other inside clock task
    rw [views]
    rcases List.mem_append.mp inside with old | new
    · exact sound.fine other old clock task
    · obtain rfl := List.mem_singleton.mp new
      exact fine clock task
  · intro other inside h waits
    rw [views, cursors]
    rcases List.mem_append.mp inside with old | new
    · exact sound.judging other old h waits
    · obtain rfl := List.mem_singleton.mp new
      rw [idle] at waits
      cases waits
  · refine List.pairwise_append.mpr ⟨sound.apart, List.pairwise_singleton _ _, fun first _ second place _ judging => ?_⟩
    obtain rfl := List.mem_singleton.mp place
    exact absurd idle judging

theorem Walk.Sound.reopened {w : Walk} (sound : w.Sound durations valid) {views : Bytes → RecordView}
    (extends_ : ∀ b, (w.views b).Extends (views b)) :
    ({ w with views, cursors := fun b => { w.cursors b with busy := false }, running := [] } : Walk).Sound durations valid := by
  refine ⟨fun b => ?_, fun b => ?_, fun b => ?_, fun entry member => ?_, fun b opening state held duration fixed => ?_⟩
  · exact Cursor.well_extends (extends_ b) (sound.well b)
  · obtain ⟨added, chain, -⟩ := (extends_ b).chain
    rcases sound.term b with inside | zero
    · refine .inl ?_
      simp only [chain, List.length_append]
      omega
    · exact .inr zero
  · intro i
    rw [sound.rows b i]
    have passed := Cursor.passed_extends (extends_ b) (sound.well b) (sound.term b)
    exact exists_congr fun h => and_congr_left fun _ => (passed h).symm
  · cases member
  · obtain ⟨settled, within⟩ := sound.clocks b opening state held duration fixed
    exact ⟨⟨settled.opened, settled.first.extends (extends_ b) within⟩, within.trans (extends_ b).t⟩

theorem walkReads_sound : (walkReads durations valid).Invariant (Reading.Sound durations valid) where
  start := by
    rintro r ⟨views, rfl⟩
    refine ⟨⟨fun b => Cursor.start_well, fun b => .inr rfl, fun b => Cursor.rows_start _ _, ?_, ?_⟩, ?_, ?_, List.Pairwise.nil⟩
    · intro entry member
      cases member
    · intro b opening state held
      cases held
    · intro call member
      cases member
    · intro call member
      cases member
  step := by
    intro r action r' sound step
    cases step with
    | clock silent =>
      obtain ⟨walk, fine⟩ := ClockCall.begin_sound sound.walk _ _ silent
      obtain ⟨views, cursors, -, -⟩ := ClockCall.begin_frame _ _ _ _ _
      refine sound.started walk views cursors rfl fun clock same => ?_
      obtain rfl := Task.clock.inj same
      exact fine
    | latest backing bound => exact sound.started sound.walk rfl rfl rfl fun clock same => by cases same
    | @turn w later before after call next run =>
      have own : call ∈ before ++ call :: after := List.mem_append_right _ List.mem_cons_self
      exact sound.turned (Call.turned sound.walk (sound.fine call own) (fun h waits => (sound.judging call own h waits).2) run)
    | returns run =>
      obtain ⟨rfl, -⟩ := Call.step_returns run
      exact sound.ended
    | throws run => exact sound.ended
    | @refuses w before after call h waits =>
      have ended := sound.ended
      refine ⟨ended.walk.moved (sound.walk.well _) (sound.walk.term _) (fun _ => Iff.rfl), ended.fine, ?_, ended.apart⟩
      intro other inside g judging
      have apart : other.backing ≠ call.backing := by
        obtain ⟨-, apartAfter, apartAcross⟩ := List.pairwise_append.mp sound.apart
        rcases List.mem_append.mp inside with first | last
        · exact apartAcross other first call List.mem_cons_self (by simp [judging]) (by simp [waits])
        · exact ((List.pairwise_cons.mp apartAfter).1 other last (by simp [waits]) (by simp [judging])).symm
      simp only [Function.update_of_ne apart]
      exact ended.judging other inside g judging
    | reopens extends_ =>
      refine ⟨sound.walk.reopened extends_, ?_, ?_, List.Pairwise.nil⟩
      · intro call member
        cases member
      · intro call member
        cases member

/-- The turns one read takes by itself. -/
inductive Call.Steps (valid : Bytes → HeldCommitment → Bool) (w : Walk) (call : Call) : Walk → Call → Prop
  | start : Steps valid w call w call
  | next {middle later : Walk} {mid last : Call} : Steps valid w call middle mid → mid.step valid middle = .runs later last →
      Steps valid w call later last

theorem Call.Steps.trans {a b c : Walk} {x y z : Call} (first : Call.Steps valid a x b y) (second : Call.Steps valid b y c z) :
    Call.Steps valid a x c z := by
  induction second with
  | start => exact first
  | next _ step ih => exact .next ih step

/-- A read turned by itself stays right. -/
theorem Reading.Sound.alone {w later : Walk} {others : List Call} {call next : Call}
    (sound : Reading.Sound durations valid ⟨w, others ++ [call]⟩) (run : call.step valid w = .runs later next) :
    Reading.Sound durations valid ⟨later, others ++ [next]⟩ := by
  have own : call ∈ others ++ [call] := List.mem_append_right _ List.mem_cons_self
  exact sound.turned (Call.turned sound.walk (sound.fine call own) (fun h waits => (sound.judging call own h waits).2) run)

/-- A read whose backing has no checkpoint being classified comes to the end of its advance. -/
theorem Call.advances {others : List Call} {task : Task} {b : Bytes} (own : Call.backing ⟨task, none⟩ = b) (n : Nat) :
    ∀ (w : Walk) (remaining : List HeldCommitment), Reading.Sound durations valid ⟨w, others ++ [⟨task, none⟩]⟩ → (w.cursors b).busy = false →
      (∀ p ∈ (w.views b).points, ¬Cursor.Passed (w.views b) (w.cursors b) p → p ∈ remaining) →
      remaining.length + ((w.views b).chain.length - (w.cursors b).term) ≤ n →
      ∃ later, Call.Steps valid w ⟨task, none⟩ later ⟨task, none⟩ ∧ Reading.Sound durations valid ⟨later, others ++ [⟨task, none⟩]⟩ ∧
        later.views = w.views ∧ (later.cursors b).busy = false ∧ (later.cursors b).turn (later.views b) (Call.bound ⟨task, none⟩) = .done := by
  induction n with
  | zero =>
    intro w remaining sound free covers small
    refine ⟨w, .start, sound, rfl, free, ?_⟩
    rw [Cursor.turn, if_pos (by omega)]
  | succ n ih =>
    intro w remaining sound free covers small
    have well := sound.walk.well b
    cases turn : (w.cursors b).turn (w.views b) (Call.bound ⟨task, none⟩) with
    | done => exact ⟨w, .start, sound, rfl, free, turn⟩
    | conflict =>
      rw [Cursor.turn_conflict turn] at free
      cases free
    | moved moved =>
      have run : Call.step valid ⟨task, none⟩ w = .runs { w with cursors := Function.update w.cursors b moved } ⟨task, none⟩ := by
        simp only [Call.step, own, turn]
      obtain ⟨none_, more, rfl⟩ := Cursor.turn_moved turn
      obtain ⟨later, steps, after⟩ := ih _ remaining (sound.alone run) (by simpa only [Function.update_self] using free)
        (fun p point fresh => covers p point fun before => fresh (by
          simp only [Function.update_self]
          exact (Cursor.passed_moved well none_ p).mpr before))
        (by simp only [Function.update_self]; omega)
      exact ⟨later, (Call.Steps.next .start run).trans steps, after⟩
    | judge h =>
      obtain ⟨found, -⟩ := Cursor.turn_judge turn
      obtain ⟨mid, waits, cursor, views⟩ : ∃ mid, Call.step valid ⟨task, none⟩ w = .runs mid ⟨task, some h⟩ ∧
          mid.cursors b = { w.cursors b with busy := true } ∧ mid.views = w.views :=
        ⟨{ w with cursors := Function.update w.cursors b { w.cursors b with busy := true } }, by simp only [Call.step, own, turn],
          Function.update_self .., rfl⟩
      obtain ⟨past, resolves, cursor', views'⟩ : ∃ past, Call.step valid ⟨task, some h⟩ mid = .runs past ⟨task, none⟩ ∧
          past.cursors b = (mid.cursors b).past h ∧ past.views = mid.views := by
        have own : Call.backing ⟨task, some h⟩ = b := own
        refine ⟨_, rfl, ?_, rfl⟩
        simp only [own, Function.update_self]
      have same : past.cursors b = (w.cursors b).past h := by rw [cursor', cursor]; rfl
      have sameViews : past.views = w.views := views'.trans views
      have passed := Cursor.passed_past well found
      have inside : h ∈ remaining := by
        obtain ⟨inTerm, -⟩ := Cursor.next_eq_some well found
        exact covers h (RecordView.mem_points.mpr ⟨_, inTerm⟩) (Cursor.next_fresh well found)
      have shorter : (remaining.erase h).length + 1 = remaining.length := by
        have positive := List.length_pos_of_mem inside
        rw [List.length_erase_of_mem inside]
        omega
      obtain ⟨later, steps, sound', views'', after⟩ := ih past (remaining.erase h) ((sound.alone waits).alone resolves)
        (by rw [same]; rfl)
        (fun p point fresh => by
          rw [same, sameViews] at fresh
          rw [sameViews] at point
          have new : p ≠ h := fun equal => fresh ((passed p).mpr (.inr equal))
          exact (List.mem_erase_of_ne new).mpr (covers p point fun before => fresh ((passed p).mpr (.inl before))))
        (by
          rw [same, sameViews]
          simp only [Cursor.past]
          omega)
      exact ⟨later, ((Call.Steps.next .start waits).next resolves).trans steps, sound', views''.trans sameViews, after⟩

/-- A clock read turned past a breakpoint is further, and of the same index. -/
theorem ClockCall.goOn_on (call : ClockCall) (w : Walk) (at_ : Option Nat) : call.state.upto ≤ (call.goOn w at_).2.state.upto ∧
    (call.goOn w at_).2.duration = call.duration ∧ (call.goOn w at_).2.opening = call.opening ∧ (call.goOn w at_).2.through = call.through := by
  unfold goOn
  split
  · exact ⟨le_rfl, rfl, rfl, rfl⟩
  · refine ⟨?_, rfl, rfl, rfl⟩
    simp only [kept]
    split
    · rename_i extended
      exact extended.2.le
    · exact le_rfl

/-- A clock read turned by itself returns. -/
theorem ClockCall.returns {others : List Call} (n : Nat) : ∀ (w : Walk) (call : ClockCall),
    Reading.Sound durations valid ⟨w, others ++ [⟨.clock call, none⟩]⟩ → (w.cursors call.backing).busy = false →
    (((w.views call.backing).points.map (·.index)).filter (call.state.upto < ·)).length = n →
    ∃ later final answer, Call.Steps valid w ⟨.clock call, none⟩ later ⟨.clock final, none⟩ ∧
      Call.step valid ⟨.clock final, none⟩ later = .returns later (some answer) ∧
      answer.Right (w.views call.backing) (valid call.backing) call.duration call.opening call.through := by
  induction n using Nat.strongRecOn with
  | ind n ih =>
    intro w call sound free count
    obtain ⟨mid, steps, sound', views, free', done⟩ := @Call.advances durations valid others (.clock call) call.backing rfl _ w
      (w.views call.backing).points sound free (fun _ point _ => point) le_rfl
    rw [← views] at count ⊢
    have fine : call.Fine durations valid mid.views :=
      sound'.fine ⟨.clock call, none⟩ (List.mem_append_right _ List.mem_cons_self) call rfl
    have bound : Call.bound ⟨.clock call, none⟩ = .strict call.index := rfl
    rw [bound] at done
    have snapshot := sound'.walk.snapshot done
    have resumes : Call.step valid ⟨.clock call, none⟩ mid = Call.resume ⟨.clock call, none⟩ mid := by
      simp only [Call.step, Call.backing, bound, done]
    cases stage : call.stage with
    | last =>
      have index : call.index = call.through := by rw [ClockCall.index, stage]
      rw [index] at snapshot
      refine ⟨mid, call, _, steps, ?_, fine.answer stage⟩
      rw [resumes]
      simp only [Call.resume, stage, index, snapshot]
    | point at_ =>
      have index : call.index = at_ := by rw [ClockCall.index, stage]
      rw [index] at snapshot
      set ready : ClockCall := { call with state := call.passed at_ ((mid.views call.backing).latestIndex (valid call.backing) at_) }
      have run : Call.step valid ⟨.clock call, none⟩ mid = .runs
          (ready.goOn mid ((mid.views call.backing).firstPoint (at_ + 1) call.through)).1
          ⟨.clock (ready.goOn mid ((mid.views call.backing).firstPoint (at_ + 1) call.through)).2, none⟩ := by
        rw [resumes]
        simp only [Call.resume, stage, index, snapshot]
        rfl
      obtain ⟨further, duration, opening, through⟩ :=
        ready.goOn_on mid ((mid.views call.backing).firstPoint (at_ + 1) call.through)
      obtain ⟨views', cursors, -, backing⟩ := ready.goOn_frame mid ((mid.views call.backing).firstPoint (at_ + 1) call.through)
      have after := sound'.alone run
      generalize (ready.goOn mid ((mid.views call.backing).firstPoint (at_ + 1) call.through)).1 = next at *
      generalize (ready.goOn mid ((mid.views call.backing).firstPoint (at_ + 1) call.through)).2 = on at *
      have backing : on.backing = call.backing := backing
      obtain ⟨⟨h, point, same⟩, lower, -⟩ := RecordView.firstPoint_eq_some (fine.point at_ stage).2
      have further : at_ ≤ on.state.upto := further
      have fewer : (((next.views on.backing).points.map (·.index)).filter (on.state.upto < ·)).length < n := by
        have narrower : ((mid.views call.backing).points.map (·.index)).filter (on.state.upto < ·) =
            (((mid.views call.backing).points.map (·.index)).filter (call.state.upto < ·)).filter (on.state.upto < ·) := by
          rw [List.filter_filter]
          refine List.filter_congr fun i _ => ?_
          rw [← Bool.decide_and, decide_eq_decide]
          omega
        rw [backing, views', narrower, ← count]
        refine List.length_filter_lt_length_iff_exists.mpr ⟨at_, List.mem_filter.mpr ⟨?_, by simpa using Nat.lt_of_succ_le lower⟩, by simpa using further⟩
        exact same ▸ List.mem_map_of_mem point
      obtain ⟨later, final, answer, rest, returned, right⟩ := ih _ fewer next on after (by rw [backing, cursors]; exact free') rfl
      rw [backing, views', duration, opening, through] at right
      exact ⟨later, final, answer, (steps.next run).trans rest, returned, right⟩

/-- A clock read that returns is right, whatever was read before it or meanwhile. -/
theorem clock_right {r : Reading} (reach : (walkReads durations valid).Reach r) {clock : ClockCall} (member : ⟨.clock clock, none⟩ ∈ r.calls)
    {later : Walk} {answer : Option ScopeClock} (run : Call.step valid ⟨.clock clock, none⟩ r.walk = .returns later answer) :
    ∃ read, answer = some read ∧
      read.Right (r.walk.views clock.backing) (valid clock.backing) clock.duration clock.opening clock.through := by
  have sound := walkReads_sound.reach reach
  obtain ⟨-, -, done, resumes⟩ := Call.step_returns run
  simp only [Call.resume] at resumes
  split at resumes
  · cases resumes
  · rename_i stage
    simp only [Call.Outcome.returns.injEq] at resumes
    have index : clock.index = clock.through := by rw [ClockCall.index, stage]
    have done : (r.walk.cursors clock.backing).turn (r.walk.views clock.backing) (.strict clock.through) = .done := by
      simpa only [Call.backing, Call.bound, index] using done
    refine ⟨_, resumes.2.symm, ?_⟩
    rw [index, sound.walk.snapshot done]
    exact (sound.fine _ member clock rfl).answer stage

/-- A silence clock is the first gap over the duration: every read of it that returns says so, whatever was read before it, meanwhile
or in an earlier read of the walk, and a read left to itself returns. -/
theorem silence_clock {r : Reading} (reach : (walkReads durations valid).Reach r) :
    (∀ call : ClockCall, ⟨.clock call, none⟩ ∈ r.calls → ∀ later answer, Call.step valid ⟨.clock call, none⟩ r.walk = .returns later answer →
      ∃ clock, answer = some clock ∧
        clock.Right (r.walk.views call.backing) (valid call.backing) call.duration call.opening call.through) ∧
    (∀ (backing : Bytes) (duration opening through : Nat), durations backing = some duration → (r.walk.cursors backing).busy = false →
      ∃ later final clock, Call.Steps valid (ClockCall.begin_ r.walk backing duration opening through).1
          ⟨.clock (ClockCall.begin_ r.walk backing duration opening through).2, none⟩ later ⟨.clock final, none⟩ ∧
        Call.step valid ⟨.clock final, none⟩ later = .returns later (some clock) ∧
        clock.Right (r.walk.views backing) (valid backing) duration opening through) := by
  refine ⟨fun call member later answer run => clock_right reach member run, fun backing duration opening through silent free => ?_⟩
  have sound := walkReads_sound.reach reach
  obtain ⟨walk, fine⟩ := ClockCall.begin_sound sound.walk opening through silent
  obtain ⟨views, cursors, -, same⟩ := ClockCall.begin_frame r.walk backing duration opening through
  obtain ⟨lasting, opened, reads⟩ := ClockCall.begin_index r.walk backing duration opening through
  have started : Reading.Sound durations valid ⟨(ClockCall.begin_ r.walk backing duration opening through).1,
      r.calls ++ [⟨.clock (ClockCall.begin_ r.walk backing duration opening through).2, none⟩]⟩ := by
    refine Reading.Sound.started sound walk views cursors rfl fun clock equal => ?_
    obtain rfl := Task.clock.inj equal
    exact views ▸ fine
  obtain ⟨later, final, clock, steps, returned, right⟩ := ClockCall.returns _ _ _ started (by rw [same, cursors]; exact free) rfl
  rw [same, views, lasting, opened, reads] at right
  exact ⟨later, final, clock, steps, returned, right⟩

/-- One operator's record through index 20, with checkpoints held at 2 and 9. -/
def sampleRecord : RecordView where
  t := 20
  chain := [⟨[1], 0, []⟩]
  held _ := [⟨[1], 1, [], 2⟩, ⟨[1], 2, [], 9⟩]
  rising := List.pairwise_singleton _ _
  inForce := by decide
  ordered _ := by decide

theorem sampleSilence_clock : ∃ later final clock,
    Call.Steps (fun _ _ => true) (ClockCall.begin_ (.empty fun _ => sampleRecord) [7] 3 0 20).1
      ⟨.clock (ClockCall.begin_ (.empty fun _ => sampleRecord) [7] 3 0 20).2, none⟩ later ⟨.clock final, none⟩ ∧
    Call.step (fun _ _ => true) ⟨.clock final, none⟩ later = .returns later (some clock) ∧
    clock.Right sampleRecord (fun _ => true) 3 0 20 :=
  (@silence_clock (fun _ => some 3) (fun _ _ => true) ⟨.empty fun _ => sampleRecord, []⟩ (.start ⟨_, rfl⟩)).2 [7] 3 0 20 rfl rfl

end Moe
