import Moe.Scope.ReceiptWalk

namespace Moe

namespace ReceiptRead

variable {ε : Type} [DecidableEq ε] {read : ReceiptRead ε} {walk : ReceiptWalk} {p : ReceiptPoint ε}

/-- One that includes the receipt. -/
def includes (read : ReceiptRead ε) (p : ReceiptPoint ε) : Bool := read.counts p && p.event = some read.event

/-- A valid checkpoint of another segment that carries the receipt's scope. -/
def transition (read : ReceiptRead ε) (p : ReceiptPoint ε) : Bool := p.classification = .valid && carries p && !read.own p

/-- A checkpoint of another segment that carries the receipt's scope and is passed over. -/
def passes (read : ReceiptRead ε) (p : ReceiptPoint ε) : Bool := carries p && !read.own p && receiptPassed p

/-- At or past either boundary of the opened segment. -/
def ended (read : ReceiptRead ε) (at_ : Nat) : Bool := read.termBoundary.any (· ≤ at_) || read.silence.any (· ≤ at_)

/-- The reference, where held, is of the segment. -/
def Referred (read : ReceiptRead ε) : Prop := read.checkReference = .ok ()

/-- How a walk that met a boundary ends. -/
def lapsedStatus (contradicted : Bool) : ReceiptStatus := if contradicted then .contradicted else .lapsed

omit [DecidableEq ε] in
theorem own_carries (mine : read.own p = true) : carries p = true := by
  rw [own, decide_eq_true_eq] at mine
  rw [carries, mine]
  rfl

omit [DecidableEq ε] in
theorem passed_iff : receiptPassed p = !(p.classification = .valid : Bool) := by
  unfold receiptPassed
  cases p.classification <;> rfl

omit [DecidableEq ε] in
theorem finishAs_ok (referred : read.Referred) (walk : ReceiptWalk) (status : ReceiptStatus) (included : List ReceiptFact)
    (lapse : Option (LapseKind × Option Nat)) (abandoned : Option ReceiptFact) :
    ∃ verdict, read.finishAs walk status included lapse abandoned = .ok verdict ∧ verdict.status = status := by
  rw [finishAs, referred]
  exact ⟨_, rfl, rfl⟩

omit [DecidableEq ε] in
theorem lapseAs_ok (referred : read.Referred) (walk : ReceiptWalk) (kind : LapseKind) (at_ : Option Nat) :
    ∃ verdict, read.lapseAs walk kind at_ = .ok verdict ∧ verdict.status = lapsedStatus (walk.contradictedAt ≠ [] : Bool) := by
  rw [lapseAs]
  split
  · rename_i contradicted
    obtain ⟨verdict, done, same⟩ := finishAs_ok referred walk .contradicted [] none none
    exact ⟨verdict, done, by rw [same, lapsedStatus, if_pos (decide_eq_true contradicted)]⟩
  · rename_i none_
    obtain ⟨verdict, done, same⟩ := finishAs_ok referred walk .lapsed [] (some (kind, at_)) none
    exact ⟨verdict, done, by rw [same, lapsedStatus, if_neg (by simpa using none_)]⟩

omit [DecidableEq ε] in
/-- An opened segment ends at the earlier of its boundaries, and by an index where either is at or before it. -/
theorem endOf_met (opened : walk.opened = true) (at_ : Nat) :
    (∃ stop, read.endOf walk (clockThrough read.silence ((read.termBoundary.map (min · at_)).getD at_)) = some stop ∧ stop ≤ at_) ↔
      read.ended at_ = true := by
  unfold endOf ended clockThrough
  rw [opened]
  cases read.termBoundary with
  | none =>
    cases read.silence with
    | none => simp
    | some stop => by_cases past : stop ≤ at_ <;> simp [past]
  | some term =>
    cases read.silence with
    | none => simp
    | some stop =>
      by_cases within : stop ≤ min term at_
      · have past : stop ≤ at_ := by omega
        simp only [Option.map_some, Option.getD_some, Option.filter_some, within, decide_true, if_true, Option.some.injEq, exists_eq_left',
          Option.any_some, past, Bool.or_true, iff_true]
        split <;> omega
      · simp only [Option.map_some, Option.getD_some, Option.filter_some, within, decide_false, if_true, Option.some.injEq, exists_eq_left',
          Option.any_some, Bool.or_eq_true, decide_eq_true_eq, Bool.false_eq_true, if_false]
        omega

omit [DecidableEq ε] in
/-- An opened segment's boundary is met at an index at or past either end. -/
theorem boundaryAt_opened (referred : read.Referred) (opened : walk.opened = true) (openingIndex at_ : Nat) :
    (read.ended at_ = true → ∃ verdict, read.boundaryAt walk (some openingIndex) at_ = .ok (some verdict) ∧
      verdict.status = lapsedStatus (walk.contradictedAt ≠ [] : Bool)) ∧
    (read.ended at_ = false → read.boundaryAt walk (some openingIndex) at_ = .ok none) := by
  have met := @endOf_met _ read walk opened at_
  unfold boundaryAt boundary
  simp only
  constructor
  · intro past
    obtain ⟨stop, same, le⟩ := met.mpr past
    rw [same]
    simp only [le, if_true]
    obtain ⟨verdict, done, status⟩ := lapseAs_ok referred walk (if (if walk.opened = true then
      clockThrough read.silence ((read.termBoundary.map (min · at_)).getD at_) else none) = some stop then .silence else .scopeBoundary) (some stop)
    exact ⟨verdict, by rw [done]; rfl, status⟩
  · intro early
    cases same : read.endOf walk (clockThrough read.silence ((read.termBoundary.map (min · at_)).getD at_)) with
    | none => rfl
    | some stop =>
      simp only
      rw [if_neg]
      intro le
      have past := met.mp ⟨stop, same, le⟩
      rw [early] at past
      cases past

/-- The segment stands open at a checkpoint: it was opened before, or this is its opening. -/
def Opens (read : ReceiptRead ε) (walk : ReceiptWalk) (p : ReceiptPoint ε) : Prop :=
  walk.opened = true ∨ (read.own p && p.sequence = read.opening && p.classification ≠ .lapsed) = true

omit [DecidableEq ε] in
theorem opens_eq (opens : Opens read walk p) : read.openedBy walk p = { walk with opened := true } := by
  unfold openedBy
  split
  · rfl
  · rename_i closed
    obtain ⟨opened, lastSegment, passedOver, contradictedAt⟩ := walk
    obtain before | now := opens
    · simp only at before
      rw [before]
    · exact absurd now closed

/-- A checkpoint of an opened segment includes the receipt, or leaves its walk to go on. -/
theorem checkpoint_eq (referred : read.Referred) (opens : Opens read walk p) : read.checkpoint walk p =
    if read.includes p then (read.finishAs { walk with opened := true } .final [fact p] none none).map fun verdict =>
      ({ walk with opened := true }, some verdict)
    else read.proceed (read.markedBy { walk with opened := true } p) p := by
  have referred' : read.checkReached p = .ok () := by
    unfold checkReached
    split
    · exact referred
    · rfl
  unfold checkpoint
  rw [referred', opens_eq opens]
  have stands : (!read.counts p || true) = true := Bool.or_true _
  simp only [require, stands, if_true]
  rfl

theorem checkpoint_includes (referred : read.Referred) (opens : Opens read walk p) (included : read.includes p = true) :
    ∃ later verdict, read.checkpoint walk p = .ok (later, some verdict) ∧ verdict.status = .final := by
  obtain ⟨verdict, done, status⟩ := finishAs_ok referred { walk with opened := true } .final [fact p] none none
  refine ⟨{ walk with opened := true }, verdict, ?_, status⟩
  rw [checkpoint_eq referred opens, if_pos included, done]
  rfl

/-- At or below `after`, a checkpoint that does not is marked where its position is taken. -/
theorem checkpoint_below (referred : read.Referred) (opens : Opens read walk p) (below : p.sequence ≤ read.after)
    (excludes : read.includes p = false) : ∃ later, read.checkpoint walk p = .ok (later, none) ∧ later.opened = true ∧
      later.lastSegment = walk.lastSegment ∧ later.passedOver = walk.passedOver ∧
      (later.contradictedAt ≠ [] ↔ walk.contradictedAt ≠ [] ∨ (read.counts p && p.event.isSome) = true) := by
  have least : ¬ read.after < p.sequence := by omega
  rw [checkpoint_eq referred opens, if_neg (by rw [excludes]; exact Bool.false_ne_true), proceed, if_pos below]
  unfold markedBy
  rw [if_neg least]
  split
  · rename_i marked
    exact ⟨_, rfl, rfl, rfl, rfl, by simp [marked]⟩
  · rename_i unmarked
    exact ⟨_, rfl, rfl, rfl, rfl, by simp [unmarked]⟩

/-- Above, one of the segment that does not contradicts it where `after` is held, and the sequences are counted from it. -/
theorem checkpoint_own (referred : read.Referred) (opened : walk.opened = true) (above : read.after < p.sequence) (mine : read.own p = true)
    (excludes : read.includes p = false) : ∃ later, read.checkpoint walk p = .ok (later, none) ∧ later.opened = true ∧
      later.lastSegment = p.sequence ∧ later.passedOver = 0 ∧
      (later.contradictedAt ≠ [] ↔ walk.contradictedAt ≠ [] ∨ (read.counts p && read.reference.isSome) = true) := by
  have past : ¬ p.sequence ≤ read.after := by omega
  rw [checkpoint_eq referred (.inl opened), if_neg (by rw [excludes]; exact Bool.false_ne_true), proceed, if_neg past, if_pos mine]
  unfold markedBy
  rw [if_pos above]
  split
  · rename_i marked
    exact ⟨_, rfl, rfl, rfl, rfl, by simp [marked]⟩
  · rename_i unmarked
    exact ⟨_, rfl, rfl, rfl, rfl, by simp [unmarked]⟩

omit [DecidableEq ε] in
theorem markedBy_other (other : read.own p = false) : read.markedBy walk p = walk := by
  rw [markedBy, counts, other, Bool.and_false, Bool.false_and]
  rfl

theorem includes_other (other : read.own p = false) : read.includes p = false := by
  rw [includes, counts, other, Bool.and_false, Bool.false_and]

theorem opened_eq (opened : walk.opened = true) : { walk with opened := true } = walk := by
  obtain ⟨_, lastSegment, passedOver, contradictedAt⟩ := walk
  simp only at opened
  rw [opened]

/-- One of no segment of the scope, or passed over, takes its sequence. -/
theorem checkpoint_other (referred : read.Referred) (opened : walk.opened = true) (above : read.after < p.sequence) (other : read.own p = false)
    (stays : read.transition p = false) :
    read.checkpoint walk p = .ok ({ walk with passedOver := walk.passedOver + 1 }, none) := by
  have past : ¬ p.sequence ≤ read.after := by omega
  have passed : (p.classification ≠ .valid || !carries p : Bool) = true := by
    simp only [transition, other, Bool.not_false, Bool.and_true] at stays
    cases carried : carries p with
    | false => simp
    | true => simpa [carried] using stays
  rw [checkpoint_eq referred (.inl opened), includes_other other, if_neg Bool.false_ne_true, proceed, if_neg past, if_neg (by rw [other]; simp),
    markedBy_other other, if_pos passed, opened_eq opened]

/-- A valid checkpoint of another segment decides. -/
theorem checkpoint_transition (referred : read.Referred) (opened : walk.opened = true) (above : read.after < p.sequence)
    (moves : read.transition p = true) : ∃ verdict, read.checkpoint walk p = .ok (walk, some verdict) ∧
      verdict.status = if walk.contradictedAt ≠ [] then .contradicted else if read.movedPast then .lapsed
        else if p.emptyOpening && walk.passedOver < p.sequence - walk.lastSegment - 1 then .lapsed else .abandoned := by
  have past : ¬ p.sequence ≤ read.after := by omega
  simp only [transition, Bool.and_eq_true, decide_eq_true_eq, Bool.not_eq_true'] at moves
  obtain ⟨⟨valid, carried⟩, other⟩ := moves
  have judged : ∃ verdict, read.transitionAt walk p = .ok verdict ∧
      verdict.status = if walk.contradictedAt ≠ [] then .contradicted else if read.movedPast then .lapsed
        else if p.emptyOpening && walk.passedOver < p.sequence - walk.lastSegment - 1 then .lapsed else .abandoned := by
    unfold transitionAt
    split
    · exact finishAs_ok referred ..
    · rename_i none_
      have none_ : walk.contradictedAt = [] := by simpa using none_
      have lapses : lapsedStatus (walk.contradictedAt ≠ [] : Bool) = .lapsed := by
        rw [none_]
        rfl
      split
      · exact lapses ▸ lapseAs_ok referred ..
      · split
        · exact lapses ▸ lapseAs_ok referred ..
        · exact finishAs_ok referred ..
  obtain ⟨verdict, done, status⟩ := judged
  refine ⟨verdict, ?_, status⟩
  rw [checkpoint_eq referred (.inl opened), includes_other other, if_neg Bool.false_ne_true, proceed, if_neg past, if_neg (by rw [other]; simp),
    markedBy_other other, if_neg (by simp [valid, carried]), opened_eq opened, done]
  rfl

/-- The status a walk of an opened segment comes to over checkpoints above `after`. -/
def walkAbove (read : ReceiptRead ε) (contradicted : Bool) (lastSegment passedOver : Nat) : List (ReceiptPoint ε) → ReceiptStatus
  | [] => if read.ended read.now then lapsedStatus contradicted else if contradicted then .contradicted
    else if read.movedPast then .lapsed else .pending
  | p :: rest =>
    if read.ended p.index then lapsedStatus contradicted
    else if read.includes p then .final
    else if read.own p then walkAbove read (contradicted || read.counts p && read.reference.isSome) p.sequence 0 rest
    else if read.transition p then
      if contradicted then .contradicted else if read.movedPast then .lapsed
      else if p.emptyOpening && passedOver < p.sequence - lastSegment - 1 then .lapsed else .abandoned
    else walkAbove read contradicted lastSegment (passedOver + 1) rest

/-- And over checkpoints at or below it, before those. -/
def walkBelow (read : ReceiptRead ε) (above : List (ReceiptPoint ε)) (contradicted : Bool) : List (ReceiptPoint ε) → ReceiptStatus
  | [] => read.walkAbove contradicted read.after 0 above
  | p :: rest =>
    if read.ended p.index then lapsedStatus contradicted
    else if read.includes p then .final
    else walkBelow read above (contradicted || read.counts p && p.event.isSome) rest

/-- A boundary met ends the walk. -/
theorem walkFrom_ended (referred : read.Referred) (opened : walk.opened = true) (openingIndex : Nat) {rest : List (ReceiptPoint ε)}
    (ends : read.ended p.index = true) : ∃ verdict, read.walkFrom walk (some openingIndex) (p :: rest) = .ok verdict ∧
      verdict.status = lapsedStatus (walk.contradictedAt ≠ [] : Bool) := by
  obtain ⟨verdict, done, status⟩ := (boundaryAt_opened referred opened openingIndex p.index).1 ends
  refine ⟨verdict, ?_, status⟩
  rw [walkFrom, done]
  rfl

/-- Before it, a checkpoint's verdict ends the walk. -/
theorem walkFrom_verdict (referred : read.Referred) (opened : walk.opened = true) (openingIndex : Nat) {rest : List (ReceiptPoint ε)}
    (early : read.ended p.index = false) {later : ReceiptWalk} {verdict : ReceiptVerdict}
    (done : read.checkpoint walk p = .ok (later, some verdict)) : read.walkFrom walk (some openingIndex) (p :: rest) = .ok verdict := by
  rw [walkFrom, (boundaryAt_opened referred opened openingIndex p.index).2 early]
  change unlessMet none _ = _
  rw [unlessMet, done]
  rfl

/-- A checkpoint without one leaves the rest of the walk. -/
theorem walkFrom_next (referred : read.Referred) (opened : walk.opened = true) (openingIndex : Nat) {rest : List (ReceiptPoint ε)}
    (early : read.ended p.index = false) {later : ReceiptWalk} (done : read.checkpoint walk p = .ok (later, none)) :
    ∃ openingIndex', read.walkFrom walk (some openingIndex) (p :: rest) = read.walkFrom later (some openingIndex') rest := by
  have chosen : ∃ i, (if p.classification ≠ .lapsed && read.own p && p.sequence = read.opening then some p.index else some openingIndex) =
      some i := by
    split
    · exact ⟨_, rfl⟩
    · exact ⟨_, rfl⟩
  obtain ⟨i, same⟩ := chosen
  refine ⟨i, ?_⟩
  rw [walkFrom, (boundaryAt_opened referred opened openingIndex p.index).2 early, same]
  change unlessMet none _ = _
  rw [unlessMet, done]
  rfl

theorem walkFrom_end (referred : read.Referred) (opened : walk.opened = true) (openingIndex : Nat) :
    ∃ verdict, read.walkFrom walk (some openingIndex) [] = .ok verdict ∧
      verdict.status = read.walkAbove (walk.contradictedAt ≠ [] : Bool) walk.lastSegment walk.passedOver [] := by
  obtain ⟨met, unmet⟩ := boundaryAt_opened referred opened openingIndex read.now
  rw [walkFrom, walkAbove]
  cases ends : read.ended read.now with
  | true =>
    obtain ⟨verdict, done, status⟩ := met ends
    rw [done]
    exact ⟨verdict, rfl, status⟩
  | false =>
    rw [unmet ends]
    change ∃ verdict, read.finish walk = .ok verdict ∧ _
    rw [finish, if_neg Bool.false_ne_true]
    by_cases marked : walk.contradictedAt ≠ []
    · rw [if_pos marked, decide_eq_true marked]
      exact finishAs_ok referred ..
    · rw [if_neg marked, decide_eq_false marked, if_neg Bool.false_ne_true]
      split
      · obtain ⟨verdict, done, status⟩ := lapseAs_ok referred walk .movedPast none
        refine ⟨verdict, done, status.trans ?_⟩
        rw [decide_eq_false marked]
        rfl
      · exact finishAs_ok referred ..

theorem walkFrom_above (referred : read.Referred) {points : List (ReceiptPoint ε)} (above : ∀ p ∈ points, read.after < p.sequence)
    (opened : walk.opened = true) (openingIndex : Nat) : ∃ verdict, read.walkFrom walk (some openingIndex) points = .ok verdict ∧
      verdict.status = read.walkAbove (walk.contradictedAt ≠ [] : Bool) walk.lastSegment walk.passedOver points := by
  induction points generalizing walk openingIndex with
  | nil => exact walkFrom_end referred opened openingIndex
  | cons p rest ih =>
    obtain ⟨first, others⟩ := List.forall_mem_cons.mp above
    rw [walkAbove]
    cases ends : read.ended p.index with
    | true => exact walkFrom_ended referred opened openingIndex ends
    | false =>
      rw [if_neg Bool.false_ne_true]
      cases included : read.includes p with
      | true =>
        obtain ⟨later, verdict, done, status⟩ := checkpoint_includes referred (.inl opened) included
        exact ⟨verdict, walkFrom_verdict referred opened openingIndex ends done, status⟩
      | false =>
        rw [if_neg Bool.false_ne_true]
        cases mine : read.own p with
        | true =>
          obtain ⟨later, done, stands, last, none_, marks⟩ := checkpoint_own referred opened first mine included
          obtain ⟨openingIndex', same⟩ := @walkFrom_next _ _ _ _ _ referred opened openingIndex rest ends _ done
          obtain ⟨verdict, run, status⟩ := ih others stands openingIndex'
          have marked : (later.contradictedAt ≠ [] : Bool) = ((walk.contradictedAt ≠ [] : Bool) || read.counts p && read.reference.isSome) := by
            rw [Bool.eq_iff_iff, Bool.or_eq_true, decide_eq_true_eq, decide_eq_true_eq]
            exact marks
          rw [last, none_, marked] at status
          exact ⟨verdict, same.trans run, status⟩
        | false =>
          rw [if_neg Bool.false_ne_true]
          cases moves : read.transition p with
          | true =>
            obtain ⟨verdict, done, status⟩ := checkpoint_transition referred opened first moves
            refine ⟨verdict, walkFrom_verdict referred opened openingIndex ends done, status.trans ?_⟩
            simp only [decide_eq_true_eq, if_true]
          | false =>
            obtain ⟨openingIndex', same⟩ := @walkFrom_next _ _ _ _ _ referred opened openingIndex rest ends _
              (checkpoint_other referred opened first mine moves)
            obtain ⟨verdict, run, status⟩ := @ih { walk with passedOver := walk.passedOver + 1 } others opened openingIndex'
            exact ⟨verdict, same.trans run, status⟩

theorem walkFrom_below (referred : read.Referred) {points above : List (ReceiptPoint ε)} (below : ∀ p ∈ points, p.sequence ≤ read.after)
    (beyond : ∀ p ∈ above, read.after < p.sequence) (opened : walk.opened = true) (last : walk.lastSegment = read.after)
    (none_ : walk.passedOver = 0) (openingIndex : Nat) : ∃ verdict, read.walkFrom walk (some openingIndex) (points ++ above) = .ok verdict ∧
      verdict.status = read.walkBelow above (walk.contradictedAt ≠ [] : Bool) points := by
  induction points generalizing walk openingIndex with
  | nil =>
    obtain ⟨verdict, run, status⟩ := walkFrom_above referred beyond opened openingIndex
    rw [last, none_] at status
    exact ⟨verdict, run, status⟩
  | cons p rest ih =>
    obtain ⟨first, others⟩ := List.forall_mem_cons.mp below
    rw [walkBelow, List.cons_append]
    cases ends : read.ended p.index with
    | true => exact walkFrom_ended referred opened openingIndex ends
    | false =>
      rw [if_neg Bool.false_ne_true]
      cases included : read.includes p with
      | true =>
        obtain ⟨later, verdict, done, status⟩ := checkpoint_includes referred (.inl opened) included
        exact ⟨verdict, walkFrom_verdict referred opened openingIndex ends done, status⟩
      | false =>
        rw [if_neg Bool.false_ne_true]
        obtain ⟨later, done, stands, last', none', marks⟩ := checkpoint_below referred (.inl opened) first included
        obtain ⟨openingIndex', same⟩ := @walkFrom_next _ _ _ _ _ referred opened openingIndex (rest ++ above) ends _ done
        obtain ⟨verdict, run, status⟩ := ih others stands (last'.trans last) (none'.trans none_) openingIndex'
        have marked : (later.contradictedAt ≠ [] : Bool) = ((walk.contradictedAt ≠ [] : Bool) || read.counts p && p.event.isSome) := by
          rw [Bool.eq_iff_iff, Bool.or_eq_true, decide_eq_true_eq, decide_eq_true_eq]
          exact marks
        rw [marked] at status
        exact ⟨verdict, same.trans run, status⟩

section Above

variable {points rest : List (ReceiptPoint ε)} {contradicted : Bool} {lastSegment passedOver : Nat}

/-- What a record has of its checkpoints, and of any part of them in order. -/
structure Stands (read : ReceiptRead ε) (points : List (ReceiptPoint ε)) : Prop where
  rising : points.Pairwise (·.index ≤ ·.index)
  through : ∀ p ∈ points, p.index ≤ read.now
  ends : ∀ p ∈ points, read.own p = true → read.ended p.index = true → p.classification = .lapsed

/-- Before any transition, one that includes the receipt. -/
def Reaches (read : ReceiptRead ε) (points : List (ReceiptPoint ε)) : Prop :=
  ∃ mid m post, points = mid ++ m :: post ∧ read.includes m = true ∧ ∀ q ∈ mid, read.includes q = false ∧ read.transition q = false

/-- One that includes the receipt follows a passed checkpoint of another segment, met once it was decided against. -/
def SkipsFrom (read : ReceiptRead ε) (contradicted : Bool) (points : List (ReceiptPoint ε)) : Prop :=
  ∃ pre r rest, points = pre ++ r :: rest ∧ (∀ q ∈ pre, read.includes q = false ∧ read.transition q = false) ∧ read.passes r = true ∧
    (read.reference = none ∨ contradicted = true ∨ ∃ q ∈ pre, read.counts q = true) ∧ read.Reaches rest

omit [DecidableEq ε] in
theorem Stands.tail (stands : Stands read (p :: points)) : Stands read points :=
  ⟨(List.pairwise_cons.mp stands.rising).2, fun q member => stands.through q (List.mem_cons_of_mem _ member),
    fun q member => stands.ends q (List.mem_cons_of_mem _ member)⟩

omit [DecidableEq ε] in
theorem ended_mono {i j : Nat} (le : i ≤ j) (ends : read.ended i = true) : read.ended j = true := by
  unfold ended at ends ⊢
  rw [Bool.or_eq_true] at ends ⊢
  refine ends.imp (fun past => ?_) fun past => ?_
  · cases term : read.termBoundary with
    | none => rw [term] at past; cases past
    | some stop => simp only [term, Option.any_some, decide_eq_true_eq] at past ⊢; omega
  · cases silence : read.silence with
    | none => rw [silence] at past; cases past
    | some stop => simp only [silence, Option.any_some, decide_eq_true_eq] at past ⊢; omega

omit [DecidableEq ε] in
/-- Past a boundary nothing of the segment is valid. -/
theorem Stands.counts_early (stands : Stands read points) (member : p ∈ points) (valid : read.counts p = true) : read.ended p.index = false := by
  simp only [counts, Bool.and_eq_true, decide_eq_true_eq] at valid
  cases ends : read.ended p.index with
  | false => rfl
  | true =>
    have lapsed := stands.ends p member valid.2 ends
    rw [valid.1] at lapsed
    cases lapsed

theorem includes_counts (included : read.includes p = true) : read.counts p = true := ((Bool.and_eq_true _ _).mp included).1

omit [DecidableEq ε] in
theorem transition_other (moves : read.transition p = true) : read.own p = false := by
  simp only [transition, Bool.and_eq_true, Bool.not_eq_true'] at moves
  exact moves.2

/-- Past a boundary nothing includes the receipt. -/
theorem Stands.none_included (stands : Stands read (p :: rest)) (ends : read.ended p.index = true) : ∀ m ∈ p :: rest, read.includes m = false := by
  intro m member
  cases included : read.includes m with
  | false => rfl
  | true =>
    have early := stands.counts_early member (includes_counts included)
    have le : p.index ≤ m.index := by
      obtain rfl | later := List.mem_cons.mp member
      · exact Nat.le_refl _
      · exact (List.pairwise_cons.mp stands.rising).1 m later
    rw [ended_mono le ends] at early
    cases early

theorem Stands.not_reaches (stands : Stands read (p :: rest)) (ends : read.ended p.index = true) : ¬ read.Reaches (p :: rest) := by
  rintro ⟨mid, m, post, split_, included, -⟩
  have none_ := stands.none_included ends m (by rw [split_]; exact List.mem_append_right _ List.mem_cons_self)
  rw [included] at none_
  cases none_

theorem reaches_cons_of_includes (included : read.includes p = true) : read.Reaches (p :: rest) :=
  ⟨[], p, rest, rfl, included, fun _ member => absurd member List.not_mem_nil⟩

theorem not_reaches_transition (moves : read.transition p = true) : ¬ read.Reaches (p :: rest) := by
  rintro ⟨mid, m, post, split_, included, none_⟩
  cases mid with
  | nil =>
    obtain ⟨rfl, -⟩ := List.cons.inj split_
    rw [includes_other (transition_other moves)] at included
    cases included
  | cons q mid =>
    obtain ⟨rfl, -⟩ := List.cons.inj split_
    have stays := (none_ p List.mem_cons_self).2
    rw [moves] at stays
    cases stays

theorem reaches_cons (excludes : read.includes p = false) (stays : read.transition p = false) : read.Reaches (p :: rest) ↔ read.Reaches rest := by
  constructor
  · rintro ⟨mid, m, post, split_, included, none_⟩
    cases mid with
    | nil =>
      obtain ⟨rfl, -⟩ := List.cons.inj split_
      rw [excludes] at included
      cases included
    | cons q mid =>
      obtain ⟨-, split_⟩ := List.cons.inj split_
      exact ⟨mid, m, post, split_, included, fun q member => none_ q (List.mem_cons_of_mem _ member)⟩
  · rintro ⟨mid, m, post, rfl, included, none_⟩
    exact ⟨p :: mid, m, post, rfl, included, List.forall_mem_cons.mpr ⟨⟨excludes, stays⟩, none_⟩⟩

/-- Once a receipt is decided against, its walk is final where it is reached, and lapses or contradicts where it is not. -/
theorem walkAbove_decided (decided : read.reference = none ∨ contradicted = true) (moved : read.reference = none → read.movedPast = true)
    (stands : Stands read points) : (read.Reaches points → read.walkAbove contradicted lastSegment passedOver points = .final) ∧
      (¬ read.Reaches points → read.walkAbove contradicted lastSegment passedOver points = lapsedStatus contradicted) := by
  induction points generalizing lastSegment passedOver with
  | nil =>
    refine ⟨fun reached => ?_, fun _ => ?_⟩
    · obtain ⟨mid, m, post, split_, -⟩ := reached
      cases mid <;> cases split_
    · rw [walkAbove, lapsedStatus]
      split
      · rfl
      · split
        · rfl
        · rename_i unmarked
          rw [if_pos (moved (decided.resolve_right unmarked))]
  | cons p rest ih =>
    rw [walkAbove]
    cases ends : read.ended p.index with
    | true => exact ⟨fun reached => absurd reached (stands.not_reaches ends), fun _ => rfl⟩
    | false =>
      rw [if_neg Bool.false_ne_true]
      cases included : read.includes p with
      | true => exact ⟨fun _ => rfl, fun none_ => absurd (reaches_cons_of_includes included) none_⟩
      | false =>
        rw [if_neg Bool.false_ne_true]
        cases moves : read.transition p with
        | true =>
          rw [transition_other moves, if_neg Bool.false_ne_true, if_pos rfl, lapsedStatus]
          refine ⟨fun reached => absurd reached (not_reaches_transition moves), fun _ => ?_⟩
          split
          · rfl
          · rename_i unmarked
            rw [if_pos (moved (decided.resolve_right unmarked))]
        | false =>
          have same : (contradicted || read.counts p && read.reference.isSome) = contradicted := by
            obtain none_ | marked := decided
            · rw [none_, Option.isSome_none, Bool.and_false, Bool.or_false]
            · rw [marked, Bool.true_or]
          rw [reaches_cons included moves, same, if_neg Bool.false_ne_true]
          split
          · exact ih stands.tail
          · exact ih stands.tail

omit [DecidableEq ε] in
theorem movedPast_reference (moved : read.movedPast = true) : read.reference = none := by
  rw [movedPast, Bool.and_eq_true, Option.isNone_iff_eq_none] at moved
  exact moved.1

omit [DecidableEq ε] in
/-- Read through the earlier of the term's end and now, either boundary is met by now where one is. -/
theorem ended_now : read.ended read.now =
    ((clockThrough read.silence read.horizon).isSome || read.termBoundary.any (· ≤ read.now)) := by
  unfold ended clockThrough horizon
  cases read.termBoundary with
  | none =>
    cases read.silence with
    | none => rfl
    | some stop => by_cases past : stop ≤ read.now <;> simp [past]
  | some term =>
    cases read.silence with
    | none => simp
    | some stop =>
      simp only [Option.any_some, Option.filter_some]
      by_cases met : term < read.now
      · have le : term ≤ read.now := by omega
        simp [le]
      · by_cases past : stop ≤ read.now
        · simp [met, past]
        · simp [met, past]

omit [DecidableEq ε] in
/-- What a classification without the receipt comes to. -/
theorem conclude_status {found : Classified} (excludes : found.included = false) : (read.conclude found).status =
    if found.contradicted then .contradicted else if found.abandoned then .abandoned
    else if found.lapse.isSome || read.movedPast || read.ended read.now then .lapsed else .pending := by
  rw [ended_now]
  unfold conclude
  rw [excludes, if_neg Bool.false_ne_true]
  cases found.contradicted with
  | true => rfl
  | false =>
    cases found.abandoned with
    | true => rfl
    | false =>
      generalize (clockThrough read.silence read.horizon).isSome = heard
      generalize read.termBoundary.any (· ≤ read.now) = over_
      cases read.movedPast <;> cases heard <;> cases over_ <;> cases found.lapse with
      | none => simp
      | some kind => cases kind <;> simp

omit [DecidableEq ε] in
/-- A boundary met ends the classification too. -/
theorem ended_iff (at_ : Nat) : read.ended at_ = (read.termBoundary.any (· ≤ at_) || (clockThrough read.silence at_).isSome) := by
  unfold ended clockThrough
  cases read.silence with
  | none => rfl
  | some stop => by_cases past : stop ≤ at_ <;> simp [past]

omit [DecidableEq ε] in
theorem live_iff : read.live p = !read.termBoundary.any (· ≤ p.index) := by
  unfold live
  cases read.termBoundary with
  | none => rfl
  | some term =>
    simp only [Option.all_some, Option.any_some, ← decide_not, decide_eq_decide]
    omega

theorem classifyFrom_ended (stands : Stands read (p :: rest)) (ends : read.ended p.index = true) :
    (read.conclude (read.classifyFrom contradicted lastSegment passedOver (p :: rest))).status = lapsedStatus contradicted := by
  have now : read.ended read.now = true := ended_mono (stands.through p List.mem_cons_self) ends
  have met : ∀ lapse, (read.conclude ⟨false, contradicted, false, lapse⟩).status = lapsedStatus contradicted := by
    intro lapse
    rw [conclude_status rfl, now, lapsedStatus, Bool.or_true, if_pos rfl]
    rfl
  rw [classifyFrom, live_iff]
  rw [ended_iff] at ends
  cases over_ : read.termBoundary.any (· ≤ p.index) with
  | true => exact met _
  | false =>
    rw [over_, Bool.false_or] at ends
    rw [ends]
    exact met _

/-- Before either boundary a checkpoint above `after` is taken by its kind. -/
theorem classifyFrom_early (early : read.ended p.index = false) :
    read.classifyFrom contradicted lastSegment passedOver (p :: rest) =
      if !carries p then read.classifyFrom contradicted lastSegment (passedOver + 1) rest
      else if read.own p then
        if read.includes p then ⟨true, contradicted, false, none⟩
        else read.classifyFrom (contradicted || read.counts p && read.reference.isSome) p.sequence 0 rest
      else if read.reference.isNone || contradicted then ⟨false, contradicted, false, none⟩
      else if receiptPassed p then read.classifyFrom contradicted lastSegment (passedOver + 1) rest
      else if p.emptyOpening && passedOver < p.sequence - lastSegment - 1 then ⟨false, contradicted, false, some .repair⟩
      else ⟨false, contradicted, true, none⟩ := by
  rw [ended_iff, Bool.or_eq_false_iff] at early
  rw [classifyFrom, live_iff, early.1, early.2]
  simp only [Bool.not_false, Bool.not_true, if_false, Bool.false_eq_true]
  cases mine : read.own p with
  | false => rfl
  | true =>
    have valid : (!receiptPassed p) = read.counts p := by
      rw [passed_iff, counts, mine, Bool.not_not, Bool.and_true]
    rw [includes, ← valid]

omit [DecidableEq ε] in
theorem passes_other (passed : read.passes p = true) : read.own p = false ∧ receiptPassed p = true := by
  simp only [passes, Bool.and_eq_true, Bool.not_eq_true'] at passed
  exact ⟨passed.1.2, passed.2⟩

omit [DecidableEq ε] in
theorem transition_valid (moves : read.transition p = true) : receiptPassed p = false := by
  simp only [transition, Bool.and_eq_true, decide_eq_true_eq] at moves
  rw [passed_iff, moves.1.1]
  rfl

/-- What is skipped to would have been reached. -/
theorem SkipsFrom.reaches (skips : read.SkipsFrom contradicted points) : read.Reaches points := by
  obtain ⟨pre, r, more, rfl, none_, passed, -, mid, m, post, rfl, included, none'⟩ := skips
  refine ⟨pre ++ r :: mid, m, post, by simp, included, fun q member => ?_⟩
  obtain before | after := List.mem_append.mp member
  · exact none_ q before
  · obtain rfl | later := List.mem_cons.mp after
    · obtain ⟨other, judged⟩ := passes_other passed
      rw [passed_iff] at judged
      refine ⟨includes_other other, ?_⟩
      rw [Bool.not_eq_true'] at judged
      rw [transition, judged, Bool.false_and, Bool.false_and]
    · exact none' q later

theorem not_skips_of_includes (included : read.includes p = true) : ¬ read.SkipsFrom contradicted (p :: rest) := by
  rintro ⟨pre, r, more, split_, none_, passed, -⟩
  have mine := ((Bool.and_eq_true _ _).mp (includes_counts included)).2
  cases pre with
  | nil =>
    obtain ⟨rfl, -⟩ := List.cons.inj split_
    rw [(passes_other passed).1] at mine
    cases mine
  | cons q pre =>
    obtain ⟨rfl, -⟩ := List.cons.inj split_
    have excludes := (none_ p List.mem_cons_self).1
    rw [included] at excludes
    cases excludes

theorem not_skips_of_transition (moves : read.transition p = true) : ¬ read.SkipsFrom contradicted (p :: rest) := by
  rintro ⟨pre, r, more, split_, none_, passed, -⟩
  cases pre with
  | nil =>
    obtain ⟨rfl, -⟩ := List.cons.inj split_
    have valid := transition_valid moves
    rw [(passes_other passed).2] at valid
    cases valid
  | cons q pre =>
    obtain ⟨rfl, -⟩ := List.cons.inj split_
    have stays := (none_ p List.mem_cons_self).2
    rw [moves] at stays
    cases stays

theorem skipsFrom_cons (excludes : read.includes p = false) (stays : read.transition p = false) : read.SkipsFrom contradicted (p :: rest) ↔
    (read.passes p = true ∧ (read.reference = none ∨ contradicted = true) ∧ read.Reaches rest) ∨
      read.SkipsFrom (contradicted || read.counts p && read.reference.isSome) rest := by
  constructor
  · rintro ⟨pre, r, more, split_, none_, passed, decided, reached⟩
    cases pre with
    | nil =>
      obtain ⟨rfl, rfl⟩ := List.cons.inj split_
      refine .inl ⟨passed, ?_, reached⟩
      obtain missing | marked | ⟨q, member, -⟩ := decided
      · exact .inl missing
      · exact .inr marked
      · exact absurd member List.not_mem_nil
    | cons q pre =>
      obtain ⟨rfl, rfl⟩ := List.cons.inj split_
      refine .inr ⟨pre, r, more, rfl, fun q member => none_ q (List.mem_cons_of_mem _ member), passed, ?_, reached⟩
      obtain missing | marked | ⟨q, member, valid⟩ := decided
      · exact .inl missing
      · exact .inr (.inl (by rw [marked, Bool.true_or]))
      · obtain rfl | later := List.mem_cons.mp member
        · cases held : read.reference with
          | none => exact .inl rfl
          | some a => exact .inr (.inl (by rw [valid, Option.isSome_some, Bool.and_self, Bool.or_true]))
        · exact .inr (.inr ⟨q, later, valid⟩)
  · rintro (⟨passed, decided, reached⟩ | ⟨pre, r, more, rfl, none_, passed, decided, reached⟩)
    · exact ⟨[], p, rest, rfl, fun _ member => absurd member List.not_mem_nil, passed, decided.imp_right .inl, reached⟩
    · refine ⟨p :: pre, r, more, rfl, List.forall_mem_cons.mpr ⟨⟨excludes, stays⟩, none_⟩, passed, ?_, reached⟩
      obtain missing | marked | ⟨q, member, valid⟩ := decided
      · exact .inl missing
      · obtain before | now := (Bool.or_eq_true _ _).mp marked
        · exact .inr (.inl before)
        · exact .inr (.inr ⟨p, List.mem_cons_self, ((Bool.and_eq_true _ _).mp now).1⟩)
      · exact .inr (.inr ⟨q, List.mem_cons_of_mem _ member, valid⟩)

omit [DecidableEq ε] in
/-- A classification stopped where it was decided against comes to what the walk does. -/
theorem conclude_decided (decided : read.reference = none ∨ contradicted = true) (moved : read.reference = none → read.movedPast = true) :
    (read.conclude ⟨false, contradicted, false, none⟩).status = lapsedStatus contradicted := by
  rw [conclude_status rfl, lapsedStatus]
  cases marked : contradicted with
  | true => rfl
  | false =>
    have missing := decided.resolve_right (by rw [marked]; exact Bool.false_ne_true)
    rw [moved missing]
    rfl

omit [DecidableEq ε] in
/-- A valid checkpoint of another segment decides as it does in the walk. -/
theorem conclude_transition (repairs : Bool) (moved : read.reference = none → read.movedPast = true) :
    (if contradicted then ReceiptStatus.contradicted else if read.movedPast then .lapsed else if repairs then .lapsed else .abandoned) =
      (read.conclude (if read.reference.isNone || contradicted then ⟨false, contradicted, false, none⟩
        else if repairs then ⟨false, contradicted, false, some .repair⟩ else ⟨false, contradicted, true, none⟩)).status := by
  by_cases decided : read.reference = none ∨ contradicted = true
  · have stops : (read.reference.isNone || contradicted) = true := by
      obtain missing | marked := decided
      · rw [missing]
        rfl
      · rw [marked, Bool.or_true]
    rw [stops, if_pos rfl, conclude_decided decided moved, lapsedStatus]
    split
    · rfl
    · rename_i unmarked
      rw [moved (decided.resolve_right unmarked), if_pos rfl]
  · rw [not_or, Bool.not_eq_true] at decided
    have held : read.movedPast = false := by
      rw [← Bool.not_eq_true]
      exact fun moved => decided.1 (movedPast_reference moved)
    have stops : (read.reference.isNone || contradicted) = false := by
      rw [decided.2, Bool.or_false, ← Bool.not_eq_true, Option.isNone_iff_eq_none]
      exact decided.1
    rw [stops, decided.2, held]
    cases repairs with
    | true => rw [if_neg Bool.false_ne_true, if_neg Bool.false_ne_true, if_neg Bool.false_ne_true, if_pos rfl, if_pos rfl, conclude_status rfl]; rfl
    | false => rw [if_neg Bool.false_ne_true, if_neg Bool.false_ne_true, if_neg Bool.false_ne_true, if_neg Bool.false_ne_true, conclude_status rfl]; rfl

/-- Above `after` the walk and the classification come to one status, but where a passed checkpoint of another segment is met once the receipt
was decided against and one that includes it follows. -/
theorem agree_above (stands : Stands read points) (moved : points ≠ [] → read.reference = none → read.movedPast = true) : read.walkAbove contradicted lastSegment passedOver points =
    (read.conclude (read.classifyFrom contradicted lastSegment passedOver points)).status ↔ ¬ read.SkipsFrom contradicted points := by
  induction points generalizing contradicted lastSegment passedOver with
  | nil =>
    refine ⟨fun _ => ?_, fun _ => ?_⟩
    · rintro ⟨pre, r, rest, split_, -⟩
      cases pre <;> cases split_
    · rw [walkAbove, classifyFrom, conclude_status rfl, lapsedStatus]
      cases contradicted <;> cases read.ended read.now <;> cases read.movedPast <;> rfl
  | cons p rest ih =>
    cases ends : read.ended p.index with
    | true =>
      refine ⟨fun _ skips => stands.not_reaches ends skips.reaches, fun _ => ?_⟩
      rw [classifyFrom_ended stands ends, walkAbove, ends, if_pos rfl]
    | false =>
      rw [walkAbove, ends, if_neg Bool.false_ne_true, classifyFrom_early ends]
      cases included : read.includes p with
      | true =>
        have mine := ((Bool.and_eq_true _ _).mp (includes_counts included)).2
        refine ⟨fun _ => not_skips_of_includes included, fun _ => ?_⟩
        rw [own_carries mine, mine]
        rfl
      | false =>
        rw [if_neg Bool.false_ne_true, if_neg Bool.false_ne_true]
        cases moves : read.transition p with
        | true =>
          have carried : carries p = true := by
            simp only [transition, Bool.and_eq_true] at moves
            exact moves.1.2
          refine ⟨fun _ => not_skips_of_transition moves, fun _ => ?_⟩
          rw [carried, transition_other moves, transition_valid moves]
          simp only [Bool.not_true, Bool.false_eq_true, if_false, if_true]
          exact conclude_transition _ (moved (List.cons_ne_nil _ _))
        | false =>
          rw [skipsFrom_cons included moves]
          cases mine : read.own p with
          | true =>
            have stays : ¬ (read.passes p = true ∧ (read.reference = none ∨ contradicted = true) ∧ read.Reaches rest) := fun skips => by
              rw [(passes_other skips.1).1] at mine
              cases mine
            rw [own_carries mine, or_iff_right stays]
            exact ih stands.tail fun _ => moved (List.cons_ne_nil _ _)
          | false =>
            have none_ : (contradicted || read.counts p && read.reference.isSome) = contradicted := by
              rw [counts, mine, Bool.and_false, Bool.false_and, Bool.or_false]
            rw [none_, if_neg Bool.false_ne_true, if_neg Bool.false_ne_true]
            cases carried : carries p with
            | false =>
              have stays : ¬ (read.passes p = true ∧ (read.reference = none ∨ contradicted = true) ∧ read.Reaches rest) := fun skips => by
                have passed := skips.1
                rw [passes, carried] at passed
                cases passed
              rw [or_iff_right stays]
              exact ih stands.tail fun _ => moved (List.cons_ne_nil _ _)
            | true =>
              have judged : receiptPassed p = true := by
                rw [passed_iff, Bool.not_eq_true']
                simpa [transition, carried, mine] using moves
              have passed : read.passes p = true := by rw [passes, carried, mine, judged]; rfl
              rw [judged]
              by_cases decided : read.reference = none ∨ contradicted = true
              · obtain ⟨reached, missed⟩ := @walkAbove_decided _ _ read _ _ lastSegment (passedOver + 1) decided
                  (moved (List.cons_ne_nil _ _)) stands.tail
                have stops : (read.reference.isNone || contradicted) = true := by
                  obtain missing | marked := decided
                  · rw [missing]
                    rfl
                  · rw [marked, Bool.or_true]
                have lapses := conclude_decided decided (moved (List.cons_ne_nil _ _))
                simp only [Bool.not_true, Bool.false_eq_true, if_false, stops, if_true, lapses, passed, true_and, decided]
                by_cases reaches : read.Reaches rest
                · rw [reached reaches]
                  refine ⟨fun same => ?_, fun none_ => absurd (.inl reaches) none_⟩
                  cases contradicted <;> cases same
                · rw [missed reaches]
                  exact ⟨fun _ skips => skips.elim reaches fun later => reaches later.reaches, fun _ => rfl⟩
              · have stops : (read.reference.isNone || contradicted) = false := by
                  rw [not_or, Bool.not_eq_true, ← Option.isNone_iff_eq_none, Bool.not_eq_true] at decided
                  rw [decided.1, decided.2]
                  rfl
                have stays : ¬ (read.passes p = true ∧ (read.reference = none ∨ contradicted = true) ∧ read.Reaches rest) :=
                  fun skips => decided skips.2.1
                rw [or_iff_right stays]
                simp only [Bool.not_true, Bool.false_eq_true, if_false, stops, if_true]
                exact ih stands.tail fun _ => moved (List.cons_ne_nil _ _)

end Above

section Verdicts

variable {verdict : ReceiptVerdict}

omit [DecidableEq ε] in
theorem finishAs_referred {status : ReceiptStatus} {included : List ReceiptFact} {lapse : Option (LapseKind × Option Nat)}
    {abandoned : Option ReceiptFact} (done : read.finishAs walk status included lapse abandoned = .ok verdict) : read.Referred := by
  obtain ⟨_, checked, -⟩ := bind_eq_ok.mp done
  exact checked

omit [DecidableEq ε] in
theorem lapseAs_referred {kind : LapseKind} {at_ : Option Nat} (done : read.lapseAs walk kind at_ = .ok verdict) : read.Referred := by
  rw [lapseAs] at done
  split at done
  · exact finishAs_referred done
  · exact finishAs_referred done

theorem map_some_eq_ok {α β : Type} {x : Except Failure α} {f : α → β} {b : β} (done : x.map f = .ok b) : ∃ a, x = .ok a ∧ f a = b := by
  cases x with
  | error failure => cases done
  | ok a => exact ⟨a, rfl, Except.ok.inj done⟩

omit [DecidableEq ε] in
theorem boundary_referred {at_ : Nat} {clock : Option Nat} (done : read.boundary walk at_ clock = .ok (some verdict)) : read.Referred := by
  unfold boundary at done
  split at done
  · cases done
  · split at done
    · obtain ⟨own_, lapsed, -⟩ := map_some_eq_ok done
      exact lapseAs_referred lapsed
    · cases done

omit [DecidableEq ε] in
theorem boundaryAt_referred {openingIndex : Option Nat} {at_ : Nat} (done : read.boundaryAt walk openingIndex at_ = .ok (some verdict)) :
    read.Referred := by
  unfold boundaryAt at done
  split at done
  · exact boundary_referred done
  · exact boundary_referred done

omit [DecidableEq ε] in
theorem transitionAt_referred (done : read.transitionAt walk p = .ok verdict) : read.Referred := by
  unfold transitionAt at done
  split at done
  · exact finishAs_referred done
  · split at done
    · exact lapseAs_referred done
    · split at done
      · exact lapseAs_referred done
      · exact finishAs_referred done

theorem checkpoint_referred {later : ReceiptWalk} (done : read.checkpoint walk p = .ok (later, some verdict)) : read.Referred := by
  obtain ⟨_, -, done⟩ := bind_eq_ok.mp done
  obtain ⟨_, -, done⟩ := bind_eq_ok.mp done
  split at done
  · obtain ⟨own_, final, -⟩ := map_some_eq_ok done
    exact finishAs_referred final
  · unfold proceed at done
    split at done
    · cases done
    · split at done
      · cases done
      · split at done
        · cases done
        · obtain ⟨own_, decided, -⟩ := map_some_eq_ok done
          exact transitionAt_referred decided

/-- A walk comes to a verdict only where its reference is of the segment. -/
theorem walkFrom_referred {points : List (ReceiptPoint ε)} {openingIndex : Option Nat}
    (done : read.walkFrom walk openingIndex points = .ok verdict) : read.Referred := by
  induction points generalizing walk openingIndex with
  | nil =>
    obtain ⟨met, bounded, done⟩ := bind_eq_ok.mp done
    cases met with
    | some own_ => exact boundaryAt_referred bounded
    | none =>
      change read.finish walk = .ok verdict at done
      unfold finish at done
      split at done
      · exact finishAs_referred done
      · split at done
        · exact lapseAs_referred done
        · exact finishAs_referred done
  | cons p rest ih =>
    obtain ⟨met, bounded, done⟩ := bind_eq_ok.mp done
    cases met with
    | some own_ => exact boundaryAt_referred bounded
    | none =>
      obtain ⟨⟨later, told⟩, stepped, done⟩ := bind_eq_ok.mp done
      cases told with
      | some own_ => exact checkpoint_referred stepped
      | none => exact ih done

end Verdicts

section Whole

/-- An operator's held checkpoints as a reader classifies them: the segment was opened, nothing of it stands at or past a boundary, and its
valid checkpoints continue one another. -/
structure ReceiptRecord (read : ReceiptRead ε) : Prop where
  rising : read.points.Pairwise fun a b => a.index ≤ b.index ∧ a.sequence < b.sequence
  through : ∀ p ∈ read.points, p.index ≤ read.now
  fromOpening : ∀ p ∈ read.points, read.own p = true → read.opening ≤ p.sequence
  opened : ∃ p ∈ read.points, read.own p = true ∧ p.sequence = read.opening ∧ p.classification ≠ .lapsed
  named : read.opening ≤ read.after
  ends : ∀ p ∈ read.points, read.own p = true → read.ended p.index = true → p.classification = .lapsed
  continues : ∀ a ∈ read.points, ∀ b ∈ read.points, read.counts a = true → read.counts b = true → a.sequence < b.sequence →
    a.event.isSome = true → b.event = a.event

/-- The walk takes as final a receipt the classification stopped short of. -/
def SkipsInclusion (read : ReceiptRead ε) : Prop :=
  read.Referred ∧ (∀ p ∈ read.points, p.sequence ≤ read.after → read.includes p = false) ∧
    read.SkipsFrom false (read.points.filter (read.after < ·.sequence))

variable {points above : List (ReceiptPoint ε)} {contradicted : Bool}

omit [DecidableEq ε] in
theorem ReceiptRecord.stands (record : ReceiptRecord read) : Stands read read.points :=
  ⟨record.rising.imp fun both => both.1, record.through, record.ends⟩

omit [DecidableEq ε] in
theorem Stands.sublist (stands : Stands read points) (sub : above.Sublist points) : Stands read above :=
  ⟨stands.rising.sublist sub, fun p member => stands.through p (sub.subset member), fun p member => stands.ends p (sub.subset member)⟩

omit [DecidableEq ε] in
/-- Sequences in order are cut at `after`. -/
theorem filter_after {low after : Nat} (le : low ≤ after) (rising : points.Pairwise (·.sequence < ·.sequence)) :
    points.filter (fun p => low ≤ p.sequence) = points.filter (fun p => low ≤ p.sequence && p.sequence ≤ after) ++
      points.filter fun p => after < p.sequence := by
  induction points with
  | nil => rfl
  | cons p rest ih =>
    obtain ⟨first, later⟩ := List.pairwise_cons.mp rising
    obtain before | past := Nat.lt_or_ge after p.sequence
    · have none_ : (p :: rest).filter (fun q => low ≤ q.sequence && q.sequence ≤ after) = [] := by
        refine List.filter_eq_nil_iff.mpr fun q member => ?_
        have above : after < q.sequence := by
          obtain rfl | inside := List.mem_cons.mp member
          · exact before
          · exact Nat.lt_trans before (first q inside)
        simp only [Bool.and_eq_true, decide_eq_true_eq]
        omega
      rw [none_, List.nil_append]
      refine List.filter_congr fun q member => ?_
      have above : after < q.sequence := by
        obtain rfl | inside := List.mem_cons.mp member
        · exact before
        · exact Nat.lt_trans before (first q inside)
      have low_ : low ≤ q.sequence := by omega
      simp only [low_, above]
    · have least : ¬ after < p.sequence := by omega
      rw [List.filter_cons, List.filter_cons, List.filter_cons, ih later]
      simp only [past, least, decide_true, decide_false, Bool.and_true, Bool.false_eq_true, if_false]
      split <;> rfl

/-- The walk's status before the boundaries it meets are told apart. -/
theorem walkBelow_eq (stands : Stands read (points ++ above)) : read.walkBelow above contradicted points =
    if points.any read.includes then .final
    else read.walkAbove (contradicted || points.any fun p => read.counts p && p.event.isSome) read.after 0 above := by
  induction points generalizing contradicted with
  | nil => simp [walkBelow]
  | cons p rest ih =>
    rw [walkBelow, List.any_cons, List.any_cons]
    cases ends : read.ended p.index with
    | true =>
      have none_ := stands.none_included ends
      have counted : ∀ q ∈ p :: (rest ++ above), read.counts q = false := by
        intro q member
        cases valid : read.counts q with
        | false => rfl
        | true =>
          have early := stands.counts_early member valid
          have le : p.index ≤ q.index := by
            obtain rfl | later := List.mem_cons.mp member
            · exact Nat.le_refl _
            · exact (List.pairwise_cons.mp stands.rising).1 q later
          rw [ended_mono le ends] at early
          cases early
      have others : rest.any read.includes = false := by
        refine List.any_eq_false.mpr fun q member => ?_
        rw [none_ q (List.mem_cons_of_mem _ (List.mem_append_left _ member))]
        exact Bool.false_ne_true
      have unmarked : rest.any (fun q => read.counts q && q.event.isSome) = false := by
        refine List.any_eq_false.mpr fun q member => ?_
        rw [counted q (List.mem_cons_of_mem _ (List.mem_append_left _ member)), Bool.false_and]
        exact Bool.false_ne_true
      rw [none_ p List.mem_cons_self, others, counted p List.mem_cons_self, unmarked]
      simp only [if_true, Bool.false_and, Bool.or_self, Bool.or_false, Bool.false_eq_true, if_false]
      cases above with
      | nil =>
        have now : read.ended read.now = true := ended_mono (stands.through p List.mem_cons_self) ends
        rw [walkAbove, now, if_pos rfl]
      | cons q more =>
        have later : read.ended q.index = true :=
          ended_mono ((List.pairwise_cons.mp stands.rising).1 q (List.mem_append_right _ List.mem_cons_self)) ends
        rw [walkAbove, later, if_pos rfl]
    | false =>
      rw [if_neg Bool.false_ne_true]
      cases included : read.includes p with
      | true => rw [Bool.true_or, if_pos rfl, if_pos rfl]
      | false =>
        rw [if_neg Bool.false_ne_true, ih stands.tail, Bool.false_or, Bool.or_assoc]

/-- The checkpoints from the opening through `after`. -/
def through (read : ReceiptRead ε) : List (ReceiptPoint ε) :=
  read.points.filter fun p => read.opening ≤ p.sequence && p.sequence ≤ read.after

def beyond (read : ReceiptRead ε) : List (ReceiptPoint ε) := read.points.filter (read.after < ·.sequence)

/-- Whether a valid checkpoint through `after` has an event at the receipt's position. -/
def taken (read : ReceiptRead ε) : Bool := read.through.any fun p => read.counts p && p.event.isSome

omit [DecidableEq ε] in
theorem ReceiptRecord.sequences (record : ReceiptRecord read) : read.points.Pairwise (·.sequence < ·.sequence) :=
  record.rising.imp fun both => both.2

omit [DecidableEq ε] in
/-- The walk begins at the segment's opening. -/
theorem ReceiptRecord.opening_first (record : ReceiptRecord read) : ∃ o rest, read.through = o :: rest ∧ read.own o = true ∧
    o.sequence = read.opening ∧ o.classification ≠ .lapsed := by
  obtain ⟨o, member, mine, sequence, founds⟩ := record.opened
  have inside : o ∈ read.through := List.mem_filter.mpr ⟨member, by
    rw [sequence]
    simp only [Nat.le_refl, record.named, decide_true, Bool.and_self]⟩
  have rising : read.through.Pairwise (·.sequence < ·.sequence) := record.sequences.filter _
  have least : ∀ p ∈ read.through, read.opening ≤ p.sequence := fun p member => by
    have bounds := (List.mem_filter.mp member).2
    simp only [Bool.and_eq_true, decide_eq_true_eq] at bounds
    exact bounds.1
  cases whole : read.through with
  | nil =>
    rw [whole] at inside
    cases inside
  | cons h rest =>
    rw [whole] at inside rising least
    obtain rfl | later := List.mem_cons.mp inside
    · exact ⟨o, rest, rfl, mine, sequence, founds⟩
    · have before := (List.pairwise_cons.mp rising).1 o later
      have from_ := least h List.mem_cons_self
      omega

/-- From the segment's opening, before either boundary, a walk goes on as an opened one. -/
theorem walkFrom_opening (referred : read.Referred) {o : ReceiptPoint ε} {rest beyond : List (ReceiptPoint ε)}
    (opens : Opens read read.start o) (early : read.ended o.index = false) (below : ∀ p ∈ o :: rest, p.sequence ≤ read.after)
    (after : ∀ p ∈ beyond, read.after < p.sequence) : ∃ verdict, read.walkFrom read.start none (o :: (rest ++ beyond)) = .ok verdict ∧
      verdict.status = read.walkBelow beyond false (o :: rest) := by
  have founded : (o.classification ≠ .lapsed && read.own o && o.sequence = read.opening : Bool) = true := by
    obtain opened | founds := opens
    · cases opened
    · simp only [Bool.and_eq_true] at founds ⊢
      exact ⟨⟨founds.2, founds.1.1⟩, founds.1.2⟩
  have unmet : read.boundaryAt read.start none o.index = .ok none := by
    rw [ended, Bool.or_eq_false_iff] at early
    unfold boundaryAt boundary endOf start
    cases term : read.termBoundary with
    | none => rfl
    | some stop =>
      rw [term] at early
      have later : ¬ stop ≤ o.index := by simpa using early.1
      simp only [Bool.false_eq_true, if_false, later]
  obtain ⟨first, others⟩ := List.forall_mem_cons.mp below
  rw [walkBelow, early, if_neg Bool.false_ne_true, walkFrom, unmet, founded]
  cases included : read.includes o with
  | true =>
    obtain ⟨later, verdict, done, status⟩ := checkpoint_includes referred opens included
    rw [done]
    exact ⟨verdict, rfl, status⟩
  | false =>
    obtain ⟨later, done, stands, last, none_, marks⟩ := checkpoint_below referred opens first included
    obtain ⟨verdict, run, status⟩ := walkFrom_below referred others after stands last none_ o.index
    have marked : (later.contradictedAt ≠ [] : Bool) = (false || read.counts o && o.event.isSome) := by
      rw [Bool.eq_iff_iff, Bool.or_eq_true, decide_eq_true_eq]
      refine marks.trans (or_congr_left ?_)
      simp [start]
    rw [done, if_neg Bool.false_ne_true, ← marked]
    exact ⟨verdict, run, status⟩

/-- A walk over a record comes to a verdict: final where a checkpoint through `after` includes the receipt, else the status above. -/
theorem ReceiptRecord.receiptWalk_status (record : ReceiptRecord read) (referred : read.Referred) :
    ∃ verdict, read.receiptWalk = .ok verdict ∧ verdict.status =
      if read.through.any read.includes then .final else read.walkAbove read.taken read.after 0 read.beyond := by
  obtain ⟨o, rest, whole, mine, sequence, founds⟩ := record.opening_first
  have cut : read.points.filter (read.opening ≤ ·.sequence) = o :: rest ++ read.beyond := by
    rw [← whole]
    exact filter_after record.named record.sequences
  have sub : (o :: rest ++ read.beyond).Sublist read.points := cut ▸ List.filter_sublist
  have stands := record.stands.sublist sub
  have below : ∀ p ∈ o :: rest, p.sequence ≤ read.after := fun p member => by
    rw [← whole] at member
    have bounds := (List.mem_filter.mp member).2
    simp only [Bool.and_eq_true, decide_eq_true_eq] at bounds
    exact bounds.2
  have after : ∀ p ∈ read.beyond, read.after < p.sequence := fun p member => of_decide_eq_true (List.mem_filter.mp member).2
  have early : read.ended o.index = false := by
    cases ends : read.ended o.index with
    | false => rfl
    | true => exact absurd (stands.ends o List.mem_cons_self mine ends) founds
  have opens : Opens read read.start o := .inr (by simp [mine, sequence, founds])
  obtain ⟨verdict, run, status⟩ := walkFrom_opening referred opens early below after
  have same := @walkBelow_eq _ _ read _ _ false stands
  rw [Bool.false_or, ← whole] at same
  refine ⟨verdict, bind_eq_ok.mpr ⟨(), require_eq_ok.mpr (decide_eq_true record.named), ?_⟩, status.trans (whole ▸ same)⟩
  rw [cut]
  exact run

omit [DecidableEq ε] in
theorem reference_some {a : ReceiptPoint ε} (held : read.reference = some a) : a ∈ read.points ∧ a.sequence = read.after := by
  unfold reference at held
  exact ⟨List.mem_of_find?_eq_some held, by simpa using List.find?_some held⟩

omit [DecidableEq ε] in
theorem referred_own (referred : read.Referred) {a : ReceiptPoint ε} (held : read.reference = some a) : read.own a = true := by
  unfold Referred checkReference at referred
  rw [held] at referred
  exact require_eq_ok.mp referred

omit [DecidableEq ε] in
theorem counts_iff : read.counts p = true ↔ read.own p = true ∧ receiptPassed p = false := by
  rw [counts, passed_iff, Bool.and_eq_true, Bool.not_eq_false', and_comm]

omit [DecidableEq ε] in
theorem ReceiptRecord.counts_live (record : ReceiptRecord read) (member : p ∈ read.points) (valid : read.counts p = true) :
    read.live p = true := by
  have early := record.stands.counts_early member valid
  rw [ended, Bool.or_eq_false_iff] at early
  rw [live_iff, early.1]
  rfl

/-- The latest valid checkpoint of the segment through `after`, if there is one. -/
structure LatestThrough (read : ReceiptRead ε) (b : ReceiptPoint ε) : Prop where
  member : b ∈ read.points
  within : b.sequence ≤ read.after
  valid : read.counts b = true
  last : ∀ p ∈ read.points, p.sequence ≤ read.after → read.counts p = true → p = b ∨ p.sequence < b.sequence

omit [DecidableEq ε] in
theorem eq_of_sequence (rising : points.Pairwise (·.sequence < ·.sequence)) {a b : ReceiptPoint ε} (first : a ∈ points) (second : b ∈ points)
    (same : a.sequence = b.sequence) : a = b := by
  induction points with
  | nil => cases first
  | cons p rest ih =>
    obtain ⟨before, later⟩ := List.pairwise_cons.mp rising
    obtain rfl | inside := List.mem_cons.mp first
    · obtain rfl | inside' := List.mem_cons.mp second
      · rfl
      · have := before b inside'
        omega
    · obtain rfl | inside' := List.mem_cons.mp second
      · have := before a inside
        omega
      · exact ih later inside inside'

omit [DecidableEq ε] in
theorem ReceiptRecord.base_spec (record : ReceiptRecord read) (referred : read.Referred) :
    (read.base = none → ∀ p ∈ read.points, p.sequence ≤ read.after → read.counts p = false) ∧
      ∀ b, read.base = some b → LatestThrough read b := by
  have belowNone : (read.points.reverse.find? fun p => p.sequence < read.after && read.live p && read.own p && !receiptPassed p) = none →
      ∀ p ∈ read.points, p.sequence < read.after → read.counts p = false := by
    intro missing p member less
    cases valid : read.counts p with
    | false => rfl
    | true =>
      have refused := List.find?_eq_none.mp missing p (List.mem_reverse.mpr member)
      obtain ⟨mine, judged⟩ := counts_iff.mp valid
      exact absurd (by simp [less, record.counts_live member valid, mine, judged]) refused
  have belowSome : ∀ b, (read.points.reverse.find? fun p => p.sequence < read.after && read.live p && read.own p && !receiptPassed p) = some b →
      b ∈ read.points ∧ b.sequence < read.after ∧ read.counts b = true ∧
        ∀ p ∈ read.points, p.sequence < read.after → read.counts p = true → p = b ∨ p.sequence < b.sequence := by
    intro b found
    obtain ⟨test, before, later, split_, none_⟩ := List.find?_eq_some_iff_append.mp found
    simp only [Bool.and_eq_true, decide_eq_true_eq, Bool.not_eq_true'] at test
    refine ⟨List.mem_reverse.mp (List.mem_of_find?_eq_some found), test.1.1.1, counts_iff.mpr ⟨test.1.2, test.2⟩, fun p member less valid => ?_⟩
    have rising : (before ++ b :: later).Pairwise fun x y => y.sequence < x.sequence := split_ ▸ List.pairwise_reverse.mpr record.sequences
    have inside : p ∈ before ++ b :: later := split_ ▸ List.mem_reverse.mpr member
    obtain early | late := List.mem_append.mp inside
    · have refused := none_ p early
      obtain ⟨mine, judged⟩ := counts_iff.mp valid
      simp [less, record.counts_live member valid, mine, judged] at refused
    · obtain rfl | after := List.mem_cons.mp late
      · exact .inl rfl
      · exact .inr ((List.pairwise_cons.mp (List.pairwise_append.mp rising).2.1).1 p after)
  have latest : ∀ b, (∀ p ∈ read.points, p.sequence = read.after → read.counts p = false) →
      (read.points.reverse.find? fun p => p.sequence < read.after && read.live p && read.own p && !receiptPassed p) = some b →
      LatestThrough read b := by
    intro b absent found
    obtain ⟨member, less, valid, last⟩ := belowSome b found
    refine ⟨member, Nat.le_of_lt less, valid, fun p inside within counted => ?_⟩
    obtain below | at_ := Nat.lt_or_eq_of_le within
    · exact last p inside below counted
    · rw [absent p inside at_] at counted
      cases counted
  have absent : ∀ p ∈ read.points, (∀ q ∈ read.points, q.sequence = read.after → read.counts q = false) →
      (read.points.reverse.find? fun p => p.sequence < read.after && read.live p && read.own p && !receiptPassed p) = none →
      p.sequence ≤ read.after → read.counts p = false := by
    intro p member at_ missing within
    obtain below | same := Nat.lt_or_eq_of_le within
    · exact belowNone missing p member below
    · exact at_ p member same
  unfold base
  cases held : read.reference with
  | none =>
    have unheld : ∀ p ∈ read.points, p.sequence = read.after → read.counts p = false := by
      intro p member same
      unfold reference at held
      exact absurd (decide_eq_true same) (List.find?_eq_none.mp held p member)
    exact ⟨fun missing p member => absent p member unheld missing, fun b found => latest b unheld found⟩
  | some a =>
    obtain ⟨member, same⟩ := reference_some held
    have mine := referred_own referred held
    simp only
    split
    · rename_i stands
      simp only [Bool.and_eq_true, Bool.not_eq_true'] at stands
      refine ⟨fun missing => (by cases missing), fun b found => ?_⟩
      obtain rfl := Option.some.inj found
      refine ⟨member, Nat.le_of_eq same, counts_iff.mpr ⟨mine, stands.2⟩, fun p inside within _ => ?_⟩
      obtain below | at_ := Nat.lt_or_eq_of_le within
      · exact .inr (by omega)
      · exact .inl (eq_of_sequence record.sequences inside member (at_.trans same.symm))
    · rename_i falls
      have unheld : ∀ p ∈ read.points, p.sequence = read.after → read.counts p = false := by
        intro p inside at_
        obtain rfl := eq_of_sequence record.sequences inside member (at_.trans same.symm)
        cases valid : read.counts p with
        | false => rfl
        | true => exact absurd (by simp [record.counts_live member valid, (counts_iff.mp valid).2]) falls
      exact ⟨fun missing p member => absent p member unheld missing, fun b found => latest b unheld found⟩

omit [DecidableEq ε] in
theorem referred_required (referred : read.Referred) : read.requireReference = .ok () := by
  unfold requireReference
  cases held : read.reference with
  | none => rfl
  | some a => exact require_eq_ok.mpr (referred_own referred held)

/-- The classification comes to a verdict as the walk does: final where a checkpoint through `after` includes the receipt. -/
theorem ReceiptRecord.classify_status (record : ReceiptRecord read) (referred : read.Referred) :
    ∃ verdict, read.classify = .ok verdict ∧ verdict.status = if read.through.any read.includes then .final
      else (read.conclude (read.classifyFrom read.taken read.after 0 read.beyond)).status := by
  obtain ⟨missing, found⟩ := record.base_spec referred
  refine ⟨_, bind_eq_ok.mpr ⟨(), referred_required referred, rfl⟩, ?_⟩
  have inside : ∀ p, p ∈ read.through → p ∈ read.points ∧ p.sequence ≤ read.after := fun p member => by
    obtain ⟨member, bounds⟩ := List.mem_filter.mp member
    simp only [Bool.and_eq_true, decide_eq_true_eq] at bounds
    exact ⟨member, bounds.2⟩
  cases first : read.base with
  | none =>
    have none_ := missing first
    have excludes : read.through.any read.includes = false := List.any_eq_false.mpr fun p member => by
      rw [includes, none_ p (inside p member).1 (inside p member).2, Bool.false_and]
      exact Bool.false_ne_true
    have free : read.taken = false := List.any_eq_false.mpr fun p member => by
      rw [none_ p (inside p member).1 (inside p member).2, Bool.false_and]
      exact Bool.false_ne_true
    rw [excludes, free]
    rfl
  | some b =>
    obtain ⟨member, within, valid, last⟩ := found b first
    have mine := (counts_iff.mp valid).1
    have listed : b ∈ read.through := List.mem_filter.mpr ⟨member, by simp [record.fromOpening b member mine, within]⟩
    have later : ∀ p ∈ read.through, read.counts p = true → ∀ event, p.event = some event → b.event = some event := by
      intro p inside_ counted event same
      obtain rfl | before := last p (inside p inside_).1 (inside p inside_).2 counted
      · exact same
      · exact (record.continues p (inside p inside_).1 b member counted valid before (by rw [same]; rfl)).trans same
    rw [classifyBase]
    by_cases matched : b.event = some read.event
    · have included : read.through.any read.includes = true := List.any_eq_true.mpr ⟨b, listed, by rw [includes, valid, matched]; simp⟩
      rw [if_pos matched, included]
      rfl
    · have excludes : read.through.any read.includes = false := List.any_eq_false.mpr fun p member included => by
        rw [includes, Bool.and_eq_true, decide_eq_true_eq] at included
        exact matched (later p member included.1 _ included.2)
      have marks : read.taken = b.event.isSome := by
        cases event : b.event with
        | some e => exact List.any_eq_true.mpr ⟨b, listed, by rw [valid, event]; rfl⟩
        | none =>
          refine List.any_eq_false.mpr fun p member counted => ?_
          rw [Bool.and_eq_true] at counted
          obtain ⟨e, same⟩ := Option.isSome_iff_exists.mp counted.2
          have taken_ := later p member counted.1 e same
          rw [event] at taken_
          cases taken_
      rw [if_neg matched, excludes, marks]
      rfl

theorem ReceiptRecord.skips_iff (record : ReceiptRecord read) (excludes : read.through.any read.includes = false) :
    read.SkipsFrom read.taken read.beyond ↔ read.SkipsFrom false read.beyond := by
  cases marks : read.taken with
  | false => exact Iff.rfl
  | true =>
    obtain ⟨p, member, counted⟩ := List.any_eq_true.mp marks
    rw [Bool.and_eq_true] at counted
    obtain ⟨e, same⟩ := Option.isSome_iff_exists.mp counted.2
    obtain ⟨inside, bounds⟩ := List.mem_filter.mp member
    simp only [Bool.and_eq_true, decide_eq_true_eq] at bounds
    have unreached : ¬ read.Reaches read.beyond := by
      rintro ⟨mid, m, post, split_, included, -⟩
      have later : m ∈ read.beyond := split_ ▸ List.mem_append_right _ List.mem_cons_self
      obtain ⟨inside', after⟩ := List.mem_filter.mp later
      have above : p.sequence < m.sequence := by
        have := of_decide_eq_true after
        omega
      have kept := (record.continues p inside m inside' counted.1 (includes_counts included) above counted.2).trans same
      have matched := ((Bool.and_eq_true _ _).mp included).2
      rw [decide_eq_true_eq, kept, ← same] at matched
      have none_ := List.any_eq_false.mp excludes p member
      exact none_ (by rw [includes, counted.1, matched]; simp)
    exact ⟨fun skips => absurd skips.reaches unreached, fun skips => absurd skips.reaches unreached⟩

omit [DecidableEq ε] in
theorem required_referred (required : read.requireReference = .ok ()) : read.Referred := by
  unfold requireReference at required
  unfold Referred checkReference
  cases held : read.reference with
  | none => rfl
  | some a =>
    rw [held] at required
    exact require_eq_ok.mpr (require_eq_ok.mp required)

def walkStatus (read : ReceiptRead ε) : Option ReceiptStatus := read.receiptWalk.toOption.map (·.status)

def classifyStatus (read : ReceiptRead ε) : Option ReceiptStatus := read.classify.toOption.map (·.status)

/-- Where the reference is not of the segment neither comes to a verdict. -/
theorem unreferred (none_ : ¬ read.Referred) : read.walkStatus = none ∧ read.classifyStatus = none := by
  unfold walkStatus classifyStatus
  constructor
  · cases done : read.receiptWalk with
    | error failure => rfl
    | ok verdict =>
      obtain ⟨_, -, run⟩ := bind_eq_ok.mp done
      exact absurd (walkFrom_referred run) none_
  · cases done : read.classify with
    | error failure => rfl
    | ok verdict =>
      obtain ⟨_, required, -⟩ := bind_eq_ok.mp done
      exact absurd (required_referred required) none_

end Whole

/-- A receipt's walk and its classification come to one status but where, with no checkpoint through `after` including the receipt and no
transition yet, a passed checkpoint of another segment follows a checkpoint above `after` that lacks it, or an `after` not held, and one that
includes it comes later. -/
theorem receipt_agrees (record : ReceiptRecord read) : read.walkStatus = read.classifyStatus ↔ ¬ read.SkipsInclusion := by
  by_cases referred : read.Referred
  · obtain ⟨verdict, walked, status⟩ := record.receiptWalk_status referred
    obtain ⟨verdict', classified, status'⟩ := record.classify_status referred
    have statuses : read.walkStatus = read.classifyStatus ↔ verdict.status = verdict'.status := by
      unfold walkStatus classifyStatus
      rw [walked, classified]
      exact Option.some_inj
    rw [statuses, status, status']
    cases excludes : read.through.any read.includes with
    | true =>
      obtain ⟨p, member, included⟩ := List.any_eq_true.mp excludes
      obtain ⟨inside, bounds⟩ := List.mem_filter.mp member
      simp only [Bool.and_eq_true, decide_eq_true_eq] at bounds
      refine ⟨fun _ skips => ?_, fun _ => rfl⟩
      have none_ := skips.2.1 p inside bounds.2
      rw [included] at none_
      cases none_
    | false =>
      have none_ : ∀ p ∈ read.points, p.sequence ≤ read.after → read.includes p = false := by
        intro p member within
        cases included : read.includes p with
        | false => rfl
        | true =>
          have mine := (counts_iff.mp (includes_counts included)).1
          have listed : p ∈ read.through := List.mem_filter.mpr ⟨member, by simp [record.fromOpening p member mine, within]⟩
          exact absurd included (List.any_eq_false.mp excludes p listed)
      have moved : read.beyond ≠ [] → read.reference = none → read.movedPast = true := by
        intro some_ missing
        obtain ⟨p, member⟩ := List.exists_mem_of_ne_nil _ some_
        obtain ⟨inside, after⟩ := List.mem_filter.mp member
        rw [movedPast, missing]
        exact List.any_eq_true.mpr ⟨p, inside, after⟩
      have stands : Stands read read.beyond := record.stands.sublist List.filter_sublist
      rw [if_neg Bool.false_ne_true, if_neg Bool.false_ne_true, agree_above stands moved, record.skips_iff excludes]
      exact not_congr ⟨fun skips => ⟨referred, none_, skips⟩, fun skips => skips.2.2⟩
  · obtain ⟨none_, none'⟩ := unreferred referred
    rw [none_, none']
    exact ⟨fun _ skips => referred skips.1, fun _ => rfl⟩


end ReceiptRead

section Samples

open ReceiptRead

/-- A segment's checkpoints, the one at three without the receipt's event, an excluded opening of another segment, and the event at last. -/
def sampleSkipped : ReceiptRead Nat where
  segment := 7
  opening := 1
  after := 2
  event := 9
  termBoundary := none
  silence := none
  now := 10
  points := [⟨1, 1, some 7, .valid, true, none⟩, ⟨2, 2, some 7, .valid, false, none⟩, ⟨3, 3, some 7, .valid, false, none⟩,
    ⟨4, 4, some 8, .excluded, true, none⟩, ⟨5, 5, some 7, .valid, false, some 9⟩]

theorem sampleSkipped_record : ReceiptRecord sampleSkipped where
  rising := by decide
  through := by decide
  fromOpening := by decide
  opened := by decide
  named := by decide
  ends := by decide
  continues := by decide

theorem receipt_agrees_sample : sampleSkipped.walkStatus = sampleSkipped.classifyStatus ↔ ¬ sampleSkipped.SkipsInclusion :=
  receipt_agrees sampleSkipped_record

theorem receipt_disagrees : ReceiptRecord sampleSkipped ∧ sampleSkipped.walkStatus = some .final ∧
    sampleSkipped.classifyStatus = some .contradicted := ⟨sampleSkipped_record, by decide, by decide⟩

end Samples

end Moe
