import Moe.Scope.KeptReads

namespace Moe

/-- The rows one subject's answer of one kind is kept in. -/
structure SubjectRows where
  held : List HeldRow
  replacements : List ReplacementRow
  publications : List PublicationRow

namespace KeptRows

variable (rows : KeptRows)

/-- The index a subject's answer is to be read from. -/
def keptTo (kind : RecordKind) (subject : Bytes) : Nat := (rows.keptAnswer kind subject).elim 0 (·.through + 1)

def part (kind : RecordKind) (subject : Bytes) : SubjectRows :=
  match kind with
  | .commitment => ⟨rows.held.filter (·.operator = subject), [], []⟩
  | .replacement => ⟨[], rows.replacements.filter (·.backing = subject), []⟩
  | .publication => ⟨[], [], rows.publications.filter (·.backing = subject)⟩
  | .revocation => ⟨[], [], []⟩

end KeptRows

section Derived

variable [Crypto] (record : VenueRecord) (rules : Bytes → Option Bytes)

/-- The rows the record before an index derives for a subject. -/
def derivedRows (kind : RecordKind) (subject : Bytes) (n : Nat) : SubjectRows :=
  match kind with
  | .commitment => ⟨(holdEntries subject 0 (record.before .commitment subject n)).1.map (heldRowOf subject), [], []⟩
  | .replacement => ⟨[], keptRows subject (rules subject) (record.before .replacement subject n), []⟩
  | .publication => ⟨[], [], (record.before .publication subject n).map (publicationRowOf subject)⟩
  | .revocation => ⟨[], [], []⟩

/-- What an answer through the index before carries on. -/
def derivedValue (kind : RecordKind) (subject : Bytes) (n : Nat) : Option Nat :=
  match kind with
  | .commitment => some (holdEntries subject 0 (record.before .commitment subject n)).2
  | .revocation => ((record.before .revocation subject n).find? (revokes subject)).map (·.index)
  | .replacement => none
  | .publication => none

/-- Kept rows that are, for every kind and subject, what the whole record through the kept index derives. -/
structure KeptRows.Of (rows : KeptRows) : Prop where
  part : ∀ kind subject, rows.part kind subject = derivedRows record rules kind subject (rows.keptTo kind subject)
  value : ∀ kind subject kept, rows.keptAnswer kind subject = some kept → kept.value = derivedValue record kind subject (kept.through + 1)

end Derived

namespace KeptRows

variable {rows : KeptRows}

theorem keptAnswer_set (kind : RecordKind) (subject : Bytes) (kept : KeptAnswer) (kind' : RecordKind) (subject' : Bytes) :
    ({ rows with answers := rows.answers.set (kind, subject) kept }).keptAnswer kind' subject' =
      if (kind, subject) = (kind', subject') then some kept else rows.keptAnswer kind' subject' :=
  OrderedMap.get?_set _ _ _ _

variable [Crypto] {record : VenueRecord} {rules : Bytes → Option Bytes}

theorem empty_of (record : VenueRecord) (rules : Bytes → Option Bytes) : empty.Of record rules where
  part kind subject := by
    have none_ : empty.keptTo kind subject = 0 := rfl
    rw [none_]
    cases kind <;> simp only [derivedRows, VenueRecord.before_zero] <;> rfl
  value kind subject kept none_ := by cases none_

/-- Rows that one subject's answer is read into, with its answer kept through an index. -/
theorem Of.step {read : KeptRows} {kind : RecordKind} {subject : Bytes} {t : Nat} {value : Option Nat} (of : rows.Of record rules)
    (answers : read.answers = rows.answers)
    (others : ∀ kind' subject', (kind, subject) ≠ (kind', subject') → read.part kind' subject' = rows.part kind' subject')
    (part : read.part kind subject = derivedRows record rules kind subject (t + 1)) (carried : value = derivedValue record kind subject (t + 1)) :
    ({ read with answers := read.answers.set (kind, subject) ⟨t, value⟩ }).Of record rules where
  part kind' subject' := by
    rw [keptTo, keptAnswer_set]
    by_cases own : (kind, subject) = (kind', subject')
    · obtain ⟨rfl, rfl⟩ := Prod.mk.inj own
      rw [if_pos rfl]
      exact part
    · have same : read.keptAnswer kind' subject' = rows.keptAnswer kind' subject' := by rw [keptAnswer, keptAnswer, answers]
      rw [if_neg own, same]
      exact (others kind' subject' own).trans (of.part kind' subject')
  value kind' subject' kept found := by
    rw [keptAnswer_set] at found
    split at found
    · rename_i own
      obtain ⟨rfl, rfl⟩ := Prod.mk.inj own
      obtain rfl := Option.some.inj found
      exact carried
    · have same : read.keptAnswer kind' subject' = rows.keptAnswer kind' subject' := by rw [keptAnswer, keptAnswer, answers]
      exact of.value kind' subject' kept (same ▸ found)

end KeptRows

section Reading

variable {V : Type} {venue : Venue V} {record : VenueRecord} {venueId : Bytes} {t : Nat} {e e' : Extension V}

/-- A reading that throws leaves the kept rows as they were. -/
theorem Extension.read_error {χ : Type} {kind : RecordKind} {subject : Bytes} {start : Nat} {carry : χ}
    {take : KeptRead χ → RangeAnswer → KeptRead χ × Except Failure Bool} {value : χ → Option Nat} {failure : Failure}
    (read : e.read venue venueId t kind subject start carry take value = (e', .error failure)) : e'.rows = e.rows := by
  rw [Extension.read] at read
  simp only at read
  split at read
  · obtain ⟨rfl, -⟩ := Prod.mk.inj read
    rfl
  · cases (Prod.mk.inj read).2

/-- A reading that returns is a run of windows whose rows stand, with its answer kept through `t`. -/
theorem Extension.read_ok (honest : venue.Honest record venueId) {χ : Type} {kind : RecordKind} {subject : Bytes} {start : Nat} {carry : χ}
    {take : KeptRead χ → RangeAnswer → KeptRead χ × Except Failure Bool} {value : χ → Option Nat}
    (read : e.read venue venueId t kind subject start carry take value = (e', .ok ())) :
    ∃ windows read', WindowRun record venueId kind subject t take start ⟨e.rows, e.spent, carry⟩ windows read' ∧
      e'.answered = e.answered ++ windows ∧
      e'.rows = { read'.rows with answers := read'.rows.answers.set (kind, subject) ⟨t, value read'.carry⟩ } := by
  rw [Extension.read] at read
  simp only at read
  split at read
  · cases (Prod.mk.inj read).2
  · rename_i ran
    obtain ⟨rfl, -⟩ := Prod.mk.inj read
    split at ran
    · rename_i started
      obtain ⟨windows, answered, run⟩ := readWindows_run honest (Prod.ext rfl ran)
      refine ⟨windows, _, run, ?_, ?_⟩
      · simpa only [dif_pos started] using answered
      · simp only [dif_pos started]
    · rename_i ended
      refine ⟨[], _, .done (Nat.lt_of_not_le ended), ?_, ?_⟩
      · simp only [dif_neg ended, List.append_nil]
      · simp only [dif_neg ended]

end Reading

variable [Crypto]

/-- A call that reads a backing's replacements under its declared rule. -/
def KeptCall.Declared (rules : Bytes → Option Bytes) : KeptCall → Prop
  | .replacements backing rule => rule = rules backing
  | _ => True

section Extending

variable {V : Type} {venue : Venue V} {record : VenueRecord} {venueId : Bytes} {t quota : Nat} {rules : Bytes → Option Bytes}
  {e e' : Extension V}

omit [Crypto] in
theorem filter_rows {α : Type} {key : α → Bytes} {new : List α} {subject : Bytes} (own : ∀ row ∈ new, key row = subject) (old : List α) (other : Bytes) :
    (old ++ new).filter (fun row => key row = other) = old.filter (fun row => key row = other) ++ if subject = other then new else [] := by
  rw [List.filter_append]
  split
  · rename_i same
    rw [List.filter_eq_self.mpr fun row member => decide_eq_true ((own row member).trans same)]
  · rename_i apart
    rw [List.filter_eq_nil_iff.mpr fun row member is_ => apart ((own row member).symm.trans (of_decide_eq_true is_))]

theorem KeptCall.windows_error {call : KeptCall} {start : Nat} {kept : Option Nat} {failure : Failure}
    (read : call.windows venue venueId t quota e start kept = (e', .error failure)) : e'.rows = e.rows := by
  cases call with
  | replacements backing rule =>
    rw [windows] at read
    exact Extension.read_error read
  | revocation obligor =>
    rw [windows] at read
    exact Extension.read_error read
  | held operator =>
    rw [windows] at read
    exact Extension.read_error read
  | publications backing =>
    rw [windows] at read
    exact Extension.read_error read

theorem KeptCall.extend_error {call : KeptCall} {failure : Failure} (read : call.extend venue venueId t quota e = (e', .error failure)) :
    e'.rows = e.rows := by
  rw [KeptCall.extend] at read
  split at read
  · exact windows_error read
  · split at read
    · cases (Prod.mk.inj read).2
    · exact windows_error read

/-- Where a call's windows start, and what they carry on, is what the kept answer says. -/
structure KeptCall.Starts (record : VenueRecord) (call : KeptCall) (rows : KeptRows) (t start : Nat) (kept : Option Nat) : Prop where
  begins : start = rows.keptTo call.kind call.subject
  within : start ≤ t
  highest : call.kind = .commitment → kept.getD 0 = (holdEntries call.subject 0 (record.before .commitment call.subject start)).2
  missed : call.kind = .revocation → (record.before .revocation call.subject start).find? (revokes call.subject) = none

/-- A call's windows leave the rows that the whole record through `t` derives. -/
theorem KeptCall.windows_of {call : KeptCall} {start : Nat} {kept : Option Nat} (honest : venue.Honest record venueId)
    (declared : call.Declared rules) (of : e.rows.Of record rules) (starts : call.Starts record e.rows t start kept)
    (read : call.windows venue venueId t quota e start kept = (e', .ok ())) :
    e'.rows.Of record rules ∧ ∃ answer, e'.rows.keptAnswer call.kind call.subject = some answer ∧ answer.through = t := by
  have within := starts.within
  have cut : ∀ kind subject, record.before kind subject (t + 1) = record.before kind subject start ++ record.within kind subject start t :=
    fun kind subject => VenueRecord.before_cut (by omega)
  have kept_ : ∀ {rows : KeptRows} {value : Option Nat}, e'.rows = { rows with answers := rows.answers.set (call.kind, call.subject) ⟨t, value⟩ } →
      ∃ answer, e'.rows.keptAnswer call.kind call.subject = some answer ∧ answer.through = t := by
    intro rows value same
    exact ⟨⟨t, value⟩, by rw [same, KeptRows.keptAnswer_set, if_pos rfl], rfl⟩
  have before := of.part call.kind call.subject
  rw [← starts.begins] at before
  cases call with
  | held operator =>
    rw [KeptCall.windows] at read
    obtain ⟨windows, read', run, -, rows⟩ := Extension.read_ok honest read
    refine ⟨?_, kept_ rows⟩
    have highest := starts.highest rfl
    have zero : start = 0 → kept.getD 0 = 0 := by
      intro none_
      rw [highest, none_, VenueRecord.before_zero]
      rfl
    obtain ⟨held, carry⟩ := run.held rfl zero (by omega)
    have apart : ∀ a ∈ record.before .commitment operator start, ∀ b ∈ record.within .commitment operator start t, a.index < b.index := by
      intro a first b second
      have below := of_decide_eq_true (List.mem_filter.mp first).2
      have above := (VenueRecord.mem_within.mp second).2.1
      omega
    have highest : kept.getD 0 = (holdEntries operator 0 (record.before .commitment operator start)).2 := highest
    have whole : holdEntries operator 0 (record.before .commitment operator start ++ record.within .commitment operator start t) = _ :=
      holdEntries_append apart
    rw [← cut, ← highest] at whole
    rw [rows]
    have own : ∀ row ∈ (holdEntries operator (kept.getD 0) (record.within .commitment operator start t)).1.map (heldRowOf operator),
        row.operator = operator := by
      intro row member
      obtain ⟨h, -, rfl⟩ := List.mem_map.mp member
      rfl
    refine of.step (by rw [held]) (fun kind' subject' other => ?_) ?_ ?_
    · rw [held]
      cases kind' with
      | commitment =>
        have apart' : operator ≠ subject' := fun same => other (Prod.ext rfl same)
        simp only [KeptRows.part, filter_rows own, if_neg apart', List.append_nil]
      | replacement => rfl
      | publication => rfl
      | revocation => rfl
    · rw [held]
      have parts : e.rows.held.filter (·.operator = operator) =
        (holdEntries operator 0 (record.before .commitment operator start)).1.map (heldRowOf operator) := congrArg SubjectRows.held before
      simp only [KeptRows.part, derivedRows, filter_rows own, parts, if_true, whole, List.map_append]
    · simp only [carry, priorAt, if_neg (Nat.succ_ne_zero t), Option.elim_some, derivedValue, whole]
  | replacements backing rule =>
    rw [KeptCall.windows] at read
    obtain ⟨windows, read', run, -, rows⟩ := Extension.read_ok honest read
    refine ⟨?_, kept_ rows⟩
    have placed := run.replacements
    rw [rows]
    refine of.step (by rw [placed]) (fun kind' subject' other => ?_) ?_ rfl
    · rw [placed]
      cases kind' with
      | replacement =>
        have apart : backing ≠ subject' := fun same => other (Prod.ext rfl same)
        simp only [KeptRows.part, keepRows_filter, if_neg apart]
      | commitment => rfl
      | publication => rfl
      | revocation => rfl
    · rw [placed]
      have rule_ : rule = rules backing := declared
      have parts : e.rows.replacements.filter (·.backing = backing) =
        keptRows backing (rules backing) (record.before .replacement backing start) := congrArg SubjectRows.replacements before
      simp only [KeptRows.part, derivedRows, keepRows_filter, if_true, parts, cut, keptRows, List.foldl_append, rule_]
  | publications backing =>
    rw [KeptCall.windows] at read
    obtain ⟨windows, read', run, -, rows⟩ := Extension.read_ok honest read
    refine ⟨?_, kept_ rows⟩
    have placed := run.publications
    rw [rows]
    have own : ∀ row ∈ (record.within .publication backing start t).map (publicationRowOf backing), row.backing = backing := by
      intro row member
      obtain ⟨entry, -, rfl⟩ := List.mem_map.mp member
      rfl
    refine of.step (by rw [placed]) (fun kind' subject' other => ?_) ?_ rfl
    · rw [placed]
      cases kind' with
      | publication =>
        have apart : backing ≠ subject' := fun same => other (Prod.ext rfl same)
        simp only [KeptRows.part, filter_rows own, if_neg apart, List.append_nil]
      | commitment => rfl
      | replacement => rfl
      | revocation => rfl
    · rw [placed]
      have parts : e.rows.publications.filter (·.backing = backing) =
        (record.before .publication backing start).map (publicationRowOf backing) := congrArg SubjectRows.publications before
      simp only [KeptRows.part, derivedRows, filter_rows own, parts, if_true, cut, List.map_append]
  | revocation obligor =>
    rw [KeptCall.windows] at read
    obtain ⟨windows, read', run, -, rows⟩ := Extension.read_ok honest read
    refine ⟨?_, kept_ rows⟩
    obtain ⟨same, carry⟩ := run.revocation
    have missed := starts.missed rfl
    rw [rows]
    refine of.step (by rw [same]) (fun kind' subject' other => by rw [same]) rfl ?_
    rw [id_eq, carry within, derivedValue, cut, List.find?_append, show (record.before .revocation obligor start).find? (revokes obligor) = none
      from missed, Option.none_or]

/-- An extended answer decides `t`, over rows that the whole record derives. -/
theorem KeptCall.extend_of {call : KeptCall} (honest : venue.Honest record venueId) (declared : call.Declared rules) (of : e.rows.Of record rules)
    (read : call.extend venue venueId t quota e = (e', .ok ())) :
    e'.rows.Of record rules ∧ ∃ answer, e'.rows.keptAnswer call.kind call.subject = some answer ∧ call.decided t answer = true := by
  have decides : ∀ {rows : KeptRows}, (∃ answer, rows.keptAnswer call.kind call.subject = some answer ∧ answer.through = t) →
      ∃ answer, rows.keptAnswer call.kind call.subject = some answer ∧ call.decided t answer = true := by
    rintro rows ⟨answer, found, through⟩
    exact ⟨answer, found, by simp only [decided, through, le_refl, decide_true, Bool.true_or]⟩
  rw [KeptCall.extend] at read
  split at read
  · rename_i none_
    have begins : e.rows.keptTo call.kind call.subject = 0 := by rw [KeptRows.keptTo, none_]; rfl
    have starts : call.Starts record e.rows t 0 none := ⟨begins.symm, Nat.zero_le _, fun _ => by rw [VenueRecord.before_zero]; rfl,
      fun _ => by rw [VenueRecord.before_zero]; rfl⟩
    obtain ⟨later, kept⟩ := windows_of honest declared of starts read
    exact ⟨later, decides kept⟩
  · rename_i kept found
    split at read
    · rename_i decided_
      obtain ⟨rfl, -⟩ := Prod.mk.inj read
      exact ⟨of, kept, found, decided_⟩
    · rename_i open_
      have begins : e.rows.keptTo call.kind call.subject = kept.through + 1 := by rw [KeptRows.keptTo, found]; rfl
      have value := of.value call.kind call.subject kept found
      have starts : call.Starts record e.rows t (kept.through + 1) kept.value := by
        refine ⟨begins.symm, ?_, fun kind => ?_, fun kind => ?_⟩
        · by_contra beyond
          exact open_ (by simp only [decided, show t ≤ kept.through by omega, decide_true, Bool.true_or])
        · rw [kind] at value
          rw [value]
          rfl
        · rw [kind] at value
          cases call with
          | revocation obligor =>
            cases carried : kept.value with
            | none =>
              rw [carried] at value
              exact Option.map_eq_none_iff.mp value.symm
            | some i => exact absurd (by simp only [decided, carried, Option.isSome_some, Bool.or_true]) open_
          | held operator => cases kind
          | replacements backing rule => cases kind
          | publications backing => cases kind
      obtain ⟨later, kept'⟩ := windows_of honest declared of starts read
      exact ⟨later, decides kept'⟩

end Extending

end Moe
