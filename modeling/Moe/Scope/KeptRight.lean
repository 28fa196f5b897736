import Moe.Scope.KeptAgree

namespace Moe

/-- Requests one after the other, from an index up to another. -/
inductive Tiles (venueId : Bytes) (kind : RecordKind) (subject : Bytes) : Nat → List RangeRequest → Nat → Prop
  | nil {start : Nat} : Tiles venueId kind subject start [] start
  | cons {start stop past : Nat} {windows : List RangeRequest} : start ≤ stop → Tiles venueId kind subject (stop + 1) windows past →
      Tiles venueId kind subject start (⟨venueId, kind, subject, start, stop⟩ :: windows) past

def RangeRequest.covers (request : RangeRequest) (i : Nat) : Bool := request.fromIndex ≤ i && i ≤ request.toIndex

section Covering

variable {venueId : Bytes} {kind : RecordKind} {subject : Bytes} {start past : Nat} {windows : List RangeRequest}

theorem Tiles.le (tiles : Tiles venueId kind subject start windows past) : start ≤ past := by
  induction tiles with
  | nil => exact le_rfl
  | cons le _ ih => omega

/-- Each index of the tiled range is in one request, and no other is in any. -/
theorem Tiles.once (tiles : Tiles venueId kind subject start windows past) (i : Nat) :
    windows.countP (·.covers i) = if start ≤ i ∧ i < past then 1 else 0 := by
  induction tiles with
  | nil => rw [List.countP_nil, if_neg (by omega)]
  | @cons start stop past windows le later ih =>
    have after := later.le
    rw [List.countP_cons, ih]
    by_cases inside : start ≤ i ∧ i ≤ stop
    · have covered : RangeRequest.covers ⟨venueId, kind, subject, start, stop⟩ i = true := by
        simp only [RangeRequest.covers, inside.1, inside.2, decide_true, Bool.and_self]
      rw [if_pos covered, if_neg (by omega), if_pos (by omega)]
    · have missed : RangeRequest.covers ⟨venueId, kind, subject, start, stop⟩ i = false := by
        rw [RangeRequest.covers, Bool.and_eq_false_iff]
        simp only [decide_eq_false_iff_not]
        omega
      simp only [missed, Bool.false_eq_true, if_false, Nat.add_zero]
      split <;> split <;> omega

/-- A run of windows tiles its range, unless a window that ends it is taken. -/
theorem WindowRun.tiles {σ : Type} {record : VenueRecord} {t : Nat} {take : σ → RangeAnswer → σ × Except Failure Bool} {s s' : σ}
    (run : WindowRun record venueId kind subject t take start s windows s') (le : start ≤ t + 1) :
    ∃ past, Tiles venueId kind subject start windows past ∧ (past = t + 1 ∨ past ≤ t + 1 ∧ ∃ low high r r', low ≤ high ∧ high + 1 = past ∧ start ≤ low ∧
      take r ⟨⟨venueId, kind, subject, low, high⟩, record.within kind subject low high⟩ = (r', .ok true)) := by
  induction run with
  | @done start s beyond =>
    obtain rfl : start = t + 1 := by omega
    exact ⟨_, .nil, .inl rfl⟩
  | @stop start stop s s' low high taken =>
    exact ⟨stop + 1, .cons low .nil, .inr ⟨by omega, start, stop, s, s', low, rfl, le_rfl, taken⟩⟩
  | @next start stop s s' s'' windows low high taken later ih =>
    obtain ⟨past, tiles, ends⟩ := ih (by omega)
    refine ⟨past, .cons low tiles, ends.imp_right fun ended => ?_⟩
    obtain ⟨within, l, h, r, r', inside, last, after, stops⟩ := ended
    exact ⟨within, l, h, r, r', inside, last, by omega, stops⟩

end Covering

variable [Crypto] {record : VenueRecord} {rules : Bytes → Option Bytes} {rows : KeptRows} {venueId : Bytes} {t : Nat}

section Queries

omit [Crypto] in
theorem sorted_select {α : Type} {rows : List α} {order : α → α → Bool} (sorted : rows.Pairwise fun a b => order a b = true) :
    rows.insertionSort (fun a b => order a b = true) = rows := List.Pairwise.insertionSort_eq sorted

/-- The whole record's held commitments through an index. -/
def wholeHeld (record : VenueRecord) (operator : Bytes) (n : Nat) : List RangeHeld := (holdEntries operator 0 (record.before .commitment operator n)).1

theorem wholeHeld_run (operator : Bytes) (n : Nat) : HeldRun operator 0 (wholeHeld record operator n)
    (holdEntries operator 0 (record.before .commitment operator n)).2 ∧ ∀ h ∈ wholeHeld record operator n, h.index < n := by
  have rising : (record.before .commitment operator n).Pairwise (·.index ≤ ·.index) := VenueRecord.rising.filter _
  obtain ⟨run, found⟩ := @holdEntries_run operator 0 _ _ rising
  refine ⟨run, fun h member => ?_⟩
  obtain ⟨e, inside, same⟩ := found h member
  rw [← same]
  exact of_decide_eq_true (List.mem_filter.mp inside).2

/-- What is held by an index is what of the later record is held by it. -/
theorem wholeHeld_filter {operator : Bytes} {n : Nat} (le : t + 1 ≤ n) :
    (wholeHeld record operator n).filter (·.index ≤ t) = wholeHeld record operator (t + 1) := by
  obtain ⟨high, rfl⟩ : ∃ high, n = high + 1 := ⟨n - 1, by omega⟩
  have cut := @VenueRecord.before_cut record .commitment operator (t + 1) high le
  have apart : ∀ a ∈ record.before .commitment operator (t + 1), ∀ b ∈ record.within .commitment operator (t + 1) high, a.index < b.index := by
    intro a first b second
    have below := of_decide_eq_true (List.mem_filter.mp first).2
    have above := (VenueRecord.mem_within.mp second).2.1
    omega
  have later : (record.within .commitment operator (t + 1) high).Pairwise (·.index ≤ ·.index) := VenueRecord.rising.filter _
  obtain ⟨-, found⟩ := @holdEntries_run operator (holdEntries operator 0 (record.before .commitment operator (t + 1))).2 _ _ later
  rw [wholeHeld, cut, holdEntries_append apart, List.filter_append, List.filter_eq_self.mpr fun h member => ?_, List.filter_eq_nil_iff.mpr fun h member => ?_,
    List.append_nil, wholeHeld]
  · obtain ⟨e, inside, same⟩ := found h member
    have above := (VenueRecord.mem_within.mp inside).2.1
    simp only [decide_eq_true_eq]
    omega
  · have below := (wholeHeld_run operator (t + 1)).2 h member
    exact decide_eq_true (by omega)

omit [Crypto] in
/-- The held rows of an operator that pass a test, first under an order they already stand in. -/
theorem selectHeld_eq {operator : Bytes} {held : List RangeHeld} (kept : rows.held.filter (·.operator = operator) = held.map (heldRowOf operator))
    (own : ∀ h ∈ held, h.commitment.operator = operator) (test : HeldRow → Bool) {order : HeldRow → HeldRow → Bool}
    (sorted : held.Pairwise fun a b => order (heldRowOf operator a) (heldRowOf operator b) = true) :
    rows.selectHeld operator test order = (held.filter fun h => test (heldRowOf operator h)).head? := by
  have split_ : rows.held.filter (fun row => row.operator = operator && test row) = (held.filter fun h => test (heldRowOf operator h)).map (heldRowOf operator) := by
    have filtered : rows.held.filter (fun row => row.operator = operator && test row) = (rows.held.filter (·.operator = operator)).filter test := by
      rw [List.filter_filter]
      exact List.filter_congr fun row _ => Bool.and_comm _ _
    rw [filtered, kept, List.filter_map]
    rfl
  have stands : ((held.filter fun h => test (heldRowOf operator h)).map (heldRowOf operator)).Pairwise fun a b => order a b = true :=
    List.pairwise_map.mpr (sorted.filter _)
  have back : ∀ h ∈ held.filter (fun h => test (heldRowOf operator h)), KeptRows.heldRow operator (heldRowOf operator h) = h := by
    intro h member
    have same := own h (List.mem_filter.mp member).1
    obtain ⟨index, sequence, root, key, signature⟩ := h
    simp only at same
    rw [KeptRows.heldRow, heldRowOf, same]
  rw [KeptRows.selectHeld, split_, sorted_select stands, ← List.head?_map, List.map_map, List.map_congr_left fun h member => ?_, List.map_id]
  exact back h member

/-- The kept rows give an operator's held commitments by any index they are kept through. -/
theorem heldThrough_eq (of : rows.Of record rules) {operator : Bytes} (kept : t < rows.keptTo .commitment operator) :
    rows.heldThrough operator t = wholeHeld record operator (t + 1) := by
  have parts : rows.held.filter (·.operator = operator) = (wholeHeld record operator (rows.keptTo .commitment operator)).map (heldRowOf operator) :=
    congrArg SubjectRows.held (of.part .commitment operator)
  obtain ⟨run, -⟩ := @wholeHeld_run _ record operator (rows.keptTo .commitment operator)
  have own : ∀ h ∈ wholeHeld record operator (rows.keptTo .commitment operator), h.commitment.operator = operator := fun h member => (run.above h member).2.2
  have filtered := @wholeHeld_filter _ record t operator _ kept
  have first : ∀ after, rows.nextHeld operator 0 after t =
      ((wholeHeld record operator (t + 1)).filter fun h => after.all (decide <| · < h.commitment.sequence)).head? := by
    intro after
    rw [← filtered, List.filter_filter]
    have inIndexOrder : (wholeHeld record operator (rows.keptTo .commitment operator)).Pairwise fun a b =>
        ((heldRowOf operator a).index < (heldRowOf operator b).index ||
          (heldRowOf operator a).index = (heldRowOf operator b).index && (heldRowOf operator a).sequence ≤ (heldRowOf operator b).sequence) = true := by
      refine run.rising.imp fun both => (Bool.or_eq_true _ _).mpr ?_
      rcases both.1.lt_or_eq with less | same
      · exact .inl (decide_eq_true less)
      · exact .inr ((Bool.and_eq_true _ _).mpr ⟨decide_eq_true same, decide_eq_true both.2.le⟩)
    have inSequence : (wholeHeld record operator (rows.keptTo .commitment operator)).Pairwise fun a b =>
        decide ((heldRowOf operator a).sequence ≤ (heldRowOf operator b).sequence) = true :=
      run.rising.imp fun both => decide_eq_true both.2.le
    cases after with
    | none =>
      rw [KeptRows.nextHeld, selectHeld_eq parts own _ inIndexOrder]
      refine congrArg List.head? (List.filter_congr fun h _ => ?_)
      rw [Option.all_none, Bool.true_and]
      have fromZero : decide (0 ≤ (heldRowOf operator h).index) = true := decide_eq_true (Nat.zero_le _)
      rw [fromZero, Bool.true_and]
      rfl
    | some sequence =>
      rw [KeptRows.nextHeld, selectHeld_eq parts own _ inSequence]
      simp only [Nat.zero_le, if_true]
      split
      · rename_i none_
        exact none_.symm
      · rename_i h some_
        exact some_.symm
  obtain ⟨rising, -⟩ := @wholeHeld_run _ record operator (t + 1)
  refine drain_eq first ?_ (fun h _ => decide_eq_false (Nat.lt_irrefl _)) ?_
  · refine rising.rising.imp fun both => ⟨decide_eq_true both.2, decide_eq_false ?_⟩
    omega
  · have fewer : (wholeHeld record operator (t + 1)).length ≤ (wholeHeld record operator (rows.keptTo .commitment operator)).length := by
      rw [← filtered]
      exact List.length_filter_le _ _
    have listed := congrArg List.length parts
    rw [List.length_map] at listed
    have total : (rows.held.filter (·.operator = operator)).length ≤ rows.held.length := List.length_filter_le _ _
    omega

/-- A backing's publications stand in venue order. -/
def VenueRecord.past (after : Nat × Nat) (e : RangeEntry) : Bool := after.1 < e.index || e.index = after.1 && after.2 < e.ordinal

omit [Crypto] in
theorem VenueRecord.before_filter {kind : RecordKind} {subject : Bytes} {n : Nat} (le : t + 1 ≤ n) :
    (record.before kind subject n).filter (·.index ≤ t) = record.before kind subject (t + 1) := by
  rw [VenueRecord.before, List.filter_filter]
  refine List.filter_congr fun e _ => ?_
  rw [← Bool.decide_and, decide_eq_decide]
  omega

omit [Crypto] in
theorem VenueRecord.venueOrder {backing : Bytes} {n : Nat} : (record.before .publication backing n).Pairwise fun a b =>
    a.index < b.index ∨ a.index = b.index ∧ a.ordinal < b.ordinal :=
  ((record.ordered .publication backing).filter _).imp fun follows => by
    simpa only [RangeEntry.Follows, if_true] using follows

/-- The kept rows give a backing's publications by any index they are kept through. -/
theorem publicationsThrough_eq (of : rows.Of record rules) {backing : Bytes} (kept : t < rows.keptTo .publication backing) :
    rows.publicationsThrough backing t = record.before .publication backing (t + 1) := by
  have parts : rows.publications.filter (·.backing = backing) =
      (record.before .publication backing (rows.keptTo .publication backing)).map (publicationRowOf backing) :=
    congrArg SubjectRows.publications (of.part .publication backing)
  have filtered := @VenueRecord.before_filter record t .publication backing _ kept
  have first : ∀ after, rows.nextPublication backing after t =
      ((record.before .publication backing (t + 1)).filter fun e => after.all (VenueRecord.past · e)).head? := by
    intro after
    have chosen : rows.publications.filter (fun row => row.backing = backing && row.index ≤ t &&
        (after.all fun a => a.1 < row.index || row.index = a.1 && a.2 < row.ordinal)) =
        ((record.before .publication backing (t + 1)).filter fun e => after.all (VenueRecord.past · e)).map (publicationRowOf backing) := by
      have shaped : rows.publications.filter (fun row => row.backing = backing && row.index ≤ t &&
          (after.all fun a => a.1 < row.index || row.index = a.1 && a.2 < row.ordinal)) = (rows.publications.filter (·.backing = backing)).filter
            fun row => row.index ≤ t && after.all fun a => a.1 < row.index || row.index = a.1 && a.2 < row.ordinal := by
        rw [List.filter_filter]
        refine List.filter_congr fun row _ => ?_
        rw [Bool.and_assoc, Bool.and_comm]
      rw [shaped, parts, List.filter_map, ← filtered, List.filter_filter]
      refine congrArg _ (List.filter_congr fun e _ => Bool.and_comm _ _)
    rw [KeptRows.nextPublication, chosen, sorted_select]
    · rw [List.head?_map, Option.map_map]
      exact Option.map_id'
    · refine List.pairwise_map.mpr ((VenueRecord.venueOrder.filter _).imp fun follows => (Bool.or_eq_true _ _).mpr ?_)
      rcases follows with less | ⟨same, later⟩
      · exact .inl (decide_eq_true less)
      · exact .inr ((Bool.and_eq_true _ _).mpr ⟨decide_eq_true same, decide_eq_true later.le⟩)
  refine drain_eq first ?_ (fun e _ => ?_) ?_
  · refine VenueRecord.venueOrder.imp fun follows => ?_
    simp only [VenueRecord.past, Bool.or_eq_true, Bool.and_eq_true, decide_eq_true_eq, Bool.or_eq_false_iff, Bool.and_eq_false_iff,
      decide_eq_false_iff_not]
    omega
  · simp only [VenueRecord.past, lt_irrefl, decide_false, Bool.and_false, Bool.or_false]
  · have fewer : (record.before .publication backing (t + 1)).length ≤
        (record.before .publication backing (rows.keptTo .publication backing)).length := by
      rw [← filtered]
      exact List.length_filter_le _ _
    have listed := congrArg List.length parts
    rw [List.length_map] at listed
    have total : (rows.publications.filter (·.backing = backing)).length ≤ rows.publications.length := List.length_filter_le _ _
    omega

/-- The kept rows give a backing's kept replacements by any index they are kept through, in the order of the record's entries. -/
theorem replacementsThrough_eq (of : rows.Of record rules) {backing : Bytes} (kept : t < rows.keptTo .replacement backing) :
    rows.replacementsThrough backing t = (keptRows backing (rules backing) (record.before .replacement backing (t + 1))).map (·.entry) := by
  obtain ⟨high, last⟩ : ∃ high, rows.keptTo .replacement backing = high + 1 := ⟨rows.keptTo .replacement backing - 1, by omega⟩
  have parts : rows.replacements.filter (·.backing = backing) =
      keptRows backing (rules backing) (record.before .replacement backing (high + 1)) := by
    rw [← last]
    exact congrArg SubjectRows.replacements (of.part .replacement backing)
  have cut := @VenueRecord.before_cut record .replacement backing (t + 1) high (by omega)
  have later : ∀ e ∈ record.within .replacement backing (t + 1) high, t < e.index := fun e member => (VenueRecord.mem_within.mp member).2.1
  have early : ∀ e ∈ record.before .replacement backing (t + 1), e.index ≤ t := fun e member =>
    Nat.le_of_lt_succ (of_decide_eq_true (List.mem_filter.mp member).2)
  have chosen : rows.replacements.filter (fun row => row.backing = backing && row.index ≤ t) =
      keptRows backing (rules backing) (record.before .replacement backing (t + 1)) := by
    have shaped : rows.replacements.filter (fun row => row.backing = backing && row.index ≤ t) =
        (rows.replacements.filter (·.backing = backing)).filter (·.index ≤ t) := by
      rw [List.filter_filter]
      exact List.filter_congr fun row _ => Bool.and_comm _ _
    rw [shaped, parts, cut, keptRows, List.foldl_append, keepRows_before later]
    refine List.filter_eq_self.mpr fun row member => decide_eq_true (keepRows_index early ?_ row member)
    exact fun row none_ => absurd none_ List.not_mem_nil
  have zero : ∀ e ∈ record.before .replacement backing (t + 1), e.ordinal = 0 := fun e member =>
    (record.framed .replacement backing e (List.mem_filter.mp member).1).zero (by decide)
  have ordered : (record.before .replacement backing (t + 1)).Pairwise (RangeEntry.Follows .replacement) :=
    (record.ordered .replacement backing).filter _
  rw [KeptRows.replacementsThrough, chosen, sorted_select]
  · rfl
  · refine (List.pairwise_map.mp (ordered.sublist (keptRows_sublist zero))).imp fun follows => (Bool.or_eq_true _ _).mpr ?_
    rcases follows with less | ⟨same, lesser⟩
    · exact .inl (decide_eq_true less)
    · exact .inr ((Bool.and_eq_true _ _).mpr ⟨decide_eq_true same, decide_eq_true lesser⟩)

/-- Deriving from the kept replacements is deriving from the whole range. -/
theorem admitted_replacementsThrough (of : rows.Of record rules) {backing : Bytes} (kept : t < rows.keptTo .replacement backing)
    {admitted : List AdmittedReplacement} (derived : admittedReplacements (record.whole .replacement backing venueId t) (rules backing) = .ok admitted) :
    admittedReplacements ⟨⟨venueId, .replacement, backing, 0, t⟩, rows.replacementsThrough backing t⟩ (rules backing) = .ok admitted := by
  obtain ⟨pair, required, derived⟩ := bind_eq_ok.mp derived
  obtain rfl := requireKind_eq_ok required
  obtain ⟨formed, -, few⟩ := requireKind_conditions required
  have entries : (record.whole .replacement backing venueId t).entries = record.before .replacement backing (t + 1) :=
    (record.before_within .replacement backing t).symm
  have zero : ∀ e ∈ record.before .replacement backing (t + 1), e.ordinal = 0 := fun e member =>
    (record.framed .replacement backing e (List.mem_filter.mp member).1).zero (by decide)
  have some_ := @keptRows_sublist _ backing (rules backing) _ zero
  have ordered : (record.before .replacement backing (t + 1)).Pairwise (RangeEntry.Follows .replacement) :=
    (record.ordered .replacement backing).filter _
  rw [entries] at few derived
  have again : (RangeAnswer.mk ⟨venueId, .replacement, backing, 0, t⟩ (rows.replacementsThrough backing t)).requireKind .replacement =
      .ok (⟨venueId, .replacement, backing, 0, t⟩, rows.replacementsThrough backing t) := by
    rw [replacementsThrough_eq of kept]
    refine requireKind_of formed rfl (some_.length_le.trans few) (fun e member => ?_) (fun e member => ?_) (ordered.sublist some_)
    · exact record.framed .replacement backing e (List.mem_filter.mp (some_.subset member)).1
    · exact ⟨Nat.zero_le _, Nat.le_of_lt_succ (of_decide_eq_true (List.mem_filter.mp (some_.subset member)).2)⟩
  refine bind_eq_ok.mpr ⟨_, again, ?_⟩
  cases rule : rules backing with
  | none =>
    rw [rule] at derived
    exact derived
  | some key =>
    rw [rule] at derived
    obtain ⟨_, long, same⟩ := bind_eq_ok.mp derived
    refine bind_eq_ok.mpr ⟨(), long, ?_⟩
    have admits := (@admitEntries_keptRows _ backing key (record.before .replacement backing (t + 1))).2.2
    rw [← same, replacementsThrough_eq of kept, rule]
    exact congrArg Except.ok admits

/-- The kept answer gives the first revocation by any index it decides. -/
theorem revocationThrough_eq (of : rows.Of record rules) {obligor : Bytes} {answer : KeptAnswer}
    (kept : rows.keptAnswer .revocation obligor = some answer) (decided : t ≤ answer.through ∨ answer.value.isSome = true) :
    rows.revocationThrough obligor t = ((record.before .revocation obligor (t + 1)).find? (revokes obligor)).map (·.index) := by
  have value : answer.value = ((record.before .revocation obligor (answer.through + 1)).find? (revokes obligor)).map (·.index) :=
    of.value .revocation obligor answer kept
  have bounded : ∀ {n : Nat} {e : RangeEntry}, (record.before .revocation obligor n).find? (revokes obligor) = some e → e.index < n :=
    fun found => of_decide_eq_true (List.mem_filter.mp (List.mem_of_find?_eq_some found)).2
  rw [KeptRows.revocationThrough, kept, Option.bind_some, value]
  rcases Nat.lt_or_ge answer.through t with beyond | within
  · obtain ⟨i, some_⟩ := Option.isSome_iff_exists.mp (decided.resolve_left (Nat.not_le_of_lt beyond))
    rw [value] at some_
    obtain ⟨e, found, rfl⟩ := Option.map_eq_some_iff.mp some_
    have below := bounded found
    rw [VenueRecord.before_cut (show answer.through + 1 ≤ t + 1 by omega), List.find?_append, found, Option.some_or, Option.map_some,
      Option.bind_some, if_pos (by omega)]
  · rw [VenueRecord.before_cut (show t + 1 ≤ answer.through + 1 by omega), List.find?_append]
    cases first : (record.before .revocation obligor (t + 1)).find? (revokes obligor) with
    | some e =>
      have below := bounded first
      rw [Option.some_or, Option.map_some, Option.bind_some, if_pos (by omega)]
    | none =>
      rw [Option.none_or]
      cases after : (record.within .revocation obligor (t + 1) answer.through).find? (revokes obligor) with
      | none => rfl
      | some e =>
        have above := (VenueRecord.mem_within.mp (List.mem_of_find?_eq_some after)).2.1
        rw [Option.map_some, Option.bind_some, if_neg (by omega)]
        rfl

end Queries

end Moe
