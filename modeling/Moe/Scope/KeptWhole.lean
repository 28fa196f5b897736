import Moe.Scope.RangeDerivations
import Moe.Scope.Windows

namespace Moe

theorem requireKind_eq_ok {answer : RangeAnswer} {kind : RecordKind} {read : RangeRequest × List RangeEntry}
    (required : answer.requireKind kind = .ok read) : read = (answer.request, answer.entries) := by
  obtain ⟨request, copied, required⟩ := bind_eq_ok.mp required
  have own := copyRequest_eq_ok copied
  obtain ⟨_, -, entered⟩ := bind_eq_ok.mp required
  obtain ⟨whole, valid, same⟩ := bind_eq_ok.mp entered
  obtain ⟨again, copied', valid⟩ := bind_eq_ok.mp valid
  obtain ⟨_, -, counted⟩ := bind_eq_ok.mp valid
  obtain ⟨_, -, sized⟩ := bind_eq_ok.mp counted
  obtain ⟨last, -, ends⟩ := bind_eq_ok.mp sized
  have request_ := copyRequest_eq_ok copied'
  rw [← Except.ok.inj same, ← Except.ok.inj ends, request_, own]

section Rows

/-- A held commitment as its row. -/
def heldRowOf (operator : Bytes) (h : RangeHeld) : HeldRow :=
  ⟨operator, h.commitment.sequence, h.index, h.commitment.root, h.commitment.signature⟩

def publicationRowOf (backing : Bytes) (e : RangeEntry) : PublicationRow := ⟨backing, e.index, e.ordinal, e.record⟩

/-- One identity's row stands as it was first put. -/
def putFirst (rows : List ReplacementRow) (row : ReplacementRow) : List ReplacementRow :=
  if rows.any fun r => r.backing = row.backing && r.identity = row.identity then rows else rows ++ [row]

theorem putReplacement_eq (rows : KeptRows) (row : ReplacementRow) :
    rows.putReplacement row = { rows with replacements := putFirst rows.replacements row } := by
  rw [KeptRows.putReplacement, putFirst]
  split <;> rfl

theorem putHeld_eq_ok {rows rows' : KeptRows} {operator : Bytes} {held : List RangeHeld} (put : rows.putHeld operator held = .ok rows') :
    rows' = { rows with held := rows.held ++ held.map (heldRowOf operator) } := by
  induction held generalizing rows with
  | nil => rw [← Except.ok.inj put, List.map_nil, List.append_nil]
  | cons h rest ih =>
    obtain ⟨next, inserted, later⟩ := bind_eq_ok.mp put
    have inserted : rows.insertHeld (heldRowOf operator h) = .ok next := inserted
    rw [KeptRows.insertHeld] at inserted
    split at inserted
    · cases inserted
    · have more := ih later
      rw [more, ← Except.ok.inj inserted, List.map_cons, List.append_assoc, List.singleton_append]

theorem putPublications_eq_ok {rows rows' : KeptRows} {backing : Bytes} {entries : List RangeEntry}
    (put : rows.putPublications backing entries = .ok rows') :
    rows' = { rows with publications := rows.publications ++ entries.map (publicationRowOf backing) } := by
  induction entries generalizing rows with
  | nil => rw [← Except.ok.inj put, List.map_nil, List.append_nil]
  | cons e rest ih =>
    obtain ⟨next, inserted, later⟩ := bind_eq_ok.mp put
    have inserted : rows.insertPublication (publicationRowOf backing e) = .ok next := inserted
    rw [KeptRows.insertPublication] at inserted
    split at inserted
    · cases inserted
    · have more := ih later
      rw [more, ← Except.ok.inj inserted, List.map_cons, List.append_assoc, List.singleton_append]

end Rows

variable [Crypto]

section Admission

/-- An entry as the row it is kept by, if it counts under a declared rule. -/
def admitRow (backing : Bytes) (rule : Option Bytes) (e : RangeEntry) : Option ReplacementRow :=
  rule.bind fun key => (admitEntry backing key e).map fun a => ⟨backing, a.identity, e.index, e.record⟩

def keepRow (backing : Bytes) (rule : Option Bytes) (rows : List ReplacementRow) (e : RangeEntry) : List ReplacementRow :=
  match admitRow backing rule e with
  | none => rows
  | some row => putFirst rows row

variable {quota : Nat} {backing : Bytes} {rule : Option Bytes} {request : RangeRequest}

/-- One entry's admission is its own, whatever request it is read under. -/
theorem admitted_one {e : RangeEntry} {admitted : List AdmittedReplacement} (own : request.subject = backing)
    (read : admittedReplacements ⟨request, [e]⟩ rule = .ok admitted) : admitted = ((rule.bind fun key => admitEntry backing key e).toList) := by
  obtain ⟨pair, required, read⟩ := bind_eq_ok.mp read
  obtain rfl := requireKind_eq_ok required
  cases rule with
  | none => exact (Except.ok.inj read).symm
  | some key =>
    obtain ⟨_, -, read⟩ := bind_eq_ok.mp read
    rw [← Except.ok.inj read, own]
    simp only [admitEntries, List.foldl_cons, List.foldl_nil, admitNext, Option.bind_some]
    cases admitEntry backing key e with
    | none => rfl
    | some a => rfl

theorem takeReplacement_eq_ok {read read' : KeptRead Unit} {e : RangeEntry} (own : request.subject = backing)
    (taken : takeReplacement quota backing rule request read e = (read', .ok ())) :
    read'.rows = { read.rows with replacements := keepRow backing rule read.rows.replacements e } := by
  rw [takeReplacement] at taken
  split at taken
  · cases taken
  · rename_i none_
    obtain ⟨rfl, -⟩ := Prod.mk.inj taken
    have empty := admitted_one own none_
    have missed : (rule.bind fun key => admitEntry backing key e) = none := by
      cases found : rule.bind fun key => admitEntry backing key e with
      | none => rfl
      | some a => rw [found] at empty; cases empty
    have row : admitRow backing rule e = none := by
      rw [admitRow]
      cases rule with
      | none => rfl
      | some key => rw [Option.bind_some] at missed ⊢; rw [missed]; rfl
    rw [keepRow, row]
  · rename_i a rest some_
    have listed := admitted_one own some_
    have found : (rule.bind fun key => admitEntry backing key e) = some a := by
      cases found : rule.bind fun key => admitEntry backing key e with
      | none => rw [found] at listed; cases listed
      | some b => rw [found] at listed; rw [(List.cons.inj listed).1]
    have row : admitRow backing rule e = some ⟨backing, a.identity, e.index, e.record⟩ := by
      rw [admitRow]
      cases rule with
      | none => cases found
      | some key => rw [Option.bind_some] at found ⊢; rw [found]; rfl
    split at taken
    · cases taken
    · rename_i charged paid
      obtain ⟨rfl, -⟩ := Prod.mk.inj taken
      obtain ⟨same, -⟩ := Prod.mk.inj paid
      rw [keepRow, row, ← same]
      exact putReplacement_eq _ _

theorem takeReplacements_eq_ok {read read' : KeptRead Unit} {entries : List RangeEntry} {last : Bool} (own : request.subject = backing)
    (taken : takeReplacements quota backing rule request read entries = (read', .ok last)) : last = false ∧
      read'.rows = { read.rows with replacements := entries.foldl (keepRow backing rule) read.rows.replacements } := by
  induction entries generalizing read with
  | nil =>
    obtain ⟨rfl, same⟩ := Prod.mk.inj taken
    exact ⟨(Except.ok.inj same).symm, rfl⟩
  | cons e rest ih =>
    rw [takeReplacements] at taken
    split at taken
    · cases taken
    · rename_i one
      obtain ⟨last_, rows⟩ := ih taken
      refine ⟨last_, ?_⟩
      rw [rows, takeReplacement_eq_ok own one]
      rfl

end Admission

section Runs

variable {record : VenueRecord} {venueId : Bytes} {t quota : Nat}

/-- The prior a range from an index carries. -/
def priorAt (start highest : Nat) : Option HeldPrior := if start = 0 then none else some ⟨start, highest⟩

/-- Held commitments never end a reading. -/
theorem takeHeldAnswer_goes {operator : Bytes} (read : KeptRead (Option HeldPrior)) (answer : RangeAnswer) (read' : KeptRead (Option HeldPrior)) :
    takeHeldAnswer quota operator read answer ≠ (read', .ok true) := by
  intro taken
  rw [takeHeldAnswer] at taken
  split at taken
  · cases taken
  · split at taken
    · cases taken
    · split at taken
      · cases taken
      · obtain ⟨-, same⟩ := Prod.mk.inj taken
        cases same

omit [Crypto] in
/-- Publications never end a reading. -/
theorem takePublicationAnswer_goes {backing : Bytes} (read : KeptRead Unit) (answer : RangeAnswer) (read' : KeptRead Unit) :
    takePublicationAnswer quota backing read answer ≠ (read', .ok true) := by
  intro taken
  rw [takePublicationAnswer] at taken
  split at taken
  · cases taken
  · split at taken
    · cases taken
    · obtain ⟨-, same⟩ := Prod.mk.inj taken
      cases same

theorem heldCommitments_eq_ok {request : RangeRequest} {entries : List RangeEntry} {highest : Nat} {held : List RangeHeld} {next : HeldPrior}
    (zero : request.fromIndex = 0 → highest = 0)
    (derived : heldCommitments ⟨request, entries⟩ (priorAt request.fromIndex highest) = .ok (held, next)) :
    held = (holdEntries request.subject highest entries).1 ∧ next = ⟨request.toIndex + 1, (holdEntries request.subject highest entries).2⟩ := by
  obtain ⟨pair, required, derived⟩ := bind_eq_ok.mp derived
  obtain rfl := requireKind_eq_ok required
  obtain ⟨top, prior, derived⟩ := bind_eq_ok.mp derived
  have same : top = highest := by
    unfold priorHighest priorAt at prior
    by_cases start : request.fromIndex = 0
    · rw [if_pos start] at prior
      obtain ⟨_, -, value⟩ := bind_eq_ok.mp prior
      rw [zero start, ← Except.ok.inj value]
    · rw [if_neg start, if_neg start] at prior
      obtain ⟨_, -, value⟩ := bind_eq_ok.mp prior
      exact (Except.ok.inj value).symm
  obtain ⟨rfl, rfl⟩ := Prod.mk.inj (Except.ok.inj derived)
  rw [same]
  exact ⟨rfl, rfl⟩

/-- Windows of an operator's commitments hold what the one range holds, each carrying the highest sequence to the next. -/
theorem WindowRun.held {operator : Bytes} {start highest : Nat} {read read' : KeptRead (Option HeldPrior)} {windows : List RangeRequest}
    (run : WindowRun record venueId .commitment operator t (takeHeldAnswer quota operator) start read windows read')
    (carry : read.carry = priorAt start highest) (zero : start = 0 → highest = 0) (le : start ≤ t + 1) :
    read'.rows = { read.rows with held := read.rows.held ++
      (holdEntries operator highest (record.within .commitment operator start t)).1.map (heldRowOf operator) } ∧
      read'.carry = priorAt (t + 1) (holdEntries operator highest (record.within .commitment operator start t)).2 := by
  induction run generalizing highest with
  | @done start s beyond =>
    rw [VenueRecord.within_empty beyond]
    obtain rfl : start = t + 1 := by omega
    refine ⟨?_, carry⟩
    rw [show holdEntries operator highest [] = ([], highest) from rfl, List.map_nil, List.append_nil]
  | stop low high taken => exact absurd taken (takeHeldAnswer_goes _ _ _)
  | @next start stop s s' s'' windows low high taken later ih =>
    rw [takeHeldAnswer] at taken
    split at taken
    · cases taken
    · rename_i held next derived
      rw [carry] at derived
      obtain ⟨rfl, rfl⟩ := @heldCommitments_eq_ok _ ⟨venueId, .commitment, operator, start, stop⟩ _ _ _ _ zero derived
      split at taken
      · cases taken
      · rename_i charged paid
        split at taken
        · cases taken
        · rename_i rows put
          obtain ⟨rfl, -⟩ := Prod.mk.inj taken
          obtain ⟨same, -⟩ := Prod.mk.inj paid
          have kept := putHeld_eq_ok put
          rw [← same] at kept
          obtain ⟨rows', carry'⟩ := @ih (holdEntries operator highest (record.within .commitment operator start stop)).2
            (by simp only [priorAt, if_neg (Nat.succ_ne_zero stop)]) (fun none_ => absurd none_ (Nat.succ_ne_zero stop)) (by omega)
          have cut := @VenueRecord.within_cut record .commitment operator start stop _ (by omega) high
          have apart : ∀ a ∈ record.within .commitment operator start stop, ∀ b ∈ record.within .commitment operator (stop + 1) t,
              a.index < b.index := by
            intro a first b second
            have below := (VenueRecord.mem_within.mp first).2.2
            have above := (VenueRecord.mem_within.mp second).2.1
            omega
          rw [cut, holdEntries_append apart]
          refine ⟨?_, carry'⟩
          rw [rows', kept]
          simp only [List.append_assoc, List.map_append]

/-- Windows of a backing's replacements keep each at its first witnessing, in order. -/
theorem WindowRun.replacements {backing : Bytes} {rule : Option Bytes} {start : Nat} {read read' : KeptRead Unit} {windows : List RangeRequest}
    (run : WindowRun record venueId .replacement backing t (takeReplacementAnswer quota backing rule) start read windows read') :
    read'.rows = { read.rows with replacements :=
      (record.within .replacement backing start t).foldl (keepRow backing rule) read.rows.replacements } := by
  induction run with
  | done beyond => rw [VenueRecord.within_empty beyond]; rfl
  | stop low high taken =>
    rw [takeReplacementAnswer] at taken
    obtain ⟨last, -⟩ := takeReplacements_eq_ok (by rfl) taken
    cases last
  | next low high taken later ih =>
    rw [takeReplacementAnswer] at taken
    obtain ⟨-, rows⟩ := takeReplacements_eq_ok (by rfl) taken
    rw [ih, rows, VenueRecord.within_cut (Nat.le_succ_of_le low) high, List.foldl_append]

omit [Crypto] in
/-- Windows of a backing's publications keep them as they are. -/
theorem WindowRun.publications {backing : Bytes} {start : Nat} {read read' : KeptRead Unit} {windows : List RangeRequest}
    (run : WindowRun record venueId .publication backing t (takePublicationAnswer quota backing) start read windows read') :
    read'.rows = { read.rows with publications := read.rows.publications ++
      (record.within .publication backing start t).map (publicationRowOf backing) } := by
  induction run with
  | done beyond => rw [VenueRecord.within_empty beyond, List.map_nil, List.append_nil]
  | stop low high taken => exact absurd taken (takePublicationAnswer_goes _ _ _)
  | next low high taken later ih =>
    rw [takePublicationAnswer] at taken
    split at taken
    · cases taken
    · rename_i charged paid
      split at taken
      · cases taken
      · rename_i rows put
        obtain ⟨rfl, -⟩ := Prod.mk.inj taken
        obtain ⟨same, -⟩ := Prod.mk.inj paid
        have kept := putPublications_eq_ok put
        rw [← same] at kept
        rw [ih, kept, VenueRecord.within_cut (Nat.le_succ_of_le low) high]
        simp only [List.append_assoc, List.map_append]

theorem revocationIndex_eq_ok {request : RangeRequest} {entries : List RangeEntry} {found : Option Nat}
    (derived : revocationIndex ⟨request, entries⟩ = .ok found) : found = (entries.find? (revokes request.subject)).map (·.index) := by
  obtain ⟨pair, required, derived⟩ := bind_eq_ok.mp derived
  obtain rfl := requireKind_eq_ok required
  exact (Except.ok.inj derived).symm

/-- Windows of an obligor's revocations find the first of the range, and none is read past it. -/
theorem WindowRun.revocation {obligor : Bytes} {start : Nat} {read read' : KeptRead (Option Nat)} {windows : List RangeRequest}
    (run : WindowRun record venueId .revocation obligor t takeRevocationAnswer start read windows read') :
    read'.rows = read.rows ∧
      (start ≤ t → read'.carry = ((record.within .revocation obligor start t).find? (revokes obligor)).map (·.index)) := by
  induction run with
  | done beyond => exact ⟨rfl, fun le => absurd le (Nat.not_le_of_lt beyond)⟩
  | stop low high taken =>
    rw [takeRevocationAnswer] at taken
    split at taken
    · cases taken
    · rename_i found derived
      obtain ⟨rfl, last⟩ := Prod.mk.inj taken
      have first := revocationIndex_eq_ok derived
      refine ⟨rfl, fun _ => ?_⟩
      obtain ⟨e, seen⟩ := Option.isSome_iff_exists.mp (Except.ok.inj last)
      rw [VenueRecord.within_cut (Nat.le_succ_of_le low) high, List.find?_append]
      rw [first] at seen ⊢
      obtain ⟨entry, some_, -⟩ := Option.map_eq_some_iff.mp seen
      rw [some_, Option.some_or]
  | @next start stop s s' s'' windows low high taken later ih =>
    rw [takeRevocationAnswer] at taken
    split at taken
    · cases taken
    · rename_i found derived
      obtain ⟨rfl, last⟩ := Prod.mk.inj taken
      have first := revocationIndex_eq_ok derived
      have missed : found = none := by
        cases found with
        | none => rfl
        | some i => cases last
      obtain ⟨rows, rest⟩ := ih
      have none_ : (record.within .revocation obligor start stop).find? (revokes obligor) = none := by
        rw [missed] at first
        exact Option.map_eq_none_iff.mp first.symm
      refine ⟨rows, fun _ => ?_⟩
      rw [VenueRecord.within_cut (Nat.le_succ_of_le low) high, List.find?_append, none_, Option.none_or]
      rcases Nat.lt_or_ge stop t with inside | last
      · exact rest inside
      · obtain rfl : stop = t := le_antisymm high last
        rw [VenueRecord.within_empty (Nat.lt_succ_self stop)]
        cases later with
        | done => exact missed
        | stop low' high' => omega
        | next low' high' => omega

end Runs

end Moe
