import Moe.Scope.KeptRight

namespace Moe

section Kept

variable [Crypto] {record : VenueRecord} {rules : Bytes → Option Bytes} {venueId : Bytes}

section Windows

variable {V : Type} {venue : Venue V} {t quota : Nat} {call : KeptCall} {e e' : Extension V}

/-- What a call's windows answer: successive requests, to past `t` unless the last of them has the revocation. -/
theorem KeptCall.windows_tiles {start : Nat} {kept : Option Nat} (honest : venue.Honest record venueId) (le : start ≤ t + 1)
    (read : call.windows venue venueId t quota e start kept = (e', .ok ())) :
    ∃ windows past, e'.answered = e.answered ++ windows ∧ Tiles venueId call.kind call.subject start windows past ∧
      (past = t + 1 ∨ past ≤ t + 1 ∧ call.kind = .revocation ∧
        ∃ i ≤ t, e'.rows.keptAnswer call.kind call.subject = some ⟨t, some i⟩) := by
  cases call with
  | held operator =>
    rw [KeptCall.windows] at read
    obtain ⟨windows, read', run, answered, -⟩ := Extension.read_ok honest read
    obtain ⟨past, tiles, ends⟩ := run.tiles le
    refine ⟨windows, past, answered, tiles, ends.imp_right fun ended => ?_⟩
    obtain ⟨-, low, high, r, r', -, -, -, stops⟩ := ended
    exact absurd stops (takeHeldAnswer_goes r _ r')
  | replacements backing rule =>
    rw [KeptCall.windows] at read
    obtain ⟨windows, read', run, answered, -⟩ := Extension.read_ok honest read
    obtain ⟨past, tiles, ends⟩ := run.tiles le
    refine ⟨windows, past, answered, tiles, ends.imp_right fun ended => ?_⟩
    obtain ⟨-, low, high, r, r', -, -, -, stops⟩ := ended
    rw [takeReplacementAnswer] at stops
    cases (takeReplacements_eq_ok (by rfl) stops).1
  | publications backing =>
    rw [KeptCall.windows] at read
    obtain ⟨windows, read', run, answered, -⟩ := Extension.read_ok honest read
    obtain ⟨past, tiles, ends⟩ := run.tiles le
    refine ⟨windows, past, answered, tiles, ends.imp_right fun ended => ?_⟩
    obtain ⟨-, low, high, r, r', -, -, -, stops⟩ := ended
    exact absurd stops (takePublicationAnswer_goes r _ r')
  | revocation obligor =>
    rw [KeptCall.windows] at read
    obtain ⟨windows, read', run, answered, rows⟩ := Extension.read_ok honest read
    obtain ⟨past, tiles, ends⟩ := run.tiles le
    refine ⟨windows, past, answered, tiles, ends.imp_right fun ended => ?_⟩
    obtain ⟨within, low, high, r, r', inside, last, after, stops⟩ := ended
    refine ⟨within, rfl, ?_⟩
    rw [takeRevocationAnswer] at stops
    split at stops
    · cases stops
    · rename_i found derived
      obtain ⟨-, some_⟩ := Prod.mk.inj stops
      have first := revocationIndex_eq_ok derived
      obtain ⟨i, found_⟩ := Option.isSome_iff_exists.mp (Except.ok.inj some_)
      rw [found_] at first
      obtain ⟨entry, seen, -⟩ := Option.map_eq_some_iff.mp first.symm
      have member := VenueRecord.mem_within.mp (List.mem_of_find?_eq_some seen)
      have covered : entry ∈ record.within .revocation obligor start t := VenueRecord.mem_within.mpr ⟨member.1, by omega, by omega⟩
      have signed := List.find?_some seen
      obtain ⟨least, is_⟩ := Option.isSome_iff_exists.mp (List.find?_isSome.mpr ⟨entry, covered, signed⟩)
      have bound := (VenueRecord.mem_within.mp (List.mem_of_find?_eq_some is_)).2.2
      obtain ⟨-, carry⟩ := run.revocation
      refine ⟨least.index, bound, ?_⟩
      have kept_ : e'.rows.keptAnswer .revocation obligor = some ⟨t, read'.carry⟩ := by
        rw [rows, KeptRows.keptAnswer_set, if_pos rfl, id_eq]
      have found : read'.carry = some least.index := by rw [carry (by omega), is_, Option.map_some]
      exact kept_.trans (by rw [found])

end Windows

/-- Kept rows after some readings, each at its own index and of its own venue, and each ending as it will. -/
inductive KeptReads (record : VenueRecord) (rules : Bytes → Option Bytes) (venueId : Bytes) : KeptRows → Prop
  | empty : KeptReads record rules venueId KeptRows.empty
  | read {V : Type} {venue : Venue V} {t quota : Nat} {call : KeptCall} {e e' : Extension V} {result : Except Failure Unit} :
      KeptReads record rules venueId e.rows → venue.Honest record venueId → call.Declared rules →
      call.extend venue venueId t quota e = (e', result) → KeptReads record rules venueId e'.rows

theorem KeptReads.of {rows : KeptRows} (reads : KeptReads record rules venueId rows) : rows.Of record rules := by
  induction reads with
  | empty => exact KeptRows.empty_of record rules
  | @read V venue t quota call e e' result before honest declared read ih =>
    cases result with
    | error failure =>
      rw [KeptCall.extend_error read]
      exact ih
    | ok done => exact (KeptCall.extend_of honest declared ih read).1

/-- What the kept rows answer to a call at an index is the derivation from the whole range through it. -/
def KeptCall.Agrees (record : VenueRecord) (venueId : Bytes) (rows : KeptRows) (t : Nat) : KeptCall → Prop
  | .held operator => ∀ held next, heldCommitments (record.whole .commitment operator venueId t) none = .ok (held, next) →
      rows.heldThrough operator t = held
  | .revocation obligor => ∀ found, revocationIndex (record.whole .revocation obligor venueId t) = .ok found → rows.revocationThrough obligor t = found
  | .replacements backing rule => ∀ admitted, admittedReplacements (record.whole .replacement backing venueId t) rule = .ok admitted →
      admittedReplacements ⟨⟨venueId, .replacement, backing, 0, t⟩, rows.replacementsThrough backing t⟩ rule = .ok admitted
  | .publications backing => ∀ request entries size, validEntries (record.whole .publication backing venueId t) none = .ok (request, entries, size) →
      rows.publicationsThrough backing t = entries

theorem KeptRows.Of.agrees {rows : KeptRows} (of : rows.Of record rules) {call : KeptCall} {answer : KeptAnswer} {t : Nat} (declared : call.Declared rules)
    (kept : rows.keptAnswer call.kind call.subject = some answer) (decided : call.decided t answer = true) : call.Agrees record venueId rows t := by
  have through : rows.keptTo call.kind call.subject = answer.through + 1 := by
    rw [KeptRows.keptTo, kept]
    rfl
  have either : t ≤ answer.through ∨ call.kind = .revocation ∧ answer.value.isSome = true := by
    rcases (Bool.or_eq_true _ _).mp decided with within | found
    · exact .inl (of_decide_eq_true within)
    · cases call with
      | revocation obligor => exact .inr ⟨rfl, found⟩
      | held operator => cases found
      | replacements backing rule => cases found
      | publications backing => cases found
  have before : call.kind ≠ .revocation → t < rows.keptTo call.kind call.subject := by
    intro other
    have within := either.resolve_right fun both => other both.1
    omega
  cases call with
  | held operator =>
    intro held next derived
    obtain ⟨own, -⟩ := @heldCommitments_eq_ok _ ⟨venueId, .commitment, operator, 0, t⟩ _ 0 held next (fun _ => rfl) derived
    have kept_ : t < rows.keptTo .commitment operator := before fun kind => by cases kind
    rw [heldThrough_eq of kept_, own, wholeHeld, record.before_within]
  | revocation obligor =>
    intro found derived
    have own := revocationIndex_eq_ok derived
    have kept_ : rows.keptAnswer .revocation obligor = some answer := kept
    rw [revocationThrough_eq of kept_ (either.imp_right And.right), own, record.before_within]
  | replacements backing rule =>
    intro admitted derived
    obtain rfl : rule = rules backing := declared
    have kept_ : t < rows.keptTo .replacement backing := before fun kind => by cases kind
    exact admitted_replacementsThrough of kept_ derived
  | publications backing =>
    intro request entries size valid
    have own : (record.whole .publication backing venueId t).requireKind .publication = .ok (request, entries) := by
      obtain ⟨copied, copy, -⟩ := bind_eq_ok.mp valid
      obtain rfl := copyRequest_eq_ok copy
      exact bind_eq_ok.mpr ⟨_, copy, bind_eq_ok.mpr ⟨(), require_eq_ok.mpr rfl, bind_eq_ok.mpr ⟨_, valid, rfl⟩⟩⟩
    obtain ⟨-, rfl⟩ := Prod.mk.inj (requireKind_eq_ok own)
    have kept_ : t < rows.keptTo .publication backing := before fun kind => by cases kind
    rw [publicationsThrough_eq of kept_, record.before_within]
    rfl


section Extending

variable {V : Type} {venue : Venue V} {t quota : Nat} {call : KeptCall} {e e' : Extension V}

/-- What an extension answers: the indices past those kept, each in one request, to past `t` unless the revocation is known by it. -/
theorem KeptCall.extend_tiles (honest : venue.Honest record venueId) (of : e.rows.Of record rules)
    (read : call.extend venue venueId t quota e = (e', .ok ())) :
    ∃ windows past, e'.answered = e.answered ++ windows ∧ Tiles venueId call.kind call.subject (e.rows.keptTo call.kind call.subject) windows past ∧
      past ≤ max (e.rows.keptTo call.kind call.subject) (t + 1) ∧
      (t < past ∨ call.kind = .revocation ∧ (e'.rows.revocationThrough call.subject t).isSome = true) := by
  have known : ∀ {i : Nat} {rows : KeptRows} {answer : KeptAnswer}, call.kind = .revocation → rows.keptAnswer call.kind call.subject = some answer →
      answer.value = some i → i ≤ t → (rows.revocationThrough call.subject t).isSome = true := by
    intro i rows answer kind kept value within
    rw [kind] at kept
    rw [KeptRows.revocationThrough, kept, Option.bind_some, value, Option.bind_some, if_pos within]
    rfl
  have windows_ : ∀ {start : Nat} {kept : Option Nat}, start ≤ t + 1 → start = e.rows.keptTo call.kind call.subject →
      call.windows venue venueId t quota e start kept = (e', .ok ()) → ∃ windows past, e'.answered = e.answered ++ windows ∧
        Tiles venueId call.kind call.subject (e.rows.keptTo call.kind call.subject) windows past ∧
        past ≤ max (e.rows.keptTo call.kind call.subject) (t + 1) ∧
        (t < past ∨ call.kind = .revocation ∧ (e'.rows.revocationThrough call.subject t).isSome = true) := by
    intro start kept le begins read
    obtain ⟨windows, past, answered, tiles, ends⟩ := windows_tiles honest le read
    rw [begins] at tiles
    refine ⟨windows, past, answered, tiles, ?_, ?_⟩
    · rcases ends with whole | ⟨within, -⟩ <;> omega
    · rcases ends with whole | ⟨-, kind, i, within, found⟩
      · exact .inl (by omega)
      · exact .inr ⟨kind, known kind found rfl within⟩
  rw [KeptCall.extend] at read
  split at read
  · rename_i none_
    exact windows_ (Nat.zero_le _) (by rw [KeptRows.keptTo, none_]; rfl) read
  · rename_i kept found
    have through : e.rows.keptTo call.kind call.subject = kept.through + 1 := by rw [KeptRows.keptTo, found]; rfl
    split at read
    · rename_i decided_
      obtain ⟨rfl, -⟩ := Prod.mk.inj read
      refine ⟨[], _, (List.append_nil _).symm, .nil, le_max_left _ _, ?_⟩
      rcases Nat.lt_or_ge t (e.rows.keptTo call.kind call.subject) with within | beyond
      · exact .inl within
      · rcases (Bool.or_eq_true _ _).mp decided_ with within | carried
        · have := of_decide_eq_true within
          omega
        · cases call with
          | revocation obligor =>
            obtain ⟨i, value⟩ := Option.isSome_iff_exists.mp carried
            have derived := of.value .revocation obligor kept found
            rw [value] at derived
            obtain ⟨entry, seen, rfl⟩ := Option.map_eq_some_iff.mp derived.symm
            have bound := of_decide_eq_true (List.mem_filter.mp (List.mem_of_find?_eq_some seen)).2
            exact .inr ⟨rfl, known rfl found value (by omega)⟩
          | held operator => cases carried
          | replacements backing rule => cases carried
          | publications backing => cases carried
    · rename_i open_
      refine windows_ ?_ through.symm read
      by_contra beyond
      exact open_ (by simp only [decided, show t ≤ kept.through by omega, decide_true, Bool.true_or])

end Extending

/-- After any readings, the kept rows answer every index they decide as one derivation from the whole range does. A reading that throws
leaves them as they were, and one that returns decides its index, every index past those kept before being in exactly one of the
requests it is answered for, unless the revocation is known by its index. -/
theorem kept_answers {rows : KeptRows} (reads : KeptReads record rules venueId rows) :
    (∀ (call : KeptCall) (answer : KeptAnswer) (t : Nat), call.Declared rules → rows.keptAnswer call.kind call.subject = some answer →
      call.decided t answer = true → call.Agrees record venueId rows t) ∧
    ∀ {V : Type} (venue : Venue V) (call : KeptCall) (t quota : Nat) (e e' : Extension V) (result : Except Failure Unit),
      venue.Honest record venueId → call.Declared rules → e.rows = rows → call.extend venue venueId t quota e = (e', result) →
        (∀ failure, result = .error failure → e'.rows = rows) ∧
        (result = .ok () → KeptReads record rules venueId e'.rows ∧
          (∃ answer, e'.rows.keptAnswer call.kind call.subject = some answer ∧ call.decided t answer = true) ∧
          ∃ windows past, e'.answered = e.answered ++ windows ∧ Tiles venueId call.kind call.subject (rows.keptTo call.kind call.subject) windows past ∧
            (∀ i, windows.countP (·.covers i) = if rows.keptTo call.kind call.subject ≤ i ∧ i < past then 1 else 0) ∧
            past ≤ max (rows.keptTo call.kind call.subject) (t + 1) ∧
            (t < past ∨ call.kind = .revocation ∧ (e'.rows.revocationThrough call.subject t).isSome = true)) := by
  have of := reads.of
  refine ⟨fun call answer t declared kept decided => of.agrees declared kept decided, ?_⟩
  intro V venue call t quota e e' result honest declared same read
  subst same
  refine ⟨fun failure thrown => ?_, fun done => ?_⟩
  · rw [thrown] at read
    exact KeptCall.extend_error read
  · rw [done] at read
    obtain ⟨-, decided⟩ := KeptCall.extend_of honest declared of read
    obtain ⟨windows, past, answered, tiles, within, ends⟩ := KeptCall.extend_tiles honest of read
    exact ⟨.read reads honest declared read, decided, windows, past, answered, tiles, tiles.once, within, ends⟩

end Kept

section Samples

def sampleRevocation : RangeEntry :=
  ⟨0, 0, encodeRevocation ⟨toBytes 32 1, toBytes 64 (sampleDigest 13 ((toBytes 32 1 ++ revocationMessage (toBytes 32 1)).map (·.toNat)))⟩⟩

/-- One obligor's revocation, witnessed at index 0. -/
def sampleRevoked : VenueRecord where
  entries kind subject := if kind = .revocation ∧ subject = toBytes 32 1 then [sampleRevocation] else []
  ordered kind subject := by
    split
    · exact List.pairwise_singleton _ _
    · exact List.Pairwise.nil
  framed kind subject e member := by
    split at member
    · rename_i own
      obtain rfl := List.mem_singleton.mp member
      rw [own.1]
      exact ⟨by decide, by decide, by decide +kernel, fun _ => rfl⟩
    · exact absurd member List.not_mem_nil

def sampleWindow (stop : Nat) : RangeRequest := ⟨toBytes 32 3, .revocation, toBytes 32 1, 0, stop⟩

/-- The frame of the sample's answer for index 0. -/
def sampleFrame : Bytes := tag "moe/pool/v3/range" ++ (toBytes 32 3 ++ (toBytes 1 3 ++ (toBytes 32 1 ++ (toBytes 8 0 ++ (toBytes 8 0 ++ (toBytes 4 1 ++
  (toBytes 8 0 ++ (toBytes 8 0 ++ (toBytes 4 96 ++ sampleRevocation.record)))))))))

/-- A venue that answers for one index at a time, and keeps what it is asked. -/
def sampleNarrow : Venue (List RangeRequest) where
  range asked request limits := (asked ++ [request],
    if request = sampleWindow 1 then .limited else if request = sampleWindow 0 ∧ limits = rangeLimits then .bytes sampleFrame else .absent)
  indexLimits := none

theorem sampleFrame_decoded : decodeRangeAnswer sampleFrame (sampleWindow 0) rangeLimits = .ok ⟨sampleWindow 0, [sampleRevocation]⟩ := by
  decide +kernel

theorem sampleNarrow_honest : sampleNarrow.Honest sampleRevoked (toBytes 32 3) := by
  intro v request limits v' bytes answer own asked decoded
  have reply := (Prod.mk.inj asked).2
  split at reply
  · cases reply
  · split at reply
    · rename_i one
      obtain ⟨rfl, rfl⟩ := one
      obtain rfl := VenueReply.bytes.inj reply
      rw [sampleFrame_decoded] at decoded
      rw [← Except.ok.inj decoded]
      decide +kernel
    · cases reply

def sampleBefore : Extension (List RangeRequest) := ⟨[], [], KeptRows.empty, 0⟩

/-- The rows the sample's reading at index 1 keeps, with what it asks and is answered. -/
def sampleAfter : Extension (List RangeRequest) :=
  ⟨[sampleWindow 1, sampleWindow 0], [sampleWindow 0], { KeptRows.empty with answers := [((.revocation, toBytes 32 1), ⟨1, some 0⟩)] }, 0⟩

theorem sampleNarrow_read : @KeptCall.extend _ sampleNarrow (toBytes 32 3) 1 sampleCrypto 0 (.revocation (toBytes 32 1)) sampleBefore =
    (sampleAfter, .ok ()) := by
  let _ := sampleCrypto
  have halved : askWindow sampleNarrow [] (sampleWindow 1) = ([sampleWindow 1], .ok none) := by decide +kernel
  have asked : askWindow sampleNarrow [sampleWindow 1] (sampleWindow 0) =
      ([sampleWindow 1, sampleWindow 0], .ok (some ⟨sampleWindow 0, [sampleRevocation]⟩)) := by decide +kernel
  have found : revocationIndex ⟨sampleWindow 0, [sampleRevocation]⟩ = .ok (some 0) := by decide +kernel
  have taken : takeRevocationAnswer ⟨KeptRows.empty, 0, none⟩ ⟨sampleWindow 0, [sampleRevocation]⟩ =
      (⟨KeptRows.empty, 0, some 0⟩, .ok true) := by
    rw [takeRevocationAnswer, found]
    rfl
  have wide : 0 < 2 := by decide
  have run : (readWindows sampleNarrow (toBytes 32 3) .revocation (toBytes 32 1) 1 takeRevocationAnswer
      ⟨[], [], ⟨KeptRows.empty, 0, none⟩⟩ 0 2 wide) =
      (⟨[sampleWindow 1, sampleWindow 0], [sampleWindow 0], ⟨KeptRows.empty, 0, some 0⟩⟩, .ok ()) := by
    obtain ⟨wide', again⟩ := @readWindows_halves _ _ sampleNarrow (toBytes 32 3) .revocation (toBytes 32 1) 1 0 1 2 wide takeRevocationAnswer
      ⟨[], [], ⟨KeptRows.empty, 0, none⟩⟩ [sampleWindow 1] (by decide) (by decide) halved
    rw [again]
    exact @readWindows_stops _ _ sampleNarrow (toBytes 32 3) .revocation (toBytes 32 1) 1 0 0 1 wide' takeRevocationAnswer
      ⟨[sampleWindow 1], [], ⟨KeptRows.empty, 0, none⟩⟩ _ _ _ (by decide) (by decide) asked taken
  have extended : KeptCall.extend sampleNarrow (toBytes 32 3) 1 0 (.revocation (toBytes 32 1)) sampleBefore =
      sampleBefore.read sampleNarrow (toBytes 32 3) 1 .revocation (toBytes 32 1) 0 none takeRevocationAnswer id := rfl
  rw [extended, Extension.read, dif_pos (by decide)]
  simp only [sampleBefore, run]
  rfl

/-- The sample's reading asks index 0 twice, and is answered nothing at index 1. -/
theorem sampleNarrow_asks : ∃ e', sampleNarrow.Honest sampleRevoked (toBytes 32 3) ∧
    @KeptCall.extend _ sampleNarrow (toBytes 32 3) 1 sampleCrypto 0 (.revocation (toBytes 32 1)) sampleBefore = (e', .ok ()) ∧
      ¬(∀ i ≤ 1, e'.venue.countP (·.covers i) = 1) ∧ ¬∀ i ≤ 1, e'.answered.countP (·.covers i) = 1 := by
  refine ⟨sampleAfter, sampleNarrow_honest, sampleNarrow_read, fun asked => ?_, fun answered => ?_⟩
  · have twice : sampleAfter.venue.countP (·.covers 0) = 2 := by decide
    have once := asked 0 (by decide)
    omega
  · have never : sampleAfter.answered.countP (·.covers 1) = 0 := by decide
    have once := answered 1 (by decide)
    omega

/-- The rows it keeps have the whole range's revocation. -/
theorem sampleNarrow_kept : sampleAfter.rows.revocationThrough (toBytes 32 1) 1 = some 0 ∧
    ∃ past, ∀ i, sampleAfter.answered.countP (·.covers i) = if i < past then 1 else 0 := by
  obtain ⟨-, extends_⟩ := @kept_answers sampleCrypto sampleRevoked (fun _ => none) (toBytes 32 3) _ (@KeptReads.empty sampleCrypto _ _ _)
  obtain ⟨-, reads⟩ := extends_ sampleNarrow (.revocation (toBytes 32 1)) 1 0 sampleBefore sampleAfter (.ok ()) sampleNarrow_honest trivial rfl
    sampleNarrow_read
  obtain ⟨later, -, windows, past, answered, -, once, -, -⟩ := reads rfl
  obtain ⟨agrees, -⟩ := @kept_answers sampleCrypto sampleRevoked (fun _ => none) (toBytes 32 3) _ later
  have found : @revocationIndex sampleCrypto (sampleRevoked.whole .revocation (toBytes 32 1) (toBytes 32 3) 1) = .ok (some 0) := by
    decide +kernel
  refine ⟨agrees (.revocation (toBytes 32 1)) ⟨1, some 0⟩ 1 trivial rfl (by decide) (some 0) found, past, fun i => ?_⟩
  rw [answered]
  refine (once i).trans (if_congr ?_ rfl rfl)
  exact and_iff_right (Nat.zero_le i)

end Samples

end Moe
