import Moe.Scope.KeptReads

namespace Moe

section Accepting

variable {kind : RecordKind} {request : RangeRequest} {entries : List RangeEntry} {count : Nat}

theorem RangeEntry.Follows.trans {a b c : RangeEntry} (first : RangeEntry.Follows kind a b) (second : RangeEntry.Follows kind b c) :
    RangeEntry.Follows kind a c := by
  obtain less | ⟨same, order⟩ := first
  · obtain less' | ⟨same', -⟩ := second
    · exact .inl (Nat.lt_trans less less')
    · exact .inl (same' ▸ less)
  · obtain less' | ⟨same', order'⟩ := second
    · exact .inl (same ▸ less')
    · refine .inr ⟨same.trans same', ?_⟩
      split at order
      · rename_i publication
        rw [if_pos publication] at order' ⊢
        exact Nat.lt_trans order order'
      · rename_i other
        rw [if_neg other] at order' ⊢
        exact le_trans order order'

theorem follows_of_inOrder {p e : RangeEntry} (order : inOrder kind e (some p) = true) : RangeEntry.Follows kind p e := by
  rw [inOrder] at order
  split at order
  · rename_i less
    exact .inl less
  · rename_i least
    split at order
    · cases order
    · rename_i most
      refine .inr ⟨by omega, ?_⟩
      split at order
      · rename_i publication
        rw [if_pos publication]
        exact of_decide_eq_true order
      · rename_i other
        rw [if_neg other]
        exact of_decide_eq_true ((Bool.and_eq_true _ _).mp order).2

theorem zero_of_inOrder {e : RangeEntry} {previous : Option RangeEntry} (order : inOrder kind e previous = true) (other : kind ≠ .publication) :
    e.ordinal = 0 := by
  cases previous with
  | none => simpa [inOrder, other] using order
  | some p =>
    simp only [inOrder, other, decide_false, Bool.false_or, if_false] at order
    split at order
    · exact of_decide_eq_true order
    · split at order
      · cases order
      · exact of_decide_eq_true ((Bool.and_eq_true _ _).mp order).1

theorem validEntry_eq_ok {read read' : Option RangeEntry × Nat} {e : RangeEntry} (valid : validEntry request none count read e = .ok read') :
    e.Framed request.kind ∧ (request.fromIndex ≤ e.index ∧ e.index ≤ request.toIndex) ∧ inOrder request.kind e read.1 = true ∧ read'.1 = some e := by
  obtain ⟨_, numbers, valid⟩ := bind_eq_ok.mp valid
  obtain ⟨_, inside, valid⟩ := bind_eq_ok.mp valid
  obtain ⟨_, fits, valid⟩ := bind_eq_ok.mp valid
  obtain ⟨_, -, valid⟩ := bind_eq_ok.mp valid
  simp only [require_eq_ok, Bool.and_eq_true, decide_eq_true_eq] at numbers inside fits
  rw [← Except.ok.inj valid]
  exact ⟨⟨numbers.1, numbers.2, fits, zero_of_inOrder inside.2⟩, inside.1, inside.2, rfl⟩

/-- What entries read one after the other are. -/
theorem validEntries_conditions {read read' : Option RangeEntry × Nat}
    (valid : entries.foldlM (validEntry request none count) read = .ok read') :
    (∀ e ∈ entries, e.Framed request.kind ∧ request.fromIndex ≤ e.index ∧ e.index ≤ request.toIndex) ∧
      entries.Pairwise (RangeEntry.Follows request.kind) ∧ ∀ p, read.1 = some p → ∀ e ∈ entries, RangeEntry.Follows request.kind p e := by
  induction entries generalizing read with
  | nil => exact ⟨fun e member => absurd member List.not_mem_nil, List.Pairwise.nil, fun p _ e member => absurd member List.not_mem_nil⟩
  | cons e rest ih =>
    obtain ⟨next, one, later⟩ := bind_eq_ok.mp valid
    obtain ⟨framed, inside, order, last⟩ := validEntry_eq_ok one
    obtain ⟨all, rising, after⟩ := ih later
    refine ⟨List.forall_mem_cons.mpr ⟨⟨framed, inside⟩, all⟩, List.pairwise_cons.mpr ⟨after e last, rising⟩, fun p same => ?_⟩
    rw [same] at order
    have first := follows_of_inOrder order
    exact List.forall_mem_cons.mpr ⟨first, fun own member => first.trans (after e last own member)⟩

/-- An answer of one kind is one whose entries are framed, in range and in order. -/
theorem requireKind_eq_ok_iff : (RangeAnswer.mk request entries).requireKind kind = .ok (request, entries) ↔
    (isWellFormedRequest request = true ∧ request.kind = kind ∧ entries.length ≤ 2 ^ 32 - 1) ∧
      (∀ e ∈ entries, e.Framed kind ∧ request.fromIndex ≤ e.index ∧ e.index ≤ request.toIndex) ∧ entries.Pairwise (RangeEntry.Follows kind) := by
  constructor
  · intro required
    obtain ⟨formed, own, few⟩ := requireKind_conditions required
    refine ⟨⟨formed, own, few⟩, ?_⟩
    obtain ⟨copy, copied, required⟩ := bind_eq_ok.mp required
    obtain ⟨_, -, required⟩ := bind_eq_ok.mp required
    obtain ⟨whole, valid, -⟩ := bind_eq_ok.mp required
    obtain ⟨again, copied', valid⟩ := bind_eq_ok.mp valid
    obtain ⟨_, -, valid⟩ := bind_eq_ok.mp valid
    obtain ⟨_, -, valid⟩ := bind_eq_ok.mp valid
    obtain ⟨read, run, -⟩ := bind_eq_ok.mp valid
    obtain rfl := copyRequest_eq_ok copied
    obtain rfl := copyRequest_eq_ok copied'
    subst own
    obtain ⟨all, rising, -⟩ := validEntries_conditions run
    exact ⟨all, rising⟩
  · rintro ⟨⟨formed, own, few⟩, all, rising⟩
    exact requireKind_of formed own few (fun e member => (all e member).1) (fun e member => (all e member).2) rising

end Accepting

section

variable [Crypto]

/-- A record that commits for an operator: it decodes, names the key and verifies under it. -/
structure CommitsFor (subject record : Bytes) (c : Commitment) : Prop where
  decoded : decodeCommitment record = .ok c
  operator : c.operator = subject
  verified : verifyCommitment c = true

/-- The entry that stands for its sequence at its index: no other of that sequence there has lesser bytes. -/
structure StandsFor (subject : Bytes) (entries : List RangeEntry) (e : RangeEntry) (c : Commitment) : Prop where
  member : e ∈ entries
  commits : CommitsFor subject e.record c
  least : ∀ twin ∈ entries, ∀ c', CommitsFor subject twin.record c' → twin.index = e.index → c'.sequence = c.sequence →
    byteValues e.record ≤ byteValues twin.record

/-- Held index by index: one entry for each sequence above all held at earlier indices, ascending. -/
structure HeldGreedily (subject : Bytes) (highest : Nat) (entries : List RangeEntry) (held : List RangeHeld) : Prop where
  holds : ∀ h, h ∈ held ↔ (∃ e, StandsFor subject entries e h.commitment ∧ e.index = h.index) ∧ highest < h.commitment.sequence ∧
    ∀ before ∈ held, before.index < h.index → before.commitment.sequence < h.commitment.sequence
  rising : held.Pairwise fun a b => a.index ≤ b.index ∧ a.commitment.sequence < b.commitment.sequence

variable {subject : Bytes} {highest : Nat} {entries first second others : List RangeEntry} {held other : List RangeHeld}

theorem CommitsFor.unique {record : Bytes} {c c' : Commitment} (commits : CommitsFor subject record c) (commits' : CommitsFor subject record c') :
    c = c' := Except.ok.inj (commits.decoded.symm.trans commits'.decoded)

/-- What is held is decided by the entries: index by index, there is one list. -/
theorem HeldGreedily.unique (greedy : HeldGreedily subject highest entries held) (greedy' : HeldGreedily subject highest entries other) :
    held = other := by
  have same : ∀ n, ∀ h : RangeHeld, h.index = n → (h ∈ held ↔ h ∈ other) := by
    intro n
    induction n using Nat.strong_induction_on with
    | _ n ih =>
      rintro h rfl
      rw [greedy.holds, greedy'.holds]
      refine and_congr_right fun _ => and_congr_right fun _ => forall_congr' fun before => ?_
      constructor
      · intro above member earlier
        exact above ((ih _ earlier before rfl).mpr member) earlier
      · intro above member earlier
        exact above ((ih _ earlier before rfl).mp member) earlier
  have once : ∀ {list : List RangeHeld}, list.Pairwise (fun a b => a.index ≤ b.index ∧ a.commitment.sequence < b.commitment.sequence) →
      list.Nodup := fun rising => rising.imp fun {a b} both equal => by
    have less := both.2
    rw [equal] at less
    omega
  have perm : held.Perm other := (List.perm_ext_iff_of_nodup (once greedy.rising) (once greedy'.rising)).mpr fun h => same _ h rfl
  exact perm.eq_of_pairwise (fun a b _ _ before after => absurd (Nat.lt_trans before.2 after.2) (Nat.lt_irrefl _)) greedy.rising greedy'.rising

/-- Entries told more than once, or in another order, hold the same. -/
theorem HeldGreedily.congr (same : ∀ e, e ∈ others ↔ e ∈ entries) (greedy : HeldGreedily subject highest entries held) :
    HeldGreedily subject highest others held := by
  have stands : ∀ e c, StandsFor subject others e c ↔ StandsFor subject entries e c := fun e c =>
    ⟨fun own => ⟨(same e).mp own.member, own.commits, fun twin member => own.least twin ((same twin).mpr member)⟩,
      fun own => ⟨(same e).mpr own.member, own.commits, fun twin member => own.least twin ((same twin).mp member)⟩⟩
  refine ⟨fun h => ?_, greedy.rising⟩
  rw [greedy.holds]
  simp only [stands]

/-- What is found of a sequence among entries: the least record that commits for it above what was held, or none. -/
inductive LeastOf (subject : Bytes) (highest : Nat) (entries : List RangeEntry) (sequence : Nat) : Option (Commitment × Bytes) → Prop
  | none : (∀ e ∈ entries, ∀ c, CommitsFor subject e.record c → c.sequence = sequence → sequence ≤ highest) →
      LeastOf subject highest entries sequence none
  | some {e : RangeEntry} {c : Commitment} : e ∈ entries → CommitsFor subject e.record c → c.sequence = sequence → highest < sequence →
      (∀ twin ∈ entries, ∀ c', CommitsFor subject twin.record c' → c'.sequence = sequence → byteValues e.record ≤ byteValues twin.record) →
      LeastOf subject highest entries sequence (some (c, e.record))

/-- An entry that does not commit for a sequence, or is not less than what is found, changes nothing of it. -/
theorem LeastOf.skip {sequence : Nat} {found : Option (Commitment × Bytes)} {e : RangeEntry} (least : LeastOf subject highest entries sequence found)
    (skips : ∀ c, CommitsFor subject e.record c → c.sequence = sequence → highest < sequence →
      ∃ twin, found = Option.some twin ∧ byteValues twin.2 ≤ byteValues e.record) : LeastOf subject highest (entries ++ [e]) sequence found := by
  cases least with
  | none all =>
    refine .none fun own member c commits same => ?_
    obtain before | last := List.mem_append.mp member
    · exact all own before c commits same
    · obtain rfl := List.mem_singleton.mp last
      by_contra above
      obtain ⟨twin, none_, -⟩ := skips c commits same (Nat.lt_of_not_le above)
      cases none_
  | some inside commits same above all =>
    refine .some (List.mem_append_left _ inside) commits same above fun twin member c' commits' same' => ?_
    obtain before | last := List.mem_append.mp member
    · exact all twin before c' commits' same'
    · obtain rfl := List.mem_singleton.mp last
      obtain ⟨own, equal, less⟩ := skips c' commits' same' above
      rwa [← Option.some.inj equal] at less

/-- An entry less than what is found of its sequence is found instead. -/
theorem LeastOf.put {found : Option (Commitment × Bytes)} {e : RangeEntry} {c : Commitment} (least : LeastOf subject highest entries c.sequence found)
    (commits : CommitsFor subject e.record c) (above : highest < c.sequence)
    (less : ∀ twin, found = Option.some twin → byteValues e.record ≤ byteValues twin.2) :
    LeastOf subject highest (entries ++ [e]) c.sequence (Option.some (c, e.record)) := by
  refine .some (List.mem_append_right _ List.mem_cons_self) commits rfl above fun twin member c' commits' same' => ?_
  obtain before | last := List.mem_append.mp member
  · cases least with
    | none all => exact absurd above (Nat.not_lt_of_le (all twin before c' commits' same'))
    | some inside own same higher all => exact (less _ rfl).trans (all twin before c' commits' same')
  · rw [List.mem_singleton.mp last]

theorem heldCandidates_least (entries : List RangeEntry) (sequence : Nat) :
    LeastOf subject highest entries sequence ((heldCandidates subject highest entries).get? sequence) := by
  induction entries using List.reverseRecOn with
  | nil => exact .none fun e member => absurd member List.not_mem_nil
  | append_singleton entries e ih =>
    rw [heldCandidates, List.foldl_append, List.foldl_cons, List.foldl_nil, ← heldCandidates, heldCandidate]
    cases decoded : decodeCommitment e.record with
    | error failure =>
      refine ih.skip fun c commits _ _ => ?_
      rw [commits.decoded] at decoded
      cases decoded
    | ok c =>
      have own : ∀ c', CommitsFor subject e.record c' → c' = c := fun c' commits => Except.ok.inj (commits.decoded.symm.trans decoded)
      simp only
      split
      · rename_i refused
        refine ih.skip fun c' commits same above => ?_
        obtain rfl := own c' commits
        obtain other | low | unsigned := refused
        · exact absurd commits.operator other
        · omega
        · rw [commits.verified] at unsigned
          cases unsigned
      · rename_i counts
        simp only [not_or, not_not, Nat.not_le, Bool.not_eq_false] at counts
        obtain ⟨operator, above, verified⟩ := counts
        have commits : CommitsFor subject e.record c := ⟨decoded, operator, verified⟩
        have others : ∀ found, c.sequence ≠ sequence → LeastOf subject highest entries sequence found →
            LeastOf subject highest (entries ++ [e]) sequence found := fun found apart least =>
          least.skip fun c' commits' same _ => absurd (own c' commits' ▸ same) apart
        cases told : (heldCandidates subject highest entries).get? c.sequence with
        | none =>
          simp only
          rw [OrderedMap.get?_set]
          split
          · rename_i same
            subst same
            exact ih.put commits above fun twin equal => by
              rw [told] at equal
              cases equal
          · rename_i apart
            exact others _ apart ih
        | some twin =>
          simp only
          split
          · rename_i less
            rw [OrderedMap.get?_set]
            split
            · rename_i same
              subst same
              exact ih.put commits above fun own equal => by
                rw [told] at equal
                rw [← Option.some.inj equal]
                exact less.le
            · rename_i apart
              exact others _ apart ih
          · rename_i least
            by_cases same : c.sequence = sequence
            · subst same
              exact ih.skip fun c' _ _ _ => ⟨twin, told, not_lt.mp least⟩
            · exact others _ same ih

/-- What one index holds: the least record of each sequence above the highest before it. -/
theorem mem_indexHeld {h : RangeHeld} : h ∈ indexHeld subject highest entries ↔ h.index = (entries.head?.map (·.index)).getD 0 ∧
    highest < h.commitment.sequence ∧ ∃ e ∈ entries, CommitsFor subject e.record h.commitment ∧
      ∀ twin ∈ entries, ∀ c', CommitsFor subject twin.record c' → c'.sequence = h.commitment.sequence →
        byteValues e.record ≤ byteValues twin.record := by
  have least := @heldCandidates_least _ subject highest entries h.commitment.sequence
  rw [indexHeld, heldBy, List.mem_filterMap]
  constructor
  · rintro ⟨s, listed, found⟩
    obtain ⟨⟨c, record⟩, told, rfl⟩ := Option.map_eq_some_iff.mp found
    have own := @heldCandidates_least _ subject highest entries s
    rw [told] at own
    cases own with
    | some inside commits same above all =>
      subst same
      exact ⟨rfl, above, _, inside, commits, all⟩
  · rintro ⟨index, above, e, inside, commits, all⟩
    generalize told : (heldCandidates subject highest entries).get? h.commitment.sequence = found at least
    cases least with
    | none absent => exact absurd above (Nat.not_lt_of_le (absent e inside _ commits rfl))
    | @some e' c' inside' commits' same' _ all' =>
      have record : e'.record = e.record := byteValues_inj (le_antisymm (all' e inside _ commits rfl) (all e' inside' c' commits' same'))
      rw [record] at commits'
      obtain rfl := commits'.unique commits
      refine ⟨h.commitment.sequence, ?_, ?_⟩
      · rw [indexSequences, List.mem_insertionSort, ← OrderedMap.get?_isSome_iff, told]
        rfl
      · rw [told, Option.map_some, ← index]

/-- Entries of one index hold greedily. -/
theorem indexHeld_greedy {i : Nat} (at_ : ∀ e ∈ entries, e.index = i) (some_ : entries ≠ []) :
    HeldGreedily subject highest entries (indexHeld subject highest entries) := by
  have head : (entries.head?.map (·.index)).getD 0 = i := by
    obtain ⟨e, rest, rfl⟩ := List.exists_cons_of_ne_nil some_
    exact at_ e List.mem_cons_self
  refine ⟨fun h => ?_, (indexHeld_run entries).1.rising⟩
  rw [mem_indexHeld, head]
  constructor
  · rintro ⟨rfl, above, e, inside, commits, all⟩
    refine ⟨⟨e, ⟨inside, commits, fun twin member c' own _ => all twin member c' own⟩, at_ e inside⟩, above, fun before member earlier => ?_⟩
    rw [(mem_indexHeld.mp member).1, head] at earlier
    exact absurd earlier (Nat.lt_irrefl _)
  · rintro ⟨⟨e, stands, index⟩, above, -⟩
    refine ⟨index.symm.trans (at_ e stands.member), above, e, stands.member, stands.commits, fun twin member c' own => ?_⟩
    exact stands.least twin member c' own ((at_ twin member).trans (at_ e stands.member).symm)

/-- Ranges one after the other hold greedily where each does, the second above the highest sequence of the first. -/
theorem HeldGreedily.append {top : Nat} {later : List RangeHeld} (apart : ∀ a ∈ first, ∀ b ∈ second, a.index < b.index)
    (before : HeldGreedily subject highest first held) (run : HeldRun subject highest held top)
    (reached : top = highest ∨ ∃ h ∈ held, h.commitment.sequence = top) (after : HeldGreedily subject top second later) :
    HeldGreedily subject highest (first ++ second) (held ++ later) := by
  have early : ∀ h ∈ held, ∃ e ∈ first, e.index = h.index := fun h member => by
    obtain ⟨⟨e, stands, index⟩, -⟩ := (before.holds h).mp member
    exact ⟨e, stands.member, index⟩
  have late : ∀ h ∈ later, (∃ e ∈ second, e.index = h.index) ∧ top < h.commitment.sequence := fun h member => by
    obtain ⟨⟨e, stands, index⟩, above, -⟩ := (after.holds h).mp member
    exact ⟨⟨e, stands.member, index⟩, above⟩
  refine ⟨fun h => ?_, List.pairwise_append.mpr ⟨before.rising, after.rising, fun a member b member' => ?_⟩⟩
  · rw [List.mem_append]
    constructor
    · rintro (member | member)
      · obtain ⟨⟨e, stands, index⟩, above, earlier⟩ := (before.holds h).mp member
        refine ⟨⟨e, ⟨List.mem_append_left _ stands.member, stands.commits, fun twin inside c' own at_ => ?_⟩, index⟩, above,
          fun other inside less => ?_⟩
        · obtain near | far := List.mem_append.mp inside
          · exact stands.least twin near c' own at_
          · exact absurd at_ (Nat.ne_of_gt (apart e stands.member twin far))
        · obtain near | far := List.mem_append.mp inside
          · exact earlier other near less
          · obtain ⟨⟨e', inside', index'⟩, -⟩ := late other far
            have order := apart e stands.member e' inside'
            omega
      · obtain ⟨⟨e, stands, index⟩, above, earlier⟩ := (after.holds h).mp member
        refine ⟨⟨e, ⟨List.mem_append_right _ stands.member, stands.commits, fun twin inside c' own at_ => ?_⟩, index⟩,
          Nat.lt_of_le_of_lt run.top above, fun other inside less => ?_⟩
        · obtain near | far := List.mem_append.mp inside
          · exact absurd at_ (Nat.ne_of_lt (apart twin near e stands.member))
          · exact stands.least twin far c' own at_
        · obtain near | far := List.mem_append.mp inside
          · exact Nat.lt_of_le_of_lt (run.above other near).2.1 above
          · exact earlier other far less
    · rintro ⟨⟨e, stands, index⟩, above, earlier⟩
      obtain near | far := List.mem_append.mp stands.member
      · refine .inl ((before.holds h).mpr ⟨⟨e, ⟨near, stands.commits, fun twin inside => stands.least twin (List.mem_append_left _ inside)⟩, index⟩,
          above, fun other inside => earlier other (List.mem_append_left _ inside)⟩)
      · have higher : top < h.commitment.sequence := by
          obtain rfl | ⟨last, inside, rfl⟩ := reached
          · exact above
          · obtain ⟨e', inside', index'⟩ := early last inside
            have order := apart e' inside' e far
            exact earlier last (List.mem_append_left _ inside) (by omega)
        refine .inr ((after.holds h).mpr ⟨⟨e, ⟨far, stands.commits, fun twin inside => stands.least twin (List.mem_append_right _ inside)⟩, index⟩,
          higher, fun other inside => earlier other (List.mem_append_right _ inside)⟩)
  · obtain ⟨e, inside, index⟩ := early a member
    obtain ⟨⟨e', inside', index'⟩, above⟩ := late b member'
    have order := apart e inside e' inside'
    exact ⟨by omega, Nat.lt_of_le_of_lt (run.above a member).2.1 above⟩

theorem indexSequences_reached (entries : List RangeEntry) : (indexSequences subject highest entries).getLastD highest = highest ∨
    ∃ h ∈ indexHeld subject highest entries, h.commitment.sequence = (indexSequences subject highest entries).getLastD highest := by
  obtain ⟨sequences, -⟩ := heldBy_of (@heldCandidates_of subject highest _ entries) ((entries.head?.map (·.index)).getD 0)
    (indexSequences_listed entries)
  cases last : (indexSequences subject highest entries).getLast? with
  | none =>
    refine .inl ?_
    rw [List.getLastD_eq_getLast?, last, Option.getD_none]
  | some s =>
    have member : s ∈ (indexHeld subject highest entries).map (·.commitment.sequence) := by
      rw [indexHeld, sequences]
      exact List.mem_of_getLast? last
    obtain ⟨h, inside, same⟩ := List.mem_map.mp member
    refine .inr ⟨h, inside, ?_⟩
    rw [same, List.getLastD_eq_getLast?, last, Option.getD_some]

theorem holdEntries_index {i : Nat} (at_ : ∀ e ∈ entries, e.index = i) (some_ : entries ≠ []) : holdEntries subject highest entries =
    (indexHeld subject highest entries, (indexSequences subject highest entries).getLastD highest) := by
  have chain : entries.IsChain fun a b => decide (a.index = b.index) = true :=
    List.Pairwise.isChain (List.pairwise_of_forall_mem_list fun a first b second => decide_eq_true ((at_ a first).trans (at_ b second).symm))
  rw [holdEntries, List.splitBy_of_isChain some_ chain, List.foldl_cons, List.foldl_nil, holdIndex_eq, List.nil_append]

omit [Crypto] in
/-- Entries in order of index are their first index's, and later ones. -/
theorem firstIndex_cut {e : RangeEntry} {rest : List RangeEntry} (rising : (e :: rest).Pairwise (·.index ≤ ·.index)) :
    ∃ first second, e :: rest = first ++ second ∧ first ≠ [] ∧ (∀ a ∈ first, a.index = e.index) ∧ ∀ b ∈ second, e.index < b.index := by
  refine ⟨(e :: rest).takeWhile (·.index = e.index), (e :: rest).dropWhile (·.index = e.index), List.takeWhile_append_dropWhile.symm, ?_,
    fun a member => of_decide_eq_true (List.all_eq_true.mp List.all_takeWhile a member), fun b member => ?_⟩
  · simp
  · cases past : (e :: rest).dropWhile fun a => decide (a.index = e.index) with
    | nil =>
      rw [past] at member
      cases member
    | cons head tail =>
      have other := List.head_dropWhile_not (fun a : RangeEntry => decide (a.index = e.index)) (l := e :: rest) (by rw [past]; simp)
      have sub : (head :: tail).Sublist (e :: rest) := past ▸ List.dropWhile_sublist _
      simp only [past, List.head_cons, decide_eq_false_iff_not] at other
      have least : e.index ≤ head.index := by
        obtain same | later := List.mem_cons.mp (sub.subset List.mem_cons_self)
        · rw [same]
        · exact (List.pairwise_cons.mp rising).1 head later
      have order := List.pairwise_cons.mp (rising.sublist sub)
      rw [past] at member
      obtain rfl | later := List.mem_cons.mp member
      · omega
      · have next := order.1 b later
        omega

/-- A run of entries in order of index is held greedily, to the highest sequence held. -/
theorem holdEntries_greedy (rising : entries.Pairwise (·.index ≤ ·.index)) :
    HeldGreedily subject highest entries (holdEntries subject highest entries).1 ∧ ((holdEntries subject highest entries).2 = highest ∨
      ∃ h ∈ (holdEntries subject highest entries).1, h.commitment.sequence = (holdEntries subject highest entries).2) := by
  induction length : entries.length using Nat.strong_induction_on generalizing entries highest with
  | _ n ih =>
    cases entries with
    | nil => exact ⟨⟨fun h => ⟨fun member => absurd member List.not_mem_nil, fun held => absurd held.1.choose_spec.1.member List.not_mem_nil⟩,
        List.Pairwise.nil⟩, .inl rfl⟩
    | cons e rest =>
      obtain ⟨first, second, whole, some_, at_, beyond⟩ := firstIndex_cut rising
      rw [whole] at rising length ⊢
      have apart : ∀ a ∈ first, ∀ b ∈ second, a.index < b.index := fun a inside b member => by
        rw [at_ a inside]
        exact beyond b member
      have shorter : second.length < n := by
        have positive := List.length_pos_iff.mpr some_
        rw [List.length_append] at length
        omega
      have own := @holdEntries_index _ subject highest first e.index at_ some_
      have run := (@indexHeld_run subject highest _ first).1
      have reached := @indexSequences_reached _ subject highest first
      obtain ⟨later, last⟩ := @ih _ shorter ((indexSequences subject highest first).getLastD highest) second (List.pairwise_append.mp rising).2.1 rfl
      rw [holdEntries_append apart, own]
      refine ⟨HeldGreedily.append apart (indexHeld_greedy at_ some_) run reached later, ?_⟩
      obtain same | ⟨h, member, sequence⟩ := last
      · rw [same]
        exact reached.imp_right fun ⟨h, member, sequence⟩ => ⟨h, List.mem_append_left _ member, sequence⟩
      · exact .inr ⟨h, List.mem_append_right _ member, sequence⟩

omit [Crypto] in
theorem decodeCommitment_sequence {record : Bytes} {c : Commitment} (decoded : decodeCommitment record = .ok c) : c.sequence < 2 ^ 64 := by
  obtain ⟨t, read⟩ := Reader.run_eq_ok.mp decoded
  obtain ⟨sequence, m, first, read⟩ := read_bind_eq_ok.mp read
  obtain ⟨root, m, -, read⟩ := read_bind_eq_ok.mp read
  obtain ⟨operator, m, -, read⟩ := read_bind_eq_ok.mp read
  obtain ⟨signature, m, -, read⟩ := read_bind_eq_ok.mp read
  obtain ⟨_, m, -, read⟩ := read_bind_eq_ok.mp read
  obtain ⟨rfl, -⟩ := read_pure_eq_ok.mp read
  exact ((Reader.u64_inverts _ _ _).mp first).1

/-- A part of an answer's range, with the entries there. -/
def RangeAnswer.window (answer : RangeAnswer) (low high : Nat) : RangeAnswer :=
  ⟨{ answer.request with fromIndex := low, toIndex := high }, answer.entries.filter fun e => low ≤ e.index && e.index ≤ high⟩

/-- A range's commitments derived window by window, each window ending at the next stop, on the prior the one before it established. -/
def heldWindows (answer : RangeAnswer) (low : Nat) (prior : Option HeldPrior) : List Nat → Except Failure (List RangeHeld × Option HeldPrior)
  | [] => .ok ([], prior)
  | stop :: rest => do
    let (held, next) ← heldCommitments (answer.window low stop) prior
    let (more, last) ← heldWindows answer (stop + 1) (some next) rest
    return (held ++ more, last)

/-- Stops that cut a range into windows, the last at its end. -/
inductive Stops : Nat → List Nat → Nat → Prop
  | last {low top : Nat} : low ≤ top → Stops low [top] top
  | next {low stop top : Nat} {rest : List Nat} : low ≤ stop → stop < top → Stops (stop + 1) rest top → Stops low (stop :: rest) top

variable {request : RangeRequest} {prior : Option HeldPrior} {low stop top : Nat} {stops : List Nat}

theorem heldCommitments_of {answer : RangeAnswer} (required : answer.requireKind .commitment = .ok (answer.request, answer.entries))
    (carried : priorHighest answer.request prior = .ok highest) : heldCommitments answer prior =
      .ok ((holdEntries answer.request.subject highest answer.entries).1,
        ⟨answer.request.toIndex + 1, (holdEntries answer.request.subject highest answer.entries).2⟩) :=
  bind_eq_ok.mpr ⟨_, required, bind_eq_ok.mpr ⟨highest, carried, rfl⟩⟩

omit [Crypto] in
theorem window_required {answer : RangeAnswer} (required : answer.requireKind .commitment = .ok (answer.request, answer.entries)) (le : low ≤ stop)
    (inside : stop ≤ answer.request.toIndex) :
    (answer.window low stop).requireKind .commitment = .ok ((answer.window low stop).request, (answer.window low stop).entries) := by
  obtain ⟨⟨formed, own, few⟩, all, rising⟩ := requireKind_eq_ok_iff.mp required
  refine requireKind_eq_ok_iff.mpr ⟨⟨?_, own, (List.length_filter_le _ _).trans few⟩, fun e member => ?_, rising.filter _⟩
  · simp only [isWellFormedRequest, isU64, Bool.and_eq_true, decide_eq_true_eq] at formed ⊢
    exact ⟨⟨⟨⟨formed.1.1.1.1, formed.1.1.1.2⟩, by omega⟩, by omega⟩, le⟩
  · obtain ⟨within, bounds⟩ := List.mem_filter.mp member
    simp only [Bool.and_eq_true, decide_eq_true_eq] at bounds
    exact ⟨(all e within).1, bounds⟩

omit [Crypto] in
theorem window_cut (rising : entries.Pairwise (·.index ≤ ·.index)) (le : low ≤ stop) (less : stop < top) :
    (entries.filter fun e => low ≤ e.index && e.index ≤ top) = (entries.filter fun e => low ≤ e.index && e.index ≤ stop) ++
      entries.filter fun e => stop + 1 ≤ e.index && e.index ≤ top := by
  have whole := VenueRecord.filter_cut rising low top (by omega)
  have parts := VenueRecord.filter_cut rising (stop + 1) top (by omega)
  rw [VenueRecord.filter_cut rising low stop (by omega), List.append_assoc] at parts
  rw [parts] at whole
  exact (List.append_cancel_left whole).symm

omit [Crypto] in
theorem rising_of_follows {kind : RecordKind} (follows : entries.Pairwise (RangeEntry.Follows kind)) : entries.Pairwise (·.index ≤ ·.index) :=
  follows.imp fun order => by
    obtain less | ⟨same, -⟩ := order
    · exact less.le
    · exact same.le

/-- The highest sequence held is a 64-bit number, as the one before it was. -/
theorem holdEntries_isU64 (rising : entries.Pairwise (·.index ≤ ·.index)) (bound : highest < 2 ^ 64) :
    (holdEntries subject highest entries).2 < 2 ^ 64 := by
  obtain ⟨greedy, same | ⟨h, member, sequence⟩⟩ := @holdEntries_greedy _ subject highest entries rising
  · rwa [same]
  · obtain ⟨⟨e, stands, -⟩, -⟩ := (greedy.holds h).mp member
    rw [← sequence]
    exact decodeCommitment_sequence stands.commits.decoded

omit [Crypto] in
/-- The prior established for a range's first index is carried into it. -/
theorem priorHighest_some (positive : request.fromIndex ≠ 0) (wide : request.fromIndex < 2 ^ 64) (bound : highest < 2 ^ 64) :
    priorHighest request (some ⟨request.fromIndex, highest⟩) = .ok highest := by
  have numbers : (isU64 request.fromIndex && isU64 highest && decide (request.fromIndex = request.fromIndex)) = true := by
    simp only [isU64, wide, bound, decide_true, Bool.and_self]
  unfold priorHighest
  rw [if_neg positive]
  exact bind_eq_ok.mpr ⟨(), require_eq_ok.mpr numbers, rfl⟩

/-- Window by window, a range holds what it holds whole. -/
theorem heldWindows_eq {answer : RangeAnswer} (required : answer.requireKind .commitment = .ok (answer.request, answer.entries))
    (cut : Stops low stops top) (inside : top ≤ answer.request.toIndex) (bound : highest < 2 ^ 64)
    (carried : priorHighest { answer.request with fromIndex := low } prior = .ok highest) :
    heldWindows answer low prior stops =
      .ok ((holdEntries answer.request.subject highest (answer.window low top).entries).1,
        some ⟨top + 1, (holdEntries answer.request.subject highest (answer.window low top).entries).2⟩) := by
  obtain ⟨⟨formed, -, -⟩, -, follows⟩ := requireKind_eq_ok_iff.mp required
  have rising := rising_of_follows follows
  have wide : answer.request.toIndex < 2 ^ 64 := by
    simp only [isWellFormedRequest, isU64, Bool.and_eq_true, decide_eq_true_eq] at formed
    exact formed.1.2
  induction cut generalizing highest prior with
  | @last low top le =>
    have one := @heldCommitments_of _ highest prior (answer.window low top) (window_required required le inside) carried
    refine bind_eq_ok.mpr ⟨_, one, bind_eq_ok.mpr ⟨_, rfl, ?_⟩⟩
    simp only [List.append_nil]
    rfl
  | @next low stop top rest le less later ih =>
    have one := @heldCommitments_of _ highest prior (answer.window low stop) (window_required required le (by omega)) carried
    have bound' : (holdEntries answer.request.subject highest (answer.window low stop).entries).2 < 2 ^ 64 :=
      holdEntries_isU64 (rising.filter _) bound
    have within : stop + 1 < 2 ^ 64 := by omega
    have others := ih inside bound' (priorHighest_some (Nat.succ_ne_zero stop) within bound')
    have apart : ∀ a ∈ (answer.window low stop).entries, ∀ b ∈ (answer.window (stop + 1) top).entries, a.index < b.index := by
      intro a first b second
      have below := (List.mem_filter.mp first).2
      have above := (List.mem_filter.mp second).2
      simp only [Bool.and_eq_true, decide_eq_true_eq] at below above
      omega
    have whole : (answer.window low top).entries = (answer.window low stop).entries ++ (answer.window (stop + 1) top).entries :=
      window_cut rising le less
    rw [whole, holdEntries_append apart]
    refine bind_eq_ok.mpr ⟨_, one, bind_eq_ok.mpr ⟨_, others, rfl⟩⟩

theorem heldCommitments_refused (refused : ¬ (RangeAnswer.mk request entries).requireKind .commitment = .ok (request, entries)) :
    ∃ failure, heldCommitments ⟨request, entries⟩ prior = .error failure := by
  cases required : (RangeAnswer.mk request entries).requireKind .commitment with
  | error failure => exact ⟨failure, by rw [heldCommitments, required]; rfl⟩
  | ok read =>
    rw [requireKind_eq_ok required] at required
    exact absurd required refused

/-- The commitments a range holds are the ones held greedily, index and sequence rising together; the same entries told again hold the same,
where they stand in the frame's order, and are refused where they do not; and cut into windows the range holds the same. -/
theorem heldCommitments_greedy {answer : RangeAnswer} (required : answer.requireKind .commitment = .ok (answer.request, answer.entries))
    (carried : priorHighest answer.request prior = .ok highest) : ∃ held next, heldCommitments answer prior = .ok (held, next) ∧
      (∀ other, HeldGreedily answer.request.subject highest answer.entries other ↔ other = held) ∧
      (held.Pairwise fun a b => a.index ≤ b.index ∧ a.commitment.sequence < b.commitment.sequence) ∧
      (next.fromIndex = answer.request.toIndex + 1 ∧ highest ≤ next.highest ∧ (∀ h ∈ held, h.commitment.sequence ≤ next.highest) ∧
        (next.highest = highest ∨ ∃ h ∈ held, h.commitment.sequence = next.highest)) ∧
      (∀ entries, (∀ e, e ∈ entries ↔ e ∈ answer.entries) →
        (entries.Pairwise (RangeEntry.Follows .commitment) ∧ entries.length ≤ 2 ^ 32 - 1 →
          heldCommitments ⟨answer.request, entries⟩ prior = .ok (held, next)) ∧
        (¬ (entries.Pairwise (RangeEntry.Follows .commitment) ∧ entries.length ≤ 2 ^ 32 - 1) →
          ∃ failure, heldCommitments ⟨answer.request, entries⟩ prior = .error failure)) ∧
      ∀ stops, Stops answer.request.fromIndex stops answer.request.toIndex →
        heldWindows answer answer.request.fromIndex prior stops = .ok (held, some next) := by
  obtain ⟨⟨formed, own, few⟩, all, follows⟩ := requireKind_eq_ok_iff.mp required
  have rising := rising_of_follows follows
  obtain ⟨greedy, reached⟩ := @holdEntries_greedy _ answer.request.subject highest answer.entries rising
  obtain ⟨run, -⟩ := @holdEntries_run answer.request.subject highest _ answer.entries rising
  have bound : highest < 2 ^ 64 := by
    unfold priorHighest at carried
    split at carried
    · obtain ⟨_, -, value⟩ := bind_eq_ok.mp carried
      rw [← Except.ok.inj value]
      exact Nat.two_pow_pos 64
    · split at carried
      · cases carried
      · obtain ⟨_, numbers, value⟩ := bind_eq_ok.mp carried
        simp only [require_eq_ok, isU64, Bool.and_eq_true, decide_eq_true_eq] at numbers
        rw [← Except.ok.inj value]
        exact numbers.1.2
  refine ⟨_, _, heldCommitments_of required carried, fun other => ⟨fun held => held.unique greedy, fun same => same ▸ greedy⟩, greedy.rising,
    ⟨rfl, run.top, fun h member => (run.above h member).2.1, reached⟩, fun entries same => ⟨fun accepted => ?_, fun refused => ?_⟩,
    fun stops cut => ?_⟩
  · obtain ⟨later, few'⟩ := accepted
    have required' : (RangeAnswer.mk answer.request entries).requireKind .commitment = .ok (answer.request, entries) :=
      requireKind_eq_ok_iff.mpr ⟨⟨formed, own, few'⟩, fun e member => all e ((same e).mp member), later⟩
    obtain ⟨greedy', reached'⟩ := @holdEntries_greedy _ answer.request.subject highest entries (rising_of_follows later)
    obtain ⟨run', -⟩ := @holdEntries_run answer.request.subject highest _ entries (rising_of_follows later)
    have list := greedy'.unique (greedy.congr same)
    have last : (holdEntries answer.request.subject highest entries).2 = (holdEntries answer.request.subject highest answer.entries).2 := by
      rw [list] at reached' run'
      refine le_antisymm ?_ ?_
      · obtain none_ | ⟨h, member, equal⟩ := reached'
        · rw [none_]
          exact run.top
        · rw [← equal]
          exact (run.above h member).2.1
      · obtain none_ | ⟨h, member, equal⟩ := reached
        · rw [none_]
          exact run'.top
        · rw [← equal]
          exact (run'.above h member).2.1
    refine (heldCommitments_of required' carried).trans ?_
    rw [list, last]
  · refine heldCommitments_refused fun accepted => refused ?_
    obtain ⟨⟨-, -, few'⟩, -, later⟩ := requireKind_eq_ok_iff.mp accepted
    exact ⟨later, few'⟩
  · have whole : (answer.window answer.request.fromIndex answer.request.toIndex).entries = answer.entries := by
      refine List.filter_eq_self.mpr fun e member => ?_
      simp only [(all e member).2, decide_true, Bool.and_self]
    have windows := heldWindows_eq required cut le_rfl bound carried
    rwa [whole] at windows

end

section

local instance heldCrypto : Crypto := sampleCrypto

/-- A commitment of a key, signed by it. -/
def sampleSigned (sequence : Nat) : RangeEntry :=
  let key := toBytes 32 5
  let root := toBytes 32 9
  ⟨3, 0, encodeCommitment ⟨sequence, root, key, toBytes 64 (sampleDigest 13 ((key ++ commitmentMessage sequence root).map (·.toNat)))⟩⟩

def sampleHeldRange : RangeRequest := ⟨toBytes 32 3, .commitment, toBytes 32 5, 0, 7⟩

theorem heldCommitments_greedy_sample : ∃ held next, heldCommitments ⟨sampleHeldRange, [sampleSigned 1, sampleSigned 2]⟩ none = .ok (held, next) ∧
    heldWindows ⟨sampleHeldRange, [sampleSigned 1, sampleSigned 2]⟩ 0 none [3, 7] = .ok (held, some next) := by
  have required : (RangeAnswer.mk sampleHeldRange [sampleSigned 1, sampleSigned 2]).requireKind .commitment =
      .ok (sampleHeldRange, [sampleSigned 1, sampleSigned 2]) := by decide +kernel
  obtain ⟨held, next, derived, -, -, -, -, windows⟩ := @heldCommitments_greedy heldCrypto 0 none _ required (by decide)
  exact ⟨held, next, derived, windows [3, 7] (.next (by decide) (by decide) (.last (by decide)))⟩

/-- Two commitments of one index in the other order are no answer. -/
theorem heldCommitments_permuted :
    (heldCommitments ⟨sampleHeldRange, [sampleSigned 1, sampleSigned 2]⟩ none).map (·.1.map (·.commitment.sequence)) = .ok [1, 2] ∧
    heldCommitments ⟨sampleHeldRange, [sampleSigned 2, sampleSigned 1]⟩ none =
      .error (.encoding "range entry out of order, ordinal or range") := by
  constructor
  · decide +kernel
  · decide +kernel

end

end Moe
