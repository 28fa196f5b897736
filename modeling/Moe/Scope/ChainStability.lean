import Moe.Scope.ReplacementChain

namespace Moe

/-- The records a link's candidates are among. -/
def successors (counted : Set ReplacementEntry) (incumbent : ChainLink) : Set ReplacementEntry :=
  {a | a ∈ counted ∧ a.names incumbent = true}

/-- Records told apart by their identities, each with a lead. -/
structure Floored (floored : List ReplacementEntry) : Prop where
  apart : (floored.map (·.identity)).Nodup
  early : ∀ a ∈ floored, a.index < a.effective

theorem flooredEntries_floored {lag now : Nat} {admitted : List ReplacementEntry} : Floored (flooredEntries lag now admitted) where
  apart := flooredEntries_nodup
  early a member := by
    have floor := of_decide_eq_true (List.mem_filter.mp member).2
    omega

section Candidates

variable {floored : List ReplacementEntry} {incumbent : ChainLink} {a b : ReplacementEntry}

theorem Floored.inj (kept : Floored floored) (first : a ∈ floored) (second : b ∈ floored) (same : a.identity = b.identity) : a = b :=
  List.inj_on_of_nodup_map kept.apart first second same

theorem entryOrder_iff : entryOrder a b = true ↔ (replacementOffers incumbent).Before a b := by
  rw [entryOrder]
  simp only [Bool.or_eq_true, Bool.and_eq_true, decide_eq_true_eq]
  rfl

theorem candidateEntries_sorted : (candidateEntries floored incumbent).Pairwise (replacementOffers incumbent).Before := by
  have order : ∀ {a b : ReplacementEntry}, entryOrder a b = true ↔
      a.index < b.index ∨ a.index = b.index ∧ byteValues a.identity ≤ byteValues b.identity := by
    intro a b
    exact @entryOrder_iff incumbent a b
  have total : Std.Total fun a b => entryOrder a b = true := ⟨fun a b => by
    rw [order, order]
    rcases Nat.lt_trichotomy a.index b.index with less | same | more
    · exact .inl (.inl less)
    · exact (le_total (byteValues a.identity) (byteValues b.identity)).imp (fun le => .inr ⟨same, le⟩) fun le => .inr ⟨same.symm, le⟩
    · exact .inr (.inl more)⟩
  have trans_ : IsTrans ReplacementEntry fun a b => entryOrder a b = true := ⟨fun a b c first second => by
    rw [order] at first second ⊢
    rcases first with less | ⟨same, le⟩ <;> rcases second with less' | ⟨same', le'⟩
    · exact .inl (less.trans less')
    · exact .inl (same' ▸ less)
    · exact .inl (same ▸ less')
    · exact .inr ⟨same.trans same', le.trans le'⟩⟩
  exact (List.pairwise_insertionSort _ _).imp fun sorted => entryOrder_iff.mp sorted

theorem mem_candidateEntries : a ∈ candidateEntries floored incumbent ↔ a ∈ successors {x | x ∈ floored} incumbent := by
  rw [candidateEntries, List.mem_insertionSort, List.mem_filter]
  rfl

/-- A link's chosen record is the seated one among its successors. -/
theorem chosenEntry_seats (kept : Floored floored) :
    (∀ c, chosenEntry floored incumbent = some c → (replacementOffers incumbent).Seats (successors {x | x ∈ floored} incumbent) c) ∧
      (chosenEntry floored incumbent = none → ∀ c, ¬(replacementOffers incumbent).Settles (successors {x | x ∈ floored} incumbent) c) := by
  have set : {x | x ∈ [] ++ candidateEntries floored incumbent} = successors {x | x ∈ floored} incumbent := by
    ext a
    exact mem_candidateEntries
  have inside : ∀ a ∈ [] ++ candidateEntries floored incumbent, a ∈ floored := fun a member => (mem_candidateEntries.mp member).1
  have reached : Offers.Reached (replacementOffers incumbent) [] (candidateEntries floored incumbent) none none :=
    ⟨fun _ => ⟨rfl, rfl⟩, fun i at_ => absurd at_.symm (Option.some_ne_none _), fun a member => absurd member List.not_mem_nil⟩
  have once : (candidateEntries floored incumbent).Nodup := by
    refine (List.perm_insertionSort _ _).nodup_iff.mpr (List.Nodup.filter _ ?_)
    exact List.Nodup.of_map _ kept.apart
  have run := reached.stand candidateEntries_sorted (fun x first y second same =>
    kept.inj (inside x first) (inside y second) (byteValues_inj same)) once
    fun a member => kept.early a (inside a member)
  rwa [set] at run

theorem successors_apart (kept : Floored floored) : ∀ x ∈ successors {x | x ∈ floored} incumbent, ∀ y ∈ successors {x | x ∈ floored} incumbent,
    (replacementOffers incumbent).tie x = (replacementOffers incumbent).tie y → x = y :=
  fun _ first _ second same => kept.inj first.1 second.1 (byteValues_inj same)

theorem chosenEntry_eq_some (kept : Floored floored) {c : ReplacementEntry} :
    chosenEntry floored incumbent = some c ↔ (replacementOffers incumbent).Seats (successors {x | x ∈ floored} incumbent) c := by
  obtain ⟨seats, none_⟩ := @chosenEntry_seats _ incumbent kept
  refine ⟨seats c, fun other => ?_⟩
  cases chosen : chosenEntry floored incumbent with
  | none => exact absurd other.settles (none_ chosen c)
  | some d => rw [(seats d chosen).unique (successors_apart kept) other]

/-- Records listed otherwise choose alike. -/
theorem chosenEntry_congr {others : List ReplacementEntry} (kept : Floored floored) (kept' : Floored others)
    (same : ∀ a, a ∈ floored ↔ a ∈ others) (incumbent : ChainLink) : chosenEntry floored incumbent = chosenEntry others incumbent := by
  have set : {x | x ∈ floored} = {x | x ∈ others} := Set.ext same
  refine Option.ext fun c => ?_
  rw [chosenEntry_eq_some kept, chosenEntry_eq_some kept', set]

/-- The chosen record hands over, later than the incumbent's force. -/
theorem seat_later {counted : Set ReplacementEntry} (seats : (replacementOffers incumbent).Seats (successors counted incumbent) a) :
    incumbent.start < a.effective := by
  have names := seats.settles.member.2
  have hands : a.successor ≠ incumbent.operator := of_decide_eq_true seats.settles.hands
  simp only [ReplacementEntry.names, Bool.and_eq_true, Bool.or_eq_true, decide_eq_true_eq] at names
  exact names.2.resolve_right hands

end Candidates

/-- A chain's next link is the seat of the one before it. -/
def Succeeds (counted : Set ReplacementEntry) (first second : ChainLink) : Prop :=
  ∃ c, (replacementOffers first).Seats (successors counted first) c ∧ second = c.link

theorem Succeeds.later {counted : Set ReplacementEntry} {first second : ChainLink} (succeeds : Succeeds counted first second) :
    first.start < second.start := by
  obtain ⟨c, seats, rfl⟩ := succeeds
  exact seat_later seats

section Walk

variable {floored : List ReplacementEntry} {now rounds : Nat} {incumbent : ChainLink} {seen : List Bytes} {result : ReplacementChain}

/-- How a walk goes on from a link. -/
theorem walkChain_eq_some (walk : walkChain floored now (rounds + 1) incumbent seen = some result) :
    (chosenEntry floored incumbent = none ∧ result = ⟨[incumbent], none⟩) ∨
      ∃ c, chosenEntry floored incumbent = some c ∧ ((now < c.effective ∧ result = ⟨[incumbent], some c.link⟩) ∨
        (c.effective ≤ now ∧ c.identity ∈ seen ∧ result = ⟨[incumbent], none⟩) ∨
        (c.effective ≤ now ∧ c.identity ∉ seen ∧ ∃ rest, walkChain floored now rounds c.link (seen ++ [c.identity]) = some rest ∧
          result = ⟨incumbent :: rest.chain, rest.pending⟩)) := by
  rw [walkChain] at walk
  cases chosen : chosenEntry floored incumbent with
  | none =>
    rw [chosen] at walk
    exact .inl ⟨rfl, (Option.some.inj walk).symm⟩
  | some c =>
    rw [chosen] at walk
    simp only at walk
    refine .inr ⟨c, rfl, ?_⟩
    split at walk
    · exact .inl ⟨‹_›, (Option.some.inj walk).symm⟩
    · rename_i arrived
      simp only [List.contains_iff_mem] at walk
      split at walk
      · exact .inr (.inl ⟨Nat.le_of_not_lt arrived, ‹_›, (Option.some.inj walk).symm⟩)
      · obtain ⟨rest, ran, rfl⟩ := Option.map_eq_some_iff.mp walk
        exact .inr (.inr ⟨Nat.le_of_not_lt arrived, ‹_›, rest, ran, rfl⟩)

theorem walkChain_congr {others : List ReplacementEntry} (same : chosenEntry floored = chosenEntry others) :
    walkChain floored now rounds incumbent seen = walkChain others now rounds incumbent seen := by
  induction rounds generalizing incumbent seen with
  | zero => rfl
  | succ rounds ih => simp only [walkChain, same, ih]

/-- The identities a walk has yet to pass. -/
def unseen (floored : List ReplacementEntry) (seen : List Bytes) : List ReplacementEntry :=
  floored.filter fun a => !seen.contains a.identity

theorem unseen_lt {c : ReplacementEntry} (member : c ∈ floored) (fresh : c.identity ∉ seen) :
    (unseen floored (seen ++ [c.identity])).length < (unseen floored seen).length := by
  have fewer : unseen floored (seen ++ [c.identity]) = (unseen floored seen).filter fun a => a.identity ≠ c.identity := by
    rw [unseen, unseen, List.filter_filter]
    refine List.filter_congr fun a _ => ?_
    simp only [List.contains_eq_mem, List.mem_append, List.mem_singleton, Bool.decide_or, Bool.not_or, ne_eq, decide_not, Bool.and_comm]
  rw [fewer]
  refine List.length_filter_lt_length_iff_exists.mpr ⟨c, List.mem_filter.mpr ⟨member, by simpa using fresh⟩, ?_⟩
  simp

/-- A walk ends within the identities it has yet to pass. -/
theorem walkChain_total (kept : Floored floored) (room : (unseen floored seen).length < rounds) :
    ∃ result, walkChain floored now rounds incumbent seen = some result := by
  induction rounds generalizing incumbent seen with
  | zero => cases room
  | succ rounds ih =>
    rw [walkChain]
    cases chosen : chosenEntry floored incumbent with
    | none => exact ⟨_, rfl⟩
    | some c =>
      simp only
      split
      · exact ⟨_, rfl⟩
      · split
        · exact ⟨_, rfl⟩
        · rename_i fresh
          have member := ((chosenEntry_eq_some kept).mp chosen).settles.member.1
          have fewer := unseen_lt member (mt List.contains_iff_mem.mpr fresh)
          obtain ⟨rest, ran⟩ := @ih c.link (seen ++ [c.identity]) (by omega)
          exact ⟨_, by rw [ran]; rfl⟩

/-- What a walk's chain is: from its first link each succeeds the one before, all in force by `now`. -/
theorem walkChain_chain (kept : Floored floored) (walk : walkChain floored now rounds incumbent seen = some result) :
    ∃ tail, result.chain = incumbent :: tail ∧ result.chain.IsChain (Succeeds {x | x ∈ floored}) ∧ ∀ link ∈ tail, link.start ≤ now := by
  induction rounds generalizing incumbent seen result with
  | zero => cases walk
  | succ rounds ih =>
    have alone : ∀ pending, result = ⟨[incumbent], pending⟩ → ∃ tail, result.chain = incumbent :: tail ∧
        result.chain.IsChain (Succeeds {x | x ∈ floored}) ∧ ∀ link ∈ tail, link.start ≤ now := by
      rintro pending rfl
      exact ⟨[], rfl, List.isChain_singleton _, fun link member => absurd member List.not_mem_nil⟩
    rcases walkChain_eq_some walk with ⟨-, same⟩ | ⟨c, chosen, ⟨-, same⟩ | ⟨-, -, same⟩ | ⟨arrived, -, rest, ran, rfl⟩⟩
    · exact alone _ same
    · exact alone _ same
    · exact alone _ same
    · obtain ⟨tail, whole, chained, inForce⟩ := ih ran
      refine ⟨rest.chain, rfl, ?_, fun link member => ?_⟩
      · simp only [whole] at chained ⊢
        exact List.isChain_cons_cons.mpr ⟨⟨c, (chosenEntry_eq_some kept).mp chosen, rfl⟩, chained⟩
      · rw [whole] at member
        rcases List.mem_cons.mp member with rfl | later
        · exact arrived
        · exact inForce link later

/-- Where a walk ends: nothing settles, or the seat is not in force yet, or it names a link the walk has passed. -/
theorem walkChain_ends (walk : walkChain floored now rounds incumbent seen = some result) :
    ∃ before last, result.chain = before ++ [last] ∧
      ((chosenEntry floored last = none ∧ result.pending = none) ∨
        ∃ c, chosenEntry floored last = some c ∧ ((now < c.effective ∧ result.pending = some c.link) ∨
          (c.effective ≤ now ∧ result.pending = none ∧ (c.identity ∈ seen ∨ ∃ link ∈ result.chain, c.identity = link.link)))) := by
  induction rounds generalizing incumbent seen result with
  | zero => cases walk
  | succ rounds ih =>
    rcases walkChain_eq_some walk with ⟨chosen, rfl⟩ | ⟨c, chosen, ⟨ahead, rfl⟩ | ⟨arrived, passed, rfl⟩ | ⟨-, -, rest, ran, rfl⟩⟩
    · exact ⟨[], incumbent, rfl, .inl ⟨chosen, rfl⟩⟩
    · exact ⟨[], incumbent, rfl, .inr ⟨c, chosen, .inl ⟨ahead, rfl⟩⟩⟩
    · exact ⟨[], incumbent, rfl, .inr ⟨c, chosen, .inr ⟨arrived, rfl, .inl passed⟩⟩⟩
    · obtain ⟨before, last, whole, ends⟩ := ih ran
      refine ⟨incumbent :: before, last, by simp only [whole, List.cons_append], ?_⟩
      rcases ends with ⟨none_, pending⟩ | ⟨d, chosen', ⟨ahead, pending⟩ | ⟨arrived, pending, passed⟩⟩
      · exact .inl ⟨none_, pending⟩
      · exact .inr ⟨d, chosen', .inl ⟨ahead, pending⟩⟩
      · refine .inr ⟨d, chosen', .inr ⟨arrived, pending, ?_⟩⟩
        rcases passed with earlier | ⟨link, member, same⟩
        · rcases List.mem_append.mp earlier with known | new
          · exact .inl known
          · refine .inr ⟨c.link, ?_, List.mem_singleton.mp new⟩
            cases rounds with
            | zero => cases ran
            | succ rounds =>
              rcases walkChain_eq_some ran with ⟨-, rfl⟩ | ⟨_, -, ⟨-, rfl⟩ | ⟨-, -, rfl⟩ | ⟨-, -, _, -, rfl⟩⟩ <;>
                exact List.mem_cons_of_mem _ List.mem_cons_self
        · exact .inr ⟨link, List.mem_cons_of_mem _ member, same⟩

/-- A walk over more records, read later, goes on where this one ends. -/
theorem walkChain_extends {later : List ReplacementEntry} {now' rounds' : Nat} {result' : ReplacementChain} (kept : Floored floored)
    (kept' : Floored later) (le : now ≤ now') (more : ∀ a, a ∈ floored ↔ a ∈ later ∧ a.index ≤ now)
    (walk : walkChain floored now rounds incumbent seen = some result) (walk' : walkChain later now' rounds' incumbent seen = some result') :
    ∃ tail, result'.chain = result.chain ++ tail ∧ ∀ link ∈ tail, now < link.start := by
  have extends_ : ∀ link : ChainLink, (replacementOffers link).Extends (successors {x | x ∈ floored} link) (successors {x | x ∈ later} link) now := by
    intro link a
    constructor
    · rintro ⟨member, names⟩
      exact ⟨⟨((more a).mp member).1, names⟩, ((more a).mp member).2⟩
    · rintro ⟨⟨member, names⟩, within⟩
      exact ⟨(more a).mpr ⟨member, within⟩, names⟩
  -- no seat of the later walk here is in force by `now`
  have past : ∀ {rounds' incumbent seen result'}, walkChain later now' rounds' incumbent seen = some result' →
      (∀ c, (replacementOffers incumbent).Seats (successors {x | x ∈ later} incumbent) c → now < c.effective) →
      ∃ tail, result'.chain = [incumbent] ++ tail ∧ ∀ link ∈ tail, now < link.start := by
    intro rounds' incumbent seen result' ran beyond
    obtain ⟨tail, whole, chained, -⟩ := walkChain_chain kept' ran
    refine ⟨tail, whole, fun link member => ?_⟩
    rw [whole] at chained
    cases tail with
    | nil => cases member
    | cons first rest =>
      obtain ⟨⟨c, seats, rfl⟩, others⟩ := List.isChain_cons_cons.mp chained
      have start := beyond c seats
      rcases List.mem_cons.mp member with rfl | inside
      · exact start
      · have rising := (others.imp fun _ _ succeeds => Succeeds.later succeeds)
        have ordered := List.isChain_iff_pairwise.mp (rising.imp fun _ _ less => less)
        exact start.trans ((List.pairwise_cons.mp ordered).1 link inside)
  induction rounds generalizing incumbent seen result rounds' result' with
  | zero => cases walk
  | succ rounds ih =>
    have seated : ∀ c, (replacementOffers incumbent).Seats (successors {x | x ∈ later} incumbent) c → c.effective ≤ now →
        chosenEntry floored incumbent = some c := by
      intro c seats inForce
      have early := kept'.early c seats.settles.member.1
      exact (chosenEntry_eq_some kept).mpr (seats.before (extends_ incumbent) (show c.index ≤ now by omega))
    rcases walkChain_eq_some walk with ⟨chosen, rfl⟩ | ⟨c, chosen, ⟨ahead, rfl⟩ | ⟨arrived, passed, rfl⟩ | ⟨arrived, fresh, rest, ran, rfl⟩⟩
    · refine past walk' fun c seats => ?_
      by_contra inForce
      rw [seated c seats (Nat.le_of_not_lt inForce)] at chosen
      cases chosen
    · refine past walk' fun d seats => ?_
      by_contra inForce
      have same := (seated d seats (Nat.le_of_not_lt inForce)).symm.trans chosen
      obtain rfl := Option.some.inj same
      exact inForce ahead
    · have still := (chosenEntry_eq_some kept').mpr (((chosenEntry_eq_some kept).mp chosen).after (extends_ incumbent) arrived)
      cases rounds' with
      | zero => cases walk'
      | succ rounds' =>
        rcases walkChain_eq_some walk' with ⟨none_, -⟩ | ⟨d, chosen', ends⟩
        · rw [still] at none_
          cases none_
        · obtain rfl := Option.some.inj (still.symm.trans chosen')
          rcases ends with ⟨ahead, -⟩ | ⟨-, -, rfl⟩ | ⟨-, fresh, -⟩
          · omega
          · exact ⟨[], rfl, fun link member => absurd member List.not_mem_nil⟩
          · exact absurd passed fresh
    · have still := (chosenEntry_eq_some kept').mpr (((chosenEntry_eq_some kept).mp chosen).after (extends_ incumbent) arrived)
      cases rounds' with
      | zero => cases walk'
      | succ rounds' =>
        rcases walkChain_eq_some walk' with ⟨none_, -⟩ | ⟨d, chosen', ends⟩
        · rw [still] at none_
          cases none_
        · obtain rfl := Option.some.inj (still.symm.trans chosen')
          rcases ends with ⟨ahead, -⟩ | ⟨-, passed, -⟩ | ⟨-, -, rest', ran', rfl⟩
          · omega
          · exact absurd passed fresh
          · obtain ⟨tail, whole, beyond⟩ := ih ran ran'
            exact ⟨tail, by simp only [whole, List.cons_append], beyond⟩

end Walk

section Readings

theorem lastInForce_append {i : Nat} {inForce : ChainLink} {chain tail : List ChainLink} (beyond : ∀ link ∈ tail, i < link.start) :
    lastInForce i inForce (chain ++ tail) = lastInForce i inForce chain := by
  rw [lastInForce, lastInForce, List.foldl_append]
  generalize List.foldl (fun standing link : ChainLink => if link.start ≤ i then link else standing) inForce chain = standing
  induction tail with
  | nil => rfl
  | cons link rest ih =>
    have past := beyond link List.mem_cons_self
    rw [List.foldl_cons, if_neg (Nat.not_le_of_lt past)]
    exact ih fun other member => beyond other (List.mem_cons_of_mem _ member)

theorem linkInForce_append {i : Nat} {chain tail : List ChainLink} (start : chain ≠ []) (beyond : ∀ link ∈ tail, i < link.start) :
    linkInForce (chain ++ tail) i = linkInForce chain i := by
  cases chain with
  | nil => exact absurd rfl start
  | cons first rest => rw [List.cons_append, linkInForce, linkInForce, ← List.cons_append, lastInForce_append beyond]

/-- The fields a walk reads of an admitted record. -/
def AdmittedReplacement.entry (a : AdmittedReplacement) : ReplacementEntry :=
  ⟨a.index, a.identity, a.replacement.predecessor, a.replacement.successor, a.replacement.effective⟩

/-- The admitted records a reading by `now` gathers, in whatever order and however often. -/
def Gathers (witnessed gathered : List AdmittedReplacement) (now : Nat) : Prop :=
  (∀ a ∈ gathered, a ∈ witnessed) ∧ ∀ a ∈ witnessed, a.index ≤ now → a ∈ gathered

/-- Where a chain ends: nothing more settles at its last link, or the seat there is not in force yet, or it closes a hash cycle. -/
def ReplacementChain.Ends (counted : Set ReplacementEntry) (now : Nat) (result : ReplacementChain) : Prop :=
  ∃ before last, result.chain = before ++ [last] ∧
    (((∀ c, ¬(replacementOffers last).Settles (successors counted last) c) ∧ result.pending = none) ∨
      ∃ c, (replacementOffers last).Seats (successors counted last) c ∧ ((now < c.effective ∧ result.pending = some c.link) ∨
        (c.effective ≤ now ∧ result.pending = none ∧ ∃ link ∈ result.chain, c.identity = link.link)))

theorem counts_extends {lag now now' : Nat} {admitted : List ReplacementEntry} (le : now ≤ now') (a : ReplacementEntry) :
    Counts lag now admitted a ↔ Counts lag now' admitted a ∧ a.index ≤ now := by
  constructor
  · rintro ⟨member, within, least, floor⟩
    exact ⟨⟨member, within.trans le, least, floor⟩, within⟩
  · rintro ⟨⟨member, -, least, floor⟩, within⟩
    exact ⟨member, within, least, floor⟩

variable [Crypto]

/-- Records that count for a backing: each named by its own message's hash. -/
structure Admitted (backing : Bytes) (witnessed : List AdmittedReplacement) : Prop where
  index : ∀ a ∈ witnessed, a.index < 2 ^ 64
  written : ∀ a ∈ witnessed, a.replacement.Written
  named : ∀ a ∈ witnessed, a.identity = replacementHash backing a.replacement

/-- No two of the records' messages collide. -/
def HashApart (backing : Bytes) (witnessed : List AdmittedReplacement) : Prop :=
  ∀ a ∈ witnessed, ∀ b ∈ witnessed, replacementHash backing a.replacement = replacementHash backing b.replacement →
    replacementMessage backing a.replacement = replacementMessage backing b.replacement

variable {backing : Bytes} {witnessed gathered : List AdmittedReplacement}

theorem copyAdmitted_eq (admitted : Admitted backing witnessed) {a : AdmittedReplacement} (member : a ∈ witnessed) :
    copyAdmitted a = .ok a.entry := by
  have written := admitted.written a member
  have index : isU64 a.index = true := decide_eq_true (admitted.index a member)
  have effective : isU64 a.replacement.effective = true := decide_eq_true written.effective
  have identity : a.identity.length = 32 := by
    rw [admitted.named a member]
    exact Crypto.sha256_length _
  simp only [copyAdmitted, index, effective, identity, written.predecessor, written.successor, Bool.and_self, decide_true, require, if_true]
  rfl

theorem copies_eq (admitted : Admitted backing witnessed) (inside : ∀ a ∈ gathered, a ∈ witnessed) :
    gathered.mapM copyAdmitted = .ok (gathered.map (·.entry)) := by
  rw [mapM_eq_ok, List.forall₂_map_right_iff, List.forall₂_same]
  exact fun a member => copyAdmitted_eq admitted (inside a member)

theorem oneRecord (admitted : Admitted backing witnessed) (apart : HashApart backing witnessed) (inside : ∀ a ∈ gathered, a ∈ witnessed) :
    OneRecord (gathered.map (·.entry)) := by
  intro x first y second same
  obtain ⟨a, memberA, rfl⟩ := List.mem_map.mp first
  obtain ⟨b, memberB, rfl⟩ := List.mem_map.mp second
  have hashes : replacementHash backing a.replacement = replacementHash backing b.replacement := by
    rw [← admitted.named a (inside a memberA), ← admitted.named b (inside b memberB)]
    exact same
  have messages := apart a (inside a memberA) b (inside b memberB) hashes
  obtain ⟨successor, predecessor, effective⟩ :=
    replacementMessage_inj (admitted.written a (inside a memberA)) (admitted.written b (inside b memberB)) messages
  exact ⟨predecessor, successor, effective⟩

/-- A reading counts what is witnessed by its index, however it was gathered. -/
theorem mem_floored_gathered (admitted : Admitted backing witnessed) (apart : HashApart backing witnessed) {lag now : Nat}
    (gathers : Gathers witnessed gathered now) {a : ReplacementEntry} :
    a ∈ flooredEntries lag now (gathered.map (·.entry)) ↔ Counts lag now (witnessed.map (·.entry)) a := by
  rw [mem_flooredEntries (oneRecord admitted apart gathers.1)]
  constructor
  · rintro ⟨member, within, least, floor⟩
    refine ⟨?_, within, fun b inside same => ?_, floor⟩
    · obtain ⟨c, inside, rfl⟩ := List.mem_map.mp member
      exact List.mem_map_of_mem (gathers.1 c inside)
    · obtain ⟨c, listed, rfl⟩ := List.mem_map.mp inside
      rcases Nat.lt_or_ge now c.index with beyond | known
      · exact within.trans beyond.le
      · exact least _ (List.mem_map_of_mem (gathers.2 c listed known)) same
  · rintro ⟨member, within, least, floor⟩
    obtain ⟨c, inside, rfl⟩ := List.mem_map.mp member
    refine ⟨List.mem_map_of_mem (gathers.2 c inside within), within, fun b other same => ?_, floor⟩
    obtain ⟨d, member, rfl⟩ := List.mem_map.mp other
    exact least _ (List.mem_map_of_mem (gathers.1 d member)) same

variable {original : Bytes} {lag now : Nat}

/-- A reading's walk runs over its floored records, and ends. -/
theorem replacementChain_runs (admitted : Admitted backing witnessed) (inside : ∀ a ∈ gathered, a ∈ witnessed)
    (named : backing.length = 32) (key : original.length = 32) (lags : lag < 2 ^ 64) (index : now < 2 ^ 64) :
    ∃ chain, replacementChain gathered ⟨backing, original, lag, now⟩ = .ok chain ∧
      walkChain (flooredEntries lag now (gathered.map (·.entry))) now ((flooredEntries lag now (gathered.map (·.entry))).length + 1)
        ⟨original, 0, backing⟩ [backing] = some chain := by
  have few : (unseen (flooredEntries lag now (gathered.map (·.entry))) [backing]).length <
      (flooredEntries lag now (gathered.map (·.entry))).length + 1 := Nat.lt_succ_of_le (List.length_filter_le _ _)
  obtain ⟨chain, walk⟩ := @walkChain_total _ now _ ⟨original, 0, backing⟩ _ flooredEntries_floored few
  refine ⟨chain, ?_, walk⟩
  have lag_ : isU64 lag = true := decide_eq_true lags
  have now_ : isU64 now = true := decide_eq_true index
  simp only [replacementChain, named, key, lag_, now_, Bool.and_self, decide_true, require, if_true, copies_eq admitted inside,
    ChainContext.genesis]
  simp only [bind, Except.bind, walk]

theorem gathered_floored (admitted : Admitted backing witnessed) (apart : HashApart backing witnessed) (gathers : Gathers witnessed gathered now) :
    {x | x ∈ flooredEntries lag now (gathered.map (·.entry))} = {x | Counts lag now (witnessed.map (·.entry)) x} :=
  Set.ext fun _ => mem_floored_gathered admitted apart gathers

/-- Two gatherings of what is witnessed by one index are walked alike. -/
theorem replacementChain_congr {others : List AdmittedReplacement} {chain : ReplacementChain} (admitted : Admitted backing witnessed)
    (apart : HashApart backing witnessed) (gathers : Gathers witnessed gathered now) (gathers' : Gathers witnessed others now)
    (named : backing.length = 32) (key : original.length = 32) (lags : lag < 2 ^ 64) (index : now < 2 ^ 64)
    (run : replacementChain gathered ⟨backing, original, lag, now⟩ = .ok chain) :
    replacementChain others ⟨backing, original, lag, now⟩ = .ok chain := by
  obtain ⟨first, ran, walk⟩ := replacementChain_runs admitted gathers.1 named key lags index
  obtain ⟨second, ran', walk'⟩ := replacementChain_runs admitted gathers'.1 named key lags index
  have same : ∀ a, a ∈ flooredEntries lag now (gathered.map (·.entry)) ↔ a ∈ flooredEntries lag now (others.map (·.entry)) := fun a =>
    (mem_floored_gathered admitted apart gathers).trans (mem_floored_gathered admitted apart gathers').symm
  have once : ∀ list : List AdmittedReplacement, (flooredEntries lag now (list.map (·.entry))).Nodup := fun list =>
    List.Nodup.of_map _ flooredEntries_nodup
  have length := ((List.perm_ext_iff_of_nodup (once gathered) (once others)).mpr same).length_eq
  have chosen : chosenEntry (flooredEntries lag now (gathered.map (·.entry))) = chosenEntry (flooredEntries lag now (others.map (·.entry))) :=
    funext fun link => chosenEntry_congr flooredEntries_floored flooredEntries_floored same link
  rw [length, walkChain_congr chosen, walk'] at walk
  rw [ran', Option.some.inj walk, ← ran, run]

/-- A chain is the seats of what is witnessed by its reading, from the genesis link on, whatever order and multiplicity the records
are gathered in; its links' starts rise, and the link in force at any index by then is the one every later reading finds. -/
theorem replacement_chain (admitted : Admitted backing witnessed) (apart : HashApart backing witnessed) (named : backing.length = 32)
    (key : original.length = 32) (lags : lag < 2 ^ 64) : ∀ now < 2 ^ 64, ∀ gathered, Gathers witnessed gathered now →
    ∃ chain, replacementChain gathered ⟨backing, original, lag, now⟩ = .ok chain ∧
      (∀ others, Gathers witnessed others now → replacementChain others ⟨backing, original, lag, now⟩ = .ok chain) ∧
      chain.chain.head? = some ⟨original, 0, backing⟩ ∧ chain.chain.Pairwise (·.start < ·.start) ∧
      chain.chain.IsChain (Succeeds {a | Counts lag now (witnessed.map (·.entry)) a}) ∧
      chain.Ends {a | Counts lag now (witnessed.map (·.entry)) a} now ∧
      ∀ now', now ≤ now' → now' < 2 ^ 64 → ∀ later, Gathers witnessed later now' →
        ∃ chain', replacementChain later ⟨backing, original, lag, now'⟩ = .ok chain' ∧
          ∀ i ≤ now, linkInForce chain'.chain i = linkInForce chain.chain i := by
  intro now index gathered gathers
  obtain ⟨chain, run, walk⟩ := replacementChain_runs admitted gathers.1 named key lags index
  obtain ⟨tail, whole, chained, inForce⟩ := walkChain_chain flooredEntries_floored walk
  have counted : {x | x ∈ flooredEntries lag now (gathered.map (·.entry))} = {x | Counts lag now (witnessed.map (·.entry)) x} :=
    gathered_floored admitted apart gathers
  rw [counted] at chained
  refine ⟨chain, run, fun others gathers' => replacementChain_congr admitted apart gathers gathers' named key lags index run, by rw [whole]; rfl,
    ?_, chained, ?_, fun now' le index' later gathers' => ?_⟩
  · exact List.isChain_iff_pairwise.mp (chained.imp fun _ _ succeeds => succeeds.later)
  · obtain ⟨before, last, ending, ends⟩ := walkChain_ends walk
    refine ⟨before, last, ending, ?_⟩
    rw [← counted]
    rcases ends with ⟨none_, pending⟩ | ⟨c, chosen, ⟨ahead, pending⟩ | ⟨arrived, pending, passed⟩⟩
    · exact .inl ⟨(chosenEntry_seats flooredEntries_floored).2 none_, pending⟩
    · exact .inr ⟨c, (chosenEntry_eq_some flooredEntries_floored).mp chosen, .inl ⟨ahead, pending⟩⟩
    · refine .inr ⟨c, (chosenEntry_eq_some flooredEntries_floored).mp chosen, .inr ⟨arrived, pending, ?_⟩⟩
      rcases passed with genesis | link
      · exact ⟨⟨original, 0, backing⟩, by rw [whole]; exact List.mem_cons_self, List.mem_singleton.mp genesis⟩
      · exact link
  · obtain ⟨chain', run', walk'⟩ := replacementChain_runs admitted gathers'.1 named key lags index'
    refine ⟨chain', run', fun i within => ?_⟩
    obtain ⟨more, extended, beyond⟩ := walkChain_extends flooredEntries_floored flooredEntries_floored le (fun a => by
      rw [mem_floored_gathered admitted apart gathers, mem_floored_gathered admitted apart gathers', counts_extends le]) walk walk'
    rw [extended]
    refine linkInForce_append ?_ fun link member => Nat.lt_of_le_of_lt within (beyond link member)
    rw [whole]
    exact List.cons_ne_nil _ _

end Readings

section Samples

/-- A handover of the sample backing, signed by the rule's key and the successor. -/
def sampleHandover (successor : Bytes) (effective : Nat) : Replacement :=
  let unsigned : Replacement := ⟨roleOperator, successor, toBytes 32 1, effective, [], []⟩
  let signed (key : Bytes) : Bytes := toBytes 64 (sampleDigest 13 ((key ++ replacementMessage (toBytes 32 1) unsigned).map (·.toNat)))
  { unsigned with signature := signed (toBytes 32 9), successorSignature := signed successor }

/-- Two handovers of one link: the later one is witnessed before the earlier one's force. -/
def sampleHandovers : RangeAnswer where
  request := ⟨toBytes 32 3, .replacement, toBytes 32 1, 0, 20⟩
  entries := [⟨5, 0, encodeReplacement (toBytes 32 1) (sampleHandover (toBytes 32 4) 15)⟩,
    ⟨8, 0, encodeReplacement (toBytes 32 1) (sampleHandover (toBytes 32 5) 12)⟩]

def sampleWitnessing (index : Nat) (r : Replacement) : AdmittedReplacement := ⟨index, @replacementHash sampleCrypto (toBytes 32 1) r, r⟩

def sampleAdmitted : List AdmittedReplacement := [sampleWitnessing 5 (sampleHandover (toBytes 32 4) 15), sampleWitnessing 8 (sampleHandover (toBytes 32 5) 12)]

theorem sampleHandovers_admitted : @admittedReplacements sampleCrypto sampleHandovers (some (toBytes 32 9)) = .ok sampleAdmitted := by
  decide +kernel

theorem sampleAdmitted_admitted : @Admitted sampleCrypto (toBytes 32 1) sampleAdmitted := by
  refine @Admitted.mk sampleCrypto _ _ (by decide +kernel) (fun a member => ?_) (by decide +kernel)
  rcases List.mem_cons.mp member with rfl | member
  · exact ⟨by decide, by decide, by decide, by decide⟩
  · obtain rfl := List.mem_singleton.mp member
    exact ⟨by decide, by decide, by decide, by decide⟩

theorem sampleAdmitted_apart : @HashApart sampleCrypto (toBytes 32 1) sampleAdmitted := by
  unfold HashApart
  decide +kernel

/-- Every link is the first of the records that name the one before it, in the order they are considered. -/
def LeastSuccessors (floored : List ReplacementEntry) (chain : List ChainLink) : Prop :=
  chain.IsChain fun a b => ∃ c ∈ floored, b = c.link ∧ c.names a = true ∧ ∀ d ∈ floored, d.names a = true → entryOrder c d = true

/-- The second handover supersedes the first, which is before it in the order. -/
theorem sampleHandovers_superseded : ∃ admitted chain,
    @admittedReplacements sampleCrypto sampleHandovers (some (toBytes 32 9)) = .ok admitted ∧
      replacementChain admitted ⟨toBytes 32 1, toBytes 32 2, 0, 20⟩ = .ok chain ∧
      ¬LeastSuccessors (flooredEntries 0 20 (admitted.map (·.entry))) chain.chain := by
  refine ⟨sampleAdmitted, ⟨[⟨toBytes 32 2, 0, toBytes 32 1⟩, (sampleWitnessing 8 (sampleHandover (toBytes 32 5) 12)).entry.link], none⟩,
    sampleHandovers_admitted, by decide +kernel, fun least => ?_⟩
  obtain ⟨first, -⟩ := List.isChain_cons_cons.mp least
  revert first
  decide +kernel

/-- Read at 20, and again at 30 with its records gathered in another order, the sample has one link in force at 14. -/
theorem sampleHandovers_chain : ∃ chain chain',
    replacementChain sampleAdmitted ⟨toBytes 32 1, toBytes 32 2, 0, 20⟩ = .ok chain ∧ chain.chain.Pairwise (·.start < ·.start) ∧
      replacementChain sampleAdmitted.reverse ⟨toBytes 32 1, toBytes 32 2, 0, 30⟩ = .ok chain' ∧
      linkInForce chain'.chain 14 = linkInForce chain.chain 14 := by
  have gathers : ∀ now, Gathers sampleAdmitted sampleAdmitted now := fun _ => ⟨fun _ member => member, fun _ member _ => member⟩
  have reversed : ∀ now, Gathers sampleAdmitted sampleAdmitted.reverse now :=
    fun _ => ⟨fun _ member => List.mem_reverse.mp member, fun _ member _ => List.mem_reverse.mpr member⟩
  obtain ⟨chain, run, -, -, rising, -, -, stable⟩ := @replacement_chain sampleCrypto (toBytes 32 1) sampleAdmitted (toBytes 32 2) 0
    sampleAdmitted_admitted sampleAdmitted_apart (by decide) (by decide) (by decide) 20 (by decide) sampleAdmitted (gathers 20)
  obtain ⟨chain', run', same⟩ := stable 30 (by decide) (by decide) sampleAdmitted.reverse (reversed 30)
  exact ⟨chain, chain', run, rising, run', same 14 (by decide)⟩

end Samples

end Moe
