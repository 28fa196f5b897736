import Moe.Lib.PartialJoin
import Moe.Pool.Known

namespace Moe

section Prefixes

variable {names : Preimages} {s : Store}

/-- A held position has a known history. -/
theorem Store.Known.history (known : s.Known names) {ns p : Nat} (held : s.Holds ⟨ns, p + 1⟩) :
    ∃ n history, s.namespaces ns = some n ∧ p < n.position ∧ s.historyAt ⟨ns, p + 1⟩ = some history ∧ s.Tells names ns n p history := by
  obtain ⟨n, found, bound⟩ := held
  obtain ⟨history, tells⟩ := (known ns n found).tells p bound
  refine ⟨n, history, found, bound, ?_, tells⟩
  simp only [Store.historyAt, Store.event, found, Option.bind_some]
  exact tells.event

/-- Prefixes in two stores that end in one history are of one history throughout. -/
theorem Store.Known.historyAt_across (known : s.Known names) {t : Store} (known' : t.Known names) {a b : Nat} {p q : Nat}
    (first : s.Holds ⟨a, p⟩) (second : t.Holds ⟨b, p⟩) (same : s.historyAt ⟨a, p⟩ = t.historyAt ⟨b, p⟩) (positive : 0 < q) (le : q ≤ p) :
    s.historyAt ⟨a, q⟩ = t.historyAt ⟨b, q⟩ := by
  induction p with
  | zero => omega
  | succ p ih =>
    rcases Nat.eq_or_lt_of_le le with rfl | less
    · exact same
    · obtain ⟨n, history, found, bound, ends, tells⟩ := known.history first
      obtain ⟨m, history', found', bound', ends', tells'⟩ := known'.history second
      obtain rfl : history = history' := Option.some.inj (ends.symm.trans (same.trans ends'))
      refine ih ⟨n, found, bound.le⟩ ⟨m, found', bound'.le⟩ ?_ (Nat.le_of_lt_succ less)
      obtain ⟨p, rfl⟩ : ∃ before, p = before + 1 := ⟨p - 1, by omega⟩
      have before : s.Holds ⟨a, p + 1⟩ := ⟨n, found, bound.le⟩
      have before' : t.Holds ⟨b, p + 1⟩ := ⟨m, found', bound'.le⟩
      obtain ⟨event, seen⟩ : ∃ event, n.event (p + 1) = some event := by
        obtain ⟨n', _, again, -, -, earlier⟩ := known.history before
        obtain rfl : n = n' := Option.some.inj (found.symm.trans again)
        obtain ⟨event, seen, -⟩ := Option.map_eq_some_iff.mp earlier.event
        exact ⟨event, seen⟩
      obtain ⟨event', seen'⟩ : ∃ event, m.event (p + 1) = some event := by
        obtain ⟨m', _, again, -, -, earlier⟩ := known'.history before'
        obtain rfl : m = m' := Option.some.inj (found'.symm.trans again)
        obtain ⟨event, seen, -⟩ := Option.map_eq_some_iff.mp earlier.event
        exact ⟨event, seen⟩
      simp only [Store.historyAt, Store.event, found, found', Option.bind_some, seen, seen', Option.map_some]
      exact congrArg some ((tells.previous event seen).symm.trans (tells'.previous event' seen'))

/-- Two prefixes that end in one history are of one history throughout. -/
theorem Store.Known.historyAt_le (known : s.Known names) {a b : Nat} {p q : Nat} (first : s.Holds ⟨a, p⟩) (second : s.Holds ⟨b, p⟩)
    (same : s.historyAt ⟨a, p⟩ = s.historyAt ⟨b, p⟩) (positive : 0 < q) (le : q ≤ p) : s.historyAt ⟨a, q⟩ = s.historyAt ⟨b, q⟩ :=
  known.historyAt_across known first second same positive le

theorem Store.Holds.below {entry : ImportEntry} (held : s.Holds entry) {q : Nat} (le : q ≤ entry.upto) : s.Holds ⟨entry.ns, q⟩ := by
  obtain ⟨n, found, bound⟩ := held
  exact ⟨n, found, le.trans bound⟩

theorem Store.Prefix.trans (known : s.Known names) {a b c : ImportEntry} (second : s.Holds b) (third : s.Holds c) (ab : s.Prefix a b)
    (bc : s.Prefix b c) : s.Prefix a c := by
  refine ⟨ab.1.trans bc.1, fun positive => (ab.2 positive).trans ?_⟩
  exact known.historyAt_le second (third.below bc.1) (bc.2 (Nat.lt_of_lt_of_le positive ab.1)) positive ab.1

/-- Prefixes of one history are comparable. -/
theorem Store.Prefix.chain (known : s.Known names) {a b c : ImportEntry} (second : s.Holds b) (third : s.Holds c) (ac : s.Prefix a c)
    (bc : s.Prefix b c) (le : a.upto ≤ b.upto) : s.Prefix a b :=
  ⟨le, fun positive => (ac.2 positive).trans
    (known.historyAt_le second (third.below bc.1) (bc.2 (Nat.lt_of_lt_of_le positive le)) positive le).symm⟩

/-- The event at a held position past the opening. -/
theorem Store.Known.event (known : s.Known names) {entry : ImportEntry} (held : s.Holds entry) (positive : 0 < entry.upto) :
    ∃ event, s.event entry.ns entry.upto = some event := by
  obtain ⟨ns, upto⟩ := entry
  obtain ⟨p, rfl⟩ : ∃ p, upto = p + 1 := ⟨upto - 1, by simp only at positive; omega⟩
  obtain ⟨n, history, found, -, ends, -⟩ := known.history held
  obtain ⟨event, seen, -⟩ := Option.map_eq_some_iff.mp ends
  exact ⟨event, seen⟩

/-- Two held prefixes are checked to agree exactly where the shorter is a prefix of the longer. -/
theorem Store.Known.checkAgree (known : s.Known names) {low high : ImportEntry} (first : s.Holds low) (second : s.Holds high)
    (le : low.upto ≤ high.upto) : (s.Prefix low high ∧ s.checkAgree low high = .ok ()) ∨
      (¬s.Prefix low high ∧ s.checkAgree low high = .error (.replay .continuity)) := by
  unfold Store.checkAgree
  split
  · rename_i apart
    obtain ⟨a, seen⟩ := known.event first apart.2
    obtain ⟨b, seen'⟩ := known.event (second.below le) apart.2
    simp only [seen, seen', Moe.known]
    have iff : s.Prefix low high ↔ a.history = b.history := by
      simp only [Store.Prefix, le, true_and, apart.2, true_implies, Store.historyAt, seen, seen', Option.map_some, Option.some.injEq]
    by_cases same : a.history = b.history
    · exact .inl ⟨iff.mpr same, by simp [requireReplay, same, bind, Except.bind]⟩
    · exact .inr ⟨fun prefix_ => same (iff.mp prefix_), by simp [requireReplay, same, bind, Except.bind]⟩
  · rename_i same
    refine .inl ⟨⟨le, fun positive => ?_⟩, rfl⟩
    have ns : low.ns = high.ns := by
      by_contra other
      exact same ⟨other, positive⟩
    rw [← ns]

/-- The longer of two prefixes of one segment is their join. -/
theorem Store.Known.sharedPrefix (known : s.Known names) :
    PartialJoin (fun name entry => s.Holds entry ∧ s.segment entry.ns = name) s.Prefix s.sharedPrefix where
  refl _ := .refl s _
  trans _ second third ab bc := ab.trans known second.1 third.1 bc
  chain {_ a b c} first second third ac bc := by
    rcases Nat.le_total a.upto b.upto with le | le
    · exact .inl (ac.chain known second.1 third.1 bc le)
    · exact .inr (bc.chain known first.1 third.1 ac le)
  greater {_ a b c} first second run := by
    simp only [Store.sharedPrefix] at run
    split at run
    · rename_i le
      rcases known.checkAgree first.1 second.1 le with ⟨prefix_, agree⟩ | ⟨-, agree⟩
      · rw [agree] at run
        exact .inl ⟨prefix_, (Except.ok.inj run).symm⟩
      · rw [agree] at run
        cases run
    · rename_i more
      rcases known.checkAgree second.1 first.1 (Nat.le_of_not_le more) with ⟨prefix_, agree⟩ | ⟨-, agree⟩
      · rw [agree] at run
        exact .inr ⟨prefix_, (Except.ok.inj run).symm⟩
      · rw [agree] at run
        cases run
  joins {_ a b} first second comparable := by
    simp only [Store.sharedPrefix]
    split
    · rename_i le
      have prefix_ : s.Prefix a b := by
        rcases comparable with ab | ba
        · exact ab
        · exact (Store.Prefix.refl s a).chain known second.1 first.1 ba le
      rcases known.checkAgree first.1 second.1 le with ⟨-, agree⟩ | ⟨other, -⟩
      · exact ⟨b, by rw [agree]; rfl⟩
      · exact absurd prefix_ other
    · rename_i more
      have le := Nat.le_of_not_le more
      have prefix_ : s.Prefix b a := by
        rcases comparable with ab | ba
        · exact (Store.Prefix.refl s b).chain known first.1 second.1 ab le
        · exact ba
      rcases known.checkAgree second.1 first.1 le with ⟨-, agree⟩ | ⟨other, -⟩
      · exact ⟨a, by rw [agree]; rfl⟩
      · exact absurd prefix_ other

end Prefixes

section Merging

variable {names : Preimages} {s : Store}

/-- The entries a merge joins, parent by parent. -/
def Store.parentEntries (s : Store) (parents : List ImportEntry) : List (Bytes × ImportEntry) :=
  parents.reverse.dedup.reverse.flatMap fun parent => (s.frontier parent.ns parent.upto).segments

theorem Store.mem_parentEntries {parents : List ImportEntry} {entry : Bytes × ImportEntry} :
    entry ∈ s.parentEntries parents ↔ ∃ parent ∈ parents, entry ∈ (s.frontier parent.ns parent.upto).segments := by
  simp [Store.parentEntries]

theorem Store.mergeSegments_eq (parents : List ImportEntry) :
    s.mergeSegments parents = (s.parentEntries parents).foldlM (joinEntry s.sharedPrefix) [] := by
  have step : s.mergeSegment = joinEntry s.sharedPrefix := by
    funext map entry
    simp only [Store.mergeSegment, joinEntry]
    cases OrderedMap.get? map entry.1 <;> rfl
  rw [Store.mergeSegments, step]
  rfl

/-- Every entry of a parent's frontier is held, and named by its segment. -/
theorem Store.Known.parentEntries (known : s.Known names) (placed : s.WellPlaced) {parents : List ImportEntry}
    (held : ∀ parent ∈ parents, s.Holds parent) : ∀ entry ∈ s.parentEntries parents, s.Holds entry.2 ∧ s.segment entry.2.ns = entry.1 := by
  intro entry member
  obtain ⟨parent, listed, inside⟩ := Store.mem_parentEntries.mp member
  obtain ⟨n, found, -⟩ := id (held parent listed)
  exact ⟨(placed.frontier (held parent listed)).2 entry inside, (known.frontier placed found).1 entry inside⟩

/-- What the merged segments are: each named once, read to the furthest position any parent imports. -/
theorem Store.Known.merged (known : s.Known names) (placed : s.WellPlaced) {parents : List ImportEntry}
    (held : ∀ parent ∈ parents, s.Holds parent) {segments : OrderedMap Bytes ImportEntry} (run : s.mergeSegments parents = .ok segments) :
    Joined s.Prefix (s.parentEntries parents) segments :=
  foldlM_joined known.sharedPrefix (known.parentEntries placed held) ((Store.mergeSegments_eq parents).symm.trans run)

/-- The merged segments are named, and closed under what they import. -/
theorem Store.Known.merged_closed (known : s.Known names) (placed : s.WellPlaced) {parents : List ImportEntry}
    (held : ∀ parent ∈ parents, s.Holds parent) {segments : OrderedMap Bytes ImportEntry}
    (joined : Joined s.Prefix (s.parentEntries parents) segments) : s.Named segments ∧ s.Closed segments := by
  have kept := known.parentEntries placed held
  have source : ∀ entry ∈ segments, entry ∈ s.parentEntries parents :=
    fun entry member => joined.source _ _ (OrderedMap.get?_of_mem joined.keys member)
  refine ⟨fun entry member => (kept entry (source entry member)).2, fun entry member inner imported => ?_⟩
  obtain ⟨parent, listed, inside⟩ := Store.mem_parentEntries.mp (source entry member)
  obtain ⟨n, found, -⟩ := id (held parent listed)
  obtain ⟨top, at_, prefix_⟩ := (known.frontier placed found).2 entry inside inner imported
  have topListed : (inner.1, top) ∈ s.parentEntries parents := Store.mem_parentEntries.mpr ⟨parent, listed, OrderedMap.mem_of_get? at_⟩
  obtain ⟨greatest, held', above⟩ := joined.greatest _ _ topListed
  have last := kept _ (joined.source _ _ held')
  exact ⟨greatest, held', prefix_.trans known (kept _ topListed).1 last.1 above⟩

end Merging

section Invariant

variable [Crypto] {names : Preimages}

/-- Every call that did not refuse, under digests that do not collide, keeps what is known. -/
theorem knownReplays_known {r : Replays} (reach : (knownReplays names).Reach r) : r.Known names := by
  induction reach with
  | start first =>
    obtain rfl : _ = _ := first
    exact ⟨fun ns n found => absurd found.symm (Option.some_ne_none n), fun imports member => absurd member List.not_mem_nil⟩
  | @next r action later reach step ih =>
    have audited := apartReplays_audited.reach (knownReplays_apart reach)
    obtain ⟨wellPlaced, stood⟩ := replays_stood.reach (apartReplays_reach (knownReplays_apart reach))
    have placed := audited.store.toWellPlaced
    cases step with
    | @opened R construction segment identity imported state later source run based apart =>
      obtain ⟨history, evidence, spent, -, -, kept, once, -, rfl, rfl⟩ := openSegmentState_eq_ok.mp run
      have grows : r.store.Grows (r.store.opened segment identity (imported.getD .empty) history evidence construction.keeps spent) :=
        Store.opened_grows (placed.fresh _ le_rfl)
      have held := (wellPlaced.source source).2
      have frontier : r.store.Named (imported.getD .empty).segments ∧ r.store.Closed (imported.getD .empty).segments := by
        cases source with
        | none => exact ⟨fun entry member => absurd member List.not_mem_nil, fun entry member => absurd member List.not_mem_nil⟩
        | state made =>
          obtain ⟨n, found, -⟩ := StateHandle.make_holds made
          exact ih.store.frontier placed found
        | merged accepted => exact ih.merged _ accepted
      refine ⟨fun ns n seen => ?_, fun imports member => ?_⟩
      · rcases Store.opened_found seen with ⟨rfl, rfl⟩ | ⟨-, same⟩
        · refine ⟨?_, fun row member zero => ?_, fun positive => absurd positive (Nat.lt_irrefl 0), fun p below => absurd below (Nat.not_lt_zero p),
            grows.named held frontier.1, fun name => (grows.base held name).trans (based name), apart, grows.closed placed held frontier.2⟩
          · simp only [Store.fresh, Rows.Newest]
            split
            · exact List.pairwise_singleton _ _
            · exact List.Pairwise.nil
          · rw [Store.fresh_rows member]
            rfl
        · exact (ih.store ns n same).grows placed same grows
      · obtain ⟨named, closed⟩ := ih.merged imports member
        have entries := (wellPlaced.merged imports member).2
        exact ⟨grows.named entries named, grows.closed placed entries closed⟩
    | @merged parents imports held run =>
      refine ⟨ih.store, fun other member => ?_⟩
      rcases List.mem_cons.mp member with rfl | old
      · simp only [Store.mergeFinalizedPrefixes, bind_eq_ok, requireReplay_eq_ok, pure_eq_ok] at run
        obtain ⟨segments, merged, -, -, -, -, -, -, -, -, -, -, -, -, rfl⟩ := run
        have entries : ∀ parent ∈ parents.filterMap id, r.store.Holds parent := fun parent listed => held parent (by simpa using listed)
        exact ih.store.merged_closed placed entries (ih.store.merged placed entries merged)
      · exact ih.merged other old
    | @applied R state n bytes record replay later found keeps run decoded named stated link =>
      obtain ⟨record', n', effects, spent, demand, applied⟩ := applyRecord_applied.mp run
      obtain rfl : record = record' := Except.ok.inj (decoded.symm.trans applied.decoded)
      obtain rfl : n = n' := Option.some.inj (found.symm.trans applied.found)
      have grows := applied.grows
      obtain rfl := applied.later
      have linked := link _ (r.store.put_self _ _)
      refine ⟨fun ns m seen => ?_, fun imports member => ?_⟩
      · rcases Store.written_found seen with ⟨rfl, rfl⟩ | ⟨-, same⟩
        · exact applied.known placed stood (ih.store _ n found) named stated linked
        · exact (ih.store ns m same).grows placed same grows
      · obtain ⟨named, closed⟩ := ih.merged imports member
        have entries := (wellPlaced.merged imports member).2
        exact ⟨grows.named entries named, grows.closed placed entries closed⟩

end Invariant

end Moe
