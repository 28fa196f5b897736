import Moe.Scope.RecordRange

namespace Moe

/-- What one sequence's candidate is: the subject's own commitment of that sequence, above what was held before. -/
structure CandidatesOf (subject : Bytes) (highest : Nat) (candidates : OrderedMap Nat (Commitment × Bytes)) : Prop where
  keys : (candidates.map (·.1)).Nodup
  found : ∀ sequence c, candidates.get? sequence = some c → c.1.sequence = sequence ∧ c.1.operator = subject ∧ highest < sequence

section Held

variable {subject : Bytes} {highest : Nat}

/-- What a run of candidates adds, in their order. -/
def heldBy (candidates : OrderedMap Nat (Commitment × Bytes)) (index : Nat) (sequences : List Nat) : List RangeHeld :=
  sequences.filterMap fun s => (candidates.get? s).map fun c => ⟨index, c.1⟩

theorem holdCandidates_eq {candidates : OrderedMap Nat (Commitment × Bytes)} (index : Nat) {sequences : List Nat}
    (listed : ∀ s ∈ sequences, s ∈ candidates.map (·.1)) (held : List RangeHeld × Nat) :
    sequences.foldl (holdCandidate candidates index) held = (held.1 ++ heldBy candidates index sequences, sequences.getLastD held.2) := by
  induction sequences generalizing held with
  | nil => simp [heldBy]
  | cons s rest ih =>
    obtain ⟨c, found⟩ := Option.isSome_iff_exists.mp (OrderedMap.get?_isSome_iff.mpr (listed s List.mem_cons_self))
    have step : holdCandidate candidates index held s = (held.1 ++ [⟨index, c.1⟩], s) := by
      rw [holdCandidate, found]
    have first : heldBy candidates index (s :: rest) = ⟨index, c.1⟩ :: heldBy candidates index rest := by
      rw [heldBy, List.filterMap_cons, found]
      rfl
    rw [List.foldl_cons, step, ih fun s member => listed s (List.mem_cons_of_mem _ member), first, List.append_assoc, List.singleton_append]
    cases rest <;> rfl

/-- Each stands at the index, under the sequence it is found by. -/
theorem heldBy_of {candidates : OrderedMap Nat (Commitment × Bytes)} (of : CandidatesOf subject highest candidates) (index : Nat)
    {sequences : List Nat} (listed : ∀ s ∈ sequences, s ∈ candidates.map (·.1)) :
    (heldBy candidates index sequences).map (·.commitment.sequence) = sequences ∧
      ∀ h ∈ heldBy candidates index sequences, h.index = index ∧ h.commitment.operator = subject := by
  induction sequences with
  | nil => exact ⟨rfl, fun h member => absurd member List.not_mem_nil⟩
  | cons s rest ih =>
    obtain ⟨c, found⟩ := Option.isSome_iff_exists.mp (OrderedMap.get?_isSome_iff.mpr (listed s List.mem_cons_self))
    obtain ⟨sequence, own, -⟩ := of.found s c found
    obtain ⟨sequences, all⟩ := ih fun s member => listed s (List.mem_cons_of_mem _ member)
    have first : heldBy candidates index (s :: rest) = ⟨index, c.1⟩ :: heldBy candidates index rest := by
      rw [heldBy, List.filterMap_cons, found]
      rfl
    rw [first]
    refine ⟨by rw [List.map_cons, sequences, sequence], fun h member => ?_⟩
    rcases List.mem_cons.mp member with rfl | later
    · exact ⟨rfl, own⟩
    · exact all h later

theorem getLastD_le {sequences : List Nat} (sorted : sequences.Pairwise (· < ·)) (above : ∀ s ∈ sequences, highest < s) :
    highest ≤ sequences.getLastD highest ∧ ∀ s ∈ sequences, s ≤ sequences.getLastD highest := by
  induction sequences generalizing highest with
  | nil => exact ⟨le_rfl, fun s member => absurd member List.not_mem_nil⟩
  | cons a rest ih =>
    obtain ⟨first, later⟩ := List.pairwise_cons.mp sorted
    obtain ⟨top, all⟩ := @ih a later first
    have start := above a List.mem_cons_self
    have same : (a :: rest).getLastD highest = rest.getLastD a := by cases rest <;> rfl
    rw [same]
    refine ⟨start.le.trans top, fun s member => ?_⟩
    rcases List.mem_cons.mp member with rfl | inside
    · exact top
    · exact all s inside

/-- Held commitments whose sequences rise above a bound to the highest, no index falling. -/
structure HeldRun (subject : Bytes) (highest : Nat) (held : List RangeHeld) (top : Nat) : Prop where
  above : ∀ h ∈ held, highest < h.commitment.sequence ∧ h.commitment.sequence ≤ top ∧ h.commitment.operator = subject
  rising : held.Pairwise fun a b => a.index ≤ b.index ∧ a.commitment.sequence < b.commitment.sequence
  top : highest ≤ top

theorem HeldRun.append {first second : List RangeHeld} {middle top : Nat} (before : HeldRun subject highest first middle)
    (after : HeldRun subject middle second top) (apart : ∀ a ∈ first, ∀ b ∈ second, a.index ≤ b.index) :
    HeldRun subject highest (first ++ second) top where
  above h member := by
    rcases List.mem_append.mp member with early | late
    · obtain ⟨above, below, own⟩ := before.above h early
      exact ⟨above, below.trans after.top, own⟩
    · obtain ⟨above, below, own⟩ := after.above h late
      exact ⟨Nat.lt_of_le_of_lt before.top above, below, own⟩
  rising := List.pairwise_append.mpr ⟨before.rising, after.rising, fun a early b late =>
    ⟨apart a early b late, Nat.lt_of_le_of_lt (before.above a early).2.1 (after.above b late).1⟩⟩
  top := before.top.trans after.top

variable [Crypto]

theorem CandidatesOf.next {candidates : OrderedMap Nat (Commitment × Bytes)} (of : CandidatesOf subject highest candidates) (entry : RangeEntry) :
    CandidatesOf subject highest (heldCandidate subject highest candidates entry) := by
  have put : ∀ c : Commitment, c.operator = subject → highest < c.sequence →
      CandidatesOf subject highest (candidates.set c.sequence (c, entry.record)) := by
    intro c own above
    refine ⟨OrderedMap.set_keys_nodup of.keys _ _, fun sequence d found => ?_⟩
    rw [OrderedMap.get?_set] at found
    split at found
    · rename_i same
      obtain rfl := Option.some.inj found
      exact ⟨same, own, same ▸ above⟩
    · exact of.found sequence d found
  rw [heldCandidate]
  split
  · exact of
  · rename_i c _
    split
    · exact of
    · rename_i counts
      simp only [not_or, not_not, Nat.not_le] at counts
      split
      · exact put c counts.1 counts.2.1
      · split
        · exact put c counts.1 counts.2.1
        · exact of

theorem heldCandidates_of (entries : List RangeEntry) : CandidatesOf subject highest (heldCandidates subject highest entries) := by
  induction entries using List.reverseRecOn with
  | nil => exact ⟨List.nodup_nil, fun sequence c found => by cases found⟩
  | append_singleton entries entry ih =>
    rw [heldCandidates, List.foldl_append]
    exact ih.next entry

/-- One index's sequences, ascending. -/
def indexSequences (subject : Bytes) (highest : Nat) (entries : List RangeEntry) : List Nat :=
  ((heldCandidates subject highest entries).map (·.1)).insertionSort (· ≤ ·)

/-- What one index holds above a sequence. -/
def indexHeld (subject : Bytes) (highest : Nat) (entries : List RangeEntry) : List RangeHeld :=
  heldBy (heldCandidates subject highest entries) ((entries.head?.map (·.index)).getD 0) (indexSequences subject highest entries)

theorem indexSequences_listed (entries : List RangeEntry) :
    ∀ s ∈ indexSequences subject highest entries, s ∈ (heldCandidates subject highest entries).map (·.1) :=
  fun _ member => (List.mem_insertionSort _).mp member

theorem holdIndex_eq (held : List RangeHeld × Nat) (entries : List RangeEntry) : holdIndex subject held entries =
    (held.1 ++ indexHeld subject held.2 entries, (indexSequences subject held.2 entries).getLastD held.2) :=
  holdCandidates_eq _ (indexSequences_listed entries) held

/-- One index holds a run of its own. -/
theorem indexHeld_run (entries : List RangeEntry) :
    HeldRun subject highest (indexHeld subject highest entries) ((indexSequences subject highest entries).getLastD highest) ∧
      ∀ h ∈ indexHeld subject highest entries, h.index = (entries.head?.map (·.index)).getD 0 := by
  have of := @heldCandidates_of subject highest _ entries
  have listed := @indexSequences_listed subject highest _ entries
  have sorted : (indexSequences subject highest entries).Pairwise (· < ·) := by
    have once : (indexSequences subject highest entries).Nodup := (List.perm_insertionSort _ _).nodup_iff.mpr of.keys
    exact ((List.pairwise_insertionSort (· ≤ ·) _).and once).imp fun both => Nat.lt_of_le_of_ne both.1 both.2
  have above : ∀ s ∈ indexSequences subject highest entries, highest < s := by
    intro s member
    obtain ⟨c, found⟩ := Option.isSome_iff_exists.mp (OrderedMap.get?_isSome_iff.mpr (listed s member))
    exact (of.found s c found).2.2
  obtain ⟨top, below⟩ := getLastD_le sorted above
  obtain ⟨sequences, all⟩ := heldBy_of of ((entries.head?.map (·.index)).getD 0) listed
  refine ⟨⟨fun h member => ?_, ?_, top⟩, fun h member => (all h member).1⟩
  · have inside : h.commitment.sequence ∈ indexSequences subject highest entries := by
      rw [← sequences]
      exact List.mem_map_of_mem member
    exact ⟨above _ inside, below _ inside, (all h member).2⟩
  · rw [← sequences, List.pairwise_map] at sorted
    refine sorted.imp_of_mem fun {a b} first second less => ⟨?_, less⟩
    rw [(all a first).1, (all b second).1]

/-- Later indices add to what earlier ones hold. -/
theorem holdGroups_acc (groups : List (List RangeEntry)) (held : List RangeHeld × Nat) : groups.foldl (holdIndex subject) held =
    (held.1 ++ (groups.foldl (holdIndex subject) ([], held.2)).1, (groups.foldl (holdIndex subject) ([], held.2)).2) := by
  induction groups generalizing held with
  | nil => simp
  | cons group rest ih =>
    rw [List.foldl_cons, List.foldl_cons, holdIndex_eq, holdIndex_eq, ih, ih (_ ++ _, _)]
    simp only [List.nil_append, List.append_assoc]

/-- Ranges one after the other are derived one after the other, each above the sequence before it. -/
theorem holdEntries_append {first second : List RangeEntry} (apart : ∀ a ∈ first, ∀ b ∈ second, a.index < b.index) :
    holdEntries subject highest (first ++ second) =
      ((holdEntries subject highest first).1 ++ (holdEntries subject (holdEntries subject highest first).2 second).1,
        (holdEntries subject (holdEntries subject highest first).2 second).2) := by
  have cut : (first ++ second).splitBy (fun a b => a.index = b.index) =
      first.splitBy (fun a b => a.index = b.index) ++ second.splitBy fun a b => a.index = b.index := by
    refine List.splitBy_append fun a last b head => decide_eq_false ?_
    have less := apart a (List.mem_of_mem_getLast? last) b (List.mem_of_mem_head? head)
    exact Nat.ne_of_lt less
  rw [holdEntries, cut, List.foldl_append, holdGroups_acc]
  rfl

/-- Indices in order are held in order. -/
theorem holdGroups_run (groups : List (List RangeEntry)) (some_ : [] ∉ groups) (rising : groups.flatten.Pairwise (·.index ≤ ·.index)) :
    HeldRun subject highest (groups.foldl (holdIndex subject) ([], highest)).1 (groups.foldl (holdIndex subject) ([], highest)).2 ∧
      ∀ h ∈ (groups.foldl (holdIndex subject) ([], highest)).1, ∃ e ∈ groups.flatten, e.index = h.index := by
  induction groups generalizing highest with
  | nil => exact ⟨⟨fun h member => absurd member List.not_mem_nil, List.Pairwise.nil, le_rfl⟩, fun h member => absurd member List.not_mem_nil⟩
  | cons group rest ih =>
    obtain ⟨run, own⟩ := @indexHeld_run subject highest _ group
    rw [List.flatten_cons, List.pairwise_append] at rising
    obtain ⟨-, later, across⟩ := rising
    obtain ⟨after, found⟩ := @ih ((indexSequences subject highest group).getLastD highest) (fun inside => some_ (List.mem_cons_of_mem _ inside)) later
    obtain ⟨e, others, rfl⟩ := List.exists_cons_of_ne_nil fun empty : group = [] => some_ (empty ▸ List.mem_cons_self)
    rw [List.foldl_cons, holdIndex_eq, holdGroups_acc]
    simp only [List.nil_append]
    refine ⟨run.append after fun a early b late => ?_, fun h member => ?_⟩
    · obtain ⟨entry, inside, same⟩ := found b late
      rw [own a early, ← same]
      exact across e List.mem_cons_self entry inside
    · rcases List.mem_append.mp member with early | late
      · exact ⟨e, List.mem_append_left _ List.mem_cons_self, (own h early).symm⟩
      · obtain ⟨entry, inside, same⟩ := found h late
        exact ⟨entry, List.mem_append_right _ inside, same⟩

theorem holdEntries_run {entries : List RangeEntry} (rising : entries.Pairwise (·.index ≤ ·.index)) :
    HeldRun subject highest (holdEntries subject highest entries).1 (holdEntries subject highest entries).2 ∧
      ∀ h ∈ (holdEntries subject highest entries).1, ∃ e ∈ entries, e.index = h.index := by
  have whole := List.flatten_splitBy (fun a b : RangeEntry => decide (a.index = b.index)) entries
  have run := @holdGroups_run subject highest _ (entries.splitBy fun a b => decide (a.index = b.index))
    (List.nil_notMem_splitBy _ _) (by rwa [whole])
  rwa [whole] at run

end Held

end Moe
