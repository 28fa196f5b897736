import Moe.Lib.OrderedMap

namespace Moe

variable {κ β ε : Type} [DecidableEq κ]

/-- A join that fails on values neither of which is below the other. -/
structure PartialJoin (keep : κ → β → Prop) (le : β → β → Prop) (join : β → β → Except ε β) : Prop where
  refl : ∀ {k a}, keep k a → le a a
  trans : ∀ {k a b c}, keep k a → keep k b → keep k c → le a b → le b c → le a c
  chain : ∀ {k a b c}, keep k a → keep k b → keep k c → le a c → le b c → le a b ∨ le b a
  greater : ∀ {k a b c}, keep k a → keep k b → join a b = .ok c → (le a b ∧ c = b) ∨ (le b a ∧ c = a)
  joins : ∀ {k a b}, keep k a → keep k b → le a b ∨ le b a → ∃ c, join a b = .ok c

/-- One entry joined into a map. -/
def joinEntry (join : β → β → Except ε β) (map : OrderedMap κ β) (entry : κ × β) : Except ε (OrderedMap κ β) :=
  match OrderedMap.get? map entry.1 with
  | none => .ok (OrderedMap.set map entry.1 entry.2)
  | some prior => do return OrderedMap.set map entry.1 (← join prior entry.2)

/-- What a map joined from some entries is: each key once, the greatest value of its entries. -/
structure Joined (le : β → β → Prop) (entries : List (κ × β)) (map : OrderedMap κ β) : Prop where
  keys : (map.map (·.1)).Nodup
  source : ∀ k c, OrderedMap.get? map k = some c → (k, c) ∈ entries
  greatest : ∀ k a, (k, a) ∈ entries → ∃ c, OrderedMap.get? map k = some c ∧ le a c

theorem Joined.empty {le : β → β → Prop} : Joined le ([] : List (κ × β)) [] :=
  ⟨List.nodup_nil, fun _ _ found => absurd found.symm (Option.some_ne_none _), fun _ _ member => absurd member List.not_mem_nil⟩

/-- Entries of one key are comparable. -/
def Comparable (le : β → β → Prop) (entries : List (κ × β)) : Prop :=
  ∀ k a b, (k, a) ∈ entries → (k, b) ∈ entries → le a b ∨ le b a

section

variable {keep : κ → β → Prop} {le : β → β → Prop} {join : β → β → Except ε β} (laws : PartialJoin keep le join)

include laws

theorem Joined.entry {entries : List (κ × β)} {map : OrderedMap κ β} (joined : Joined le entries map)
    (kept : ∀ entry ∈ entries, keep entry.1 entry.2) {k : κ} {b : β} (own : keep k b) {later : OrderedMap κ β}
    (run : joinEntry join map (k, b) = .ok later) : Joined le (entries ++ [(k, b)]) later := by
  have set_ : ∀ c, (k, c) ∈ entries ++ [(k, b)] → le b c → (∀ a, (k, a) ∈ entries → le a c) →
      later = OrderedMap.set map k c → Joined le (entries ++ [(k, b)]) later := by
    rintro c inside above older rfl
    refine ⟨OrderedMap.set_keys_nodup joined.keys _ _, fun other d found => ?_, fun other a member => ?_⟩
    · rw [OrderedMap.get?_set] at found
      split at found
      · rename_i same
        obtain rfl := Option.some.inj found
        exact same ▸ inside
      · exact List.mem_append_left _ (joined.source _ _ found)
    · rw [OrderedMap.get?_set]
      rcases List.mem_append.mp member with old | new
      · by_cases same : k = other
        · subst same
          exact ⟨c, if_pos rfl, older a old⟩
        · rw [if_neg same]
          exact joined.greatest _ _ old
      · obtain ⟨rfl, rfl⟩ := Prod.mk.inj (List.mem_singleton.mp new)
        exact ⟨c, if_pos rfl, above⟩
  have last : (k, b) ∈ entries ++ [(k, b)] := List.mem_append_right _ (List.mem_singleton.mpr rfl)
  simp only [joinEntry] at run
  split at run
  · rename_i absent
    refine set_ b last (laws.refl own) (fun a member => ?_) (Except.ok.inj run).symm
    obtain ⟨c, found, -⟩ := joined.greatest _ _ member
    rw [absent] at found
    cases found
  · rename_i prior found
    have priorKept := kept _ (joined.source _ _ found)
    cases joins : join prior b with
    | error failure =>
      rw [joins] at run
      cases run
    | ok c =>
      rw [joins] at run
      have older : ∀ a, (k, a) ∈ entries → le a prior := by
        intro a member
        obtain ⟨top, was, below⟩ := joined.greatest _ _ member
        rw [found] at was
        exact Option.some.inj was ▸ below
      rcases laws.greater priorKept own joins with ⟨below, rfl⟩ | ⟨below, rfl⟩
      · exact set_ c last (laws.refl own) (fun a member => laws.trans (kept _ member) priorKept own (older a member) below)
          (Except.ok.inj run).symm
      · exact set_ c (List.mem_append_left _ (joined.source _ _ found)) below older (Except.ok.inj run).symm

theorem Joined.fold {entries rest : List (κ × β)} {map later : OrderedMap κ β} (joined : Joined le entries map)
    (kept : ∀ entry ∈ entries ++ rest, keep entry.1 entry.2) (run : rest.foldlM (joinEntry join) map = .ok later) :
    Joined le (entries ++ rest) later := by
  induction rest generalizing entries map with
  | nil =>
    rw [List.append_nil]
    exact Except.ok.inj run ▸ joined
  | cons entry rest ih =>
    obtain ⟨k, b⟩ := entry
    rw [List.foldlM_cons] at run
    cases step : joinEntry join map (k, b) with
    | error failure =>
      rw [step] at run
      cases run
    | ok mid =>
      rw [step] at run
      have next := joined.entry laws (fun entry member => kept entry (List.mem_append_left _ member))
        (kept _ (List.mem_append_right _ List.mem_cons_self)) step
      rw [List.append_cons] at kept ⊢
      exact ih next kept run

/-- What a fold of joins comes to. -/
theorem foldlM_joined {entries : List (κ × β)} {map : OrderedMap κ β} (kept : ∀ entry ∈ entries, keep entry.1 entry.2)
    (run : entries.foldlM (joinEntry join) [] = .ok map) : Joined le entries map :=
  Joined.empty.fold laws kept run

/-- Entries joined without failing are comparable key by key. -/
theorem Joined.comparable {entries : List (κ × β)} {map : OrderedMap κ β} (joined : Joined le entries map)
    (kept : ∀ entry ∈ entries, keep entry.1 entry.2) : Comparable le entries := by
  intro k a b first second
  obtain ⟨c, found, below⟩ := joined.greatest _ _ first
  obtain ⟨d, same, below'⟩ := joined.greatest _ _ second
  obtain rfl := Option.some.inj (found.symm.trans same)
  have firstKept : keep k a := kept (k, a) first
  have secondKept : keep k b := kept (k, b) second
  have topKept : keep k c := kept (k, c) (joined.source _ _ found)
  exact laws.chain firstKept secondKept topKept below below'

/-- Comparable entries are joined, in whatever order they come. -/
theorem Joined.total {entries rest : List (κ × β)} {map : OrderedMap κ β} (joined : Joined le entries map)
    (kept : ∀ entry ∈ entries ++ rest, keep entry.1 entry.2) (comparable : Comparable le (entries ++ rest)) :
    ∃ later, rest.foldlM (joinEntry join) map = .ok later := by
  induction rest generalizing entries map with
  | nil => exact ⟨map, rfl⟩
  | cons entry rest ih =>
    obtain ⟨k, b⟩ := entry
    have own : (k, b) ∈ entries ++ (k, b) :: rest := List.mem_append_right _ List.mem_cons_self
    obtain ⟨mid, step⟩ : ∃ mid, joinEntry join map (k, b) = .ok mid := by
      simp only [joinEntry]
      cases found : OrderedMap.get? map k with
      | none => exact ⟨_, rfl⟩
      | some prior =>
        have inside := List.mem_append_left ((k, b) :: rest) (joined.source _ _ found)
        have priorKept : keep k prior := kept (k, prior) inside
        have ownKept : keep k b := kept (k, b) own
        obtain ⟨c, joins⟩ := laws.joins priorKept ownKept (comparable _ _ _ inside own)
        refine ⟨OrderedMap.set map k c, ?_⟩
        simp only [joins]
        rfl
    have next := joined.entry laws (fun entry member => kept entry (List.mem_append_left _ member)) (kept _ own) step
    rw [List.append_cons] at kept comparable
    obtain ⟨later, run⟩ := ih next kept comparable
    exact ⟨later, by rw [List.foldlM_cons, step]; exact run⟩

/-- A fold of joins fails exactly where two entries of one key are not comparable. -/
theorem foldlM_joins_iff {entries : List (κ × β)} (kept : ∀ entry ∈ entries, keep entry.1 entry.2) :
    (∃ map, entries.foldlM (joinEntry join) [] = .ok map) ↔ Comparable le entries := by
  constructor
  · rintro ⟨map, run⟩
    exact (foldlM_joined laws kept run).comparable laws kept
  · exact fun comparable => Joined.empty.total laws kept comparable

end

/-- Two maps joined from the same entries have the same keys, and equivalent values. -/
theorem Joined.same {le : β → β → Prop} {entries entries' : List (κ × β)} {map map' : OrderedMap κ β}
    (joined : Joined le entries map) (joined' : Joined le entries' map') (same : ∀ entry, entry ∈ entries ↔ entry ∈ entries')
    {k : κ} {c : β} (found : OrderedMap.get? map k = some c) : ∃ d, OrderedMap.get? map' k = some d ∧ le c d ∧ le d c := by
  obtain ⟨d, found', below⟩ := joined'.greatest _ _ ((same _).mp (joined.source _ _ found))
  obtain ⟨e, found'', below'⟩ := joined.greatest _ _ ((same _).mpr (joined'.source _ _ found'))
  obtain rfl := Option.some.inj (found.symm.trans found'')
  exact ⟨d, found', below, below'⟩

end Moe
