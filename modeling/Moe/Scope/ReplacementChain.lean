import Moe.Lib.Supersession
import Moe.Scope.Record
import Moe.Scope.RecordRange

namespace Moe

/-- A walk's own copy of an admitted record: the fields it reads. -/
structure ReplacementEntry where
  index : Nat
  identity : Bytes
  predecessor : Bytes
  successor : Bytes
  effective : Nat
  deriving DecidableEq

structure ChainContext where
  backing : Bytes
  original : Bytes
  lag : Nat
  now : Nat

/-- The links in force, and the one that is not yet. -/
structure ReplacementChain where
  chain : List ChainLink
  pending : Option ChainLink
  deriving DecidableEq

def ReplacementEntry.link (a : ReplacementEntry) : ChainLink := ⟨a.successor, a.effective, a.identity⟩

/-- An owned copy of one admitted record. -/
def copyAdmitted (a : AdmittedReplacement) : Except Failure ReplacementEntry := do
  require (isU64 a.index && isU64 a.replacement.effective) (.encoding "invalid admitted replacement")
  require (a.identity.length = 32) (.encoding "invalid range bytes")
  require (a.replacement.predecessor.length = 32) (.encoding "invalid range bytes")
  require (a.replacement.successor.length = 32) (.encoding "invalid range bytes")
  return ⟨a.index, a.identity, a.replacement.predecessor, a.replacement.successor, a.replacement.effective⟩

/-- One identity counts at its least index by `now`. -/
def firstWitnessed (now : Nat) (first : OrderedMap Bytes ReplacementEntry) (a : ReplacementEntry) : OrderedMap Bytes ReplacementEntry :=
  if now < a.index then first
  else match first.get? a.identity with
    | none => first.set a.identity a
    | some earlier => if a.index < earlier.index then first.set a.identity a else first

/-- The records that clear the lead floor, each at its first witnessing. -/
def flooredEntries (lag now : Nat) (admitted : List ReplacementEntry) : List ReplacementEntry :=
  ((admitted.foldl (firstWitnessed now) []).map (·.2)).filter fun a => a.index + 2 * lag + 1 ≤ a.effective

/-- What a link's candidates are read by: naming the incumbent revokes. -/
def replacementOffers (incumbent : ChainLink) : Offers ReplacementEntry (List Nat) where
  seen := (·.index)
  tie a := byteValues a.identity
  force := (·.effective)
  hands a := a.successor ≠ incumbent.operator

/-- A record that names the current link, and is later than the incumbent's force or revokes. -/
def ReplacementEntry.names (incumbent : ChainLink) (a : ReplacementEntry) : Bool :=
  a.predecessor = incumbent.link && (incumbent.start < a.effective || a.successor = incumbent.operator)

def entryOrder (a b : ReplacementEntry) : Bool := a.index < b.index || a.index = b.index && byteValues a.identity ≤ byteValues b.identity

def candidateEntries (floored : List ReplacementEntry) (incumbent : ChainLink) : List ReplacementEntry :=
  (floored.filter (·.names incumbent)).insertionSort fun a b => entryOrder a b = true

/-- The candidate left standing at a link. -/
def chosenEntry (floored : List ReplacementEntry) (incumbent : ChainLink) : Option ReplacementEntry :=
  (replacementOffers incumbent).stand none none (candidateEntries floored incumbent)

/-- The walk from a link on, or none where its rounds run out. -/
def walkChain (floored : List ReplacementEntry) (now : Nat) : Nat → ChainLink → List Bytes → Option ReplacementChain
  | 0, _, _ => none
  | rounds + 1, incumbent, seen =>
    match chosenEntry floored incumbent with
    | none => some ⟨[incumbent], none⟩
    | some chosen =>
      if now < chosen.effective then some ⟨[incumbent], some chosen.link⟩
      else if seen.contains chosen.identity then some ⟨[incumbent], none⟩
      else (walkChain floored now rounds chosen.link (seen ++ [chosen.identity])).map fun rest => ⟨incumbent :: rest.chain, rest.pending⟩

def ChainContext.genesis (context : ChainContext) : ChainLink := ⟨context.original, 0, context.backing⟩

/-- A walk over admitted records at a reading index. -/
def replacementChain (admitted : List AdmittedReplacement) (context : ChainContext) : Except Failure ReplacementChain := do
  require (context.backing.length = 32) (.encoding "invalid range bytes")
  require (context.original.length = 32) (.encoding "invalid range bytes")
  require (isU64 context.lag && isU64 context.now) (.encoding "invalid chain context")
  let copies ← admitted.mapM copyAdmitted
  let floored := flooredEntries context.lag context.now copies
  match walkChain floored context.now (floored.length + 1) context.genesis [context.backing] with
  | some chain => .ok chain
  | none => .error (.error "the walk ran out of rounds")

/-- The last link whose effective index has arrived. -/
def lastInForce (index : Nat) (inForce : ChainLink) (chain : List ChainLink) : ChainLink :=
  chain.foldl (fun standing link => if link.start ≤ index then link else standing) inForce

def linkInForce (chain : List ChainLink) (index : Nat) : Except Failure ChainLink :=
  match chain with
  | [] => .error (.encoding "invalid chain")
  | first :: rest => do
    require (isU64 index) (.encoding "invalid chain")
    return lastInForce index first (first :: rest)

section First

variable {now : Nat} {first : OrderedMap Bytes ReplacementEntry} {read : List ReplacementEntry}

/-- What a map holds of the records read: each identity at its least index by `now`. -/
structure FirstOf (now : Nat) (read : List ReplacementEntry) (first : OrderedMap Bytes ReplacementEntry) : Prop where
  keys : (first.map (·.1)).Nodup
  found : ∀ key a, first.get? key = some a → a ∈ read ∧ a.identity = key ∧ a.index ≤ now ∧
    ∀ b ∈ read, b.identity = key → b.index ≤ now → a.index ≤ b.index
  missed : ∀ key, first.get? key = none → ∀ b ∈ read, b.identity = key → now < b.index

theorem FirstOf.put {a : ReplacementEntry} (of : FirstOf now read first) (within : a.index ≤ now)
    (least : ∀ earlier, first.get? a.identity = some earlier → a.index < earlier.index) :
    FirstOf now (read ++ [a]) (first.set a.identity a) where
  keys := OrderedMap.set_keys_nodup of.keys _ _
  found key b found := by
    rw [OrderedMap.get?_set] at found
    split at found
    · rename_i same
      subst same
      obtain rfl := Option.some.inj found
      refine ⟨List.mem_append_right _ List.mem_cons_self, rfl, within, fun c member same bound => ?_⟩
      rcases List.mem_append.mp member with early | new
      · cases held : first.get? a.identity with
        | none =>
          have := of.missed _ held c early same
          omega
        | some earlier =>
          have below := (of.found _ _ held).2.2.2 c early same bound
          have lower := least earlier held
          omega
      · rw [List.mem_singleton.mp new]
    · rename_i other
      obtain ⟨member, same, bound, first_⟩ := of.found key b found
      refine ⟨List.mem_append_left _ member, same, bound, fun c inside same' bound' => ?_⟩
      rcases List.mem_append.mp inside with early | new
      · exact first_ c early same' bound'
      · exact absurd ((List.mem_singleton.mp new) ▸ same') other
  missed key none_ b member same := by
    rw [OrderedMap.get?_set] at none_
    split at none_
    · cases none_
    · rename_i other
      rcases List.mem_append.mp member with early | new
      · exact of.missed key none_ b early same
      · exact absurd ((List.mem_singleton.mp new) ▸ same) other

theorem FirstOf.keep {a : ReplacementEntry} (of : FirstOf now read first)
    (later : a.index ≤ now → ∃ earlier, first.get? a.identity = some earlier ∧ earlier.index ≤ a.index) : FirstOf now (read ++ [a]) first where
  keys := of.keys
  found key b found := by
    obtain ⟨member, same, bound, least⟩ := of.found key b found
    refine ⟨List.mem_append_left _ member, same, bound, fun c inside same' bound' => ?_⟩
    rcases List.mem_append.mp inside with early | new
    · exact least c early same' bound'
    · obtain rfl := List.mem_singleton.mp new
      obtain ⟨earlier, held, le⟩ := later bound'
      rw [same', found] at held
      rwa [Option.some.inj held]
  missed key none_ b member same := by
    rcases List.mem_append.mp member with early | new
    · exact of.missed key none_ b early same
    · obtain rfl := List.mem_singleton.mp new
      by_contra within
      obtain ⟨earlier, held, -⟩ := later (Nat.le_of_not_lt within)
      rw [same, none_] at held
      cases held

theorem FirstOf.next (of : FirstOf now read first) (a : ReplacementEntry) : FirstOf now (read ++ [a]) (firstWitnessed now first a) := by
  rw [firstWitnessed]
  split
  · rename_i beyond
    exact of.keep fun within => absurd within (Nat.not_le_of_lt beyond)
  · rename_i within
    split
    · rename_i none_
      exact of.put (Nat.le_of_not_lt within) fun earlier held => absurd (none_.symm.trans held) (by simp)
    · rename_i earlier held
      split
      · rename_i less
        refine of.put (Nat.le_of_not_lt within) fun other found => ?_
        obtain rfl := Option.some.inj (held.symm.trans found)
        exact less
      · rename_i ge
        exact of.keep fun _ => ⟨earlier, held, Nat.le_of_not_lt ge⟩

theorem firstOf (now : Nat) (admitted : List ReplacementEntry) : FirstOf now admitted (admitted.foldl (firstWitnessed now) []) := by
  induction admitted using List.reverseRecOn with
  | nil => exact ⟨List.nodup_nil, fun key a found => by simp at found, fun key _ b member => absurd member List.not_mem_nil⟩
  | append_singleton read a ih =>
    rw [List.foldl_append]
    exact ih.next a

end First

/-- A record that counts: the least witnessing of its identity by `now`, above the lead floor. -/
def Counts (lag now : Nat) (admitted : List ReplacementEntry) (a : ReplacementEntry) : Prop :=
  a ∈ admitted ∧ a.index ≤ now ∧ (∀ b ∈ admitted, b.identity = a.identity → a.index ≤ b.index) ∧ a.index + 2 * lag + 1 ≤ a.effective

/-- One identity is one record, whenever it is witnessed. -/
def OneRecord (admitted : List ReplacementEntry) : Prop :=
  ∀ a ∈ admitted, ∀ b ∈ admitted, a.identity = b.identity → a.predecessor = b.predecessor ∧ a.successor = b.successor ∧ a.effective = b.effective

section Floored

variable {lag now : Nat} {admitted : List ReplacementEntry}

theorem mem_flooredEntries (one : OneRecord admitted) {a : ReplacementEntry} : a ∈ flooredEntries lag now admitted ↔ Counts lag now admitted a := by
  have of := firstOf now admitted
  rw [flooredEntries, List.mem_filter, List.mem_map, decide_eq_true_eq]
  constructor
  · rintro ⟨⟨⟨key, b⟩, member, rfl⟩, floor⟩
    obtain ⟨inside, rfl, within, least⟩ := of.found key b (OrderedMap.get?_of_mem of.keys member)
    refine ⟨inside, within, fun c other same => ?_, floor⟩
    rcases Nat.lt_or_ge now c.index with beyond | known
    · exact within.trans beyond.le
    · exact least c other same known
  · rintro ⟨inside, within, least, floor⟩
    refine ⟨?_, floor⟩
    cases held : (admitted.foldl (firstWitnessed now) []).get? a.identity with
    | none => exact absurd (of.missed _ held a inside rfl) (Nat.not_lt_of_le within)
    | some b =>
      obtain ⟨other, same, -, first⟩ := of.found _ _ held
      have index : a.index = b.index := le_antisymm (least b other same) (first a inside rfl within)
      obtain ⟨predecessor, successor, effective⟩ := one a inside b other same.symm
      have equal : b = a := by
        cases a
        cases b
        simp only at index same predecessor successor effective
        simp only [index, same, predecessor, successor, effective]
      exact ⟨(a.identity, b), OrderedMap.mem_of_get? held, equal⟩

theorem flooredEntries_nodup : ((flooredEntries lag now admitted).map (·.identity)).Nodup := by
  have of := firstOf now admitted
  have keyed : ∀ first : OrderedMap Bytes ReplacementEntry, (∀ entry ∈ first, entry.2.identity = entry.1) → (first.map (·.1)).Nodup →
      ((first.map (·.2)).map (·.identity)).Nodup := by
    intro first own keys
    rw [List.map_map]
    have same : first.map (ReplacementEntry.identity ∘ Prod.snd) = first.map (·.1) := List.map_congr_left fun entry member => own entry member
    rwa [same]
  refine List.Sublist.nodup (List.filter_sublist.map _) (keyed _ (fun entry member => ?_) of.keys)
  exact (of.found entry.1 entry.2 (OrderedMap.get?_of_mem of.keys member)).2.1

end Floored

end Moe
