import Mathlib

namespace Moe

/-- What is read of offers for one seat: when an offer is witnessed, the tie between offers witnessed at once, when it takes
force, and whether it hands over or revokes the standing offer. -/
structure Offers (α κ : Type*) where
  seen : α → Nat
  tie : α → κ
  force : α → Nat
  hands : α → Bool

namespace Offers

variable {α κ : Type*} [LinearOrder κ] (o : Offers α κ)

/-- The order offers are considered in. -/
def Before (a b : α) : Prop := o.seen a < o.seen b ∨ o.seen a = o.seen b ∧ o.tie a ≤ o.tie b

/-- The offer left standing: one offer an instant, and a later one only until the standing offer takes force. -/
def stand : Option α → Option Nat → List α → Option α
  | standing, _, [] => standing
  | standing, consideredAt, offer :: rest =>
    if consideredAt = some (o.seen offer) then stand standing consideredAt rest
    else if standing.any fun s => o.force s ≤ o.seen offer then standing
    else stand (if o.hands offer then some offer else none) (some (o.seen offer)) rest

/-- An offer nothing displaces: the lesser of its instant, and no other is witnessed before it takes force. -/
structure Settles (offered : Set α) (a : α) : Prop where
  member : a ∈ offered
  hands : o.hands a = true
  lesser : ∀ b ∈ offered, o.seen b = o.seen a → o.tie a ≤ o.tie b
  kept : ∀ b ∈ offered, o.seen a < o.seen b → o.force a ≤ o.seen b

/-- The least offer that nothing displaces. -/
structure Seats (offered : Set α) (a : α) : Prop where
  settles : o.Settles offered a
  least : ∀ b, o.Settles offered b → o.Before a b

variable {o} {offered later : Set α} {a b : α}

/-- Among offers told apart by their ties, two that settle at one instant are one. -/
theorem Settles.unique (apart : ∀ x ∈ offered, ∀ y ∈ offered, o.tie x = o.tie y → x = y) (first : o.Settles offered a)
    (second : o.Settles offered b) (same : o.seen a = o.seen b) : a = b :=
  apart a first.member b second.member (le_antisymm (first.lesser b second.member same.symm) (second.lesser a first.member same))

theorem Seats.unique (apart : ∀ x ∈ offered, ∀ y ∈ offered, o.tie x = o.tie y → x = y) (first : o.Seats offered a)
    (second : o.Seats offered b) : a = b := by
  refine first.settles.unique apart second.settles (le_antisymm ?_ ?_)
  · rcases first.least b second.settles with less | ⟨same, -⟩
    · exact less.le
    · exact same.le
  · rcases second.least a first.settles with less | ⟨same, -⟩
    · exact less.le
    · exact same.le

/-- Offers witnessed only after an instant. -/
def Extends (o : Offers α κ) (offered later : Set α) (now : Nat) : Prop := ∀ a, a ∈ offered ↔ a ∈ later ∧ o.seen a ≤ now

/-- What settles once more is offered had settled, where it is witnessed by then. -/
theorem Settles.before {now : Nat} (extends_ : o.Extends offered later now) (settles : o.Settles later a) (within : o.seen a ≤ now) :
    o.Settles offered a where
  member := (extends_ a).mpr ⟨settles.member, within⟩
  hands := settles.hands
  lesser b member := settles.lesser b ((extends_ b).mp member).1
  kept b member := settles.kept b ((extends_ b).mp member).1

/-- An offer in force by an instant stays settled whatever is witnessed after it. -/
theorem Settles.after {now : Nat} (extends_ : o.Extends offered later now) (settles : o.Settles offered a) (inForce : o.force a ≤ now) :
    o.Settles later a := by
  have within := ((extends_ a).mp settles.member).2
  refine ⟨((extends_ a).mp settles.member).1, settles.hands, fun b member same => ?_, fun b member past => ?_⟩
  · exact settles.lesser b ((extends_ b).mpr ⟨member, by omega⟩) same
  · rcases Nat.lt_or_ge now (o.seen b) with beyond | known
    · exact inForce.trans beyond.le
    · exact settles.kept b ((extends_ b).mpr ⟨member, known⟩) past

/-- A seat in force by an instant is never taken by what is witnessed after it. -/
theorem Seats.after {now : Nat} (extends_ : o.Extends offered later now) (seats : o.Seats offered a) (inForce : o.force a ≤ now) :
    o.Seats later a := by
  refine ⟨seats.settles.after extends_ inForce, fun b settles => ?_⟩
  rcases Nat.lt_or_ge now (o.seen b) with beyond | known
  · have within := ((extends_ a).mp seats.settles.member).2
    exact .inl (by omega)
  · exact seats.least b (settles.before extends_ known)

/-- A seat taken by an instant had been taken. -/
theorem Seats.before {now : Nat} (extends_ : o.Extends offered later now) (seats : o.Seats later a) (within : o.seen a ≤ now) :
    o.Seats offered a := by
  have settles := seats.settles.before extends_ within
  refine ⟨settles, fun b other => ?_⟩
  rcases Nat.lt_trichotomy (o.seen a) (o.seen b) with less | same | more
  · exact .inl less
  · exact .inr ⟨same, settles.lesser b other.member same.symm⟩
  · -- an earlier offer that settled had to be in force before this one was witnessed, so it is settled still
    have force := other.kept a settles.member more
    have still := other.after extends_ (force.trans within)
    rcases seats.least b still with less | ⟨same, -⟩ <;> omega

section Stand

variable {standing : Option α} {consideredAt : Option Nat} {read rest : List α}

/-- Where the offers read leave the loop: at the lesser offer of the last instant, which stands if it hands over, and which
alone of those read can settle. -/
structure Reached (o : Offers α κ) (read rest : List α) (standing : Option α) (consideredAt : Option Nat) : Prop where
  started : consideredAt = none → read = [] ∧ standing = none
  head : ∀ i, consideredAt = some i → ∃ h ∈ read, o.seen h = i ∧ (∀ b ∈ read, o.seen b ≤ i) ∧
    (∀ b ∈ read ++ rest, o.seen b = i → o.tie h ≤ o.tie b) ∧ standing = if o.hands h then some h else none
  only : ∀ a ∈ read, o.Settles {x | x ∈ read ++ rest} a → standing = some a

theorem Reached.stands {s : α} (reached : Reached o read rest standing consideredAt) (stands : standing = some s) :
    s ∈ read ∧ o.hands s = true ∧ (∀ b ∈ read, o.seen b ≤ o.seen s) ∧ ∀ b ∈ read ++ rest, o.seen b = o.seen s → o.tie s ≤ o.tie b := by
  cases at_ : consideredAt with
  | none =>
    rw [(reached.started at_).2] at stands
    cases stands
  | some i =>
    obtain ⟨h, member, rfl, last, lesser, standing_⟩ := reached.head i at_
    rw [stands] at standing_
    split at standing_
    · obtain rfl := Option.some.inj standing_
      exact ⟨member, ‹_›, last, lesser⟩
    · cases standing_

/-- A loop that stops leaves the one offer that sits. -/
theorem Reached.seats {s : α} (reached : Reached o read rest standing consideredAt) (stands : standing = some s)
    (beyond : ∀ b ∈ rest, o.force s ≤ o.seen b) (early : o.seen s < o.force s) : o.Seats {x | x ∈ read ++ rest} s := by
  obtain ⟨member, hands, last, lesser⟩ := reached.stands stands
  refine ⟨⟨List.mem_append_left _ member, hands, lesser, fun b inside past => ?_⟩, fun b other => ?_⟩
  · rcases List.mem_append.mp inside with read_ | unread
    · have := last b read_
      omega
    · exact beyond b unread
  · rcases List.mem_append.mp other.member with read_ | unread
    · obtain rfl := Option.some.inj (stands.symm.trans (reached.only b read_ other))
      exact .inr ⟨rfl, le_rfl⟩
    · exact .inl (early.trans_le (beyond b unread))

/-- A second offer of an instant is passed over. -/
theorem Reached.passed {a : α} (reached : Reached o read (a :: rest) standing (some (o.seen a)))
    (apart : ∀ x ∈ read ++ a :: rest, ∀ y ∈ read ++ a :: rest, o.tie x = o.tie y → x = y) (fresh : a ∉ read) :
    Reached o (read ++ [a]) rest standing (some (o.seen a)) := by
  obtain ⟨h, member, same, last, lesser, stands⟩ := reached.head _ rfl
  have whole : read ++ [a] ++ rest = read ++ a :: rest := by rw [List.append_assoc, List.singleton_append]
  refine ⟨fun none_ => absurd none_ (Option.some_ne_none _), fun i at_ => ?_, fun b inside settles => ?_⟩
  · obtain rfl := Option.some.inj at_
    refine ⟨h, List.mem_append_left _ member, same, fun b inside => ?_, ?_, stands⟩
    · rcases List.mem_append.mp inside with early | new
      · exact last b early
      · rw [List.mem_singleton.mp new]
    · rwa [whole]
  · rw [whole] at settles
    rcases List.mem_append.mp inside with early | new
    · exact reached.only b early settles
    · obtain rfl := List.mem_singleton.mp new
      have least := settles.lesser h (List.mem_append_left _ member) same
      have greater := lesser b (List.mem_append_right _ List.mem_cons_self) rfl
      have same_ := apart h (List.mem_append_left _ member) b (List.mem_append_right _ List.mem_cons_self) (le_antisymm greater least)
      exact absurd (same_ ▸ member) fresh

/-- A later instant's first offer displaces what stood, which had not taken force. -/
theorem Reached.displaced {a : α} (reached : Reached o read (a :: rest) standing consideredAt)
    (sorted : (read ++ a :: rest).Pairwise o.Before) (other : consideredAt ≠ some (o.seen a))
    (open_ : ∀ s, standing = some s → o.seen a < o.force s) :
    Reached o (read ++ [a]) rest (if o.hands a then some a else none) (some (o.seen a)) := by
  have whole : read ++ [a] ++ rest = read ++ a :: rest := by rw [List.append_assoc, List.singleton_append]
  obtain ⟨-, after, across⟩ := List.pairwise_append.mp sorted
  have past : ∀ b ∈ read, o.seen b < o.seen a := by
    intro b member
    cases at_ : consideredAt with
    | none =>
      rw [(reached.started at_).1] at member
      cases member
    | some i =>
      obtain ⟨h, inside, seen, last, -⟩ := reached.head i at_
      have le := last b member
      have ne : i ≠ o.seen a := fun same => other (at_.trans (congrArg some same))
      rcases across h inside a List.mem_cons_self with less | ⟨same, -⟩ <;> omega
  refine ⟨fun none_ => absurd none_ (Option.some_ne_none _), fun i at_ => ?_, fun b inside settles => ?_⟩
  · obtain rfl := Option.some.inj at_
    refine ⟨a, List.mem_append_right _ List.mem_cons_self, rfl, fun b inside => ?_, fun b inside same => ?_, rfl⟩
    · rcases List.mem_append.mp inside with early | new
      · exact (past b early).le
      · rw [List.mem_singleton.mp new]
    · rw [whole] at inside
      rcases List.mem_append.mp inside with early | new
      · have := past b early
        omega
      · rcases List.mem_cons.mp new with rfl | later
        · exact le_rfl
        · rcases (List.pairwise_cons.mp after).1 b later with less | ⟨-, tie⟩
          · omega
          · exact tie
  · rw [whole] at settles
    rcases List.mem_append.mp inside with early | new
    · have stood := open_ b (reached.only b early settles)
      have kept := settles.kept a (List.mem_append_right _ List.mem_cons_self) (past b early)
      omega
    · obtain rfl := List.mem_singleton.mp new
      rw [if_pos settles.hands]

/-- What the loop leaves standing is the seated offer, and where it leaves nothing, nothing settles. -/
theorem Reached.stand (reached : Reached o read rest standing consideredAt) (sorted : (read ++ rest).Pairwise o.Before)
    (apart : ∀ x ∈ read ++ rest, ∀ y ∈ read ++ rest, o.tie x = o.tie y → x = y) (once : (read ++ rest).Nodup)
    (early : ∀ a ∈ read ++ rest, o.seen a < o.force a) :
    (∀ s, o.stand standing consideredAt rest = some s → o.Seats {x | x ∈ read ++ rest} s) ∧
      (o.stand standing consideredAt rest = none → ∀ a, ¬o.Settles {x | x ∈ read ++ rest} a) := by
  induction rest generalizing read standing consideredAt with
  | nil =>
    refine ⟨fun s stands => reached.seats stands (fun b inside => absurd inside List.not_mem_nil) ?_, fun none_ a settles => ?_⟩
    · exact early s (List.mem_append_left _ (reached.stands stands).1)
    · have member : a ∈ read := (List.append_nil read) ▸ settles.member
      have stood := reached.only a member settles
      rw [show standing = none from none_] at stood
      cases stood
  | cons a rest ih =>
    have whole : read ++ [a] ++ rest = read ++ a :: rest := by rw [List.append_assoc, List.singleton_append]
    rw [Offers.stand]
    split
    · rename_i same
      subst same
      have fresh : a ∉ read := fun member => (List.nodup_append.mp once).2.2 a member a List.mem_cons_self rfl
      have next := reached.passed apart fresh
      rw [← whole] at sorted apart once early ⊢
      exact ih next sorted apart once early
    · rename_i other
      split
      · rename_i inForce
        cases stands : standing with
        | none =>
          rw [stands] at inForce
          cases inForce
        | some s =>
          rw [stands] at inForce
          have force : o.force s ≤ o.seen a := of_decide_eq_true inForce
          have after := (List.pairwise_append.mp sorted).2.1
          have beyond : ∀ b ∈ a :: rest, o.force s ≤ o.seen b := by
            intro b inside
            rcases List.mem_cons.mp inside with rfl | later
            · exact force
            · rcases (List.pairwise_cons.mp after).1 b later with less | ⟨same, -⟩ <;> omega
          have seats := reached.seats stands beyond (early s (List.mem_append_left _ (reached.stands stands).1))
          refine ⟨fun t same => Option.some.inj same ▸ seats, fun none_ => absurd none_ (Option.some_ne_none _)⟩
      · rename_i open_
        have stood : ∀ s, standing = some s → o.seen a < o.force s := by
          rintro s rfl
          exact Nat.lt_of_not_le fun le => open_ (decide_eq_true le)
        have next := reached.displaced sorted other stood
        rw [← whole] at sorted apart once early ⊢
        exact ih next sorted apart once early

end Stand

end Offers

end Moe
