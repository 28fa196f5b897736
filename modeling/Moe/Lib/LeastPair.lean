import Mathlib.Logic.Basic
import Mathlib.Order.Basic

namespace Moe

/-- The best of some candidates by weight, where there are any. -/
structure Least {β : Type} (weight : β → Nat) (among : β → Prop) (best : Option β) : Prop where
  own : ∀ b, best = some b → among b
  below : ∀ c, among c → ∃ b, best = some b ∧ weight b ≤ weight c

/-- Whether a candidate of this weight replaces the best so far. -/
def betters {β : Type} (weight : β → Nat) (best : Option β) (candidate : β) : Bool := best.all fun b => weight candidate < weight b

section Least

variable {β : Type} {weight : β → Nat} {among wider : β → Prop} {best : Option β}

theorem Least.none (absent : ∀ c, ¬among c) : Least weight among none where
  own b found := by cases found
  below c member := absurd member (absent c)

/-- The best stays best among more candidates where each is outweighed by an earlier one. -/
theorem Least.widen (least : Least weight among best) (more : ∀ c, among c → wider c)
    (covered : ∀ c, wider c → ∃ d, among d ∧ weight d ≤ weight c) : Least weight wider best where
  own b found := more b (least.own b found)
  below c member := by
    obtain ⟨d, inside, le⟩ := covered c member
    obtain ⟨b, found, below⟩ := least.below d inside
    exact ⟨b, found, Nat.le_trans below le⟩

/-- One more candidate considered. -/
theorem Least.consider (least : Least weight among best) (candidate : β) :
    Least weight (fun c => among c ∨ c = candidate) (if betters weight best candidate then some candidate else best) := by
  cases best with
  | none =>
    refine ⟨fun b found => ?_, fun c member => ⟨candidate, rfl, ?_⟩⟩
    · exact .inr (Option.some.inj found).symm
    · rcases member with old | rfl
      · obtain ⟨b, found, -⟩ := least.below c old
        cases found
      · exact Nat.le_refl _
  | some b =>
    have own := least.own b rfl
    by_cases better : weight candidate < weight b
    · simp only [betters, Option.all_some, better, decide_true, if_true]
      refine ⟨fun b' found => .inr (Option.some.inj found).symm, fun c member => ⟨candidate, rfl, ?_⟩⟩
      rcases member with old | rfl
      · obtain ⟨b', found, le⟩ := least.below c old
        obtain rfl := Option.some.inj found
        omega
      · exact Nat.le_refl _
    · simp only [betters, Option.all_some, better, decide_false, Bool.false_eq_true, if_false]
      refine ⟨fun b' found => .inl (least.own b' found), fun c member => ?_⟩
      rcases member with old | rfl
      · exact least.below c old
      · exact ⟨b, rfl, Nat.le_of_not_lt better⟩

theorem Least.congr (least : Least weight among best) (same : ∀ c, among c ↔ wider c) : Least weight wider best :=
  least.widen (fun c => (same c).mp) fun c member => ⟨c, (same c).mpr member, Nat.le_refl _⟩

/-- Candidates considered one after another leave the best of all. -/
theorem Least.foldl {γ : Type} {step : Option β → γ → Option β} (adds : γ → β → Prop)
    (steps : ∀ among best x, Least weight among best → Least weight (fun c => among c ∨ adds x c) (step best x)) :
    ∀ (xs : List γ) {among : β → Prop} {best : Option β}, Least weight among best →
      Least weight (fun c => among c ∨ ∃ x ∈ xs, adds x c) (xs.foldl step best)
  | [], among, best, least => least.congr fun c => by simp
  | x :: rest, among, best, least => by
    refine (Least.foldl adds steps rest (steps among best x least)).congr fun c => ?_
    simp only [List.mem_cons, exists_eq_or_imp, or_assoc]

end Least

section Walk

variable {α : Type} (weight : α → Nat) (low : Nat) (admits : Nat → Bool)

def pairWeight (pair : α × α) : Nat := weight pair.1 + weight pair.2

/-- Two pointers walked towards each other from `i` and `i + steps`: the low one moves up while the pair falls short, else the pair is
considered where its sum is admitted and the high one moves down. -/
def pairWalk (xs : List α) : Nat → Nat → Option (α × α) → Option (α × α)
  | _, 0, best => best
  | i, steps + 1, best =>
    match xs[i]?, xs[i + (steps + 1)]? with
    | some a, some b =>
      if weight a + weight b < low then pairWalk xs (i + 1) steps best
      else if admits (weight a + weight b) && betters (pairWeight weight) best (a, b) then pairWalk xs i steps (some (a, b))
      else pairWalk xs i steps best
    | _, _ => best

/-- A pair of two places of a list, at or above the low bound and admitted. -/
structure PairBetween (xs : List α) (i j : Nat) (pair : α × α) : Prop where
  places : ∃ x y, i ≤ x ∧ x < y ∧ y ≤ j ∧ xs[x]? = some pair.1 ∧ xs[y]? = some pair.2
  covers : low ≤ pairWeight weight pair
  admitted : admits (pairWeight weight pair) = true

variable {weight low admits}

/-- In a list sorted by weight the walk finds the least admitted pair. -/
theorem pairWalk_least {xs : List α} (sorted : xs.Pairwise fun a b => weight a ≤ weight b)
    (downward : ∀ s s', low ≤ s → s ≤ s' → admits s' = true → admits s = true) (steps : Nat) :
    ∀ (i : Nat) (among : α × α → Prop) (best : Option (α × α)), i + steps < xs.length ∨ steps = 0 → Least (pairWeight weight) among best →
      Least (pairWeight weight) (fun pair => among pair ∨ PairBetween weight low admits xs i (i + steps) pair)
        (pairWalk weight low admits xs i steps best) := by
  have le_of : ∀ {x y : Nat} {a b : α}, x ≤ y → xs[x]? = some a → xs[y]? = some b → weight a ≤ weight b := by
    intro x y a b le first second
    rcases Nat.eq_or_lt_of_le le with rfl | less
    · obtain rfl := Option.some.inj (first.symm.trans second)
      exact Nat.le_refl _
    · obtain ⟨boundX, rfl⟩ := List.getElem?_eq_some_iff.mp first
      obtain ⟨boundY, rfl⟩ := List.getElem?_eq_some_iff.mp second
      exact List.pairwise_iff_getElem.mp sorted x y boundX boundY less
  induction steps with
  | zero =>
    intro i among best _ least
    refine least.congr fun pair => ⟨.inl, fun member => ?_⟩
    rcases member with old | between
    · exact old
    · obtain ⟨x, y, lower, less, upper, -⟩ := between.places
      omega
  | succ steps ih =>
    intro i among best bound least
    have bound : i + (steps + 1) < xs.length := by omega
    have first : xs[i]? = some (xs.get ⟨i, by omega⟩) := List.getElem?_eq_getElem _
    have second : xs[i + (steps + 1)]? = some (xs.get ⟨i + (steps + 1), bound⟩) := List.getElem?_eq_getElem _
    obtain ⟨a, first⟩ : ∃ a, xs[i]? = some a := ⟨_, first⟩
    obtain ⟨b, second⟩ : ∃ b, xs[i + (steps + 1)]? = some b := ⟨_, second⟩
    simp only [pairWalk, first, second]
    by_cases short : weight a + weight b < low
    · rw [if_pos short]
      refine (ih (i + 1) among best (by omega) least).congr fun pair => or_congr_right ⟨fun between => ?_, fun between => ?_⟩
      · obtain ⟨x, y, lower, less, upper, at_⟩ := between.places
        exact ⟨⟨x, y, by omega, less, by omega, at_⟩, between.covers, between.admitted⟩
      · obtain ⟨x, y, lower, less, upper, atX, atY⟩ := between.places
        -- No partner of the low place reaches the bound: the greatest falls short.
        have apart : x ≠ i := by
          rintro rfl
          have first' : pair.1 = a := Option.some.inj (atX.symm.trans first)
          have below := le_of upper atY second
          have covers := between.covers
          simp only [pairWeight, first'] at covers
          omega
        exact ⟨⟨x, y, by omega, less, by omega, atX, atY⟩, between.covers, between.admitted⟩
    · rw [if_neg short]
      -- Every pair of the high place weighs at least the one here.
      have above : ∀ pair, PairBetween weight low admits xs i (i + (steps + 1)) pair →
          PairBetween weight low admits xs i (i + steps) pair ∨ pairWeight weight (a, b) ≤ pairWeight weight pair := by
        intro pair between
        obtain ⟨x, y, lower, less, upper, atX, atY⟩ := between.places
        by_cases last : y = i + (steps + 1)
        · subst last
          have same : pair.2 = b := Option.some.inj (atY.symm.trans second)
          have least := le_of lower first atX
          refine .inr ?_
          simp only [pairWeight, same]
          omega
        · exact .inl ⟨⟨x, y, lower, less, by omega, atX, atY⟩, between.covers, between.admitted⟩
      have inner : ∀ pair, PairBetween weight low admits xs i (i + steps) pair → PairBetween weight low admits xs i (i + (steps + 1)) pair := by
        intro pair between
        obtain ⟨x, y, lower, less, upper, at_⟩ := between.places
        exact ⟨⟨x, y, lower, less, by omega, at_⟩, between.covers, between.admitted⟩
      by_cases admitted : admits (weight a + weight b) = true
      · have here : PairBetween weight low admits xs i (i + (steps + 1)) (a, b) :=
          ⟨⟨i, i + (steps + 1), Nat.le_refl _, by omega, Nat.le_refl _, first, second⟩, Nat.le_of_not_lt short, admitted⟩
        have considered := ih i _ _ (by omega) (least.consider (a, b))
        have same : pairWalk weight low admits xs i steps (if betters (pairWeight weight) best (a, b) then some (a, b) else best) =
            if admits (weight a + weight b) && betters (pairWeight weight) best (a, b) then pairWalk weight low admits xs i steps (some (a, b))
            else pairWalk weight low admits xs i steps best := by
          rw [admitted, Bool.true_and]
          split <;> rfl
        rw [← same]
        refine considered.widen (fun pair member => ?_) fun pair member => ?_
        · rcases member with (old | rfl) | between
          · exact .inl old
          · exact .inr here
          · exact .inr (inner pair between)
        · rcases member with old | between
          · exact ⟨pair, .inl (.inl old), Nat.le_refl _⟩
          · rcases above pair between with inside | heavier
            · exact ⟨pair, .inr inside, Nat.le_refl _⟩
            · exact ⟨(a, b), .inl (.inr rfl), heavier⟩
      · rw [if_neg (by simp [admitted])]
        refine (ih i among best (by omega) least).congr fun pair => or_congr_right ⟨inner pair, fun between => ?_⟩
        rcases above pair between with inside | heavier
        · exact inside
        · exact absurd (downward _ _ (Nat.le_of_not_lt short) heavier between.admitted) admitted

end Walk

end Moe
