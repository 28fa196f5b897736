import Mathlib.Data.List.Basic

namespace Moe

variable {β ε α γ : Type}

section Steps

variable {s t : List β}

/-- A reader that goes on read its first part and went on from what that left. -/
theorem read_bind_eq_ok {first : StateT (List β) (Except ε) α} {rest : α → StateT (List β) (Except ε) γ} {c : γ} :
    (first >>= rest) s = .ok (c, t) ↔ ∃ a m, first s = .ok (a, m) ∧ rest a m = .ok (c, t) := by
  change (first s >>= fun read => rest read.1 read.2) = .ok (c, t) ↔ _
  cases first s with
  | error failure => simp [bind, Except.bind]
  | ok read =>
    constructor
    · exact fun went => ⟨read.1, read.2, rfl, went⟩
    · rintro ⟨a, m, same, went⟩
      obtain rfl := Except.ok.inj same
      exact went

theorem read_pure_eq_ok {a c : α} : (pure a : StateT (List β) (Except ε) α) s = .ok (c, t) ↔ c = a ∧ t = s := by
  change (Except.ok (a, s) : Except ε (α × List β)) = .ok (c, t) ↔ _
  rw [Except.ok.injEq, Prod.mk.injEq]
  exact ⟨fun same => ⟨same.1.symm, same.2.symm⟩, fun same => ⟨same.1.symm, same.2.symm⟩⟩

/-- A check reads nothing. -/
theorem read_lift_eq_ok {value : Except ε α} {c : α} :
    (liftM value : StateT (List β) (Except ε) α) s = .ok (c, t) ↔ value = .ok c ∧ t = s := by
  change (value >>= fun a => .ok (a, s)) = .ok (c, t) ↔ _
  cases value with
  | error failure => simp [bind, Except.bind]
  | ok a =>
    simp only [bind, Except.bind, Except.ok.injEq, Prod.mk.injEq]
    exact ⟨fun same => ⟨same.1, same.2.symm⟩, fun same => ⟨same.1, same.2.symm⟩⟩

end Steps

/-- A reader that takes back what a writer wrote of the valid values, whatever follows it, and reads nothing else. -/
def Inverts (reader : StateT (List β) (Except ε) α) (write : α → List β) (valid : α → Prop) : Prop :=
  ∀ s a t, reader s = .ok (a, t) ↔ valid a ∧ s = write a ++ t

namespace Inverts

variable {reader : StateT (List β) (Except ε) α} {write : α → List β} {valid : α → Prop}

theorem reads (inverts : Inverts reader write valid) {a : α} (well : valid a) (t : List β) : reader (write a ++ t) = .ok (a, t) :=
  (inverts _ a t).mpr ⟨well, rfl⟩

/-- What is written ends where it ends: no value's form goes on from another's. -/
theorem unique (inverts : Inverts reader write valid) {a b : α} {s t : List β} (wellA : valid a) (wellB : valid b)
    (same : write a ++ s = write b ++ t) : a = b ∧ s = t := by
  have first := inverts.reads wellA s
  rw [same, inverts.reads wellB t, Except.ok.injEq, Prod.mk.injEq] at first
  exact ⟨first.1.symm, first.2.symm⟩

theorem inj (inverts : Inverts reader write valid) {a b : α} (wellA : valid a) (wellB : valid b) (same : write a = write b) : a = b :=
  (inverts.unique wellA wellB (congrArg (· ++ []) same)).1

/-- A value read in two parts, the first of which it holds. -/
theorem bind {rest : α → StateT (List β) (Except ε) γ} {writeRest : γ → List β} {validRest : α → γ → Prop} (part : γ → α)
    (head : Inverts reader write valid) (tail : ∀ a, valid a → Inverts (rest a) writeRest (validRest a))
    (holds : ∀ a c, valid a → validRest a c → part c = a) :
    Inverts (reader >>= rest) (fun c => write (part c) ++ writeRest c) fun c => valid (part c) ∧ validRest (part c) c := by
  intro s c t
  rw [read_bind_eq_ok]
  constructor
  · rintro ⟨a, m, ran, went⟩
    obtain ⟨well, rfl⟩ := (head _ _ _).mp ran
    obtain ⟨wellRest, rfl⟩ := (tail a well _ _ _).mp went
    obtain rfl := holds a c well wellRest
    exact ⟨⟨well, wellRest⟩, by rw [List.append_assoc]⟩
  · rintro ⟨⟨well, wellRest⟩, rfl⟩
    refine ⟨part c, writeRest c ++ t, ?_, (tail _ well _ _ _).mpr ⟨wellRest, rfl⟩⟩
    rw [List.append_assoc]
    exact head.reads well _

/-- The same values, written another way that agrees on the valid ones. -/
theorem congr {write' : α → List β} {valid' : α → Prop} (inverts : Inverts reader write valid) (same : ∀ a, valid a ↔ valid' a)
    (agrees : ∀ a, valid a → write a = write' a) : Inverts reader write' valid' := by
  intro s a t
  rw [inverts s a t, ← same]
  exact and_congr_right fun well => by rw [agrees a well]

end Inverts

/-- The next so many symbols, or the failure where there are fewer. -/
def takeOr (failure : ε) (count : Nat) : StateT (List β) (Except ε) (List β) := fun s =>
  if count ≤ s.length then .ok (s.take count, s.drop count) else .error failure

theorem takeOr_inverts (failure : ε) (count : Nat) :
    Inverts (takeOr failure count) id fun taken : List β => taken.length = count := by
  intro s taken t
  unfold takeOr
  split
  · rename_i inside
    rw [Except.ok.injEq, Prod.mk.injEq]
    constructor
    · rintro ⟨rfl, rfl⟩
      exact ⟨List.length_take_of_le inside, (List.take_append_drop count s).symm⟩
    · rintro ⟨rfl, rfl⟩
      exact ⟨List.take_left, List.drop_left⟩
  · rename_i short
    constructor
    · intro thrown
      cases thrown
    · rintro ⟨rfl, rfl⟩
      simp at short

/-- What a reader reads of a whole word, or the failure where it leaves any. -/
def wholly (failure : ε) (reader : StateT (List β) (Except ε) α) (s : List β) : Except ε α :=
  match reader s with
  | .error other => .error other
  | .ok (a, rest) => if rest.isEmpty then .ok a else .error failure

theorem wholly_eq_ok {failure : ε} {reader : StateT (List β) (Except ε) α} {s : List β} {a : α} :
    wholly failure reader s = .ok a ↔ reader s = .ok (a, []) := by
  rw [wholly]
  cases read : reader s with
  | error other => simp
  | ok went =>
    obtain ⟨b, rest⟩ := went
    cases rest <;> simp

/-- An encoder and a decoder that are inverse on the valid values: what is encoded decodes to its value, and what is accepted is exactly
the encoding of what it decodes to. -/
structure StrictCodec (encode : α → Except ε (List β)) (decode : List β → Except ε α) (valid : α → Prop) : Prop where
  encodes : ∀ a, valid a → ∃ s, encode a = .ok s ∧ decode s = .ok a
  canonical : ∀ s a, decode s = .ok a → valid a ∧ encode a = .ok s

/-- A decoder accepts no extension of a word it accepts, and so no proper prefix of one. -/
def PrefixFree (decode : List β → Except ε α) : Prop := ∀ s more a b, decode s = .ok a → decode (s ++ more) = .ok b → more = []

section Strict

variable {reader : StateT (List β) (Except ε) α} {write : α → List β} {valid : α → Prop} {encode : α → Except ε (List β)} {failure : ε}

/-- A reader of whole words is strict where the encoder writes what it inverts. -/
theorem Inverts.strict (inverts : Inverts reader write valid) (encodes : ∀ a, valid a → encode a = .ok (write a)) :
    StrictCodec encode (wholly failure reader) valid where
  encodes a well := ⟨write a, encodes a well, wholly_eq_ok.mpr ((inverts _ _ _).mpr ⟨well, (List.append_nil _).symm⟩)⟩
  canonical s a read := by
    obtain ⟨well, rfl⟩ := (inverts _ _ _).mp (wholly_eq_ok.mp read)
    rw [List.append_nil]
    exact ⟨well, encodes a well⟩

theorem Inverts.prefixFree (inverts : Inverts reader write valid) : PrefixFree (wholly failure reader) := by
  intro s more a b first second
  obtain ⟨wellA, rfl⟩ := (inverts _ _ _).mp (wholly_eq_ok.mp first)
  obtain ⟨wellB, same⟩ := (inverts _ _ _).mp (wholly_eq_ok.mp second)
  rw [List.append_nil] at same
  exact (inverts.unique wellA wellB same).2

end Strict

end Moe
