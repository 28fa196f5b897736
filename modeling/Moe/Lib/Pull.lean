import Moe.Lib.Codec

namespace Moe

variable {β ε α γ : Type}

/-- A reader that asks for its input as it goes: for so many symbols exactly, or for at least one and at most so many. -/
inductive Pull (β ε α : Type)
  | done (value : α)
  | refuse (failure : ε)
  | exactly (count : Nat) (next : List β → Pull β ε α)
  | upTo (count : Nat) (next : List β → Pull β ε α)

namespace Pull

def bind : Pull β ε α → (α → Pull β ε γ) → Pull β ε γ
  | done value, rest => rest value
  | refuse failure, _ => refuse failure
  | exactly count next, rest => exactly count fun symbols => (next symbols).bind rest
  | upTo count next, rest => upTo count fun symbols => (next symbols).bind rest

instance : Monad (Pull β ε) where
  pure := done
  bind := bind

/-- Ask for so many symbols. -/
def take (count : Nat) : Pull β ε (List β) := exactly count done

/-- Go on only where a check passes. -/
def lift : Except ε α → Pull β ε α
  | .ok value => done value
  | .error failure => refuse failure

section Parse

variable (short : ε)

/-- What a reader makes of an input that is all there, refused as `short` where it asks for more. -/
def parse : Pull β ε α → StateT (List β) (Except ε) α
  | done value => fun input => .ok (value, input)
  | refuse failure => fun _ => .error failure
  | exactly count next => fun input =>
    if count ≤ input.length then parse (next (input.take count)) (input.drop count) else .error short
  | upTo count next => fun input => if input = [] then .error short else parse (next (input.take count)) (input.drop count)

theorem parse_exactly (count : Nat) (next : List β → Pull β ε α) (input : List β) : parse short (exactly count next) input =
    if count ≤ input.length then parse short (next (input.take count)) (input.drop count) else .error short := rfl

theorem parse_upTo (count : Nat) (next : List β → Pull β ε α) (input : List β) : parse short (upTo count next) input =
    if input = [] then .error short else parse short (next (input.take count)) (input.drop count) := rfl

theorem parse_pure (value : α) (input : List β) : parse short (pure value : Pull β ε α) input = .ok (value, input) := rfl

theorem parse_bind (first : Pull β ε α) (rest : α → Pull β ε γ) : parse short (first >>= rest) = parse short first >>= fun a => parse short (rest a) := by
  change parse short (first.bind rest) = _
  induction first with
  | done value => rfl
  | refuse failure => rfl
  | exactly count next ih =>
    funext input
    change (if count ≤ input.length then parse short ((next (input.take count)).bind rest) (input.drop count) else .error short) =
      (if count ≤ input.length then parse short (next (input.take count)) (input.drop count) else .error short) >>= _
    split
    · rw [ih]
      rfl
    · rfl
  | upTo count next ih =>
    funext input
    change (if input = [] then .error short else parse short ((next (input.take count)).bind rest) (input.drop count)) =
      (if input = [] then .error short else parse short (next (input.take count)) (input.drop count)) >>= _
    split
    · rfl
    · rw [ih]
      rfl

theorem parse_take {count : Nat} {input symbols rest : List β} :
    parse short (take count : Pull β ε (List β)) input = .ok (symbols, rest) ↔ symbols.length = count ∧ input = symbols ++ rest := by
  change (if count ≤ input.length then Except.ok (input.take count, input.drop count) else .error short) = _ ↔ _
  split
  · rename_i inside
    rw [Except.ok.injEq, Prod.mk.injEq]
    constructor
    · rintro ⟨rfl, rfl⟩
      exact ⟨List.length_take_of_le inside, (List.take_append_drop count input).symm⟩
    · rintro ⟨rfl, rfl⟩
      exact ⟨List.take_left, List.drop_left⟩
  · rename_i outside
    constructor
    · intro thrown
      cases thrown
    · rintro ⟨rfl, rfl⟩
      rw [List.length_append] at outside
      omega

theorem parse_lift {check : Except ε α} {a : α} {input rest : List β} :
    parse short (lift check : Pull β ε α) input = .ok (a, rest) ↔ check = .ok a ∧ rest = input := by
  cases check with
  | error failure =>
    change Except.error failure = _ ↔ _
    simp
  | ok value =>
    change Except.ok (value, input) = _ ↔ _
    simp only [Except.ok.injEq, Prod.mk.injEq, eq_comm]

/-- A reader whose answer never depends on how much it was handed of what it asked for at most. -/
def Steady : Pull β ε α → Prop
  | done _ => True
  | refuse _ => True
  | exactly count next => ∀ symbols, symbols.length = count → Steady (next symbols)
  | upTo count next => 0 < count ∧ (∀ piece, piece ≠ [] → piece.length ≤ count → Steady (next piece)) ∧
      ∀ piece more rest, piece ≠ [] → (piece ++ more).length ≤ count →
        parse short (next (piece ++ more)) rest = parse short (next piece) (more ++ rest)

variable {short}

theorem Steady.bind {first : Pull β ε α} {rest : α → Pull β ε γ} (steady : first.Steady short) (after : ∀ a, (rest a).Steady short) :
    (first >>= rest).Steady short := by
  change (Pull.bind first rest).Steady short
  induction first with
  | done value => exact after value
  | refuse failure => trivial
  | exactly count next ih => exact fun symbols length => ih symbols (steady symbols length)
  | upTo count next ih =>
    refine ⟨steady.1, fun piece some_ length => ih piece (steady.2.1 piece some_ length), fun piece more tail some_ length => ?_⟩
    have same := steady.2.2 piece more tail some_ length
    have whole := congrFun (parse_bind short (next (piece ++ more)) rest) tail
    have part := congrFun (parse_bind short (next piece) rest) (more ++ tail)
    change parse short ((next (piece ++ more)).bind rest) tail = parse short ((next piece).bind rest) (more ++ tail)
    refine whole.trans (Eq.trans ?_ part.symm)
    change parse short (next (piece ++ more)) tail >>= _ = parse short (next piece) (more ++ tail) >>= _
    rw [same]

theorem Steady.pure (value : α) : (Pure.pure value : Pull β ε α).Steady short := trivial

theorem Steady.take (count : Nat) : (Pull.take count : Pull β ε (List β)).Steady short := fun _ _ => trivial

theorem Steady.lift (check : Except ε α) : (Pull.lift check : Pull β ε α).Steady short := by
  cases check <;> trivial

end Parse

section Feed

variable (short late : ε)

/-- The whole of an input: what is left after the reader is refused as `late`. -/
def finish : Except ε (α × List β) → Except ε α
  | .ok (value, []) => .ok value
  | .ok (_, _ :: _) => .error late
  | .error failure => .error failure

def whole (reader : Pull β ε α) (input : List β) : Except ε α := finish late (parse short reader input)

variable {short late} in
theorem whole_eq_ok {reader : Pull β ε α} {input : List β} {value : α} :
    whole short late reader input = .ok value ↔ parse short reader input = .ok (value, []) := by
  unfold whole
  cases parse short reader input with
  | error failure => simp [finish]
  | ok read =>
    obtain ⟨read, rest⟩ := read
    cases rest <;> simp [finish]

/-- As far as a reader comes with what is held of its input. -/
def pump : Pull β ε α → List β → Except ε (Pull β ε α × List β)
  | done value, held => if held = [] then .ok (done value, []) else .error late
  | refuse failure, _ => .error failure
  | exactly count next, held => if count ≤ held.length then pump (next (held.take count)) (held.drop count) else .ok (exactly count next, held)
  | upTo count next, held => if held = [] then .ok (upTo count next, []) else pump (next (held.take count)) (held.drop count)

/-- A reader's result once its input has ended. -/
def ended : Pull β ε α → Except ε α
  | done value => .ok value
  | _ => .error short

variable {short late}

/-- Of what is held the reader is handed the first piece, and makes of the rest what it makes of all of it. -/
theorem parse_piece {count : Nat} {next : List β → Pull β ε α} (steady : (upTo count next).Steady short) {held : List β} (some_ : held ≠ [])
    (rest : List β) : parse short (upTo count next) (held ++ rest) = parse short (next (held.take count)) (held.drop count ++ rest) := by
  have more : held ++ rest ≠ [] := List.append_ne_nil_of_left_ne_nil some_ rest
  rw [parse_upTo, if_neg more]
  by_cases fits : count ≤ held.length
  · rw [List.take_append_of_le_length fits, List.drop_append_of_le_length fits]
  · have all : held.length ≤ count := by omega
    rw [List.take_of_length_le all, List.drop_of_length_le all, List.nil_append, List.take_append, List.drop_append, List.take_of_length_le all,
      List.drop_of_length_le all, List.nil_append]
    have piece := steady.2.2 held (rest.take (count - held.length)) (rest.drop (count - held.length)) some_ (by
      rw [List.length_append, List.length_take]
      omega)
    rw [piece, List.take_append_drop]

theorem take_ne_nil {count : Nat} {held : List β} (positive : 0 < count) (some_ : held ≠ []) : held.take count ≠ [] := by
  intro none_
  rcases List.take_eq_nil_iff.mp none_ with zero | empty
  · omega
  · exact some_ empty

/-- A reader that comes to a stop still makes the same of what is held with whatever follows, and its end is the end of that. -/
theorem pump_ok {reader stopped : Pull β ε α} {held left : List β} (steady : reader.Steady short)
    (ran : pump late reader held = .ok (stopped, left)) :
    stopped.Steady short ∧ ended short stopped = whole short late stopped left ∧
      ∀ rest, whole short late reader (held ++ rest) = whole short late stopped (left ++ rest) := by
  induction reader generalizing held with
  | done value =>
    rw [pump] at ran
    split at ran
    · rename_i none_
      obtain ⟨rfl, rfl⟩ := Prod.mk.inj (Except.ok.inj ran)
      exact ⟨trivial, rfl, fun rest => by rw [none_]⟩
    · cases ran
  | refuse failure => cases ran
  | exactly count next ih =>
    rw [pump] at ran
    split at ran
    · rename_i fits
      obtain ⟨steady', end_, same⟩ := ih _ (steady _ (List.length_take_of_le fits)) ran
      refine ⟨steady', end_, fun rest => ?_⟩
      rw [← same]
      have long : count ≤ (held ++ rest).length := by
        rw [List.length_append]
        omega
      rw [whole, parse_exactly, if_pos long, List.take_append_of_le_length fits, List.drop_append_of_le_length fits]
      rfl
    · rename_i few
      obtain ⟨rfl, rfl⟩ := Prod.mk.inj (Except.ok.inj ran)
      refine ⟨steady, ?_, fun rest => rfl⟩
      rw [whole, parse_exactly, if_neg few]
      rfl
  | upTo count next ih =>
    rw [pump] at ran
    split at ran
    · rename_i none_
      obtain ⟨rfl, rfl⟩ := Prod.mk.inj (Except.ok.inj ran)
      exact ⟨steady, rfl, fun rest => by rw [none_]⟩
    · rename_i some_
      have cut : (held.take count).length ≤ count := by
        rw [List.length_take]
        omega
      obtain ⟨steady', end_, same⟩ := ih _ (steady.2.1 _ (take_ne_nil steady.1 some_) cut) ran
      refine ⟨steady', end_, fun rest => ?_⟩
      rw [← same, whole, parse_piece steady some_]
      rfl

/-- A reader that refuses what is held refuses it with whatever follows. -/
theorem pump_error {reader : Pull β ε α} {held : List β} {failure : ε} (steady : reader.Steady short)
    (ran : pump late reader held = .error failure) (rest : List β) : whole short late reader (held ++ rest) = .error failure := by
  induction reader generalizing held with
  | done value =>
    rw [pump] at ran
    split at ran
    · cases ran
    · rename_i some_
      obtain rfl := Except.error.inj ran
      cases held with
      | nil => exact absurd rfl some_
      | cons symbol held => rfl
  | refuse other =>
    obtain rfl := Except.error.inj ran
    rfl
  | exactly count next ih =>
    rw [pump] at ran
    split at ran
    · rename_i fits
      have long : count ≤ (held ++ rest).length := by
        rw [List.length_append]
        omega
      rw [whole, parse_exactly, if_pos long, List.take_append_of_le_length fits, List.drop_append_of_le_length fits]
      exact ih _ (steady _ (List.length_take_of_le fits)) ran
    · cases ran
  | upTo count next ih =>
    rw [pump] at ran
    split at ran
    · cases ran
    · rename_i some_
      have cut : (held.take count).length ≤ count := by
        rw [List.length_take]
        omega
      rw [whole, parse_piece steady some_]
      exact ih _ (steady.2.1 _ (take_ne_nil steady.1 some_) cut) ran

/-- As far as a reader comes with what it held and what is handed to it. -/
def feed (late : ε) (at_ : Pull β ε α × List β) (chunk : List β) : Except ε (Pull β ε α × List β) :=
  if chunk = [] then .ok at_ else pump late at_.1 (at_.2 ++ chunk)

/-- Fed in chunks, a steady reader makes of its input what it makes of it whole. -/
theorem feed_whole {reader : Pull β ε α} {held : List β} (steady : reader.Steady short) (stopped : ended short reader = whole short late reader held)
    (chunks : List (List β)) :
    (do ended short (← chunks.foldlM (feed late) (reader, held)).1) = whole short late reader (held ++ chunks.flatten) := by
  induction chunks generalizing reader held with
  | nil =>
    rw [List.flatten_nil, List.append_nil, ← stopped]
    rfl
  | cons chunk rest ih =>
    rw [List.foldlM_cons, List.flatten_cons, ← List.append_assoc]
    by_cases empty : chunk = []
    · have same : feed late (reader, held) chunk = .ok (reader, held) := if_pos empty
      rw [same, empty, List.append_nil]
      exact ih steady stopped
    · have fed : feed late (reader, held) chunk = pump late reader (held ++ chunk) := if_neg empty
      rw [fed]
      cases ran : pump late reader (held ++ chunk) with
      | error failure =>
        rw [pump_error steady ran]
        rfl
      | ok at_ =>
        obtain ⟨steady', stopped', same⟩ := pump_ok steady ran
        rw [same]
        exact ih steady' stopped'

end Feed

end Pull

end Moe
