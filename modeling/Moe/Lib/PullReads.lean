import Moe.Lib.Pull

namespace Moe.Pull

variable {β ε α : Type} {late : ε} {reader stopped : Pull β ε α} {held left : List β}

/-- The requests a reader makes of an input one after another, and what is left of the input at one of them. -/
inductive Reaches : Pull β ε α → List β → Pull β ε α → List β → Prop
  | here (reader : Pull β ε α) (input : List β) : Reaches reader input reader input
  | exactly {count : Nat} {next : List β → Pull β ε α} {symbols input rest : List β} {later : Pull β ε α} : symbols.length = count →
      Reaches (next symbols) input later rest → Reaches (exactly count next) (symbols ++ input) later rest
  | upTo {count : Nat} {next : List β → Pull β ε α} {piece input rest : List β} {later : Pull β ε α} : piece.length ≤ count →
      (0 < count → piece ≠ []) → Reaches (next piece) input later rest → Reaches (upTo count next) (piece ++ input) later rest

theorem Reaches.trans {first second third : Pull β ε α} {s t u : List β} (reached : Reaches first s second t)
    (further : Reaches second t third u) : Reaches first s third u := by
  induction reached with
  | here => exact further
  | exactly length _ ih => exact .exactly length (ih further)
  | upTo length some_ _ ih => exact .upTo length some_ (ih further)

/-- What follows an input waits behind it. -/
theorem Reaches.append {later : Pull β ε α} {input rest : List β} (reached : Reaches reader input later rest) (more : List β) :
    Reaches reader (input ++ more) later (rest ++ more) := by
  induction reached with
  | here => exact .here _ _
  | exactly length _ ih =>
    rw [List.append_assoc]
    exact .exactly length ih
  | upTo length some_ _ ih =>
    rw [List.append_assoc]
    exact .upTo length some_ ih

/-- A request what is held does not answer, or an end nothing is left after. -/
def Stalled : Pull β ε α → List β → Prop
  | done _, held => held = []
  | refuse _, _ => False
  | exactly count _, held => held.length < count
  | upTo _ _, held => held = []

/-- A reader that comes to a stop has made its requests of what was held, and asks for more. -/
theorem pump_reaches (ran : pump late reader held = .ok (stopped, left)) : Reaches reader held stopped left ∧ Stalled stopped left := by
  induction reader generalizing held with
  | done value =>
    rw [pump] at ran
    split at ran
    · rename_i none_
      obtain ⟨rfl, rfl⟩ := Prod.mk.inj (Except.ok.inj ran)
      exact ⟨by rw [none_]; exact .here _ _, rfl⟩
    · cases ran
  | refuse failure => cases ran
  | exactly count next ih =>
    rw [pump] at ran
    split at ran
    · rename_i fits
      obtain ⟨reached, stalled⟩ := ih _ ran
      have made := @Reaches.exactly _ _ _ _ next _ _ _ _ (List.length_take_of_le fits) reached
      rw [List.take_append_drop] at made
      exact ⟨made, stalled⟩
    · rename_i few
      obtain ⟨rfl, rfl⟩ := Prod.mk.inj (Except.ok.inj ran)
      exact ⟨.here _ _, Nat.lt_of_not_le few⟩
  | upTo count next ih =>
    rw [pump] at ran
    split at ran
    · rename_i none_
      obtain ⟨rfl, rfl⟩ := Prod.mk.inj (Except.ok.inj ran)
      exact ⟨by rw [none_]; exact .here _ _, rfl⟩
    · rename_i some_
      obtain ⟨reached, stalled⟩ := ih _ ran
      have made := @Reaches.upTo _ _ _ _ next _ _ _ _ (List.length_take_le count held) (fun positive => take_ne_nil positive some_) reached
      rw [List.take_append_drop] at made
      exact ⟨made, stalled⟩

/-- A stalled reader makes no request until more comes. -/
theorem pump_of_stalled (stalled : Stalled reader held) : pump late reader held = .ok (reader, held) := by
  cases reader with
  | done value =>
    obtain rfl : held = [] := stalled
    rfl
  | refuse failure => exact stalled.elim
  | exactly count next => rw [pump, if_neg (Nat.not_le_of_lt stalled)]
  | upTo count next =>
    obtain rfl : held = [] := stalled
    rfl

/-- However it is handed its input, a reader's requests are answered with that input in its order, and what is held is the rest of it. -/
theorem feed_reaches {at_ : Pull β ε α × List β} {chunks : List (List β)} (stalled : Stalled reader held)
    (ran : chunks.foldlM (feed late) (reader, held) = .ok at_) :
    Reaches reader (held ++ chunks.flatten) at_.1 at_.2 ∧ Stalled at_.1 at_.2 := by
  induction chunks generalizing reader held with
  | nil =>
    obtain rfl := Except.ok.inj ran
    rw [List.flatten_nil, List.append_nil]
    exact ⟨.here _ _, stalled⟩
  | cons chunk chunks ih =>
    rw [List.foldlM_cons] at ran
    rw [List.flatten_cons, ← List.append_assoc]
    by_cases empty : chunk = []
    · have same : feed late (reader, held) chunk = .ok (reader, held) := if_pos empty
      rw [same] at ran
      rw [empty, List.append_nil]
      exact ih stalled ran
    · have fed : feed late (reader, held) chunk = pump late reader (held ++ chunk) := if_neg empty
      rw [fed] at ran
      cases pumped : pump late reader (held ++ chunk) with
      | error failure =>
        rw [pumped] at ran
        cases ran
      | ok between =>
        rw [pumped] at ran
        obtain ⟨reached, stalled⟩ := pump_reaches pumped
        obtain ⟨further, stalled⟩ := ih stalled ran
        exact ⟨(reached.append chunks.flatten).trans further, stalled⟩

/-- A reader that only ever asks for so many symbols exactly. -/
def Exact : Pull β ε α → Prop
  | done _ => True
  | refuse _ => True
  | exactly count next => ∀ symbols, symbols.length = count → Exact (next symbols)
  | upTo _ _ => False

/-- Handed its input at once or in two parts, such a reader comes as far, and refuses the same. -/
theorem Exact.pump_append (exact_ : Exact reader) (more : List β) :
    pump late reader (held ++ more) = pump late reader held >>= fun at_ => pump late at_.1 (at_.2 ++ more) := by
  induction reader generalizing held with
  | done value =>
    rw [pump, pump]
    by_cases none_ : held = []
    · rw [if_pos none_, none_]
      rfl
    · have more_ : held ++ more ≠ [] := List.append_ne_nil_of_left_ne_nil none_ more
      rw [if_neg none_, if_neg more_]
      rfl
  | refuse failure => rfl
  | exactly count next ih =>
    by_cases fits : count ≤ held.length
    · have long : count ≤ (held ++ more).length := by
        rw [List.length_append]
        omega
      rw [pump, pump, if_pos fits, if_pos long, List.take_append_of_le_length fits, List.drop_append_of_le_length fits]
      exact ih _ (exact_ _ (List.length_take_of_le fits))
    · have stalled : pump late (exactly count next) held = .ok (exactly count next, held) := pump_of_stalled (Nat.lt_of_not_le fits)
      rw [stalled]
      rfl
  | upTo count next => exact exact_.elim

theorem Exact.of_reaches {later : Pull β ε α} {input rest : List β} (exact_ : Exact reader) (reached : Reaches reader input later rest) :
    Exact later := by
  induction reached with
  | here => exact exact_
  | exactly length _ ih => exact ih (exact_ _ length)
  | upTo => exact exact_.elim

/-- However it is handed its input, such a reader comes as far as with all of it at once, and refuses the same. -/
theorem Exact.feed_eq_pump (exact_ : Exact reader) (stalled : Stalled reader held) (chunks : List (List β)) :
    chunks.foldlM (feed late) (reader, held) = pump late reader (held ++ chunks.flatten) := by
  induction chunks generalizing reader held with
  | nil =>
    rw [List.flatten_nil, List.append_nil, pump_of_stalled stalled]
    rfl
  | cons chunk chunks ih =>
    rw [List.foldlM_cons, List.flatten_cons, ← List.append_assoc]
    by_cases empty : chunk = []
    · have same : feed late (reader, held) chunk = .ok (reader, held) := if_pos empty
      rw [same, empty, List.append_nil]
      exact ih exact_ stalled
    · have fed : feed late (reader, held) chunk = pump late reader (held ++ chunk) := if_neg empty
      rw [fed, @Exact.pump_append _ _ _ late reader (held ++ chunk) exact_]
      cases pumped : pump late reader (held ++ chunk) with
      | error failure => rfl
      | ok between =>
        obtain ⟨reached, stalled⟩ := pump_reaches pumped
        exact ih (exact_.of_reaches reached) stalled

end Moe.Pull
