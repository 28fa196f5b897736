import Moe.Lib.Codec

namespace Moe

variable {β ε α γ σ : Type}

/-- A source of chunks read from its front on: what is held of the chunk it is at, and the chunks after that one. -/
structure ChunkCursor (β : Type) where
  held : List β
  source : List (List β)

namespace ChunkCursor

/-- The symbols still to come. -/
def rest (c : ChunkCursor β) : List β := c.held ++ c.source.flatten

/-- So many symbols, out of as many chunks as they lie in. -/
def takeFrom : Nat → List β → List (List β) → Option (List β × ChunkCursor β)
  | count, held, [] => if count ≤ held.length then some (held.take count, ⟨held.drop count, []⟩) else none
  | count, held, chunk :: source =>
    if count ≤ held.length then some (held.take count, ⟨held.drop count, chunk :: source⟩)
    else (takeFrom (count - held.length) chunk source).map fun taken => (held ++ taken.1, taken.2)

def take (short : ε) (count : Nat) : StateT (ChunkCursor β) (Except ε) (List β) := fun c =>
  match takeFrom count c.held c.source with
  | some taken => .ok taken
  | none => .error short

/-- Whether no symbol is to come, past the empty chunks. -/
def ended : List β → List (List β) → Bool
  | held, [] => held.isEmpty
  | held, chunk :: source => held.isEmpty && ended chunk source

theorem ended_iff {held : List β} {source : List (List β)} : ended held source = true ↔ (ChunkCursor.mk held source).rest = [] := by
  induction source generalizing held with
  | nil => simp [ended, rest]
  | cons chunk source ih => simp [ended, rest, ih]

theorem takeFrom_eq {count : Nat} {held : List β} {source : List (List β)} :
    (takeFrom count held source).map (fun taken => (taken.1, taken.2.rest)) =
      if count ≤ (ChunkCursor.mk held source).rest.length then
        some ((ChunkCursor.mk held source).rest.take count, (ChunkCursor.mk held source).rest.drop count)
      else none := by
  induction source generalizing count held with
  | nil =>
    simp only [takeFrom, rest, List.flatten_nil, List.append_nil]
    split <;> simp
  | cons chunk source ih =>
    have whole : (ChunkCursor.mk held (chunk :: source)).rest = held ++ (ChunkCursor.mk chunk source).rest := by simp [rest]
    rw [takeFrom, whole]
    by_cases fits : count ≤ held.length
    · have long : count ≤ (held ++ (ChunkCursor.mk chunk source).rest).length := by
        rw [List.length_append]
        omega
      rw [if_pos fits, if_pos long, List.take_append_of_le_length fits, List.drop_append_of_le_length fits]
      simp [rest]
    · have further := @ih (count - held.length) chunk
      have past : held.length ≤ count := by omega
      rw [if_neg fits, Option.map_map]
      by_cases long : count - held.length ≤ (ChunkCursor.mk chunk source).rest.length
      · rw [if_pos long] at further
        obtain ⟨taken, run, same⟩ := Option.map_eq_some_iff.mp further
        obtain ⟨got, left⟩ := Prod.mk.inj same
        have long' : count ≤ (held ++ (ChunkCursor.mk chunk source).rest).length := by
          rw [List.length_append]
          omega
        rw [run, if_pos long', List.take_append, List.drop_append, List.take_of_length_le past, List.drop_of_length_le past, ← got, ← left]
        rfl
      · rw [if_neg long] at further
        have short : ¬ count ≤ (held ++ (ChunkCursor.mk chunk source).rest).length := by
          rw [List.length_append]
          omega
        rw [Option.map_eq_none_iff.mp further, if_neg short]
        rfl

/-- A reader of a source that reads what the reader of its symbols at once does, and leaves what that leaves. -/
def Reads (reader : StateT (ChunkCursor β) (Except ε) α) (whole : StateT (List β) (Except ε) α) : Prop :=
  ∀ c, (reader c).map (fun read => (read.1, read.2.rest)) = whole c.rest

namespace Reads

variable {reader : StateT (ChunkCursor β) (Except ε) α} {whole : StateT (List β) (Except ε) α} {c c' : ChunkCursor β} {a : α} {s : List β}

theorem take (short : ε) (count : Nat) : @Reads β ε (List β) (ChunkCursor.take short count) (takeOr short count) := by
  intro c
  have taken := @takeFrom_eq _ count c.held c.source
  unfold ChunkCursor.take takeOr
  split at taken
  · rename_i fits
    obtain ⟨got, run, same⟩ := Option.map_eq_some_iff.mp taken
    rw [run, if_pos fits]
    exact congrArg Except.ok same
  · rename_i few
    rw [Option.map_eq_none_iff.mp taken, if_neg few]
    rfl

theorem pure (value : α) : @Reads β ε α (Pure.pure value) (Pure.pure value) := fun _ => rfl

theorem lift (check : Except ε α) : @Reads β ε α (liftM check) (liftM check) := by
  intro c
  cases check <;> rfl

theorem bind {next : α → StateT (ChunkCursor β) (Except ε) γ} {after : α → StateT (List β) (Except ε) γ} (reads : Reads reader whole)
    (each : ∀ a, Reads (next a) (after a)) : Reads (reader >>= next) (whole >>= after) := by
  intro c
  have first := reads c
  change ((reader c) >>= fun read => next read.1 read.2).map _ = (whole c.rest >>= fun read => after read.1 read.2)
  rw [← first]
  cases reader c with
  | error failure => rfl
  | ok read => exact each read.1 read.2

theorem ok (reads : Reads reader whole) (read : reader c = .ok (a, c')) : whole c.rest = .ok (a, c'.rest) := by
  rw [← reads c, read]
  rfl

theorem exists_ok (reads : Reads reader whole) (read : whole c.rest = .ok (a, s)) : ∃ c', reader c = .ok (a, c') ∧ c'.rest = s := by
  have same := reads c
  rw [read] at same
  cases ran : reader c with
  | error failure =>
    rw [ran] at same
    cases same
  | ok went =>
    rw [ran] at same
    obtain ⟨rfl, left⟩ := Prod.mk.inj (Except.ok.inj same)
    exact ⟨went.2, rfl, left⟩

end Reads

/-- How a draw of pieces ended before its count: the source at its end, or the one that draws. -/
inductive Stopped (σ ε : Type)
  | short (s : σ)
  | threw (failure : ε)

section Draw

variable (pulls : σ → Bool) (piece : σ → List β → Except ε σ)

/-- The next piece of what is held, if one is asked for. -/
def drawHeld (s : σ) (left : Nat) (held : List β) : Except ε (σ × Nat × List β) :=
  if left = 0 ∨ pulls s = false ∨ held = [] then .ok (s, left, held)
  else (piece s (held.take left)).map fun s => (s, left - held.length, held.drop left)

/-- So many symbols drawn a piece at a time as their chunks come, as long as the one that draws them asks for more. -/
def draw : σ → Nat → List β → List (List β) → Except (Stopped σ ε) (σ × Nat × ChunkCursor β)
  | s, left, held, [] =>
    match drawHeld pulls piece s left held with
    | .error failure => .error (.threw failure)
    | .ok (s, left, held) => if left = 0 ∨ pulls s = false then .ok (s, left, ⟨held, []⟩) else .error (.short s)
  | s, left, held, chunk :: source =>
    match drawHeld pulls piece s left held with
    | .error failure => .error (.threw failure)
    | .ok (s, left, held) => if left = 0 ∨ pulls s = false then .ok (s, left, ⟨held, chunk :: source⟩) else draw s left chunk source

/-- Pieces asked for and taken one after another. -/
inductive Draws : σ → List (List β) → σ → Prop
  | done (s : σ) : Draws s [] s
  | piece {s next later : σ} {bytes : List β} {more : List (List β)} : pulls s = true → bytes ≠ [] → piece s bytes = .ok next →
      Draws next more later → Draws s (bytes :: more) later

end Draw

variable {pulls : σ → Bool} {piece : σ → List β → Except ε σ} {s : σ}

theorem Draws.trans {first second third : σ} {xs ys : List (List β)} (one : Draws pulls piece first xs second)
    (two : Draws pulls piece second ys third) : Draws pulls piece first (xs ++ ys) third := by
  induction one with
  | done => exact two
  | piece asked some_ took _ ih => exact .piece asked some_ took (ih two)

/-- What a draw from what is held comes to. -/
theorem drawHeld_spec (s : σ) (left : Nat) (held : List β) :
    (∃ failure bytes, drawHeld pulls piece s left held = .error failure ∧ pulls s = true ∧ bytes ≠ [] ∧ bytes.length ≤ left ∧
      bytes <+: held ∧ piece s bytes = .error failure) ∨
    ∃ s' left' held' pieces, drawHeld pulls piece s left held = .ok (s', left', held') ∧ Draws pulls piece s pieces s' ∧
      held = pieces.flatten ++ held' ∧ left = pieces.flatten.length + left' ∧ (left' = 0 ∨ pulls s' = false ∨ held' = []) := by
  unfold drawHeld
  split
  · rename_i idle
    exact .inr ⟨s, left, held, [], rfl, .done s, rfl, by simp, idle⟩
  · rename_i asked
    push Not at asked
    obtain ⟨positive, asked, some_⟩ := asked
    have asked : pulls s = true := by simpa using asked
    have nonempty : held.take left ≠ [] := fun none_ => by
      rcases List.take_eq_nil_iff.mp none_ with zero | empty
      · exact positive zero
      · exact some_ empty
    cases took : piece s (held.take left) with
    | error failure =>
      exact .inl ⟨failure, held.take left, rfl, asked, nonempty, by rw [List.length_take]; omega, List.take_prefix _ _, took⟩
    | ok next =>
      refine .inr ⟨next, left - held.length, held.drop left, [held.take left], rfl, .piece asked nonempty took (.done next), by simp, ?_, ?_⟩
      · simp only [List.flatten_singleton, List.length_take]
        omega
      · obtain fits | past := Nat.le_total held.length left
        · exact .inr (.inr (List.drop_eq_nil_of_le fits))
        · exact .inl (by omega)

/-- What came of a draw from symbols to come: the pieces it took are their first ones, and it stopped at its count, where no more was
asked for, at the end of the source or at a piece that was refused. -/
def Drew (pulls : σ → Bool) (piece : σ → List β → Except ε σ) (s : σ) (left : Nat) (symbols : List β) :
    Except (Stopped σ ε) (σ × Nat × ChunkCursor β) → Prop
  | .ok (later, beyond, c) => ∃ pieces, Draws pulls piece s pieces later ∧ symbols = pieces.flatten ++ c.rest ∧
      left = pieces.flatten.length + beyond ∧ (beyond = 0 ∨ pulls later = false)
  | .error (.short later) => ∃ pieces, Draws pulls piece s pieces later ∧ symbols = pieces.flatten ∧ symbols.length < left ∧ pulls later = true
  | .error (.threw failure) => ∃ pieces later bytes more, Draws pulls piece s pieces later ∧ symbols = pieces.flatten ++ bytes ++ more ∧
      (pieces.flatten ++ bytes).length ≤ left ∧ pulls later = true ∧ bytes ≠ [] ∧ piece later bytes = .error failure

/-- Pieces drawn before a draw are the first ones of both. -/
theorem Drew.after {first : σ} {pieces : List (List β)} {left : Nat} {symbols : List β} {drawn : Except (Stopped σ ε) (σ × Nat × ChunkCursor β)}
    (before : Draws pulls piece first pieces s) (drew : Drew pulls piece s left symbols drawn) :
    Drew pulls piece first (pieces.flatten.length + left) (pieces.flatten ++ symbols) drawn := by
  rcases drawn with (later | failure) | ⟨later, beyond, c⟩
  · obtain ⟨more, draws, rfl, few, asked⟩ := drew
    exact ⟨pieces ++ more, before.trans draws, List.flatten_append.symm, by rw [List.length_append]; omega, asked⟩
  · obtain ⟨more, later, bytes, others, draws, rfl, fits, asked, some_, thrown⟩ := drew
    refine ⟨pieces ++ more, later, bytes, others, before.trans draws, by simp, ?_, asked, some_, thrown⟩
    simp only [List.flatten_append, List.length_append] at fits ⊢
    omega
  · obtain ⟨more, draws, rfl, rfl, stopped⟩ := drew
    refine ⟨pieces ++ more, before.trans draws, by simp, ?_, stopped⟩
    simp only [List.flatten_append, List.length_append]
    omega

theorem draw_drew (s : σ) (left : Nat) (held : List β) (source : List (List β)) :
    Drew pulls piece s left (ChunkCursor.mk held source).rest (draw pulls piece s left held source) := by
  induction source generalizing s left held with
  | nil =>
    rw [draw]
    rcases @drawHeld_spec _ _ _ pulls piece s left held with ⟨failure, bytes, run, asked, some_, fits, ⟨more, cut⟩, thrown⟩ |
      ⟨s', left', held', pieces, run, draws, rfl, rfl, idle⟩
    · rw [run]
      exact ⟨[], s, bytes, more, .done s, by simp [rest, cut], by simpa using fits, asked, some_, thrown⟩
    · rw [run]
      by_cases stopped : left' = 0 ∨ pulls s' = false
      · simp only [if_pos stopped]
        exact ⟨pieces, draws, by simp [rest], rfl, stopped⟩
      · simp only [if_neg stopped]
        push Not at stopped
        obtain rfl : held' = [] := (idle.resolve_left stopped.1).resolve_left stopped.2
        refine ⟨pieces, draws, by simp [rest], ?_, by simpa using stopped.2⟩
        have positive := stopped.1
        simp only [rest, List.flatten_nil, List.append_nil]
        omega
  | cons chunk source ih =>
    rw [draw]
    rcases @drawHeld_spec _ _ _ pulls piece s left held with ⟨failure, bytes, run, asked, some_, fits, ⟨more, cut⟩, thrown⟩ |
      ⟨s', left', held', pieces, run, draws, rfl, rfl, idle⟩
    · rw [run]
      exact ⟨[], s, bytes, more ++ chunk ++ source.flatten, .done s, by simp [rest, ← cut], by simpa using fits, asked, some_, thrown⟩
    · rw [run]
      by_cases stopped : left' = 0 ∨ pulls s' = false
      · simp only [if_pos stopped]
        exact ⟨pieces, draws, by simp [rest], rfl, stopped⟩
      · simp only [if_neg stopped]
        push Not at stopped
        obtain rfl : held' = [] := (idle.resolve_left stopped.1).resolve_left stopped.2
        have further := (ih s' left' chunk).after draws
        have whole : (ChunkCursor.mk (pieces.flatten ++ []) (chunk :: source)).rest = pieces.flatten ++ (ChunkCursor.mk chunk source).rest := by
          simp [rest]
        rw [whole]
        exact further

end ChunkCursor

end Moe
