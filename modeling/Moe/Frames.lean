import Mathlib.Algebra.GroupWithZero.Nat
import Moe.Lib.Pull
import Moe.Reading

namespace Moe

/-- A frame reader written as a coroutine: it asks for the bytes it needs next, and one reader serves a buffer already in memory
and a stream alike. -/
abbrev FrameReader (α : Type) := Pull UInt8 Failure α

def truncatedFrame : Failure := .encoding "truncated frame"
def trailingFrame : Failure := .encoding "trailing frame bytes"

/-- Feeds a frame reader from chunks; held bytes are those of `buffer` from `start` and before `stop`. -/
structure FrameFeed (α : Type) where
  reader : FrameReader α
  buffer : Bytes
  start : Nat
  stop : Nat

/-- A buffer with bytes set at an offset. -/
def overwrite (buffer : Bytes) (offset : Nat) (bytes : Bytes) : Bytes :=
  buffer.take offset ++ bytes ++ buffer.drop (offset + bytes.length)

/-- A buffer's bytes from `start` and before `stop`. -/
def subarray (buffer : Bytes) (start stop : Nat) : Bytes := (buffer.take stop).drop start

namespace FrameFeed

variable {α : Type}

def held (f : FrameFeed α) : Bytes := subarray f.buffer f.start f.stop

/-- Append after the held bytes, moving them to the front or doubling the buffer when it is full. -/
def hold (f : FrameFeed α) (bytes : Bytes) : FrameFeed α :=
  let held := f.stop - f.start
  let f :=
    if f.stop + bytes.length > f.buffer.length then
      let room := if held + bytes.length ≤ f.buffer.length then f.buffer
        else List.replicate (max (2 * f.buffer.length) (held + bytes.length)) 0
      { f with buffer := overwrite room 0 f.held, start := 0, stop := held }
    else f
  { f with buffer := overwrite f.buffer f.stop bytes, stop := f.stop + bytes.length }

/-- Answer a reader's requests as long as enough is held, until it is done or asks for more. -/
def drain (buffer : Bytes) (stop : Nat) : FrameReader α → Nat → Except Failure (FrameReader α × Nat)
  | .done value, start => if start < stop then .error trailingFrame else .ok (.done value, start)
  | .refuse failure, _ => .error failure
  | .exactly count next, start =>
    if count ≤ stop - start then drain buffer stop (next (subarray buffer start (start + count))) (start + count)
    else .ok (.exactly count next, start)
  | .upTo count next, start =>
    if stop - start = 0 then .ok (.upTo count next, start)
    else
      let take := min count (stop - start)
      drain buffer stop (next (subarray buffer start (start + take))) (start + take)

def «open» (reader : FrameReader α) : Except Failure (FrameFeed α) := do
  let (reader, start) ← drain [] 0 reader 0
  return ⟨reader, [], start, 0⟩

def feed (f : FrameFeed α) (chunk : Bytes) : Except Failure (FrameFeed α) :=
  if chunk.length = 0 then .ok f
  else
    match f.reader with
    | .done _ => .error trailingFrame
    | reader => do
      let f := f.hold chunk
      let (reader, start) ← drain f.buffer f.stop reader f.start
      return { f with reader, start }

/-- The reader's result once it has read its whole frame and nothing more. -/
def «end» (f : FrameFeed α) : Except Failure α :=
  match f.reader with
  | .done value => .ok value
  | _ => .error truncatedFrame

/-- A reader fed a frame in chunks, to its end. -/
def read (reader : FrameReader α) (chunks : List Bytes) : Except Failure α := do
  let f ← FrameFeed.open reader
  let f ← chunks.foldlM feed f
  f.end

/-- The held bytes lie in the buffer. -/
def Kept (f : FrameFeed α) : Prop := f.start ≤ f.stop ∧ f.stop ≤ f.buffer.length

end FrameFeed

theorem subarray_length {buffer : Bytes} {start stop : Nat} (inside : stop ≤ buffer.length) :
    (subarray buffer start stop).length = stop - start := by
  rw [subarray, List.length_drop, List.length_take, Nat.min_eq_left inside]

/-- The first bytes of a part of a buffer, and the others. -/
theorem subarray_cut {buffer : Bytes} {start stop count : Nat} (fits : count ≤ stop - start) :
    subarray buffer start (start + count) = (subarray buffer start stop).take count ∧
      subarray buffer (start + count) stop = (subarray buffer start stop).drop count := by
  constructor
  · rw [subarray, subarray, List.drop_take, List.drop_take, List.take_take]
    congr 1
    omega
  · rw [subarray, subarray, List.drop_drop]

theorem overwrite_length {buffer bytes : Bytes} {offset : Nat} (fits : offset + bytes.length ≤ buffer.length) :
    (overwrite buffer offset bytes).length = buffer.length := by
  simp only [overwrite, List.length_append, List.length_take, List.length_drop]
  omega

/-- Bytes set at the end of a part of a buffer go on from it. -/
theorem subarray_overwrite {buffer bytes : Bytes} {start stop : Nat} (order : start ≤ stop) (inside : stop ≤ buffer.length) :
    subarray (overwrite buffer stop bytes) start (stop + bytes.length) = subarray buffer start stop ++ bytes := by
  have first : (buffer.take stop ++ bytes).length = stop + bytes.length := by
    rw [List.length_append, List.length_take, Nat.min_eq_left inside]
  rw [subarray, overwrite, ← first, List.take_left, List.drop_append_of_le_length, subarray]
  rw [List.length_take, Nat.min_eq_left inside]
  exact order

/-- Bytes moved to the front are the first of the buffer. -/
theorem subarray_front {buffer bytes : Bytes} : subarray (overwrite buffer 0 bytes) 0 bytes.length = bytes := by
  rw [subarray, overwrite, List.take_zero, List.nil_append, List.take_left, List.drop_zero]

namespace FrameFeed

variable {α : Type}

/-- Held bytes moved to the front of a room that has place for more, and more after them. -/
theorem moved_kept {room held bytes : Bytes} (fits : held.length + bytes.length ≤ room.length) (reader : FrameReader α) :
    Kept (FrameFeed.mk reader (overwrite (overwrite room 0 held) held.length bytes) 0 (held.length + bytes.length)) ∧
      subarray (overwrite (overwrite room 0 held) held.length bytes) 0 (held.length + bytes.length) = held ++ bytes := by
  have moved : (overwrite room 0 held).length = room.length := overwrite_length (by omega)
  have inside : held.length ≤ (overwrite room 0 held).length := by omega
  have whole : (overwrite (overwrite room 0 held) held.length bytes).length = room.length := by
    rw [overwrite_length, moved]
    omega
  refine ⟨⟨Nat.zero_le _, ?_⟩, ?_⟩
  · change held.length + bytes.length ≤ (overwrite (overwrite room 0 held) held.length bytes).length
    omega
  · rw [subarray_overwrite (Nat.zero_le _) inside, subarray_front]

theorem hold_kept {f : FrameFeed α} (kept : f.Kept) (bytes : Bytes) :
    (f.hold bytes).Kept ∧ (f.hold bytes).held = f.held ++ bytes ∧ (f.hold bytes).reader = f.reader := by
  obtain ⟨order, inside⟩ := kept
  have length : f.held.length = f.stop - f.start := subarray_length inside
  unfold hold
  simp only [← length]
  by_cases full : f.stop + bytes.length > f.buffer.length
  · simp only [if_pos full]
    by_cases fits : f.held.length + bytes.length ≤ f.buffer.length
    · simp only [if_pos fits]
      obtain ⟨kept, same⟩ := moved_kept fits f.reader
      exact ⟨kept, same, trivial⟩
    · simp only [if_neg fits]
      have grown : f.held.length + bytes.length ≤
          (List.replicate (max (2 * f.buffer.length) (f.held.length + bytes.length)) (0 : UInt8)).length := by
        rw [List.length_replicate]
        exact Nat.le_max_right ..
      obtain ⟨kept, same⟩ := moved_kept grown f.reader
      exact ⟨kept, same, trivial⟩
  · simp only [if_neg full]
    have fits : f.stop + bytes.length ≤ f.buffer.length := by omega
    refine ⟨⟨?_, ?_⟩, subarray_overwrite order inside, trivial⟩
    · change f.start ≤ f.stop + bytes.length
      omega
    · change f.stop + bytes.length ≤ (overwrite f.buffer f.stop bytes).length
      rw [overwrite_length fits]
      exact fits

/-- Draining the buffer is pumping what is held of it. -/
theorem drain_eq {buffer : Bytes} {stop start : Nat} (reader : FrameReader α) (order : start ≤ stop) (inside : stop ≤ buffer.length) :
    (∀ stopped start', drain buffer stop reader start = .ok (stopped, start') → start ≤ start' ∧ start' ≤ stop ∧
      Pull.pump trailingFrame reader (subarray buffer start stop) = .ok (stopped, subarray buffer start' stop)) ∧
    ∀ failure, drain buffer stop reader start = .error failure → Pull.pump trailingFrame reader (subarray buffer start stop) = .error failure := by
  induction reader generalizing start with
  | done value =>
    have length : (subarray buffer start stop).length = stop - start := subarray_length inside
    rw [drain, Pull.pump]
    by_cases more : start < stop
    · have some_ : subarray buffer start stop ≠ [] := List.ne_nil_of_length_pos (by omega)
      rw [if_pos more, if_neg some_]
      refine ⟨fun _ _ ran => (by cases ran), fun failure thrown => ?_⟩
      rw [Except.error.inj thrown]
    · have none_ : subarray buffer start stop = [] := List.length_eq_zero_iff.mp (by omega)
      rw [if_neg more, if_pos none_]
      refine ⟨fun stopped start' ran => ?_, fun _ thrown => by cases thrown⟩
      obtain ⟨rfl, rfl⟩ := Prod.mk.inj (Except.ok.inj ran)
      exact ⟨Nat.le_refl _, order, by rw [none_]⟩
  | refuse failure =>
    refine ⟨fun _ _ ran => (by cases ran), fun other thrown => ?_⟩
    rw [← Except.error.inj thrown]
    rfl
  | exactly count next ih =>
    rw [drain, Pull.pump, subarray_length inside]
    by_cases fits : count ≤ stop - start
    · rw [if_pos fits, if_pos fits]
      obtain ⟨first, rest⟩ := @subarray_cut buffer _ _ _ fits
      rw [← first, ← rest]
      obtain ⟨ran, thrown⟩ := ih (subarray buffer start (start + count)) (by omega : start + count ≤ stop)
      refine ⟨fun stopped start' drained => ?_, thrown⟩
      obtain ⟨low, high, same⟩ := ran stopped start' drained
      exact ⟨by omega, high, same⟩
    · rw [if_neg fits, if_neg fits]
      refine ⟨fun stopped start' ran => ?_, fun _ thrown => by cases thrown⟩
      obtain ⟨rfl, rfl⟩ := Prod.mk.inj (Except.ok.inj ran)
      exact ⟨Nat.le_refl _, order, rfl⟩
  | upTo count next ih =>
    have length : (subarray buffer start stop).length = stop - start := subarray_length inside
    rw [drain, Pull.pump]
    by_cases zero : stop - start = 0
    · have none_ : subarray buffer start stop = [] := List.length_eq_zero_iff.mp (by omega)
      rw [if_pos zero, if_pos none_]
      refine ⟨fun stopped start' ran => ?_, fun _ thrown => by cases thrown⟩
      obtain ⟨rfl, rfl⟩ := Prod.mk.inj (Except.ok.inj ran)
      exact ⟨Nat.le_refl _, order, by rw [none_]⟩
    · have some_ : subarray buffer start stop ≠ [] := List.ne_nil_of_length_pos (by omega)
      rw [if_neg zero, if_neg some_]
      have fits : min count (stop - start) ≤ stop - start := Nat.min_le_right ..
      obtain ⟨first, rest⟩ := @subarray_cut buffer _ _ _ fits
      have cut : (subarray buffer start stop).take (min count (stop - start)) = (subarray buffer start stop).take count ∧
          (subarray buffer start stop).drop (min count (stop - start)) = (subarray buffer start stop).drop count := by
        rw [← length]
        exact ⟨List.take_eq_take_min.symm, List.drop_eq_drop_min.symm⟩
      rw [← cut.1, ← cut.2, ← first, ← rest]
      obtain ⟨ran, thrown⟩ := ih (subarray buffer start (start + min count (stop - start))) (by omega : start + min count (stop - start) ≤ stop)
      refine ⟨fun stopped start' drained => ?_, thrown⟩
      obtain ⟨low, high, same⟩ := ran stopped start' drained
      exact ⟨by omega, high, same⟩

/-- Feeding the buffer is feeding what is held of it. -/
theorem feed_eq {f : FrameFeed α} (kept : f.Kept) (chunk : Bytes) :
    (∀ later, f.feed chunk = .ok later → later.Kept ∧ Pull.feed trailingFrame (f.reader, f.held) chunk = .ok (later.reader, later.held)) ∧
      ∀ failure, f.feed chunk = .error failure → Pull.feed trailingFrame (f.reader, f.held) chunk = .error failure := by
  unfold feed Pull.feed
  by_cases empty : chunk = []
  · have none_ : chunk.length = 0 := List.length_eq_zero_iff.mpr empty
    rw [if_pos none_, if_pos empty]
    refine ⟨fun later fed => ?_, fun _ thrown => (by cases thrown)⟩
    obtain rfl := Except.ok.inj fed
    exact ⟨kept, rfl⟩
  · have some_ : chunk.length ≠ 0 := fun none_ => empty (List.length_eq_zero_iff.mp none_)
    rw [if_neg some_, if_neg empty]
    obtain ⟨⟨order, inside⟩, same, -⟩ := hold_kept kept chunk
    obtain ⟨ran, thrown⟩ := drain_eq f.reader order inside
    have held : f.held ++ chunk ≠ [] := List.append_ne_nil_of_right_ne_nil _ empty
    rw [← same] at held ⊢
    have drained : (∀ later : FrameFeed α, (do
          let (reader, start) ← drain (f.hold chunk).buffer (f.hold chunk).stop f.reader (f.hold chunk).start
          return { f.hold chunk with reader, start }) = .ok later →
        later.Kept ∧ Pull.pump trailingFrame f.reader (f.hold chunk).held = .ok (later.reader, later.held)) ∧
        ∀ failure, (do
          let (reader, start) ← drain (f.hold chunk).buffer (f.hold chunk).stop f.reader (f.hold chunk).start
          return ({ f.hold chunk with reader, start } : FrameFeed α)) = .error failure →
        Pull.pump trailingFrame f.reader (f.hold chunk).held = .error failure := by
      constructor
      · intro later fed
        obtain ⟨⟨stopped, start⟩, went, fed⟩ := bind_eq_ok.mp fed
        obtain rfl := pure_eq_ok.mp fed
        obtain ⟨-, high, pumped⟩ := ran stopped start went
        exact ⟨⟨high, inside⟩, pumped⟩
      · intro failure refused
        cases went : drain (f.hold chunk).buffer (f.hold chunk).stop f.reader (f.hold chunk).start with
        | error other =>
          rw [went] at refused
          obtain rfl := Except.error.inj refused
          exact thrown _ went
        | ok at_ =>
          rw [went] at refused
          cases refused
    cases reader : f.reader with
    | done value =>
      refine ⟨fun later fed => (by cases fed), fun failure thrown => ?_⟩
      obtain rfl := Except.error.inj thrown
      rw [Pull.pump, if_neg held]
    | refuse failure =>
      rw [reader] at drained
      exact drained
    | exactly count next =>
      rw [reader] at drained
      exact drained
    | upTo count next =>
      rw [reader] at drained
      exact drained

theorem end_eq (f : FrameFeed α) : f.end = Pull.ended truncatedFrame f.reader := by
  obtain ⟨reader, _, _, _⟩ := f
  cases reader <;> rfl

theorem foldlM_feed_eq {f : FrameFeed α} (kept : f.Kept) (chunks : List Bytes) :
    (do (← chunks.foldlM feed f).end) = (do Pull.ended truncatedFrame (← chunks.foldlM (Pull.feed trailingFrame) (f.reader, f.held)).1) := by
  induction chunks generalizing f with
  | nil => exact end_eq f
  | cons chunk rest ih =>
    rw [List.foldlM_cons, List.foldlM_cons]
    obtain ⟨went, thrown⟩ := feed_eq kept chunk
    cases fed : f.feed chunk with
    | error failure =>
      rw [thrown failure fed]
      rfl
    | ok later =>
      obtain ⟨kept, same⟩ := went later fed
      rw [same]
      exact ih kept

/-- A steady reader fed a frame in chunks makes of it what it makes of the whole frame: it accepts and refuses the same,
with the same failure, and only where it has read every byte. -/
theorem read_eq {reader : FrameReader α} (steady : reader.Steady truncatedFrame) (chunks : List Bytes) :
    read reader chunks = Pull.whole truncatedFrame trailingFrame reader chunks.flatten := by
  unfold read FrameFeed.open
  obtain ⟨went, thrown⟩ := drain_eq reader (Nat.le_refl 0) (Nat.le_refl ([] : Bytes).length)
  have nothing : subarray [] 0 0 = [] := rfl
  rw [nothing] at thrown
  cases opened : drain [] 0 reader 0 with
  | error failure =>
    rw [← List.nil_append chunks.flatten, Pull.pump_error steady (thrown failure opened)]
    rfl
  | ok at_ =>
    obtain ⟨stopped, start⟩ := at_
    obtain ⟨-, high, pumped⟩ := went stopped start opened
    have zero : start = 0 := Nat.le_zero.mp high
    subst zero
    obtain ⟨steady', ended, same⟩ := Pull.pump_ok steady pumped
    rw [← List.nil_append chunks.flatten, ← nothing, same, ← Pull.feed_whole steady' ended]
    exact foldlM_feed_eq (f := ⟨stopped, [], 0, 0⟩) ⟨Nat.le_refl 0, Nat.le_refl 0⟩ chunks

end FrameFeed

/-- Bytes of a skipped or streamed field handed over at a time. -/
def pieceBytes : Nat := 65536

/-- A field taken in pieces, each at least one byte and so no more of them than `fuel`. -/
def pieces : Nat → Nat → Bytes → FrameReader Bytes
  | 0, _, sofar => .done sofar
  | fuel + 1, left, sofar =>
    if left = 0 then .done sofar
    else .upTo (min left pieceBytes) fun bytes => pieces fuel (left - bytes.length) (sofar ++ bytes)

/-- A field taken in pieces is the field taken whole. -/
theorem parse_pieces {fuel left : Nat} (enough : left ≤ fuel) (sofar input : Bytes) :
    Pull.parse truncatedFrame (pieces fuel left sofar) input =
      if left ≤ input.length then .ok (sofar ++ input.take left, input.drop left) else .error truncatedFrame := by
  induction fuel generalizing left sofar input with
  | zero =>
    obtain rfl : left = 0 := Nat.le_zero.mp enough
    rw [if_pos (Nat.zero_le _), List.take_zero, List.append_nil, List.drop_zero]
    rfl
  | succ fuel ih =>
    rw [pieces]
    by_cases zero : left = 0
    · rw [if_pos zero, zero, if_pos (Nat.zero_le _), List.take_zero, List.append_nil, List.drop_zero]
      rfl
    · rw [if_neg zero, Pull.parse_upTo]
      by_cases empty : input = []
      · have short : ¬ left ≤ input.length := by
          rw [empty, List.length_nil]
          omega
        rw [if_pos empty, if_neg short]
      · have some_ : 0 < input.length := List.length_pos_iff.mpr empty
        have positive : 0 < min left pieceBytes := by
          simp only [pieceBytes]
          omega
        rw [if_neg empty, ih (by rw [List.length_take]; omega), List.length_take, List.length_drop]
        by_cases fits : min left pieceBytes ≤ input.length
        · have least : min (min left pieceBytes) input.length = min left pieceBytes := Nat.min_eq_left fits
          have same : left - min left pieceBytes ≤ input.length - min left pieceBytes ↔ left ≤ input.length := by omega
          have whole : min left pieceBytes + (left - min left pieceBytes) = left := by omega
          rw [least, List.drop_drop, List.append_assoc, ← List.take_add, whole]
          simp only [same]
        · have least : min (min left pieceBytes) input.length = input.length := Nat.min_eq_right (by omega)
          have first : ¬ left - input.length ≤ input.length - min left pieceBytes := by omega
          have second : ¬ left ≤ input.length := by omega
          rw [least, if_neg first, if_neg second]

theorem pieces_steady {fuel left : Nat} (enough : left ≤ fuel) (sofar : Bytes) : (pieces fuel left sofar).Steady truncatedFrame := by
  induction fuel generalizing left sofar with
  | zero => trivial
  | succ fuel ih =>
    rw [pieces]
    by_cases zero : left = 0
    · rw [if_pos zero]
      trivial
    · rw [if_neg zero]
      refine ⟨?_, fun piece some_ length => ?_, fun piece more rest some_ length => ?_⟩
      · simp only [pieceBytes]
        omega
      · have positive : 0 < piece.length := List.length_pos_iff.mpr some_
        exact ih (by omega) _
      · have positive : 0 < piece.length := List.length_pos_iff.mpr some_
        rw [List.length_append] at length
        rw [parse_pieces (by rw [List.length_append]; omega), parse_pieces (by omega), List.length_append, List.length_append]
        have same : left - (piece.length + more.length) ≤ rest.length ↔ left - piece.length ≤ more.length + rest.length := by omega
        have past : more.length ≤ left - piece.length := by omega
        have cut : left - piece.length - more.length = left - (piece.length + more.length) := by omega
        rw [List.take_append, List.drop_append, List.take_of_length_le past, List.drop_of_length_le past, List.nil_append, cut]
        simp only [same, List.append_assoc]

end Moe
