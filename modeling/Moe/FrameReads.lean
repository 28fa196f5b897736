import Moe.Frames
import Moe.Lib.PullReads

namespace Moe

variable {α : Type}

namespace FrameFeed

/-- Where a feed stands once chunks are fed: at a request of its reader's, with the bytes held for it. -/
def stand (reader : FrameReader α) (chunks : List Bytes) : Except Failure (FrameReader α × Bytes) := do
  let f ← FrameFeed.open reader
  let f ← chunks.foldlM feed f
  return (f.reader, f.held)

theorem stand_from_eq {f : FrameFeed α} (kept : f.Kept) (chunks : List Bytes) :
    (do let f ← chunks.foldlM feed f; return (f.reader, f.held)) = chunks.foldlM (Pull.feed trailingFrame) (f.reader, f.held) := by
  induction chunks generalizing f with
  | nil => rfl
  | cons chunk rest ih =>
    rw [List.foldlM_cons, List.foldlM_cons]
    obtain ⟨went, thrown⟩ := feed_eq kept chunk
    cases fed : f.feed chunk with
    | error failure =>
      rw [thrown failure fed]
      rfl
    | ok later =>
      obtain ⟨kept, same⟩ := went later fed
      rw [same]
      exact ih kept

/-- A feed's buffer holds what a reader without one would. -/
theorem stand_eq (reader : FrameReader α) (chunks : List Bytes) :
    stand reader chunks = Pull.pump trailingFrame reader [] >>= fun at_ => chunks.foldlM (Pull.feed trailingFrame) at_ := by
  unfold stand FrameFeed.open
  obtain ⟨went, thrown⟩ := drain_eq reader (Nat.le_refl 0) (Nat.le_refl ([] : Bytes).length)
  have nothing : subarray [] 0 0 = [] := rfl
  rw [nothing] at thrown
  cases opened : drain [] 0 reader 0 with
  | error failure =>
    rw [thrown failure opened]
    rfl
  | ok at_ =>
    obtain ⟨stopped, start⟩ := at_
    obtain ⟨-, high, pumped⟩ := went stopped start opened
    have zero : start = 0 := Nat.le_zero.mp high
    subst zero
    rw [nothing] at pumped
    rw [pumped]
    exact stand_from_eq (f := ⟨stopped, [], 0, 0⟩) ⟨Nat.le_refl 0, Nat.le_refl 0⟩ chunks

/-- Whatever a reader asks for, its requests are answered with the bytes fed in their order, and what is held is the rest of them. -/
theorem stand_reaches {reader : FrameReader α} {chunks : List Bytes} {at_ : FrameReader α × Bytes} (stood : stand reader chunks = .ok at_) :
    Pull.Reaches reader chunks.flatten at_.1 at_.2 ∧ Pull.Stalled at_.1 at_.2 := by
  rw [stand_eq] at stood
  obtain ⟨first, pumped, fed⟩ := bind_eq_ok.mp stood
  obtain ⟨reached, stalled⟩ := Pull.pump_reaches pumped
  obtain ⟨further, stalled⟩ := Pull.feed_reaches stalled fed
  exact ⟨(reached.append chunks.flatten).trans further, stalled⟩

/-- A reader of exact counts stands where all the bytes at once would have it stand, and is refused as they would. -/
theorem stand_eq_pump {reader : FrameReader α} (exact_ : reader.Exact) (chunks : List Bytes) :
    stand reader chunks = Pull.pump trailingFrame reader chunks.flatten := by
  have whole := @Pull.Exact.pump_append _ _ _ trailingFrame reader [] exact_ chunks.flatten
  rw [List.nil_append] at whole
  rw [stand_eq, whole]
  cases pumped : Pull.pump trailingFrame reader [] with
  | error failure => rfl
  | ok first =>
    obtain ⟨reached, stalled⟩ := Pull.pump_reaches pumped
    exact (exact_.of_reaches reached).feed_eq_pump stalled chunks

end FrameFeed

/-- Reads one after another, each chosen by what those before it returned. -/
inductive ReadProgram (α : Type)
  | done (value : α)
  | refuse (failure : Failure)
  | u8 (next : Nat → ReadProgram α)
  | u32 (next : Nat → ReadProgram α)
  | u64 (next : Nat → ReadProgram α)
  | raw (length : Nat) (next : Bytes → ReadProgram α)

namespace ReadProgram

/-- The reads, by the reader of a whole buffer. -/
def byteReader : ReadProgram α → Reader α
  | done value => pure value
  | refuse failure => liftM (Except.error failure : Except Failure α)
  | u8 next => do byteReader (next (← Reader.u8))
  | u32 next => do byteReader (next (← Reader.u32))
  | u64 next => do byteReader (next (← Reader.u64))
  | raw length next => do byteReader (next (← Reader.raw length))

/-- The reads, as requests to a feed. -/
def frameReader : ReadProgram α → FrameReader α
  | done value => .done value
  | refuse failure => .refuse failure
  | u8 next => .exactly 1 fun bytes => frameReader (next (ofBytes bytes))
  | u32 next => .exactly 4 fun bytes => frameReader (next (ofBytes bytes))
  | u64 next => .exactly 8 fun bytes => frameReader (next (ofBytes bytes))
  | raw length next => .exactly length fun bytes => frameReader (next bytes)

/-- A frame of at most so many bytes behind its length. -/
def lengthPrefixed (maxLength : Nat) (next : Bytes → ReadProgram α) : ReadProgram α :=
  u32 fun length => if length ≤ maxLength then raw length next else refuse (.encoding "field too long")

/-- A whole buffer read, and its end. -/
def whole (program : ReadProgram α) (bytes : Bytes) : Except Failure α :=
  Reader.run (do
    let value ← program.byteReader
    Reader.expectEnd
    return value) bytes

/-- The bytes the next read takes. -/
def width : ReadProgram α → Nat
  | done _ => 0
  | refuse _ => 0
  | u8 _ => 1
  | u32 _ => 4
  | u64 _ => 8
  | raw length _ => length

/-- The reads a whole buffer answers one after another, and the bytes left at one of them. -/
inductive Reads : ReadProgram α → Bytes → ReadProgram α → Bytes → Prop
  | here (program : ReadProgram α) (bytes : Bytes) : Reads program bytes program bytes
  | u8 {next : Nat → ReadProgram α} {s t u : Bytes} {n : Nat} {later : ReadProgram α} : Reader.u8 s = .ok (n, t) →
      Reads (next n) t later u → Reads (u8 next) s later u
  | u32 {next : Nat → ReadProgram α} {s t u : Bytes} {n : Nat} {later : ReadProgram α} : Reader.u32 s = .ok (n, t) →
      Reads (next n) t later u → Reads (u32 next) s later u
  | u64 {next : Nat → ReadProgram α} {s t u : Bytes} {n : Nat} {later : ReadProgram α} : Reader.u64 s = .ok (n, t) →
      Reads (next n) t later u → Reads (u64 next) s later u
  | raw {length : Nat} {next : Bytes → ReadProgram α} {s t u bytes : Bytes} {later : ReadProgram α} : Reader.raw length s = .ok (bytes, t) →
      Reads (next bytes) t later u → Reads (raw length next) s later u

/-- How a run settles at a read it does not get past, first as a feed and then as a whole buffer's reader answers. -/
inductive Settles : ReadProgram α → Bytes → Except Failure α → Except Failure α → Prop
  | ended (value : α) : Settles (done value) [] (.ok value) (.ok value)
  | trailing (value : α) {left : Bytes} : left ≠ [] → Settles (done value) left (.error trailingFrame) (.error (.encoding "trailing bytes"))
  | refused (failure : Failure) (left : Bytes) : Settles (refuse failure) left (.error failure) (.error failure)
  | short {program : ReadProgram α} {left : Bytes} : left.length < program.width →
      Settles program left (.error truncatedFrame) (.error (.encoding "truncated"))

theorem byteReader_lengthPrefixed (maxLength : Nat) (next : Bytes → ReadProgram α) :
    (lengthPrefixed maxLength next).byteReader = (do (next (← Reader.lengthPrefixed maxLength)).byteReader) := by
  simp only [lengthPrefixed, byteReader, Reader.lengthPrefixed, bind_assoc]
  refine congrArg (Reader.u32 >>= ·) (funext fun length => ?_)
  by_cases fits : length ≤ maxLength
  · rw [if_pos fits, require, if_pos (decide_eq_true fits)]
    rfl
  · rw [if_neg fits, require, if_neg (by simpa using fits)]
    rfl

theorem frameReader_exact (program : ReadProgram α) : program.frameReader.Exact := by
  induction program with
  | done => trivial
  | refuse => trivial
  | u8 next ih => exact fun bytes _ => ih (ofBytes bytes)
  | u32 next ih => exact fun bytes _ => ih (ofBytes bytes)
  | u64 next ih => exact fun bytes _ => ih (ofBytes bytes)
  | raw length next ih => exact fun bytes _ => ih bytes

theorem frameReader_steady (program : ReadProgram α) : program.frameReader.Steady truncatedFrame := by
  induction program with
  | done => trivial
  | refuse => trivial
  | u8 next ih => exact fun bytes _ => ih (ofBytes bytes)
  | u32 next ih => exact fun bytes _ => ih (ofBytes bytes)
  | u64 next ih => exact fun bytes _ => ih (ofBytes bytes)
  | raw length next ih => exact fun bytes _ => ih bytes

theorem whole_eq (program : ReadProgram α) (bytes : Bytes) :
    program.whole bytes = Pull.finish (.encoding "trailing bytes") (program.byteReader bytes) := by
  have ran : (do
      let value ← program.byteReader
      Reader.expectEnd
      return value : Reader α) bytes = (program.byteReader bytes >>= fun read => if read.2 = [] then Except.ok (read.1, [])
        else .error (.encoding "trailing bytes")) := by
    refine congrArg (program.byteReader bytes >>= ·) (funext fun read => ?_)
    obtain ⟨value, left⟩ := read
    cases left <;> rfl
  unfold whole Reader.run StateT.run
  rw [ran]
  cases program.byteReader bytes with
  | error failure => rfl
  | ok read =>
    obtain ⟨value, left⟩ := read
    cases left <;> rfl

theorem raw_bind (length : Nat) (rest : Bytes → Reader α) (s : Bytes) : (Reader.raw length >>= rest) s =
    if length ≤ s.length then rest (s.take length) (s.drop length) else .error (.encoding "truncated") := by
  change (Reader.raw length s >>= fun read => rest read.1 read.2) = _
  unfold Reader.raw
  split <;> rfl

/-- What a read answers of a buffer, and how a feed's request for its bytes is answered. -/
theorem settles_of_read {program : ReadProgram α} {s : Bytes} {next : Bytes → ReadProgram α}
    (byte : program.byteReader s = if program.width ≤ s.length then (next (s.take program.width)).byteReader (s.drop program.width)
      else .error (.encoding "truncated"))
    (frame : program.frameReader = .exactly program.width fun bytes => (next bytes).frameReader)
    (reads : ∀ {q left}, program.width ≤ s.length → Reads (next (s.take program.width)) (s.drop program.width) q left → Reads program s q left)
    (ih : ∀ bytes t, ∃ q left framed read, Reads (next bytes) t q left ∧ Settles q left framed read ∧
      Pull.Reaches (next bytes).frameReader t q.frameReader left ∧ Pull.whole truncatedFrame trailingFrame (next bytes).frameReader t = framed ∧
      (next bytes).whole t = read) :
    ∃ q left framed read, Reads program s q left ∧ Settles q left framed read ∧ Pull.Reaches program.frameReader s q.frameReader left ∧
      Pull.whole truncatedFrame trailingFrame program.frameReader s = framed ∧ program.whole s = read := by
  by_cases fits : program.width ≤ s.length
  · obtain ⟨q, left, framed, read, made, settled, reached, framed_, read_⟩ := ih (s.take program.width) (s.drop program.width)
    refine ⟨q, left, framed, read, reads fits made, settled, ?_, ?_, ?_⟩
    · have further := @Pull.Reaches.exactly _ _ _ _ (fun bytes => (next bytes).frameReader) _ _ _ _ (List.length_take_of_le fits) reached
      rw [List.take_append_drop] at further
      rw [frame]
      exact further
    · rw [← framed_, frame, Pull.whole, Pull.parse_exactly, if_pos fits]
      rfl
    · rw [← read_, whole_eq, whole_eq, byte, if_pos fits]
  · refine ⟨program, s, _, _, .here _ _, .short (Nat.lt_of_not_le fits), .here _ _, ?_, ?_⟩
    · rw [frame, Pull.whole, Pull.parse_exactly, if_neg fits]
      rfl
    · rw [whole_eq, byte, if_neg fits]
      rfl

/-- Of any bytes a whole buffer's reader answers so many reads, a feed as many requests, and at the next one both end or refuse. -/
theorem settles (program : ReadProgram α) (s : Bytes) : ∃ q left framed read, Reads program s q left ∧ Settles q left framed read ∧
    Pull.Reaches program.frameReader s q.frameReader left ∧ Pull.whole truncatedFrame trailingFrame program.frameReader s = framed ∧
      program.whole s = read := by
  have integer : ∀ (width : Nat) (rest : Nat → Reader α) (s : Bytes), ((do return ofBytes (← Reader.raw width) : Reader Nat) >>= rest) s =
      if width ≤ s.length then rest (ofBytes (s.take width)) (s.drop width) else .error (.encoding "truncated") := by
    intro width rest s
    rw [bind_assoc, raw_bind]
    rfl
  have integer_ : ∀ {width : Nat} {s : Bytes}, width ≤ s.length →
      (do return ofBytes (← Reader.raw width) : Reader Nat) s = .ok (ofBytes (s.take width), s.drop width) := by
    intro width s fits
    rw [raw_bind, if_pos fits]
    rfl
  induction program generalizing s with
  | done value =>
    cases s with
    | nil => exact ⟨_, _, _, _, .here _ _, .ended value, .here _ _, rfl, rfl⟩
    | cons byte s => exact ⟨_, _, _, _, .here _ _, .trailing value (List.cons_ne_nil byte s), .here _ _, rfl, rfl⟩
  | refuse failure => exact ⟨_, _, _, _, .here _ _, .refused failure s, .here _ _, rfl, rfl⟩
  | u8 next ih =>
    exact @settles_of_read _ _ _ (fun bytes => next (ofBytes bytes)) (integer 1 (fun n => (next n).byteReader) s) rfl
      (fun fits made => .u8 (integer_ fits) made) fun bytes t => ih (ofBytes bytes) t
  | u32 next ih =>
    exact @settles_of_read _ _ _ (fun bytes => next (ofBytes bytes)) (integer 4 (fun n => (next n).byteReader) s) rfl
      (fun fits made => .u32 (integer_ fits) made) fun bytes t => ih (ofBytes bytes) t
  | u64 next ih =>
    exact @settles_of_read _ _ _ (fun bytes => next (ofBytes bytes)) (integer 8 (fun n => (next n).byteReader) s) rfl
      (fun fits made => .u64 (integer_ fits) made) fun bytes t => ih (ofBytes bytes) t
  | raw length next ih =>
    refine @settles_of_read _ _ _ next (raw_bind length (fun bytes => (next bytes).byteReader) s) rfl (fun fits made => .raw ?_ made) ih
    have inside : length ≤ s.length := fits
    rw [Reader.raw, if_pos inside]
    rfl

end ReadProgram

/-- A feed answers its reader's requests with the bytes fed, in their order, whatever the reader. Where the reader asks for exact
counts, it stands after any chunks where their bytes at once would have it stand, or is refused as they would; it makes the reads that
the reader of a whole buffer makes of the same bytes, and settles where that settles. A reader of pieces that only goes on from
their bytes makes of the chunks what it makes of them at once. -/
theorem feed_reads {α : Type} :
    (∀ (reader : FrameReader α) (chunks : List Bytes) at_, FrameFeed.stand reader chunks = .ok at_ →
      Pull.Reaches reader chunks.flatten at_.1 at_.2 ∧ Pull.Stalled at_.1 at_.2) ∧
    (∀ (reader : FrameReader α), reader.Exact → ∀ chunks,
      FrameFeed.stand reader chunks = Pull.pump trailingFrame reader chunks.flatten) ∧
    (∀ (program : ReadProgram α) (bytes : Bytes), program.frameReader.Exact ∧ ∃ q left framed read,
      program.Reads bytes q left ∧ Pull.Reaches program.frameReader bytes q.frameReader left ∧ ReadProgram.Settles q left framed read ∧
        (∀ chunks, chunks.flatten = bytes → FrameFeed.read program.frameReader chunks = framed) ∧ program.whole bytes = read) ∧
    (∀ maxLength (next : Bytes → ReadProgram α),
      (ReadProgram.lengthPrefixed maxLength next).byteReader = (do (next (← Reader.lengthPrefixed maxLength)).byteReader)) ∧
    ∀ (reader : FrameReader α), reader.Steady truncatedFrame → ∀ chunks chunks',
      chunks.flatten = chunks'.flatten → FrameFeed.read reader chunks = FrameFeed.read reader chunks' := by
  refine ⟨fun reader chunks at_ stood => FrameFeed.stand_reaches stood, fun reader exact_ chunks => FrameFeed.stand_eq_pump exact_ chunks,
    fun program bytes => ⟨program.frameReader_exact, ?_⟩, ReadProgram.byteReader_lengthPrefixed, fun reader steady chunks chunks' same => ?_⟩
  · obtain ⟨q, left, framed, read, made, settled, reached, framed_, read_⟩ := program.settles bytes
    refine ⟨q, left, framed, read, made, reached, settled, fun chunks same => ?_, read_⟩
    rw [FrameFeed.read_eq program.frameReader_steady, same, framed_]
  · rw [FrameFeed.read_eq steady, FrameFeed.read_eq steady, same]

/-- A frame of at most three bytes, and an integer. -/
def sampleProgram : ReadProgram (Bytes × Nat) := .lengthPrefixed 3 fun bytes => .u8 fun n => .done (bytes, n)

theorem feed_reads_sample : FrameFeed.stand sampleProgram.frameReader [[0, 0], [], [0, 2, 7], [8]] =
      Pull.pump trailingFrame sampleProgram.frameReader [0, 0, 0, 2, 7, 8] ∧
    FrameFeed.read sampleProgram.frameReader [[0, 0], [], [0, 2, 7], [8]] = FrameFeed.read sampleProgram.frameReader [[0, 0, 0, 2, 7, 8]] :=
  ⟨feed_reads.2.1 _ sampleProgram.frameReader_exact _, feed_reads.2.2.2.2 _ sampleProgram.frameReader_steady _ _ rfl⟩

/-- A read of at least one and at most so many bytes returns as many as the chunk brought. -/
theorem feed_pieces : ¬ ∀ (reader : FrameReader Bytes) (chunks chunks' : List Bytes), chunks.flatten = chunks'.flatten →
    FrameFeed.read reader chunks = FrameFeed.read reader chunks' := by
  intro same
  have pieces := same (.upTo 2 fun piece => .done piece) [[1, 2]] [[1], [2]] rfl
  have together : FrameFeed.read (.upTo 2 fun piece => .done piece) [[1, 2]] = .ok [1, 2] := by decide
  have apart : FrameFeed.read (.upTo 2 fun piece => .done piece) [[1], [2]] = .error trailingFrame := by decide
  rw [together, apart] at pieces
  cases pieces

end Moe
