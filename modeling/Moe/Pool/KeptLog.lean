import Moe.Lib.WriteAhead
import Moe.Pool.Field

namespace Moe

open WriteAhead

/-- The unsigned 32-bit word at a byte of a buffer. -/
def readUInt32BE (bytes : Bytes) (at_ : Nat) : Nat := ofBytes ((bytes.drop at_).take 4)

def readUInt32LE (bytes : Bytes) (at_ : Nat) : Nat := ofBytes ((bytes.drop at_).take 4).reverse

/-- A log's checksum over `words` pairs of words, in the byte order its magic number names. -/
def sumWords (big : Bool) : Nat → Bytes → Nat × Nat → Nat × Nat
  | 0, _, s => s
  | words + 1, bytes, s =>
    let s0 := (s.1 + (if big then readUInt32BE bytes 0 else readUInt32LE bytes 0) + s.2) % 2 ^ 32
    let s1 := (s.2 + (if big then readUInt32BE bytes 4 else readUInt32LE bytes 4) + s0) % 2 ^ 32
    sumWords big words (bytes.drop 8) (s0, s1)

def walSum (big : Bool) (bytes : Bytes) (s : Nat × Nat) : Nat × Nat := sumWords big (bytes.length / 8) bytes s

/-- The frames that carry the header's salts and continue its checksum chain, up to the first that does not. -/
def readFrames (big : Bool) (salts : Bytes) (size : Nat) : Nat → Bytes → Nat × Nat → List (WriteFrame Bytes)
  | 0, _, _ => []
  | left + 1, rest, chain =>
    let frame := rest.take (24 + size)
    if (frame.drop 8).take 8 = salts then
      let next := walSum big (frame.drop 24) (walSum big (frame.take 8) chain)
      if next.1 = readUInt32BE frame 16 ∧ next.2 = readUInt32BE frame 20 then
        if readUInt32BE frame 0 = 0 then []
        else ⟨readUInt32BE frame 0, readUInt32BE frame 4, frame.drop 24⟩ :: readFrames big salts size left (rest.drop (24 + size)) next
      else []
    else []

/-- A log's frames at `pageSize`, where its header holds. -/
def logFrames (wal : Bytes) (pageSize : Nat) : Option (List (WriteFrame Bytes)) :=
  let magic := readUInt32BE wal 0
  let raw := readUInt32BE wal 8
  let size := if raw = 1 then 65536 else raw
  let big := magic % 2 == 1
  let chain := walSum big (wal.take 24) (0, 0)
  if 32 ≤ wal.length ∧ magic &&& 0xfffffffe = 0x377f0682 ∧ size = pageSize ∧ chain.1 = readUInt32BE wal 24 ∧ chain.2 = readUInt32BE wal 28 then
    some (readFrames big ((wal.drop 16).take 8) size ((wal.length - 32) / (24 + size)) (wal.drop 32) chain)
  else none

/-- What a log commits at `pageSize`, image by image. -/
def committedImages (wal : Bytes) (pageSize : Nat) : Option (Commit Bytes) := (logFrames wal pageSize).bind WriteAhead.committed

/-- The committed frames of a write-ahead log, each image by its digest; none where it commits nothing. -/
def committedLog [Crypto] (wal : Option Bytes) (pageSize : Nat) : Option (Commit Bytes) :=
  wal.bind fun wal => (logFrames wal pageSize).bind fun frames => WriteAhead.committed (frames.map (·.map sha256))

/-- A log's header, but its page size and its checksum. -/
structure WalHeader where
  big : Bool
  version : Nat
  sequence : Nat
  salts : Bytes
  salted : salts.length = 8

/-- A frame as one is written at `size`. -/
def WriteFrame.Framed (size : Nat) (frame : WriteFrame Bytes) : Prop :=
  0 < frame.page ∧ frame.page < 2 ^ 32 ∧ frame.after < 2 ^ 32 ∧ frame.image.length = size

section Writing

variable (header : WalHeader) (size : Nat)

def walLead : Bytes :=
  toBytes 4 (0x377f0682 + if header.big then 1 else 0) ++ toBytes 4 header.version ++ toBytes 4 size ++ toBytes 4 header.sequence ++
    header.salts

def walStart : Nat × Nat := walSum header.big (walLead header size) (0, 0)

def chainOver (chain : Nat × Nat) (frame : WriteFrame Bytes) : Nat × Nat :=
  walSum header.big frame.image (walSum header.big (toBytes 4 frame.page ++ toBytes 4 frame.after) chain)

/-- One frame's bytes after `chain`. -/
def writeFrame (chain : Nat × Nat) (frame : WriteFrame Bytes) : Bytes :=
  toBytes 4 frame.page ++ toBytes 4 frame.after ++ header.salts ++
    toBytes 4 (chainOver header chain frame).1 ++ toBytes 4 (chainOver header chain frame).2 ++ frame.image

def writeFrames : Nat × Nat → List (WriteFrame Bytes) → Bytes
  | _, [] => []
  | chain, frame :: rest => writeFrame header chain frame ++ writeFrames (chainOver header chain frame) rest

/-- A log as a database writes it: its header, then frame after frame. -/
def writeLog (frames : List (WriteFrame Bytes)) : Bytes :=
  walLead header size ++ toBytes 4 (walStart header size).1 ++ toBytes 4 (walStart header size).2 ++
    writeFrames header (walStart header size) frames

end Writing

theorem sumWords_lt (big : Bool) {words : Nat} {bytes : Bytes} {s : Nat × Nat} (start : s.1 < 2 ^ 32 ∧ s.2 < 2 ^ 32) :
    (sumWords big words bytes s).1 < 2 ^ 32 ∧ (sumWords big words bytes s).2 < 2 ^ 32 := by
  induction words generalizing bytes s with
  | zero => exact start
  | succ words ih => exact ih ⟨Nat.mod_lt _ (Nat.two_pow_pos 32), Nat.mod_lt _ (Nat.two_pow_pos 32)⟩

variable {header : WalHeader} {size : Nat} {chain : Nat × Nat} {frame : WriteFrame Bytes} {frames : List (WriteFrame Bytes)}

theorem chainOver_lt (start : chain.1 < 2 ^ 32 ∧ chain.2 < 2 ^ 32) :
    (chainOver header chain frame).1 < 2 ^ 32 ∧ (chainOver header chain frame).2 < 2 ^ 32 :=
  sumWords_lt _ (sumWords_lt _ start)

theorem walStart_lt : (walStart header size).1 < 2 ^ 32 ∧ (walStart header size).2 < 2 ^ 32 :=
  sumWords_lt _ ⟨Nat.two_pow_pos 32, Nat.two_pow_pos 32⟩

theorem writeFrame_length (framed : frame.Framed size) : (writeFrame header chain frame).length = 24 + size := by
  simp only [writeFrame, List.length_append, toBytes_length, header.salted, framed.2.2.2]

theorem walLead_length : (walLead header size).length = 24 := by
  simp only [walLead, List.length_append, toBytes_length, header.salted]

/-- The word `toBytes` wrote, read where it stands. -/
theorem readUInt32BE_at {before after : Bytes} {n at_ : Nat} (stands : before.length = at_) (bound : n < 2 ^ 32) :
    readUInt32BE (before ++ (toBytes 4 n ++ after)) at_ = n := by
  rw [readUInt32BE, List.drop_left' stands, List.take_left' (toBytes_length 4 n), ofBytes_toBytes (by simpa using bound)]

/-- A frame just written is read back, and what follows it after. -/
theorem readFrames_cons {left : Nat} {rest : Bytes} (framed : frame.Framed size) (start : chain.1 < 2 ^ 32 ∧ chain.2 < 2 ^ 32) :
    readFrames header.big header.salts size (left + 1) (writeFrame header chain frame ++ rest) chain =
      frame :: readFrames header.big header.salts size left rest (chainOver header chain frame) := by
  obtain ⟨positive, pages, counts, image⟩ := framed
  have width : (writeFrame header chain frame).length = 24 + size := writeFrame_length ⟨positive, pages, counts, image⟩
  have next : (chainOver header chain frame).1 < 2 ^ 32 ∧ (chainOver header chain frame).2 < 2 ^ 32 := chainOver_lt start
  have lead : (toBytes 4 frame.page ++ toBytes 4 frame.after).length = 8 := by simp
  have salts : ((writeFrame header chain frame).drop 8).take 8 = header.salts := by
    simp only [writeFrame, List.append_assoc]
    rw [← List.append_assoc, List.drop_left' lead, List.take_left' header.salted]
  have head : (writeFrame header chain frame).take 8 = toBytes 4 frame.page ++ toBytes 4 frame.after := by
    simp only [writeFrame, List.append_assoc]
    rw [← List.append_assoc, List.take_left' lead]
  have tail : (writeFrame header chain frame).drop 24 = frame.image := by
    rw [writeFrame, List.drop_left' (by simp [header.salted])]
  have page : readUInt32BE (writeFrame header chain frame) 0 = frame.page := by
    rw [← List.nil_append (writeFrame header chain frame)]
    simp only [writeFrame, List.append_assoc]
    exact readUInt32BE_at rfl pages
  have after : readUInt32BE (writeFrame header chain frame) 4 = frame.after := by
    simp only [writeFrame, List.append_assoc]
    exact readUInt32BE_at (toBytes_length 4 _) counts
  have first : readUInt32BE (writeFrame header chain frame) 16 = (chainOver header chain frame).1 := by
    have split_ : writeFrame header chain frame = (toBytes 4 frame.page ++ toBytes 4 frame.after ++ header.salts) ++
        (toBytes 4 (chainOver header chain frame).1 ++ (toBytes 4 (chainOver header chain frame).2 ++ frame.image)) := by
      simp only [writeFrame, List.append_assoc]
    rw [split_]
    exact readUInt32BE_at (by simp [header.salted]) next.1
  have second : readUInt32BE (writeFrame header chain frame) 20 = (chainOver header chain frame).2 := by
    have split_ : writeFrame header chain frame = (toBytes 4 frame.page ++ toBytes 4 frame.after ++ header.salts ++
        toBytes 4 (chainOver header chain frame).1) ++ (toBytes 4 (chainOver header chain frame).2 ++ frame.image) := by
      simp only [writeFrame, List.append_assoc]
    rw [split_]
    exact readUInt32BE_at (by simp [header.salted]) next.2
  rw [readFrames, List.take_left' width, List.drop_left' width, salts, head, tail, page, after, first, second]
  simp only [if_true]
  rw [← chainOver, if_pos ⟨rfl, rfl⟩, if_neg (Nat.ne_of_gt positive)]

/-- Written bytes stopped anywhere give the frames written whole. -/
theorem readFrames_take (framed : ∀ frame ∈ frames, frame.Framed size) (start : chain.1 < 2 ^ 32 ∧ chain.2 < 2 ^ 32) (n : Nat) :
    readFrames header.big header.salts size (((writeFrames header chain frames).take n).length / (24 + size))
        ((writeFrames header chain frames).take n) chain =
      frames.take (((writeFrames header chain frames).take n).length / (24 + size)) := by
  induction frames generalizing chain n with
  | nil => simp [writeFrames, readFrames]
  | cons frame rest ih =>
    obtain ⟨first, others⟩ := List.forall_mem_cons.mp framed
    have width : (writeFrame header chain frame).length = 24 + size := writeFrame_length first
    obtain short | whole := Nat.lt_or_ge n (24 + size)
    · have none_ : ((writeFrames header chain (frame :: rest)).take n).length / (24 + size) = 0 :=
        Nat.div_eq_of_lt (Nat.lt_of_le_of_lt (List.length_take_le _ _) short)
      rw [none_]
      rfl
    · obtain ⟨more, rfl⟩ := Nat.exists_eq_add_of_le whole
      have taken : (writeFrames header chain (frame :: rest)).take (24 + size + more) =
          writeFrame header chain frame ++ (writeFrames header (chainOver header chain frame) rest).take more := by
        rw [writeFrames, ← width, List.take_length_add_append]
      have count : (writeFrame header chain frame ++ (writeFrames header (chainOver header chain frame) rest).take more).length / (24 + size) =
          ((writeFrames header (chainOver header chain frame) rest).take more).length / (24 + size) + 1 := by
        rw [List.length_append, width, Nat.add_comm, Nat.add_div_right _ (by omega)]
      rw [taken, count, readFrames_cons first start, ih others (chainOver_lt start), List.take_succ_cons]

theorem writeFrames_length (framed : ∀ frame ∈ frames, frame.Framed size) :
    (writeFrames header chain frames).length = (24 + size) * frames.length := by
  induction frames generalizing chain with
  | nil => rfl
  | cons frame rest ih =>
    obtain ⟨first, others⟩ := List.forall_mem_cons.mp framed
    rw [writeFrames, List.length_append, writeFrame_length first, ih others, List.length_cons, Nat.mul_succ, Nat.add_comm]

theorem writeLog_length (framed : ∀ frame ∈ frames, frame.Framed size) :
    (writeLog header size frames).length = 32 + (24 + size) * frames.length := by
  simp only [writeLog, List.length_append, walLead_length, toBytes_length, writeFrames_length framed]

/-- A log stopped past its header, at any byte, is read as the frames written whole. -/
theorem logFrames_take (framed : ∀ frame ∈ frames, frame.Framed size) (paged : 1 < size ∧ size < 2 ^ 32) {n : Nat} (past : 32 ≤ n) :
    logFrames ((writeLog header size frames).take n) size =
      some (frames.take (min (n - 32) ((24 + size) * frames.length) / (24 + size))) := by
  obtain ⟨more, rfl⟩ := Nat.exists_eq_add_of_le past
  have lead : (walLead header size).length = 24 := walLead_length
  have start : (walStart header size).1 < 2 ^ 32 ∧ (walStart header size).2 < 2 ^ 32 := walStart_lt
  have fixed : (walLead header size ++ toBytes 4 (walStart header size).1 ++ toBytes 4 (walStart header size).2).length = 32 := by
    simp [lead]
  have taken : (writeLog header size frames).take (32 + more) =
      walLead header size ++ toBytes 4 (walStart header size).1 ++ toBytes 4 (walStart header size).2 ++
        (writeFrames header (walStart header size) frames).take more := by
    rw [writeLog, ← fixed, List.take_length_add_append]
  have sums : walSum header.big (walLead header size) (0, 0) = walStart header size := rfl
  rw [taken]
  generalize tailed : (writeFrames header (walStart header size) frames).take more = tail
  have magic : readUInt32BE (walLead header size ++ toBytes 4 (walStart header size).1 ++ toBytes 4 (walStart header size).2 ++ tail) 0 =
      0x377f0682 + if header.big then 1 else 0 := by
    simp only [walLead, List.append_assoc]
    rw [← List.nil_append (toBytes 4 _ ++ _)]
    exact readUInt32BE_at rfl (by split <;> decide)
  have paging : readUInt32BE (walLead header size ++ toBytes 4 (walStart header size).1 ++ toBytes 4 (walStart header size).2 ++ tail) 8 =
      size := by
    simp only [walLead, List.append_assoc]
    rw [← List.append_assoc]
    exact readUInt32BE_at (by simp) paged.2
  have salts : ((walLead header size ++ toBytes 4 (walStart header size).1 ++ toBytes 4 (walStart header size).2 ++ tail).drop 16).take 8 =
      header.salts := by
    simp only [walLead, List.append_assoc]
    rw [← List.append_assoc, ← List.append_assoc, ← List.append_assoc, List.drop_left' (by simp), List.take_left' header.salted]
  have first : readUInt32BE (walLead header size ++ toBytes 4 (walStart header size).1 ++ toBytes 4 (walStart header size).2 ++ tail) 24 =
      (walStart header size).1 := by
    rw [List.append_assoc, List.append_assoc]
    exact readUInt32BE_at lead start.1
  have second : readUInt32BE (walLead header size ++ toBytes 4 (walStart header size).1 ++ toBytes 4 (walStart header size).2 ++ tail) 28 =
      (walStart header size).2 := by
    rw [List.append_assoc (walLead header size ++ _)]
    exact readUInt32BE_at (by simp [lead]) start.2
  have head : (walLead header size ++ toBytes 4 (walStart header size).1 ++ toBytes 4 (walStart header size).2 ++ tail).take 24 =
      walLead header size := by
    rw [List.append_assoc, List.append_assoc, List.take_left' lead]
  have order : ((0x377f0682 + if header.big then 1 else 0) % 2 == 1) = header.big := by
    cases header.big <;> rfl
  have masked : (0x377f0682 + if header.big then 1 else 0) &&& 0xfffffffe = 0x377f0682 := by
    cases header.big <;> rfl
  rw [logFrames]
  simp only [magic, paging, salts, first, second, head, order, masked, sums, if_neg (Nat.ne_of_gt paged.1)]
  rw [if_pos ⟨by rw [List.length_append, fixed]; omega, trivial, trivial, trivial, trivial⟩, List.drop_left' fixed, List.length_append, fixed,
    Nat.add_sub_cancel_left, ← tailed, readFrames_take framed start, List.length_take, writeFrames_length framed, Nat.add_sub_cancel_left]

/-- A log stopped inside its header holds nothing. -/
theorem logFrames_short {wal : Bytes} (short : wal.length < 32) : logFrames wal size = none := by
  rw [logFrames, if_neg fun holds => absurd holds.1 (by omega)]

/-- However much of a transaction begun is in a log, it commits what is settled, until its commit frame is whole. -/
theorem committedImages_take {settled pending flight : List (WriteFrame Bytes)} {n : Nat}
    (framed : ∀ frame ∈ settled ++ pending ++ flight, frame.Framed size) (paged : 1 < size ∧ size < 2 ^ 32)
    (synced : settled = [] ∨ (writeLog header size settled).length ≤ n) (open_ : ∀ frame ∈ pending, frame.after = 0)
    (one : flight.length ≤ 1) (cut : flight = [] ∨ n < (writeLog header size (settled ++ pending ++ flight)).length) :
    committedImages ((writeLog header size (settled ++ pending ++ flight)).take n) size = WriteAhead.committed settled := by
  have framedSettled : ∀ frame ∈ settled, frame.Framed size := fun frame member =>
    framed frame (List.mem_append_left _ (List.mem_append_left _ member))
  rw [writeLog_length framed] at cut
  rw [writeLog_length framedSettled] at synced
  rw [committedImages]
  obtain short | past := Nat.lt_or_ge n 32
  · obtain rfl : settled = [] := synced.elim id fun whole => by omega
    rw [logFrames_short (Nat.lt_of_le_of_lt (List.length_take_le _ _) short)]
    rfl
  · rw [logFrames_take framed paged past, Option.bind_some]
    generalize counted : min (n - 32) ((24 + size) * (settled ++ pending ++ flight).length) / (24 + size) = k
    have positive : 0 < 24 + size := by omega
    have kept : settled.length ≤ k := by
      obtain rfl | whole := synced
      · exact Nat.zero_le k
      · rw [← counted, Nat.le_div_iff_mul_le positive, Nat.mul_comm, Nat.le_min]
        exact ⟨by omega, Nat.mul_le_mul_left _ (by simp only [List.length_append]; omega)⟩
    have within : (settled ++ pending ++ flight).take k = (settled ++ pending).take k := by
      obtain rfl | stopped := cut
      · rw [List.append_nil]
      · have few : k < (settled ++ pending ++ flight).length := by
          rw [← counted, Nat.div_lt_iff_lt_mul positive]
          refine Nat.lt_of_le_of_lt (Nat.min_le_left _ _) ?_
          rw [Nat.mul_comm _ (24 + size)]
          omega
        rw [List.take_append_of_le_length]
        simp only [List.length_append] at few ⊢
        omega
    rw [within, committed_take open_ kept]

theorem committedLog_eq [Crypto] (wal : Option Bytes) (pageSize : Nat) :
    committedLog wal pageSize = (wal.bind fun wal => committedImages wal pageSize).map (·.map sha256) := by
  cases wal with
  | none => rfl
  | some wal =>
    simp only [committedLog, committedImages, Option.bind_some]
    cases logFrames wal pageSize with
    | none => rfl
    | some frames => exact committed_map sha256

end Moe
