import Moe.Frames
import Moe.Lib.ChunkCursor

namespace Moe.Service

open Reader

/-- What a served stream is of: the sequence of one operator's commitments, and the root of the one it ends at. -/
structure ServedSelection where
  domain : Bytes
  venue : Bytes
  backing : Bytes
  operator : Bytes
  sequence : Nat
  root : Bytes

/-- The selection and the read's own package. -/
structure ServedPackage where
  selection : ServedSelection
  package : Bytes

/-- A kept position of a segment's trail, by its chain value. -/
structure TrailTip where
  segment : Bytes
  position : Nat
  evidence : Bytes

/-- One part of the evidence a supplier streams: a package of objects, or a trail after a position the receiver holds, in chunks. -/
inductive EvidencePart
  | package (bytes : Bytes)
  | trail (after : Option TrailTip) (size : Nat) (chunks : List Bytes)

structure ServedEvidence extends ServedPackage where
  parts : List EvidencePart

def SERVED : Bytes := tag "pool-store/v3/served"

def maxOwnPackageBytes : Nat := 65_536 + (1_048_576 + 9 * 32)

def maxV3ServedPartBytes : Nat := 4_194_304

def fixed (value : Bytes) : Except Failure Bytes := do
  require (value.length = 32) (.encoding "expected a 32-byte service identity")
  return value

/-- A trail's frame before its bytes. -/
def trailHead (after : Option TrailTip) (size : Nat) : Except Failure Bytes :=
  match after with
  | none => return [2, 0] ++ toBytes 8 size
  | some after => return [2, 1] ++ (← fixed after.segment) ++ toBytes 8 after.position ++ (← fixed after.evidence) ++ toBytes 8 size

def partFrames : EvidencePart → Except Failure (List Bytes)
  | .package bytes => do
    require (bytes.length ≤ maxV3ServedPartBytes) (.encoding "served package part too large")
    return [[1] ++ toBytes 4 bytes.length ++ bytes]
  | .trail after size chunks => do
    let head ← trailHead after size
    require ((chunks.map List.length).sum = size) (.encoding "a served trail is not its stated size")
    return head :: chunks

/-- A journal's served evidence as the bytes a transport sends, in chunks. -/
def servedFrames (served : ServedEvidence) : Except Failure (List Bytes) := do
  let s := served.selection
  require (1 ≤ s.sequence ∧ s.sequence < 2 ^ 64) (.encoding "invalid service sequence")
  require (served.package.length ≤ maxOwnPackageBytes) (.encoding "served package too large")
  let head := SERVED ++ (← fixed s.domain) ++ (← fixed s.venue) ++ (← fixed s.backing) ++ (← fixed s.operator) ++ toBytes 8 s.sequence ++
    (← fixed s.root) ++ toBytes 4 served.package.length ++ served.package
  let parts ← served.parts.mapM partFrames
  return [head] ++ parts.flatten ++ [[0]]

/-- What a part's frame opens with. -/
inductive PartHead
  | closed
  | package (bytes : Bytes)
  | trail (after : Option TrailTip) (size : Nat)

section Read

variable {m : Type → Type} [Monad m] [MonadLiftT (Except Failure) m] (take : Nat → m Bytes)

def readHead : m ServedPackage := do
  let head ← take (SERVED.length + 172)
  let at_ := SERVED.length
  require (subarray head 0 at_ = SERVED) (.encoding "wrong service profile")
  let sequence := ofBytes (subarray head (at_ + 128) (at_ + 136))
  require (sequence ≠ 0) (.encoding "invalid service sequence")
  let length := ofBytes (subarray head (at_ + 168) (at_ + 172))
  require (length ≤ maxOwnPackageBytes) (.encoding "served package too large")
  let package ← take length
  return ⟨⟨subarray head at_ (at_ + 32), subarray head (at_ + 32) (at_ + 64), subarray head (at_ + 64) (at_ + 96),
    subarray head (at_ + 96) (at_ + 128), sequence, subarray head (at_ + 136) (at_ + 168)⟩, package⟩

def readTip : m TrailTip := do
  let tip ← take 72
  return ⟨subarray tip 0 32, ofBytes (subarray tip 32 40), subarray tip 40 72⟩

def readPart : m PartHead := do
  let kind ← take 1
  if kind = [0] then return .closed
  else if kind = [1] then
    let length := ofBytes (← take 4)
    require (length ≤ maxV3ServedPartBytes) (.encoding "served package part too large")
    return .package (← take length)
  else if kind = [2] then
    let based ← take 1
    require (based = [0] ∨ based = [1]) (.encoding "unsupported served part")
    let after ← if based = [1] then some <$> readTip take else pure none
    return .trail after (ofBytes (← take 8))
  else liftM (Except.error (.encoding "unsupported served part") : Except Failure PartHead)

end Read

/-- A receiver of the parts: what it makes of the selection and the read's own package, of each part and of each piece of a trail it asks
for, whether it asks for another piece or part, and what it returns once it stops, or where the parts threw at it. -/
structure Taker (σ τ : Type) where
  opens : ServedPackage → Except Failure σ
  goesOn : σ → Bool
  package : σ → Bytes → Except Failure σ
  trail : σ → Option TrailTip → Nat → Except Failure σ
  pulls : σ → Bool
  piece : σ → Bytes → Except Failure σ
  result : σ → Except Failure τ
  broken : σ → Failure → Except Failure τ

/-- How the parts ended for their receiver. -/
inductive Taken (σ : Type)
  | closed (s : σ)
  | early (s : σ)
  | broken (s : σ) (failure : Failure)
  | threw (failure : Failure)

def truncatedServed : Failure := .encoding "truncated served evidence"

variable {σ τ : Type}

def takeServed : Nat → StateT (ChunkCursor UInt8) (Except Failure) Bytes := ChunkCursor.take truncatedServed

/-- Each part as it arrives, to the end mark and the exact end of the stream; a trail's bytes left unread are skipped. A step for each
part, of which there are no more than there are bytes. -/
def readParts (t : Taker σ τ) : Nat → σ → ChunkCursor UInt8 → Taken σ
  | 0, s, _ => .broken s truncatedServed
  | steps + 1, s, c =>
    if t.goesOn s = false then .early s
    else
      match readPart takeServed c with
      | .error failure => .broken s failure
      | .ok (.closed, c) => if ChunkCursor.ended c.held c.source then .closed s else .broken s (.encoding "trailing served bytes")
      | .ok (.package bytes, c) =>
        match t.package s bytes with
        | .error failure => .threw failure
        | .ok s => readParts t steps s c
      | .ok (.trail after size, c) =>
        match t.trail s after size with
        | .error failure => .threw failure
        | .ok s =>
          match ChunkCursor.draw t.pulls t.piece s size c.held c.source with
          | .error (.threw failure) => .threw failure
          | .error (.short s) => .broken s truncatedServed
          | .ok (s, left, c) =>
            if t.goesOn s = false then .early s
            else
              match takeServed left c with
              | .error failure => .broken s failure
              | .ok (_, c) => readParts t steps s c

def notReadToEnd : Failure := .encoding "served evidence was not read to its end"

/-- What a read returns once its parts have ended for their receiver. -/
def conclude (t : Taker σ τ) (head : ServedPackage) : Taken σ → Except Failure (ServedPackage × τ)
  | .closed s => do return (head, ← t.result s)
  | .early s => do
    let _ ← t.result s
    .error notReadToEnd
  | .broken s failure => do
    let _ ← t.broken s failure
    .error notReadToEnd
  | .threw failure => .error failure

/-- Reads a served stream. -/
def readServed (t : Taker σ τ) (source : List Bytes) : Except Failure (ServedPackage × τ) := do
  let (head, c) ← readHead takeServed ⟨[], source⟩
  let s ← t.opens head
  conclude t head (readParts t (c.rest.length + 1) s c)

/-- Its identities and integers have their widths, and its package is no longer than a reader takes. -/
def ServedSelection.Fits (s : ServedSelection) : Prop :=
  s.domain.length = 32 ∧ s.venue.length = 32 ∧ s.backing.length = 32 ∧ s.operator.length = 32 ∧ s.root.length = 32 ∧
    1 ≤ s.sequence ∧ s.sequence < 2 ^ 64

def ServedPackage.Fits (head : ServedPackage) : Prop := head.selection.Fits ∧ head.package.length ≤ maxOwnPackageBytes

def ServedSelection.frame (s : ServedSelection) : Bytes :=
  SERVED ++ (s.domain ++ (s.venue ++ (s.backing ++ (s.operator ++ (toBytes 8 s.sequence ++ s.root)))))

/-- The first frame sent. -/
def ServedPackage.frame (head : ServedPackage) : Bytes := head.selection.frame ++ lengthPrefixed head.package

def TrailTip.Fits (tip : TrailTip) : Prop := tip.segment.length = 32 ∧ tip.position < 2 ^ 64 ∧ tip.evidence.length = 32

def TrailTip.frame (tip : TrailTip) : Bytes := tip.segment ++ (toBytes 8 tip.position ++ tip.evidence)

def PartHead.Fits : PartHead → Prop
  | closed => True
  | package bytes => bytes.length ≤ maxV3ServedPartBytes
  | trail after size => (∀ tip ∈ after, tip.Fits) ∧ size < 2 ^ 64

def PartHead.frame : PartHead → Bytes
  | closed => [0]
  | package bytes => [1] ++ lengthPrefixed bytes
  | trail none size => [2, 0] ++ toBytes 8 size
  | trail (some tip) size => [2, 1] ++ (tip.frame ++ toBytes 8 size)

theorem subarray_within {before bytes after : Bytes} {i j : Nat} (start : before.length = i) (stop : i + bytes.length = j) :
    subarray (before ++ (bytes ++ after)) i j = bytes := by
  subst start stop
  rw [subarray, ← List.append_assoc, List.take_left' (by rw [List.length_append]), List.drop_left]

theorem subarray_join {bytes : Bytes} {i j k : Nat} (one : i ≤ j) (two : j ≤ k) :
    subarray bytes i j ++ subarray bytes j k = subarray bytes i k := by
  obtain ⟨count, rfl⟩ := Nat.exists_eq_add_of_le one
  obtain ⟨first, second⟩ := @subarray_cut bytes i k count (by omega)
  rw [first, second, List.take_append_drop]

theorem subarray_whole {bytes : Bytes} {k : Nat} (all : bytes.length = k) : subarray bytes 0 k = bytes := by
  rw [subarray, List.take_of_length_le (Nat.le_of_eq all), List.drop_zero]

theorem SERVED_length : SERVED.length = 20 := by decide

/-- The bytes a selection is read from. -/
theorem selection_sliced {head : Bytes} (length : head.length = 192) (s : ServedSelection) : subarray head 0 20 = SERVED ∧
    s = ⟨subarray head 20 52, subarray head 52 84, subarray head 84 116, subarray head 116 148, ofBytes (subarray head 148 156),
      subarray head 156 188⟩ ↔ (s.domain.length = 32 ∧ s.venue.length = 32 ∧ s.backing.length = 32 ∧ s.operator.length = 32 ∧
        s.root.length = 32 ∧ s.sequence < 2 ^ 64) ∧ s.frame ++ subarray head 188 192 = head := by
  have widths : ∀ {i j}, i ≤ j → j ≤ 192 → (subarray head i j).length = j - i := fun one two => subarray_length (by omega)
  constructor
  · rintro ⟨profile, rfl⟩
    have sequence : toBytes 8 (ofBytes (subarray head 148 156)) = subarray head 148 156 := by
      have width : (subarray head 148 156).length = 8 := widths (by omega) (by omega)
      rw [← width, toBytes_ofBytes]
    have bound := ofBytes_lt (subarray head 148 156)
    rw [widths (by omega) (by omega)] at bound
    refine ⟨⟨widths (by omega) (by omega), widths (by omega) (by omega), widths (by omega) (by omega), widths (by omega) (by omega),
      widths (by omega) (by omega), bound⟩, ?_⟩
    simp only [ServedSelection.frame, sequence, List.append_assoc, ← profile]
    rw [subarray_join, subarray_join, subarray_join, subarray_join, subarray_join, subarray_join, subarray_join, subarray_whole length] <;> omega
  · rintro ⟨⟨domain, venue, backing, operator, root, sequence⟩, same⟩
    have eight := toBytes_length 8 s.sequence
    have profile := SERVED_length
    have sliced : subarray head 0 20 ++ (subarray head 20 52 ++ (subarray head 52 84 ++ (subarray head 84 116 ++ (subarray head 116 148 ++
        (subarray head 148 156 ++ (subarray head 156 188 ++ subarray head 188 192)))))) = head := by
      simp only [← List.append_assoc]
      rw [subarray_join, subarray_join, subarray_join, subarray_join, subarray_join, subarray_join, subarray_join, subarray_whole length] <;> omega
    simp only [ServedSelection.frame, List.append_assoc] at same
    obtain ⟨profile, same⟩ := List.append_inj (sliced.trans same.symm) ((widths (by omega) (by omega)).trans profile.symm)
    obtain ⟨domain, same⟩ := List.append_inj same ((widths (by omega) (by omega)).trans domain.symm)
    obtain ⟨venue, same⟩ := List.append_inj same ((widths (by omega) (by omega)).trans venue.symm)
    obtain ⟨backing, same⟩ := List.append_inj same ((widths (by omega) (by omega)).trans backing.symm)
    obtain ⟨operator, same⟩ := List.append_inj same ((widths (by omega) (by omega)).trans operator.symm)
    obtain ⟨number, same⟩ := List.append_inj same ((widths (by omega) (by omega)).trans eight.symm)
    obtain ⟨root, -⟩ := List.append_inj same ((widths (by omega) (by omega)).trans root.symm)
    have bound : s.sequence < 256 ^ 8 := sequence
    rw [domain, venue, backing, operator, number, root, ofBytes_toBytes bound]
    exact ⟨profile, rfl⟩

theorem selection_frame_length {s : ServedSelection} (fits : s.Fits) : s.frame.length = 188 := by
  obtain ⟨domain, venue, backing, operator, root, -⟩ := fits
  simp only [ServedSelection.frame, List.length_append, SERVED_length, toBytes_length]
  omega

theorem readHead_inverts : Inverts (readHead (takeOr truncatedServed)) ServedPackage.frame ServedPackage.Fits := by
  intro s head t
  simp only [readHead, read_bind_eq_ok, read_pure_eq_ok, read_lift_eq_ok, takeOr_inverts _ _ _ _ _, require_eq_ok, decide_eq_true_eq, SERVED_length]
  constructor
  · rintro ⟨first, _, ⟨width, rfl⟩, -, _, ⟨profile, rfl⟩, -, _, ⟨some_, rfl⟩, -, _, ⟨fits, rfl⟩, package, _, ⟨length, rfl⟩, rfl, rfl⟩
    obtain ⟨⟨domain, venue, backing, operator, root, bound⟩, same⟩ := (selection_sliced width _).mp ⟨profile, rfl⟩
    have last : (subarray first 188 192).length = 4 := subarray_length (by omega)
    refine ⟨⟨⟨domain, venue, backing, operator, root, Nat.pos_of_ne_zero some_, bound⟩, Nat.le_trans (Nat.le_of_eq length) fits⟩, ?_⟩
    have counted : toBytes 4 package.length = subarray first 188 192 := by rw [length, ← last, toBytes_ofBytes]
    change first ++ (package ++ t) = _ ++ (toBytes 4 package.length ++ package) ++ t
    rw [counted, ← List.append_assoc _ (subarray first 188 192), List.append_assoc _ package]
    exact congrArg (· ++ (package ++ t)) same.symm
  · rintro ⟨⟨chosen, fits⟩, rfl⟩
    have width := selection_frame_length chosen
    obtain ⟨domain, venue, backing, operator, root, positive, bound⟩ := chosen
    have short : head.package.length < 256 ^ 4 := Nat.lt_of_le_of_lt fits (by decide)
    have four := toBytes_length 4 head.package.length
    have last : subarray (head.selection.frame ++ toBytes 4 head.package.length) 188 192 = toBytes 4 head.package.length := by
      have within := @subarray_within head.selection.frame (toBytes 4 head.package.length) [] 188 192 width (by omega)
      rwa [List.append_nil] at within
    have whole : (head.selection.frame ++ toBytes 4 head.package.length).length = 192 := by
      rw [List.length_append]
      omega
    obtain ⟨profile, sliced⟩ := (selection_sliced whole head.selection).mpr
      ⟨⟨domain, venue, backing, operator, root, bound⟩, by rw [last]⟩
    refine ⟨_, head.package ++ t, ⟨whole, ?_⟩, (), _, ⟨profile, rfl⟩, (), _, ⟨?_, rfl⟩, (), _, ⟨?_, rfl⟩, head.package, t, ⟨?_, rfl⟩, ?_, rfl⟩
    · simp only [ServedPackage.frame, lengthPrefixed, List.append_assoc, id]
    · have number : head.selection.sequence = ofBytes (subarray (head.selection.frame ++ toBytes 4 head.package.length) 148 156) :=
        congrArg ServedSelection.sequence sliced
      rw [← number]
      omega
    · rw [last, ofBytes_toBytes short]
      exact fits
    · rw [last, ofBytes_toBytes short]
    · exact congrArg (fun selection => ServedPackage.mk selection head.package) sliced

theorem readTip_inverts : Inverts (readTip (takeOr truncatedServed)) TrailTip.frame TrailTip.Fits := by
  intro s tip t
  simp only [readTip, read_bind_eq_ok, read_pure_eq_ok, takeOr_inverts _ _ _ _ _]
  constructor
  · rintro ⟨bytes, _, ⟨width, rfl⟩, rfl, rfl⟩
    have number : (subarray bytes 32 40).length = 8 := subarray_length (by omega)
    have bound := ofBytes_lt (subarray bytes 32 40)
    rw [number] at bound
    refine ⟨⟨subarray_length (by omega), bound, subarray_length (by omega)⟩, ?_⟩
    have counted : toBytes 8 (ofBytes (subarray bytes 32 40)) = subarray bytes 32 40 := by rw [← number, toBytes_ofBytes]
    have joined : subarray bytes 0 32 ++ (subarray bytes 32 40 ++ subarray bytes 40 72) = bytes := by
      rw [subarray_join (by omega) (by omega), subarray_join (by omega) (by omega), subarray_whole width]
    simp only [TrailTip.frame, counted, joined, id]
  · rintro ⟨⟨segment, position, evidence⟩, rfl⟩
    have eight := toBytes_length 8 tip.position
    have bound : tip.position < 256 ^ 8 := position
    have one := @subarray_within [] tip.segment (toBytes 8 tip.position ++ tip.evidence) 0 32 rfl (by omega)
    have two := @subarray_within tip.segment (toBytes 8 tip.position) tip.evidence 32 40 segment (by omega)
    have three := @subarray_within (tip.segment ++ toBytes 8 tip.position) tip.evidence [] 40 72 (by rw [List.length_append]; omega) (by omega)
    rw [List.append_nil, List.append_assoc] at three
    refine ⟨tip.frame, t, ⟨?_, rfl⟩, ?_, rfl⟩
    · simp only [TrailTip.frame, List.length_append]
      omega
    · rw [List.nil_append] at one
      rw [TrailTip.frame, one, two, three, ofBytes_toBytes bound]

/-- A frame's kind is read off its first byte. -/
theorem readPart_kind (kind : UInt8) (s : Bytes) : readPart (takeOr truncatedServed) (kind :: s) =
    if kind = 0 then .ok (.closed, s)
    else if kind = 1 then (do
      let length := ofBytes (← takeOr truncatedServed 4)
      require (length ≤ maxV3ServedPartBytes) (.encoding "served package part too large")
      return PartHead.package (← takeOr truncatedServed length) : Reader PartHead) s
    else if kind = 2 then (do
      let based ← takeOr truncatedServed 1
      require (based = [0] ∨ based = [1]) (.encoding "unsupported served part")
      let after ← if based = [1] then some <$> readTip (takeOr truncatedServed) else pure none
      return PartHead.trail after (ofBytes (← takeOr truncatedServed 8)) : Reader PartHead) s
    else .error (.encoding "unsupported served part") := by
  have first : ∀ rest : Bytes → Reader PartHead, (takeOr truncatedServed 1 >>= rest) (kind :: s) = rest [kind] s := fun _ => rfl
  rw [readPart, first]
  simp only [List.cons.injEq, and_true]
  split
  · rfl
  · split
    · rfl
    · split
      · rfl
      · rfl

theorem readPart_inverts : Inverts (readPart (takeOr truncatedServed)) PartHead.frame PartHead.Fits := by
  intro s part t
  constructor
  · intro read
    cases s with
    | nil => cases read
    | cons kind s =>
      rw [readPart_kind] at read
      split at read
      · rename_i mark
        obtain ⟨rfl, rfl⟩ := Prod.mk.inj (Except.ok.inj read)
        exact ⟨trivial, by rw [mark]; rfl⟩
      · split at read
        · rename_i mark
          simp only [read_bind_eq_ok, read_pure_eq_ok, read_lift_eq_ok, takeOr_inverts _ _ _ _ _, require_eq_ok, decide_eq_true_eq] at read
          obtain ⟨four, _, ⟨width, rfl⟩, -, _, ⟨fits, rfl⟩, bytes, _, ⟨length, rfl⟩, rfl, rfl⟩ := read
          have counted : toBytes 4 bytes.length = four := by rw [length, ← width, toBytes_ofBytes]
          refine ⟨Nat.le_trans (Nat.le_of_eq length) fits, ?_⟩
          simp [PartHead.frame, lengthPrefixed, counted, mark]
        · split at read
          · rename_i mark
            simp only [read_bind_eq_ok, read_lift_eq_ok, takeOr_inverts _ _ _ _ _, require_eq_ok, decide_eq_true_eq] at read
            obtain ⟨based, _, ⟨-, rfl⟩, -, _, ⟨known, rfl⟩, read⟩ := read
            rcases known with rfl | rfl
            · rw [if_neg (by decide)] at read
              simp only [pure_bind, read_bind_eq_ok, read_pure_eq_ok, takeOr_inverts _ _ _ _ _] at read
              obtain ⟨size, _, ⟨width, rfl⟩, rfl, rfl⟩ := read
              have bound := ofBytes_lt size
              rw [width] at bound
              refine ⟨⟨by simp, bound⟩, ?_⟩
              have counted : toBytes 8 (ofBytes size) = size := by rw [← width, toBytes_ofBytes]
              simp [PartHead.frame, counted, mark]
            · rw [if_pos rfl] at read
              simp only [map_eq_pure_bind, bind_assoc, pure_bind, read_bind_eq_ok, read_pure_eq_ok, takeOr_inverts _ _ _ _ _,
                readTip_inverts _ _ _] at read
              obtain ⟨tip, _, ⟨tipFits, rfl⟩, size, _, ⟨width, rfl⟩, rfl, rfl⟩ := read
              have bound := ofBytes_lt size
              rw [width] at bound
              refine ⟨⟨by simpa using tipFits, bound⟩, ?_⟩
              have counted : toBytes 8 (ofBytes size) = size := by rw [← width, toBytes_ofBytes]
              simp [PartHead.frame, counted, mark]
          · cases read
  · rintro ⟨fits, rfl⟩
    cases part with
    | closed => rfl
    | package bytes =>
      have short : bytes.length < 256 ^ 4 := Nat.lt_of_le_of_lt fits (by decide)
      change readPart (takeOr truncatedServed) (1 :: (toBytes 4 bytes.length ++ bytes ++ t)) = _
      rw [readPart_kind, if_neg (by decide), if_pos rfl]
      simp only [read_bind_eq_ok, read_pure_eq_ok, read_lift_eq_ok, takeOr_inverts _ _ _ _ _, require_eq_ok, decide_eq_true_eq]
      refine ⟨toBytes 4 bytes.length, bytes ++ t, ⟨toBytes_length _ _, by rw [List.append_assoc]; rfl⟩, (), _, ⟨?_, rfl⟩, bytes, t, ⟨?_, rfl⟩, rfl, rfl⟩
      · rw [ofBytes_toBytes short]
        exact fits
      · rw [ofBytes_toBytes short]
    | trail after size =>
      obtain ⟨tips, bound⟩ := fits
      have short : size < 256 ^ 8 := bound
      cases after with
      | none =>
        change readPart (takeOr truncatedServed) (2 :: ([0] ++ (toBytes 8 size ++ t))) = _
        rw [readPart_kind, if_neg (by decide), if_neg (by decide), if_pos rfl]
        simp only [read_bind_eq_ok, read_lift_eq_ok, takeOr_inverts _ _ _ _ _, require_eq_ok, decide_eq_true_eq]
        refine ⟨[0], _, ⟨rfl, rfl⟩, (), _, ⟨.inl rfl, rfl⟩, ?_⟩
        rw [if_neg (by decide)]
        simp only [pure_bind, read_bind_eq_ok, read_pure_eq_ok, takeOr_inverts _ _ _ _ _]
        exact ⟨_, t, ⟨toBytes_length _ _, rfl⟩, by rw [ofBytes_toBytes short], rfl⟩
      | some tip =>
        have tipFits := tips tip rfl
        change readPart (takeOr truncatedServed) (2 :: ([1] ++ (tip.frame ++ toBytes 8 size ++ t))) = _
        rw [readPart_kind, if_neg (by decide), if_neg (by decide), if_pos rfl]
        simp only [read_bind_eq_ok, read_lift_eq_ok, takeOr_inverts _ _ _ _ _, require_eq_ok, decide_eq_true_eq]
        refine ⟨[1], _, ⟨rfl, rfl⟩, (), _, ⟨.inr rfl, rfl⟩, ?_⟩
        rw [if_pos rfl]
        simp only [map_eq_pure_bind, bind_assoc, pure_bind, read_bind_eq_ok, read_pure_eq_ok, takeOr_inverts _ _ _ _ _, readTip_inverts _ _ _]
        exact ⟨tip, toBytes 8 size ++ t, ⟨tipFits, by rw [List.append_assoc]⟩, toBytes 8 size, t, ⟨toBytes_length _ _, rfl⟩, by rw [ofBytes_toBytes short], rfl⟩

theorem readHead_reads : ChunkCursor.Reads (readHead takeServed) (readHead (takeOr truncatedServed)) :=
  .bind (.take _ _) fun _ => .bind (.lift _) fun _ => .bind (.lift _) fun _ => .bind (.lift _) fun _ => .bind (.take _ _) fun _ => .pure _

theorem readPart_reads : ChunkCursor.Reads (readPart takeServed) (readPart (takeOr truncatedServed)) := by
  refine .bind (.take _ _) fun kind => ?_
  split
  · exact .pure _
  · split
    · exact .bind (.take _ _) fun _ => .bind (.lift _) fun _ => .bind (.take _ _) fun _ => .pure _
    · split
      · refine .bind (.take _ _) fun based => .bind (.lift _) fun _ => ?_
        split
        · simp only [map_eq_pure_bind, readTip, bind_assoc, pure_bind]
          exact .bind (.take _ _) fun _ => .bind (.take _ _) fun _ => .pure _
        · simp only [pure_bind]
          exact .bind (.take _ _) fun _ => .pure _
      · exact .lift _

end Moe.Service
