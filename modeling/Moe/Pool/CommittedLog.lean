import Mathlib.Data.Nat.Find
import Moe.Pool.KeptLog

namespace Moe

/-- A log's checksum byte order, salts and first checksum, as its header gives them. -/
def walBig (wal : Bytes) : Bool := readUInt32BE wal 0 % 2 == 1

def walSalts (wal : Bytes) : Bytes := (wal.drop 16).take 8

def walChain (wal : Bytes) : Nat × Nat := walSum (walBig wal) (wal.take 24) (0, 0)

/-- A log whose header holds at `size`. -/
structure WalHolds (wal : Bytes) (size : Nat) : Prop where
  long : 32 ≤ wal.length
  magic : readUInt32BE wal 0 &&& 0xfffffffe = 0x377f0682
  paged : (if readUInt32BE wal 8 = 1 then 65536 else readUInt32BE wal 8) = size
  first : (walChain wal).1 = readUInt32BE wal 24
  second : (walChain wal).2 = readUInt32BE wal 28

/-- The bytes of the frame at place `i`. -/
def frameBytes (rest : Bytes) (size i : Nat) : Bytes := (rest.drop (i * (24 + size))).take (24 + size)

def frameAt (rest : Bytes) (size i : Nat) : WriteFrame Bytes :=
  ⟨readUInt32BE (frameBytes rest size i) 0, readUInt32BE (frameBytes rest size i) 4, (frameBytes rest size i).drop 24⟩

/-- The checksum after `i` frames. -/
def chainAfter (big : Bool) (rest : Bytes) (size : Nat) (chain : Nat × Nat) : Nat → Nat × Nat
  | 0 => chain
  | i + 1 => walSum big ((frameBytes rest size i).drop 24) (walSum big ((frameBytes rest size i).take 8) (chainAfter big rest size chain i))

/-- A frame whole in the log, with the salts, that continues the checksum chain. -/
structure Continues (big : Bool) (salts rest : Bytes) (size : Nat) (chain : Nat × Nat) (i : Nat) : Prop where
  whole : (i + 1) * (24 + size) ≤ rest.length
  salted : ((frameBytes rest size i).drop 8).take 8 = salts
  first : (chainAfter big rest size chain (i + 1)).1 = readUInt32BE (frameBytes rest size i) 16
  second : (chainAfter big rest size chain (i + 1)).2 = readUInt32BE (frameBytes rest size i) 20

/-- A frame that continues the chain and names a page: there is no page zero. -/
def FrameValid (big : Bool) (salts rest : Bytes) (size : Nat) (chain : Nat × Nat) (i : Nat) : Prop :=
  Continues big salts rest size chain i ∧ (frameAt rest size i).page ≠ 0

section Shift

variable {big : Bool} {salts rest more : Bytes} {size i n : Nat} {chain : Nat × Nat}

theorem frameBytes_drop : frameBytes (rest.drop (24 + size)) size i = frameBytes rest size (i + 1) := by
  rw [frameBytes, frameBytes, List.drop_drop]
  congr 2
  rw [Nat.succ_mul]
  omega

theorem frameAt_drop : frameAt (rest.drop (24 + size)) size i = frameAt rest size (i + 1) := by
  simp only [frameAt, frameBytes_drop]

theorem chainAfter_drop : chainAfter big (rest.drop (24 + size)) size (chainAfter big rest size chain 1) i =
    chainAfter big rest size chain (i + 1) := by
  induction i with
  | zero => rfl
  | succ i ih =>
    rw [chainAfter, ih, frameBytes_drop]
    rfl

theorem continues_drop (first : 24 + size ≤ rest.length) :
    Continues big salts (rest.drop (24 + size)) size (chainAfter big rest size chain 1) i ↔ Continues big salts rest size chain (i + 1) := by
  have widths : (i + 1) * (24 + size) ≤ (rest.drop (24 + size)).length ↔ (i + 1 + 1) * (24 + size) ≤ rest.length := by
    rw [List.length_drop, Nat.succ_mul (i + 1)]
    omega
  constructor
  · rintro ⟨whole, salted, one, two⟩
    rw [frameBytes_drop] at salted one two
    rw [chainAfter_drop] at one two
    exact ⟨widths.mp whole, salted, one, two⟩
  · rintro ⟨whole, salted, one, two⟩
    refine ⟨widths.mpr whole, ?_, ?_, ?_⟩
    · rwa [frameBytes_drop]
    · rwa [frameBytes_drop, chainAfter_drop]
    · rwa [frameBytes_drop, chainAfter_drop]

theorem frameValid_drop (first : 24 + size ≤ rest.length) :
    FrameValid big salts (rest.drop (24 + size)) size (chainAfter big rest size chain 1) i ↔ FrameValid big salts rest size chain (i + 1) := by
  rw [FrameValid, FrameValid, continues_drop first, frameAt_drop]

/-- The frames read are the longest run of valid ones from the first. -/
theorem readFrames_eq (valid : ∀ i < n, FrameValid big salts rest size chain i) (stops : ¬ FrameValid big salts rest size chain n) :
    readFrames big salts size (rest.length / (24 + size)) rest chain = (List.range n).map (frameAt rest size) := by
  induction n generalizing rest chain with
  | zero =>
    have head : frameBytes rest size 0 = rest.take (24 + size) := by rw [frameBytes, Nat.zero_mul, List.drop_zero]
    obtain short | long := Nat.lt_or_ge rest.length (24 + size)
    · rw [Nat.div_eq_of_lt short]
      rfl
    · obtain ⟨left, same⟩ : ∃ left, rest.length / (24 + size) = left + 1 :=
        ⟨rest.length / (24 + size) - 1, by have := Nat.div_pos long (by omega : 0 < 24 + size); omega⟩
      rw [same, readFrames]
      simp only [List.range_zero, List.map_nil]
      split
      · rename_i salted
        split
        · rename_i chained
          split
          · rfl
          · rename_i named
            refine absurd ⟨⟨by rwa [Nat.one_mul], ?_, ?_, ?_⟩, ?_⟩ stops
            · rwa [head]
            · rw [chainAfter, head]
              exact chained.1
            · rw [chainAfter, head]
              exact chained.2
            · rwa [frameAt, head]
        · rfl
      · rfl
  | succ n ih =>
    obtain ⟨⟨whole, salted, one, two⟩, named⟩ := valid 0 (Nat.succ_pos n)
    have head : frameBytes rest size 0 = rest.take (24 + size) := by rw [frameBytes, Nat.zero_mul, List.drop_zero]
    rw [Nat.one_mul] at whole
    have count : rest.length / (24 + size) = (rest.drop (24 + size)).length / (24 + size) + 1 := by
      rw [List.length_drop, ← Nat.add_div_right _ (by omega), Nat.sub_add_cancel whole]
    have others := @ih (rest.drop (24 + size)) (chainAfter big rest size chain 1)
      (fun i inside => (frameValid_drop whole).mpr (valid (i + 1) (by omega))) (fun last => stops ((frameValid_drop whole).mp last))
    rw [head] at salted one two
    rw [frameAt, head] at named
    rw [count, readFrames]
    simp only [chainAfter, head] at one two others ⊢
    rw [if_pos salted, if_pos ⟨one, two⟩, if_neg named, others, List.range_succ_eq_map, List.map_cons, List.map_map]
    congr 1
    · simp only [frameAt, head]
    · refine List.map_congr_left fun i _ => ?_
      exact frameAt_drop

end Shift

section Reading

variable {big : Bool} {salts rest more wal : Bytes} {size i n : Nat} {chain : Nat × Nat}

/-- A log's first run of valid frames ends. -/
theorem exists_run (valid : Nat → Prop) (bound : ∀ i, valid i → i < n) : ∃ n, (∀ i < n, valid i) ∧ ¬ valid n := by
  have ends : ∃ n, ¬ valid n := ⟨n, fun own => absurd (bound n own) (Nat.lt_irrefl n)⟩
  classical exact ⟨Nat.find ends, fun i inside => not_not.mp (Nat.find_min ends inside), Nat.find_spec ends⟩

theorem logFrames_eq (held : WalHolds wal size) : logFrames wal size =
    some (readFrames (walBig wal) (walSalts wal) size ((wal.drop 32).length / (24 + size)) (wal.drop 32) (walChain wal)) := by
  rw [logFrames]
  simp only [held.paged]
  rw [if_pos ⟨held.long, held.magic, trivial, held.first, held.second⟩, List.length_drop]
  rfl

theorem readUInt32BE_append (at_ : Nat) (inside : at_ + 4 ≤ wal.length) : readUInt32BE (wal ++ more) at_ = readUInt32BE wal at_ := by
  rw [readUInt32BE, readUInt32BE, List.drop_append_of_le_length (by omega), List.take_append_of_le_length (by rw [List.length_drop]; omega)]

/-- A log's header is read alike whatever follows. -/
theorem wal_append (long : 32 ≤ wal.length) (more : Bytes) : walBig (wal ++ more) = walBig wal ∧ walSalts (wal ++ more) = walSalts wal ∧
    walChain (wal ++ more) = walChain wal := by
  have big : walBig (wal ++ more) = walBig wal := by rw [walBig, walBig, readUInt32BE_append 0 (by omega)]
  refine ⟨big, ?_, ?_⟩
  · rw [walSalts, walSalts, List.drop_append_of_le_length (by omega), List.take_append_of_le_length (by rw [List.length_drop]; omega)]
  · rw [walChain, walChain, big, List.take_append_of_le_length (by omega)]

theorem WalHolds.append (held : WalHolds wal size) (more : Bytes) : WalHolds (wal ++ more) size := by
  have long := held.long
  have word : ∀ at_, at_ + 4 ≤ 32 → readUInt32BE (wal ++ more) at_ = readUInt32BE wal at_ := fun at_ inside =>
    readUInt32BE_append at_ (by omega)
  refine ⟨by rw [List.length_append]; omega, ?_, ?_, ?_, ?_⟩
  · rw [word 0 (by omega)]
    exact held.magic
  · rw [word 8 (by omega)]
    exact held.paged
  · rw [(wal_append long more).2.2, word 24 (by omega)]
    exact held.first
  · rw [(wal_append long more).2.2, word 28 (by omega)]
    exact held.second

theorem frameBytes_append (whole : (i + 1) * (24 + size) ≤ rest.length) (more : Bytes) : frameBytes (rest ++ more) size i = frameBytes rest size i := by
  rw [Nat.succ_mul] at whole
  rw [frameBytes, frameBytes, List.drop_append_of_le_length (by omega), List.take_append_of_le_length (by rw [List.length_drop]; omega)]

theorem chainAfter_append (whole : i * (24 + size) ≤ rest.length) :
    chainAfter big (rest ++ more) size chain i = chainAfter big rest size chain i := by
  induction i with
  | zero => rfl
  | succ i ih =>
    have before : i * (24 + size) ≤ rest.length := by
      rw [Nat.succ_mul] at whole
      omega
    rw [chainAfter, chainAfter, ih before, frameBytes_append whole]

/-- A valid frame stays valid whatever follows. -/
theorem FrameValid.append (valid : FrameValid big salts rest size chain i) (more : Bytes) :
    FrameValid big salts (rest ++ more) size chain i ∧ frameAt (rest ++ more) size i = frameAt rest size i := by
  obtain ⟨⟨whole, salted, one, two⟩, named⟩ := valid
  have bytes := frameBytes_append whole more
  have same : frameAt (rest ++ more) size i = frameAt rest size i := by rw [frameAt, frameAt, bytes]
  refine ⟨⟨⟨by rw [List.length_append]; omega, ?_, ?_, ?_⟩, same ▸ named⟩, same⟩
  · rwa [bytes]
  · rwa [bytes, chainAfter_append whole]
  · rwa [bytes, chainAfter_append whole]

theorem Continues.inside (continues : Continues big salts rest size chain i) : i < rest.length := by
  have whole := continues.whole
  have least : (i + 1) * 1 ≤ (i + 1) * (24 + size) := Nat.mul_le_mul_left _ (by omega)
  omega

end Reading

section

variable [Crypto]

/-- A log read by the frames that are `valid`: up to the last commit frame of their longest run from the first, each page has its last
image there, and the count is that commit frame's; a run without one gives nothing. -/
def ReadsExactly (valid : Nat → Prop) (frame : Nat → WriteFrame Bytes) (log : Option (Commit Bytes)) : Prop :=
  ∀ n, (∀ i < n, valid i) → ¬ valid n → ((∀ i < n, (frame i).after = 0) → log = none) ∧
    ∀ k < n, (frame k).after ≠ 0 → (∀ j < n, k < j → (frame j).after = 0) → ∃ own, log = some own ∧ own.count = (frame k).after ∧
      ∀ page image, own.image? page = some image ↔
        ∃ i ≤ k, (frame i).page = page ∧ sha256 (frame i).image = image ∧ ∀ j ≤ k, i < j → (frame j).page ≠ page

variable {wal : Bytes} {size n : Nat}

theorem committedLog_run (held : WalHolds wal size)
    (valid : ∀ i < n, FrameValid (walBig wal) (walSalts wal) (wal.drop 32) size (walChain wal) i)
    (stops : ¬ FrameValid (walBig wal) (walSalts wal) (wal.drop 32) size (walChain wal) n) :
    committedLog (some wal) size =
      WriteAhead.committed (((List.range n).map (frameAt (wal.drop 32) size)).map (·.map sha256)) := by
  rw [committedLog, Option.bind_some, logFrames_eq held, Option.bind_some, readFrames_eq valid stops]

/-- `committedLog` reads exactly the committed prefix. -/
theorem committedLog_exact (held : WalHolds wal size) :
    (∃ n, (∀ i < n, FrameValid (walBig wal) (walSalts wal) (wal.drop 32) size (walChain wal) i) ∧
      ¬ FrameValid (walBig wal) (walSalts wal) (wal.drop 32) size (walChain wal) n) ∧
      ReadsExactly (FrameValid (walBig wal) (walSalts wal) (wal.drop 32) size (walChain wal)) (frameAt (wal.drop 32) size)
        (committedLog (some wal) size) ∧
      ∀ more, (∀ m, (∀ i ≤ m, FrameValid (walBig wal) (walSalts wal) (wal.drop 32 ++ more) size (walChain wal) i) →
        ¬ (∀ i ≤ m, FrameValid (walBig wal) (walSalts wal) (wal.drop 32) size (walChain wal) i) →
          (frameAt (wal.drop 32 ++ more) size m).after = 0) →
        committedLog (some (wal ++ more)) size = committedLog (some wal) size := by
  refine ⟨exists_run _ fun i own => own.1.inside, fun n valid stops => ⟨fun open_ => ?_, fun k inside ends open_ => ?_⟩,
    fun more open_ => ?_⟩
  · rw [committedLog_run held valid stops]
    refine WriteAhead.committed_pending fun frame member => ?_
    rw [List.map_map, List.mem_map] at member
    obtain ⟨i, within, rfl⟩ := member
    exact open_ i (List.mem_range.mp within)
  · obtain ⟨later, rfl⟩ := Nat.exists_eq_add_of_lt inside
    have after : ∀ frame ∈ ((List.range later).map fun j => frameAt (wal.drop 32) size (k + 1 + j)).map (·.map sha256), frame.after = 0 := by
      intro frame member
      rw [List.map_map, List.mem_map] at member
      obtain ⟨j, within, rfl⟩ := member
      have bound := List.mem_range.mp within
      exact open_ (k + 1 + j) (by omega) (by omega)
    have split_ : ((List.range (k + later + 1)).map (frameAt (wal.drop 32) size)).map (·.map sha256) =
        (((List.range k).map (frameAt (wal.drop 32) size)).map (·.map sha256) ++ [(frameAt (wal.drop 32) size k).map sha256]) ++
          ((List.range later).map fun j => frameAt (wal.drop 32) size (k + 1 + j)).map (·.map sha256) := by
      rw [Nat.add_right_comm, List.range_add, List.range_succ]
      simp only [List.map_append, List.map_map, List.map_singleton]
      rfl
    have pages : ((((List.range k).map (frameAt (wal.drop 32) size)).map (·.map sha256) ++
        [(frameAt (wal.drop 32) size k).map sha256]).map fun frame => (frame.page, frame.image)) =
          (List.range (k + 1)).map fun i => ((frameAt (wal.drop 32) size i).page, sha256 (frameAt (wal.drop 32) size i).image) := by
      rw [List.range_succ]
      simp only [List.map_append, List.map_map, List.map_singleton]
      rfl
    refine ⟨_, by rw [committedLog_run held valid stops, split_, WriteAhead.committed_append_pending after]; exact
      WriteAhead.committed_ends _ ends, rfl, fun page image => ?_⟩
    rw [Commit.image?, pages, WriteAhead.lookup_reverse]
    simp only [Nat.lt_succ_iff]
  · have long := held.long
    obtain ⟨big, salts, chain⟩ := wal_append long more
    have rest : (wal ++ more).drop 32 = wal.drop 32 ++ more := List.drop_append_of_le_length long
    obtain ⟨n, valid, stops⟩ := exists_run (FrameValid (walBig wal) (walSalts wal) (wal.drop 32) size (walChain wal)) fun i own => own.1.inside
    obtain ⟨n', valid', stops'⟩ := exists_run (FrameValid (walBig wal) (walSalts wal) (wal.drop 32 ++ more) size (walChain wal))
      fun i own => own.1.inside
    have further : n ≤ n' := by
      refine Nat.le_of_not_lt fun before => stops' ?_
      exact ((valid n' before).append more).1
    obtain ⟨later, rfl⟩ := Nat.exists_eq_add_of_le further
    have after : ∀ frame ∈ ((List.range later).map fun j => frameAt (wal.drop 32 ++ more) size (n + j)).map (·.map sha256),
        frame.after = 0 := by
      intro frame member
      rw [List.map_map, List.mem_map] at member
      obtain ⟨j, within, rfl⟩ := member
      have bound := List.mem_range.mp within
      exact open_ (n + j) (fun i before => valid' i (by omega)) fun all => stops (all n (by omega))
    have kept : ((List.range n).map (frameAt (wal.drop 32 ++ more) size)) = (List.range n).map (frameAt (wal.drop 32) size) :=
      List.map_congr_left fun i within => ((valid i (List.mem_range.mp within)).append more).2
    have split_ : ((List.range (n + later)).map (frameAt (wal.drop 32 ++ more) size)).map (·.map sha256) =
        ((List.range n).map (frameAt (wal.drop 32) size)).map (·.map sha256) ++
          ((List.range later).map fun j => frameAt (wal.drop 32 ++ more) size (n + j)).map (·.map sha256) := by
      simp only [List.range_add, List.map_append, kept, List.map_map]
      rfl
    rw [committedLog_run held valid stops, committedLog_run (held.append more) (n := n + later) (by rw [big, salts, chain, rest]; exact valid')
      (by rw [big, salts, chain, rest]; exact stops'), rest, split_, WriteAhead.committed_append_pending after]

end

section

local instance logCrypto : Crypto := sampleCrypto

def sampleWalHeader : WalHeader := ⟨true, 1, 1, [1, 2, 3, 4, 5, 6, 7, 8], rfl⟩

/-- A log of one commit frame of a page. -/
def sampleWal (page : Nat) : Bytes := writeLog sampleWalHeader 8 [⟨page, 1, [1, 2, 3, 4, 5, 6, 7, 8]⟩]

theorem sampleWal_holds (page : Nat) (named : page = 0 ∨ page = 1) : WalHolds (sampleWal page) 8 := by
  obtain rfl | rfl := named <;> exact ⟨by decide +kernel, by decide +kernel, by decide +kernel, by decide +kernel, by decide +kernel⟩

theorem sampleWal_continues : Continues (walBig (sampleWal 0)) (walSalts (sampleWal 0)) ((sampleWal 0).drop 32) 8 (walChain (sampleWal 0)) 0 :=
  ⟨by decide +kernel, by decide +kernel, by decide +kernel, by decide +kernel⟩

theorem committedLog_exact_sample : ReadsExactly
    (FrameValid (walBig (sampleWal 1)) (walSalts (sampleWal 1)) ((sampleWal 1).drop 32) 8 (walChain (sampleWal 1)))
    (frameAt ((sampleWal 1).drop 32) 8) (committedLog (some (sampleWal 1)) 8) :=
  (committedLog_exact (sampleWal_holds 1 (.inr rfl))).2.1

/-- A frame of page zero continues the chain, and ends it. -/
theorem committedLog_page_zero : ¬ ∀ wal size, WalHolds wal size → ReadsExactly
    (Continues (walBig wal) (walSalts wal) (wal.drop 32) size (walChain wal)) (frameAt (wal.drop 32) size) (committedLog (some wal) size) := by
  intro all
  have stops : ¬ Continues (walBig (sampleWal 0)) (walSalts (sampleWal 0)) ((sampleWal 0).drop 32) 8 (walChain (sampleWal 0)) 1 :=
    fun own => absurd own.whole (by decide +kernel)
  have one : ∀ i < 1, Continues (walBig (sampleWal 0)) (walSalts (sampleWal 0)) ((sampleWal 0).drop 32) 8 (walChain (sampleWal 0)) i := by
    intro i inside
    rw [Nat.lt_one_iff.mp inside]
    exact sampleWal_continues
  obtain ⟨own, done, -⟩ := (all (sampleWal 0) 8 (sampleWal_holds 0 (.inl rfl)) 1 one stops).2 0 Nat.one_pos (by decide +kernel)
    fun j inside after => by omega
  have none_ : committedLog (some (sampleWal 0)) 8 = none := by decide +kernel
  rw [none_] at done
  cases done

end

end Moe
