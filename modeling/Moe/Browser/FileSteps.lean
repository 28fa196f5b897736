import Moe.Browser.FileClaims

namespace Moe

open JsString

/-- A write a crash stops: a header's copy torn at any byte, its digest then failing unless nothing or all of it was written; data at
any byte. -/
inductive PoolWrite.Torn [Crypto] (disk : Nat → Bytes) : PoolWrite → (Nat → Bytes) → Prop
  | header {member : Nat} {copy : Copy} {part : Bytes} (k : Nat) :
      (copyAt (writeAt (disk member) copy.offset (part.take k)) copy = .ok none ∨
        copyAt (writeAt (disk member) copy.offset (part.take k)) copy = copyAt (disk member) copy ∨
        copyAt (writeAt (disk member) copy.offset (part.take k)) copy = copyAt (writeAt (disk member) copy.offset part) copy) →
      Torn disk (.header member copy part) (Function.update disk member (writeAt (disk member) copy.offset (part.take k)))
  | data {member at_ : Nat} {bytes : Bytes} (k : Nat) :
      Torn disk (.data member at_ bytes) (Function.update disk member (writeAt (disk member) (headerBytes + at_) (bytes.take k)))

/-- The files as writes stopped at any point leave them. -/
inductive Stopped [Crypto] : (Nat → Bytes) → List PoolWrite → (Nat → Bytes) → Prop
  | before {disk : Nat → Bytes} {writes : List PoolWrite} : Stopped disk writes disk
  | torn {disk disk' : Nat → Bytes} {write : PoolWrite} {writes : List PoolWrite} : write.Torn disk disk' →
      Stopped disk (write :: writes) disk'
  | after {disk disk' : Nat → Bytes} {write : PoolWrite} {writes : List PoolWrite} : Stopped (write.apply disk) writes disk' →
      Stopped disk (write :: writes) disk'

/-- Data not flushed may be lost, or any of it left: a header stands, and a file without one gets none. -/
def Lost [Crypto] (unflushed : Nat → Bool) (disk disk' : Nat → Bytes) : Prop :=
  ∀ id, disk' id = disk id ∨ unflushed id = true ∧ ((disk' id).take headerBytes = (disk id).take headerBytes ∨
    (∀ copy, copyAt (disk id) copy = .ok none) ∧ ∀ copy, copyAt (disk' id) copy = .ok none)

section

variable [Crypto]

namespace Mounted

/-- What holds of a mounted pool at every write: each member's newer header copy is what the worker knows of it. -/
structure Held (s : Mounted) : Prop where
  disk : DiskOk s.disk s.sequence
  positive : 0 < s.sequence
  outside : ∀ id, s.count ≤ id → s.disk id = [] ∧ s.members id = {}
  coherent : ∀ id, newest (s.disk id) =
      .ok (some (⟨(s.members id).names, (s.members id).ino, (s.members id).birth, (s.members id).sequence⟩, (s.members id).copy)) ∨
    newest (s.disk id) = .ok none ∧ (s.members id).names = []
  free : ∀ id ∈ s.free, id < s.count ∧ s.disk id = [] ∧ (s.members id).names = [] ∧ (s.members id).copy = .second ∧ (s.members id).opens = 0
  once : s.free.Nodup

/-- The pool's names are its members', each one's. -/
def Named (s : Mounted) : Prop := ∀ name id, s.names.get? name = some id ↔ name ∈ (s.members id).names

structure Ok (s : Mounted) : Prop where
  held : s.Held
  named : s.Named
  files : ∀ id, s.disk id = [] ∨ headerBytes ≤ (s.disk id).length

/-- A member's header rewritten over its older copy. -/
def written (s : Mounted) (member : Nat) (names : List JsString) (part : Bytes) : Mounted :=
  ((({ s with sequence := s.sequence + 1 } : Mounted).perform (.header member (s.members member).copy.other part)).flushed member).setMember
    member { s.members member with names, sequence := s.sequence, copy := (s.members member).copy.other }

def released (s : Mounted) (member : Nat) : Mounted :=
  { ((s.perform (.truncate member 0)).flushed member).setMember member
      { s.members member with names := [], anonymous := false, opens := 0, sequence := 0, copy := .second } with
    free := s.free ++ [member] }

end Mounted

variable {s : Mounted} {id : Nat} {names : List JsString} {part : Bytes} {name : JsString}

theorem writeHeader_ok (done : encode (s.members id).ino (s.members id).birth names s.sequence = .ok part) :
    (writeHeader id names).runs s = (.ok (), s.written id names part) := by
  simp only [writeHeader, Work.runs_bind, Work.runs_get, Work.andThen, Work.runs_modify, Work.runs_lift, done]
  rfl

theorem writeHeader_error {failure : HostFailure}
    (refused : encode (s.members id).ino (s.members id).birth names s.sequence = .error failure) :
    (writeHeader id names).runs s = (.error failure, { s with sequence := s.sequence + 1 }) := by
  simp only [writeHeader, Work.runs_bind, Work.runs_get, Work.andThen, Work.runs_modify, Work.runs_lift, refused]

omit [Crypto] in
theorem release_runs : (release id).runs s = (.ok (), s.released id) := rfl

namespace Mounted.Held

/-- What a header on disk holds is what the worker knows of its member. -/
theorem header_eq (held : s.Held) {header : PoolHeader} (found : headerOf (s.disk id) = some header) :
    header = ⟨(s.members id).names, (s.members id).ino, (s.members id).birth, (s.members id).sequence⟩ := by
  obtain known | ⟨none_, -⟩ := held.coherent id
  · rw [headerOf_eq known] at found
    exact (Option.some.inj found).symm
  · rw [headerOf_none none_] at found
    cases found

theorem header_some (held : s.Held) (claims : name ∈ (s.members id).names) : headerOf (s.disk id) =
    some ⟨(s.members id).names, (s.members id).ino, (s.members id).birth, (s.members id).sequence⟩ := by
  obtain known | ⟨-, none_⟩ := held.coherent id
  · exact headerOf_eq known
  · rw [none_] at claims
    cases claims

theorem sound (held : s.Held) (claims : name ∈ (s.members id).names) : PoolHeader.Sound
    ⟨(s.members id).names, (s.members id).ino, (s.members id).birth, (s.members id).sequence⟩ s.sequence := by
  obtain ⟨copy, newest_⟩ := held.disk.headerOf_some (held.header_some claims)
  exact held.disk.sound _ _ _ (newest_some newest_).1

theorem long (held : s.Held) (claims : name ∈ (s.members id).names) : headerBytes ≤ (s.disk id).length := by
  obtain blank | long := held.disk.long id
  · have some_ := held.header_some claims
    rw [headerOf_none (newest_none blank)] at some_
    cases some_
  · exact long

theorem inside (held : s.Held) (claims : name ∈ (s.members id).names) : id < s.count := by
  refine Nat.lt_of_not_le fun out => ?_
  rw [(held.outside id out).2] at claims
  cases claims

theorem not_free (held : s.Held) (claims : name ∈ (s.members id).names) : id ∉ s.free := by
  intro free
  rw [(held.free id free).2.2.1] at claims
  cases claims

/-- The owner of a name on disk is, of the members that have it, the one written last. -/
theorem owner_iff (held : s.Held) : Owner s.disk name id ↔ name ∈ (s.members id).names ∧
    ∀ other, name ∈ (s.members other).names → (s.members other).sequence ≤ (s.members id).sequence := by
  constructor
  · rintro ⟨header, found, claims, top⟩
    obtain rfl := held.header_eq found
    exact ⟨claims, fun other claims' => top other _ (held.header_some claims') claims'⟩
  · rintro ⟨claims, top⟩
    refine ⟨_, held.header_some claims, claims, fun other claim found claims' => ?_⟩
    obtain rfl := held.header_eq found
    exact top other claims'

end Mounted.Held

/-- In a pool between calls a name's owner on disk is the member the pool names by it. -/
theorem Mounted.Ok.owner_iff (ok : s.Ok) : Owner s.disk name id ↔ s.names.get? name = some id := by
  rw [ok.held.owner_iff, ok.named]
  refine and_iff_left_of_imp fun claims other claims' => ?_
  rw [← ok.named] at claims claims'
  obtain rfl := Option.some.inj (claims.symm.trans claims')
  exact Nat.le_refl _

/-- What may be written over a member's older copy. -/
structure Mounted.Writes (s : Mounted) (id : Nat) (names : List JsString) (part : Bytes) : Prop where
  encoded : encode (s.members id).ino (s.members id).birth names s.sequence = .ok part
  long : headerBytes ≤ (s.disk id).length
  used : id < s.count ∧ id ∉ s.free
  names : ∀ name ∈ names, PoolName name
  ino : (s.members id).ino < 2 ^ 64
  birth : (s.members id).birth < 2 ^ 64
  sequence : s.sequence < 2 ^ 64

namespace Mounted.Writes

theorem decoded (writes : s.Writes id names part) :
    decode part = .ok (some ⟨names, (s.members id).ino, (s.members id).birth, s.sequence⟩) :=
  decode_encode writes.names writes.ino writes.birth writes.sequence writes.encoded

theorem copy_written (writes : s.Writes id names part) :
    copyAt (writeAt (s.disk id) (s.members id).copy.other.offset part) (s.members id).copy.other =
      .ok (some ⟨names, (s.members id).ino, (s.members id).birth, s.sequence⟩) := by
  rw [copyAt_written writes.long (encode_length writes.encoded), writes.decoded]

theorem copy_kept (writes : s.Writes id names part) {bytes : Bytes} (short : bytes.length ≤ copyBytes) :
    copyAt (writeAt (s.disk id) (s.members id).copy.other.offset bytes) (s.members id).copy = copyAt (s.disk id) (s.members id).copy := by
  have other : copyAt (writeAt (s.disk id) (s.members id).copy.other.offset bytes) (s.members id).copy.other.other =
      copyAt (s.disk id) (s.members id).copy.other.other := copyAt_other writes.long short
  rwa [Copy.other_other] at other

/-- The copy not written over: the member's header, or none. -/
theorem kept_older (held : s.Held) (id : Nat) : ∃ other, copyAt (s.disk id) (s.members id).copy = .ok other ∧
    ∀ claim, other = some claim → claim.sequence < s.sequence := by
  obtain ⟨other, read⟩ := held.disk.reads id (s.members id).copy
  refine ⟨other, read, fun claim same => ?_⟩
  subst same
  exact (held.disk.sound _ _ _ read).below

theorem newest_written (writes : s.Writes id names part) (held : s.Held) :
    newest (writeAt (s.disk id) (s.members id).copy.other.offset part) =
      .ok (some (⟨names, (s.members id).ino, (s.members id).birth, s.sequence⟩, (s.members id).copy.other)) := by
  obtain ⟨other, read, older⟩ := kept_older held id
  refine newest_of writes.copy_written (b := other) ?_ older
  rw [Copy.other_other, writes.copy_kept (Nat.le_of_eq (encode_length writes.encoded)), read]

theorem sound (writes : s.Writes id names part) (held : s.Held) :
    PoolHeader.Sound ⟨names, (s.members id).ino, (s.members id).birth, s.sequence⟩ (s.sequence + 1) := by
  obtain ⟨body, fits, -⟩ := encode_eq_ok.mp writes.encoded
  exact ⟨held.positive, Nat.lt_succ_self _, writes.ino, writes.birth, writes.names, body, fits⟩

theorem written_long (writes : s.Writes id names part) {bytes : Bytes} (short : bytes.length ≤ copyBytes) :
    headerBytes ≤ (writeAt (s.disk id) (s.members id).copy.other.offset bytes).length := by
  have inside : (s.members id).copy.other.offset + bytes.length ≤ (s.disk id).length := by
    refine Nat.le_trans (Nat.add_le_add_left short _) (Nat.le_trans ?_ writes.long)
    cases (s.members id).copy <;> decide
  rw [writeAt_length inside]
  exact writes.long

/-- Each copy of a file written over, whole or torn, is none, as it was, or the header written. -/
theorem copies (writes : s.Writes id names part) {bytes : Bytes} (short : bytes.length ≤ copyBytes)
    (written : copyAt (writeAt (s.disk id) (s.members id).copy.other.offset bytes) (s.members id).copy.other = .ok none ∨
      copyAt (writeAt (s.disk id) (s.members id).copy.other.offset bytes) (s.members id).copy.other =
        copyAt (s.disk id) (s.members id).copy.other ∨
      copyAt (writeAt (s.disk id) (s.members id).copy.other.offset bytes) (s.members id).copy.other =
        .ok (some ⟨names, (s.members id).ino, (s.members id).birth, s.sequence⟩)) (held : s.Held) :
    DiskOk (Function.update s.disk id (writeAt (s.disk id) (s.members id).copy.other.offset bytes)) (s.sequence + 1) := by
  refine held.disk.update (Nat.le_succ _) (s.members id).copy.other (.inr (writes.written_long short)) fun copy => ?_
  obtain rfl | rfl := copy.other_or (s.members id).copy
  · obtain none_ | same | new := written
    · exact .inl none_
    · exact .inr (.inl same)
    · exact .inr (.inr ⟨rfl, _, new, rfl, writes.sound held⟩)
  · exact .inr (.inl (writes.copy_kept short))

theorem disk_written (writes : s.Writes id names part) (held : s.Held) :
    DiskOk (Function.update s.disk id (writeAt (s.disk id) (s.members id).copy.other.offset part)) (s.sequence + 1) :=
  writes.copies (Nat.le_of_eq (encode_length writes.encoded)) (.inr (.inr writes.copy_written)) held

/-- A header's write keeps what holds. -/
theorem held (writes : s.Writes id names part) (held : s.Held) : (s.written id names part).Held where
  disk := writes.disk_written held
  positive := Nat.succ_pos _
  outside other out := by
    have different : other ≠ id := fun same => absurd writes.used.1 (by
      rw [← same]
      exact Nat.not_lt.mpr out)
    have kept := held.outside other out
    exact ⟨(Function.update_of_ne different _ _).trans kept.1, (Function.update_of_ne different _ _).trans kept.2⟩
  coherent other := by
    obtain rfl | different := eq_or_ne other id
    · refine .inl ?_
      simp only [Mounted.written, Mounted.setMember, Mounted.flushed, Mounted.perform, PoolWrite.apply, Function.update_self]
      exact writes.newest_written held
    · simp only [Mounted.written, Mounted.setMember, Mounted.flushed, Mounted.perform, PoolWrite.apply,
        Function.update_of_ne different]
      exact held.coherent other
  free other member := by
    have different : other ≠ id := fun same => writes.used.2 (same ▸ member)
    simp only [Mounted.written, Mounted.setMember, Mounted.flushed, Mounted.perform, PoolWrite.apply,
      Function.update_of_ne different]
    exact held.free other member
  once := held.once

/-- Torn, a header's write leaves every member's newer copy as it was, or as the whole write leaves it. -/
theorem torn (writes : s.Writes id names part) (held : s.Held) {disk' : Nat → Bytes}
    (stopped : (PoolWrite.header id (s.members id).copy.other part).Torn s.disk disk') :
    DiskOk disk' (s.sequence + 1) ∧ (∀ other, (disk' other).drop headerBytes = (s.disk other).drop headerBytes) ∧
      ((∀ other, headerOf (disk' other) = headerOf (s.disk other)) ∨
        ∀ other, headerOf (disk' other) = headerOf ((s.written id names part).disk other)) := by
  obtain ⟨k, torn⟩ := stopped
  have short : (part.take k).length ≤ copyBytes := by
    rw [← encode_length writes.encoded, List.length_take]
    exact Nat.min_le_right _ _
  have whole := writes.copy_written
  rw [whole] at torn
  refine ⟨writes.copies short torn held, fun other => ?_, ?_⟩
  · obtain rfl | different := eq_or_ne other id
    · rw [Function.update_self, data_writeAt writes.long short]
    · rw [Function.update_of_ne different]
  · have others : ∀ other, other ≠ id → ∀ file, headerOf (Function.update s.disk id file other) = headerOf (s.disk other) :=
      fun other different file => by rw [Function.update_of_ne different]
    obtain ⟨older, read, below⟩ := kept_older held id
    have kept := (writes.copy_kept short).trans read
    obtain none_ | same | new := torn
    · refine .inl fun other => ?_
      obtain rfl | different := eq_or_ne other id
      · rw [Function.update_self]
        obtain known | ⟨none', -⟩ := held.coherent other
        · have own := (newest_some known).1
          rw [own] at read
          obtain rfl := Except.ok.inj read
          rw [headerOf_eq known]
          exact headerOf_eq (newest_of kept none_ fun claim some_ => by cases some_)
        · have blank := newest_eq_none none'
          rw [blank] at read
          obtain rfl := Except.ok.inj read
          rw [headerOf_none none']
          refine headerOf_none (newest_none fun copy => ?_)
          obtain rfl | rfl := copy.other_or (s.members other).copy
          · exact none_
          · exact kept
      · exact others other different _
    · refine .inl fun other => ?_
      obtain rfl | different := eq_or_ne other id
      · have both : ∀ copy, copyAt (writeAt (s.disk other) (s.members other).copy.other.offset (part.take k)) copy =
            copyAt (s.disk other) copy := by
          intro copy
          obtain rfl | rfl := copy.other_or (s.members other).copy
          · exact same
          · exact writes.copy_kept short
        rw [Function.update_self, headerOf, headerOf, newest, newest, both, both]
      · exact others other different _
    · refine .inr fun other => ?_
      obtain rfl | different := eq_or_ne other id
      · simp only [Mounted.written, Mounted.setMember, Mounted.flushed, Mounted.perform, PoolWrite.apply, Function.update_self]
        rw [headerOf_eq (writes.newest_written held)]
        refine headerOf_eq (newest_of new (b := older) ?_ below)
        rw [Copy.other_other]
        exact kept
      · simp only [Mounted.written, Mounted.setMember, Mounted.flushed, Mounted.perform, PoolWrite.apply,
          Function.update_of_ne different]

/-- A name's owner once a member's header is written: the member, if it has the name, or else the member that had it. -/
theorem owner_written (writes : s.Writes id names part) (held : s.Held)
    (others : ∀ name a b, a ≠ id → b ≠ id → name ∈ (s.members a).names → name ∈ (s.members b).names → a = b) (other : Nat) :
    Owner (s.written id names part).disk name other ↔
      if name ∈ names then other = id else other ≠ id ∧ name ∈ (s.members other).names := by
  have own : (s.written id names part).members id = { s.members id with names, sequence := s.sequence, copy := (s.members id).copy.other } :=
    Function.update_self ..
  have rest : ∀ k, k ≠ id → (s.written id names part).members k = s.members k := fun k different => Function.update_of_ne different ..
  rw [(writes.held held).owner_iff]
  by_cases claims : name ∈ names
  · rw [if_pos claims]
    constructor
    · rintro ⟨claims', top⟩
      refine by_contra fun different => ?_
      have below := top id (by rw [own]; exact claims)
      rw [rest other different] at claims' below
      rw [own] at below
      have above : (s.members other).sequence < s.sequence := (held.sound claims').below
      simp only at below
      omega
    · rintro rfl
      refine ⟨by rw [own]; exact claims, fun k claims' => ?_⟩
      obtain rfl | different := eq_or_ne k other
      · exact Nat.le_refl _
      · rw [rest k different] at claims' ⊢
        rw [own]
        exact Nat.le_of_lt (held.sound claims').below
  · rw [if_neg claims]
    constructor
    · rintro ⟨claims', -⟩
      obtain rfl | different := eq_or_ne other id
      · rw [own] at claims'
        exact absurd claims' claims
      · rw [rest other different] at claims'
        exact ⟨different, claims'⟩
    · rintro ⟨different, claims'⟩
      refine ⟨by rw [rest other different]; exact claims', fun k claims'' => ?_⟩
      obtain rfl | different' := eq_or_ne k id
      · rw [own] at claims''
        exact absurd claims'' claims
      · rw [rest k different'] at claims''
        exact Nat.le_of_eq (by rw [others name k other different' different claims'' claims'])

end Mounted.Writes

namespace Mounted.Held

theorem copyAt_nil (copy : Copy) : copyAt [] copy = .ok none := if_neg (by cases copy <;> simp [Copy.offset, copyBytes])

/-- Emptied, a member's file holds no header. -/
theorem released (held : s.Held) (inside : id < s.count) (used : id ∉ s.free) : (s.released id).Held := by
  have empty : setLength (s.disk id) 0 = [] := by simp [setLength]
  have disk : (s.released id).disk = Function.update s.disk id [] := by
    simp only [Mounted.released, Mounted.setMember, Mounted.flushed, Mounted.perform, PoolWrite.apply, empty]
  have own : (s.released id).members id = { s.members id with names := [], anonymous := false, opens := 0, sequence := 0, copy := .second } :=
    Function.update_self ..
  have rest : ∀ k, k ≠ id → (s.released id).members k = s.members k := fun k different => Function.update_of_ne different ..
  refine ⟨?_, held.positive, fun other out => ?_, fun other => ?_, fun other member => ?_, ?_⟩
  · rw [disk]
    exact held.disk.update (Nat.le_refl _) .first (.inl copyAt_nil) fun copy => .inl (copyAt_nil copy)
  · have different : other ≠ id := fun same => by
      subst same
      exact absurd inside (Nat.not_lt.mpr out)
    rw [disk, rest other different, Function.update_of_ne different]
    exact held.outside other out
  · rw [disk]
    obtain rfl | different := eq_or_ne other id
    · rw [Function.update_self, own]
      exact .inr ⟨newest_none copyAt_nil, rfl⟩
    · rw [Function.update_of_ne different, rest other different]
      exact held.coherent other
  · rw [disk]
    obtain rfl | different := eq_or_ne other id
    · rw [Function.update_self, own]
      exact ⟨inside, rfl, rfl, rfl, rfl⟩
    · rw [Function.update_of_ne different, rest other different]
      refine held.free other ?_
      obtain member | last := List.mem_append.mp member
      · exact member
      · exact absurd (List.mem_singleton.mp last) different
  · refine List.nodup_append.mpr ⟨held.once, List.pairwise_singleton _ _, ?_⟩
    intro a member b last same
    rw [List.mem_singleton] at last
    subst last same
    exact used member

/-- A member's file changed past its header keeps what holds. -/
theorem refiled (held : s.Held) {file : Bytes} (inside : id < s.count) (used : id ∉ s.free)
    (same : ∀ copy, copyAt file copy = copyAt (s.disk id) copy) (long : file = [] ∨ headerBytes ≤ file.length) (writes : List PoolWrite)
    (unflushed : Nat → Bool) : ({ s with disk := Function.update s.disk id file, writes, unflushed } : Mounted).Held := by
  have long : (∀ copy, copyAt file copy = .ok none) ∨ headerBytes ≤ file.length := long.imp_left fun blank => by
    rw [blank]
    exact copyAt_nil
  refine ⟨held.disk.update (Nat.le_refl _) .first long fun copy => .inr (.inl (same copy)), held.positive, fun other out => ?_,
    fun other => ?_, fun other member => ?_, held.once⟩
  · have different : other ≠ id := fun same => by
      subst same
      exact absurd inside (Nat.not_lt.mpr out)
    simp only [Function.update_of_ne different]
    exact held.outside other out
  · obtain rfl | different := eq_or_ne other id
    · simp only [Function.update_self, newest, same]
      exact held.coherent other
    · simp only [Function.update_of_ne different]
      exact held.coherent other
  · have different : other ≠ id := fun same => used (same ▸ member)
    simp only [Function.update_of_ne different]
    exact held.free other member

theorem copyAt_zeros (copy : Copy) : copyAt (List.replicate headerBytes 0) copy = .ok none := by
  have part : ((List.replicate headerBytes (0 : UInt8)).drop copy.offset).take copyBytes = List.replicate copyBytes 0 := by
    rw [List.drop_replicate, List.take_replicate]
    congr 1
    cases copy <;> decide
  rw [copyAt_of_long (Nat.le_of_eq List.length_replicate.symm), part, decode_blank]

/-- Written or cut past the header, a file's copies read as they did, an empty one's as none. -/
theorem copyAt_data {file : Bytes} (whole : file = [] ∨ headerBytes ≤ file.length) (at_ : Nat) (bytes : Bytes) (copy : Copy) :
    copyAt (writeAt file (headerBytes + at_) bytes) copy = copyAt file copy := by
  obtain blank | long := whole
  · rw [blank, copyAt_nil]
    have zeros : (writeAt [] (headerBytes + at_) bytes).take headerBytes = (List.replicate headerBytes 0).take headerBytes := by
      simp [writeAt, List.take_append, List.take_replicate]
    rw [copyAt_congr zeros, copyAt_zeros]
  · exact copyAt_congr (take_writeAt long)

theorem copyAt_cut {file : Bytes} (whole : file = [] ∨ headerBytes ≤ file.length) (length : Nat) (copy : Copy) :
    copyAt (setLength file (headerBytes + length)) copy = copyAt file copy := by
  obtain blank | long := whole
  · rw [blank, copyAt_nil]
    have zeros : (setLength [] (headerBytes + length)).take headerBytes = (List.replicate headerBytes 0).take headerBytes := by
      simp [setLength, List.take_replicate]
    rw [copyAt_congr zeros, copyAt_zeros]
  · exact copyAt_congr (take_setLength long)

end Mounted.Held

end

end Moe
