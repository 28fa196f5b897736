import Moe.Browser.Files

namespace Moe

open JsString

section

variable [Crypto]

/-- What a file's newer header copy holds. -/
def headerOf (file : Bytes) : Option PoolHeader :=
  match newest file with
  | .ok (some (header, _)) => some header
  | _ => none

/-- The member a name belongs to on disk: of those whose headers claim it, the one written last. -/
def Owner (disk : Nat → Bytes) (name : JsString) (member : Nat) : Prop := ∃ header, headerOf (disk member) = some header ∧
  name ∈ header.names ∧ ∀ other claim, headerOf (disk other) = some claim → name ∈ claim.names → claim.sequence ≤ header.sequence

/-- A header every part of which is read back as it is written. -/
structure PoolHeader.Sound (header : PoolHeader) (next : Nat) : Prop where
  positive : 0 < header.sequence
  below : header.sequence < next
  ino : header.ino < 2 ^ 64
  birth : header.birth < 2 ^ 64
  names : ∀ name ∈ header.names, PoolName name
  fits : ∃ body, encodeNames 42 header.names = .ok body

/-- A pool's files: each without a header or as long as both its copies, whose valid ones are sound and of different sequences. -/
structure DiskOk (disk : Nat → Bytes) (next : Nat) : Prop where
  long : ∀ id, (∀ copy, copyAt (disk id) copy = .ok none) ∨ headerBytes ≤ (disk id).length
  reads : ∀ id copy, ∃ header, copyAt (disk id) copy = .ok header
  sound : ∀ id copy header, copyAt (disk id) copy = .ok (some header) → header.Sound next
  apart : ∀ id copy header id' copy' header', copyAt (disk id) copy = .ok (some header) → copyAt (disk id') copy' = .ok (some header') →
    header.sequence = header'.sequence → id = id' ∧ copy = copy'

variable {disk : Nat → Bytes} {next next' id : Nat} {file : Bytes} {header : PoolHeader} {copy : Copy}

theorem newest_of (held : copyAt file copy = .ok (some header)) {b : Option PoolHeader} (rest : copyAt file copy.other = .ok b)
    (older : ∀ claim, b = some claim → claim.sequence < header.sequence) : newest file = .ok (some (header, copy)) := by
  cases copy with
  | first =>
    have second : copyAt file .second = .ok b := rest
    simp only [newest, held, second, bind, Except.bind, pure, Except.pure]
    cases b with
    | none => rfl
    | some claim =>
      have lower := older claim rfl
      simp only [if_neg (Nat.not_lt.mpr (Nat.le_of_lt lower))]
  | second =>
    have first : copyAt file .first = .ok b := rest
    simp only [newest, held, first, bind, Except.bind, pure, Except.pure]
    cases b with
    | none => rfl
    | some claim => simp only [if_pos (older claim rfl)]

theorem newest_none (blank : ∀ copy, copyAt file copy = .ok none) : newest file = .ok none := by
  simp only [newest, blank, bind, Except.bind, pure, Except.pure]

/-- The newer copy is one of the two, and the other one's is no newer. -/
theorem newest_some (found : newest file = .ok (some (header, copy))) : copyAt file copy = .ok (some header) ∧
    ∃ other, copyAt file copy.other = .ok other ∧ ∀ claim, other = some claim → claim.sequence ≤ header.sequence := by
  cases first : copyAt file .first with
  | error failure => simp [newest, first, bind, Except.bind] at found
  | ok a =>
    cases second : copyAt file .second with
    | error failure => simp [newest, first, second, bind, Except.bind] at found
    | ok b =>
      simp only [newest, first, second, bind, Except.bind, pure, Except.pure, Except.ok.injEq] at found
      cases a with
      | none =>
        cases b with
        | none => cases found
        | some b =>
          obtain ⟨rfl, rfl⟩ := Prod.mk.inj (Option.some.inj found)
          exact ⟨second, none, first, fun claim none_ => by cases none_⟩
      | some a =>
        cases b with
        | none =>
          obtain ⟨rfl, rfl⟩ := Prod.mk.inj (Option.some.inj found)
          exact ⟨first, none, second, fun claim none_ => by cases none_⟩
        | some b =>
          simp only at found
          split at found
          · rename_i newer
            obtain ⟨rfl, rfl⟩ := Prod.mk.inj (Option.some.inj found)
            exact ⟨second, some a, first, fun claim same => by rw [← Option.some.inj same]; omega⟩
          · rename_i older
            obtain ⟨rfl, rfl⟩ := Prod.mk.inj (Option.some.inj found)
            exact ⟨first, some b, second, fun claim same => by rw [← Option.some.inj same]; omega⟩

theorem newest_eq_none (found : newest file = .ok none) (copy : Copy) : copyAt file copy = .ok none := by
  cases first : copyAt file .first with
  | error failure => simp [newest, first, bind, Except.bind] at found
  | ok a =>
    cases second : copyAt file .second with
    | error failure => simp [newest, first, second, bind, Except.bind] at found
    | ok b =>
      simp only [newest, first, second, bind, Except.bind, pure, Except.pure, Except.ok.injEq] at found
      cases a with
      | none =>
        cases b with
        | none => cases copy <;> assumption
        | some b => cases found
      | some a =>
        cases b with
        | none => cases found
        | some b =>
          simp only at found
          split at found <;> cases found

theorem headerOf_eq (found : newest file = .ok (some (header, copy))) : headerOf file = some header := by
  rw [headerOf, found]

theorem headerOf_none (found : newest file = .ok none) : headerOf file = none := by
  rw [headerOf, found]

theorem DiskOk.newest (ok : DiskOk disk next) (id : Nat) : ∃ found, newest (disk id) = .ok found := by
  obtain ⟨first, same⟩ := ok.reads id .first
  obtain ⟨second, same'⟩ := ok.reads id .second
  exact ⟨_, by simp only [Moe.newest, same, same', bind, Except.bind]; rfl⟩

theorem DiskOk.headerOf_some (ok : DiskOk disk next) (found : headerOf (disk id) = some header) :
    ∃ copy, Moe.newest (disk id) = .ok (some (header, copy)) := by
  obtain ⟨held, same⟩ := ok.newest id
  cases held with
  | none =>
    rw [headerOf_none same] at found
    cases found
  | some pair =>
    obtain ⟨own, copy⟩ := pair
    rw [headerOf_eq same] at found
    obtain rfl := Option.some.inj found
    exact ⟨copy, same⟩

/-- Headers of one sequence are one member's. -/
theorem DiskOk.member_eq (ok : DiskOk disk next) {other : Nat} {claim : PoolHeader} (found : headerOf (disk id) = some header)
    (found' : headerOf (disk other) = some claim) (same : header.sequence = claim.sequence) : id = other := by
  obtain ⟨copy, newest_⟩ := ok.headerOf_some found
  obtain ⟨copy', newest'⟩ := ok.headerOf_some found'
  exact (ok.apart _ _ _ _ _ _ (newest_some newest_).1 (newest_some newest').1 same).1

/-- A name has one owner. -/
theorem Owner.unique (ok : DiskOk disk next) {name : JsString} {other : Nat} (own : Owner disk name id) (own' : Owner disk name other) :
    id = other := by
  obtain ⟨header, found, claims, top⟩ := own
  obtain ⟨claim, found', claims', top'⟩ := own'
  have below := top other claim found' claims'
  have above := top' id header found claims
  exact ok.member_eq found found' (by omega)

/-- A name claimed has an owner. -/
theorem DiskOk.exists_owner (ok : DiskOk disk next) {name : JsString} (found : headerOf (disk id) = some header) (claims : name ∈ header.names) :
    ∃ owner, Owner disk name owner := by
  have bound : header.sequence < next := by
    obtain ⟨copy, held⟩ := ok.headerOf_some found
    exact (ok.sound _ _ _ (newest_some held).1).below
  obtain ⟨room, same⟩ : ∃ room, next = header.sequence + room := ⟨next - header.sequence, by omega⟩
  clear bound
  induction room using Nat.strongRecOn generalizing id header with
  | _ room ih =>
    by_cases top : ∀ other claim, headerOf (disk other) = some claim → name ∈ claim.names → claim.sequence ≤ header.sequence
    · exact ⟨id, header, found, claims, top⟩
    · push Not at top
      obtain ⟨other, claim, found', claims', above⟩ := top
      have bound : claim.sequence < next := by
        obtain ⟨copy, held⟩ := ok.headerOf_some found'
        exact (ok.sound _ _ _ (newest_some held).1).below
      exact ih (next - claim.sequence) (by omega) found' claims' (by omega)

/-- Files told alike by their headers have the same owners. -/
theorem owner_congr {disk disk' : Nat → Bytes} (same : ∀ id, headerOf (disk' id) = headerOf (disk id)) (name : JsString) (id : Nat) :
    Owner disk' name id ↔ Owner disk name id := by
  simp only [Owner, same]

/-- A member's file changed: each of its copies is none, as it was, or fresh at the next sequence. -/
theorem DiskOk.update (ok : DiskOk disk next) (above : next ≤ next') (fresh : Copy)
    (long : (∀ copy, copyAt file copy = .ok none) ∨ headerBytes ≤ file.length)
    (copies : ∀ copy, copyAt file copy = .ok none ∨ copyAt file copy = copyAt (disk id) copy ∨
      copy = fresh ∧ ∃ header, copyAt file copy = .ok (some header) ∧ header.sequence = next ∧ header.Sound next') :
    DiskOk (Function.update disk id file) next' := by
  -- A valid copy of the files changed is an old one or the fresh one.
  have cases_ : ∀ other copy header, copyAt (Function.update disk id file other) copy = .ok (some header) →
      copyAt (disk other) copy = .ok (some header) ∨ (other = id ∧ copy = fresh ∧ header.sequence = next ∧ header.Sound next') := by
    intro other copy header held
    obtain rfl | different := eq_or_ne other id
    · rw [Function.update_self] at held
      obtain none_ | same | ⟨own, fresh_, held', sequence, sound⟩ := copies copy
      · rw [none_] at held
        cases held
      · exact .inl (same ▸ held)
      · rw [held'] at held
        obtain rfl := Option.some.inj (Except.ok.inj held)
        exact .inr ⟨rfl, own, sequence, sound⟩
    · rw [Function.update_of_ne different] at held
      exact .inl held
  refine ⟨fun other => ?_, fun other copy => ?_, fun other copy header held => ?_, fun a copy header b copy' header' held held' same => ?_⟩
  · obtain rfl | different := eq_or_ne other id
    · rwa [Function.update_self]
    · rw [Function.update_of_ne different]
      exact ok.long other
  · obtain rfl | different := eq_or_ne other id
    · rw [Function.update_self]
      obtain none_ | same | ⟨-, header, held, -⟩ := copies copy
      · exact ⟨_, none_⟩
      · rw [same]
        exact ok.reads other copy
      · exact ⟨_, held⟩
    · rw [Function.update_of_ne different]
      exact ok.reads other copy
  · obtain old | ⟨-, -, -, sound⟩ := cases_ other copy header held
    · have sound := ok.sound other copy header old
      exact ⟨sound.positive, Nat.lt_of_lt_of_le sound.below above, sound.ino, sound.birth, sound.names, sound.fits⟩
    · exact sound
  · obtain old | ⟨rfl, rfl, sequence, -⟩ := cases_ a copy header held
    · obtain old' | ⟨rfl, rfl, sequence', -⟩ := cases_ b copy' header' held'
      · exact ok.apart _ _ _ _ _ _ old old' same
      · have below := (ok.sound a copy header old).below
        omega
    · obtain old' | ⟨rfl, rfl, -⟩ := cases_ b copy' header' held'
      · have below := (ok.sound b copy' header' old').below
        omega
      · exact ⟨rfl, rfl⟩

end

end Moe
