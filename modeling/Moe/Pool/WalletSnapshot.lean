import Mathlib.Algebra.GroupWithZero.Nat
import Moe.Reading
import Moe.Writing
import Moe.Lib.JsString

namespace Moe.WalletSnapshots

open JsString

/-- A stored cell: TEXT, BLOB or NULL. -/
inductive WalletCell
  | text (s : JsString)
  | blob (bytes : Bytes)
  | null
  deriving DecidableEq

structure WalletSnapshot where
  profile : JsString
  seed : Bytes
  /-- Rows of each table in the wallet's fixed order, each in storage order. -/
  tables : List (List (List WalletCell))
  deriving DecidableEq

/-- A length or a count as the platform writes it. -/
def u32 (n : Nat) : Except Failure Bytes := do
  require (n < 2 ^ 32) (.rangeError "The value of \"value\" is out of range.")
  return toBytes 4 n

/-- Exact plaintext length of a cell. -/
def cellBytes : WalletCell → Nat
  | .null => 1
  | .text s => 5 + s.textEncode.length
  | .blob bytes => 5 + bytes.length

def encodeSized (bytes : Bytes) : Except Failure Bytes := do
  let length ← u32 bytes.length
  return length ++ bytes

def encodeCell : WalletCell → Except Failure Bytes
  | .null => .ok [0]
  | .text s => do
    let sized ← encodeSized s.textEncode
    return [1] ++ sized
  | .blob bytes => do
    let sized ← encodeSized bytes
    return [2] ++ sized

def encodeTable (rows : List (List WalletCell)) : Except Failure Bytes := do
  let count ← u32 rows.length
  let cells ← rows.flatten.mapM encodeCell
  return count ++ cells.flatten

def encodeWalletSnapshot (snapshot : WalletSnapshot) : Except Failure Bytes := do
  require (snapshot.seed.length = 32) (.encoding "wallet seed must be 32 bytes")
  let profile ← encodeSized snapshot.profile.textEncode
  let tables ← snapshot.tables.mapM encodeTable
  return profile ++ snapshot.seed ++ tables.flatten

def take (n : Nat) : Reader Bytes := takeOr (.encoding "truncated wallet snapshot") n

def count : Reader Nat := do return ofBytes (← take 4)

/-- The string bytes hold, where it is written as them. -/
def text (bytes : Bytes) : Except Failure JsString :=
  match textDecodeKeeping bytes with
  | none => .error (.encoding "wallet snapshot text is not UTF-8")
  | some s => if s.textEncode = bytes then .ok s else .error (.encoding "wallet snapshot text is not canonical")

def readSized : Reader Bytes := do
  let n ← count
  take n

def readText : Reader JsString := do
  let bytes ← readSized
  text bytes

def readCell : Reader WalletCell := do
  let kind ← take 1
  if kind = [0] then return .null
  else if kind = [1] then do
    let own ← readText
    return .text own
  else if kind = [2] then do
    let bytes ← readSized
    return .blob bytes
  else throw (.encoding "invalid wallet snapshot cell")

def readTable (width : Nat) : Reader (List (List WalletCell)) := do
  let n ← count
  Reader.times (Reader.times readCell width) n

def readTables : List Nat → Reader (List (List (List WalletCell)))
  | [] => pure []
  | width :: columns => do
    let rows ← readTable width
    let rest ← readTables columns
    return rows :: rest

def readSnapshot (columns : List Nat) : Reader WalletSnapshot := do
  let profile ← readText
  let seed ← take 32
  let tables ← readTables columns
  return { profile, seed, tables }

def decodeWalletSnapshot (bytes : Bytes) (columns : List Nat) : Except Failure WalletSnapshot :=
  wholly (.encoding "trailing wallet snapshot bytes") (readSnapshot columns) bytes

/-- Bytes whose length a `u32` holds. -/
def Sized (bytes : Bytes) : Prop := bytes.length < 2 ^ 32

/-- Text without a lone surrogate, of a length a `u32` holds. -/
def Texted (s : JsString) : Prop := s.isWellFormed = true ∧ Sized s.textEncode

/-- A cell that can be stored. -/
def WalletCell.Formed : WalletCell → Prop
  | .null => True
  | .text s => Texted s
  | .blob bytes => Sized bytes

def cellForm : WalletCell → Bytes
  | .null => [0]
  | .text s => [1] ++ lengthPrefixed s.textEncode
  | .blob bytes => [2] ++ lengthPrefixed bytes

/-- A table of rows of `width` cells. -/
def TableFormed (width : Nat) (rows : List (List WalletCell)) : Prop :=
  rows.length < 2 ^ 32 ∧ ∀ row ∈ rows, row.length = width ∧ ∀ cell ∈ row, cell.Formed

def tableForm (rows : List (List WalletCell)) : Bytes := toBytes 4 rows.length ++ rows.flatMap (List.flatMap cellForm)

/-- A snapshot of well-formed text whose rows match the column counts. -/
structure WalletSnapshot.Formed (columns : List Nat) (snapshot : WalletSnapshot) : Prop where
  profile : Texted snapshot.profile
  seed : snapshot.seed.length = 32
  tables : List.Forall₂ TableFormed columns snapshot.tables

def WalletSnapshot.form (snapshot : WalletSnapshot) : Bytes :=
  lengthPrefixed snapshot.profile.textEncode ++ (snapshot.seed ++ snapshot.tables.flatMap tableForm)

theorem u32_of {n : Nat} (bound : n < 2 ^ 32) : u32 n = .ok (toBytes 4 n) := by
  rw [u32, require, if_pos (decide_eq_true bound)]
  rfl

theorem encodeSized_of {bytes : Bytes} (sized : Sized bytes) : encodeSized bytes = .ok (lengthPrefixed bytes) := by
  rw [encodeSized, u32_of sized]
  rfl

theorem encodeCell_of {cell : WalletCell} (formed : cell.Formed) : encodeCell cell = .ok (cellForm cell) := by
  cases cell with
  | null => rfl
  | text s =>
    rw [encodeCell, encodeSized_of formed.2]
    rfl
  | blob bytes =>
    rw [encodeCell, encodeSized_of formed]
    rfl

theorem encodeTable_of {width : Nat} {rows : List (List WalletCell)} (formed : TableFormed width rows) :
    encodeTable rows = .ok (tableForm rows) := by
  have cells : rows.flatten.mapM encodeCell = .ok (rows.flatten.map cellForm) := mapM_written fun cell member => by
    obtain ⟨row, within, member⟩ := List.mem_flatten.mp member
    exact encodeCell_of ((formed.2 row within).2 cell member)
  have joined : (rows.flatten.map cellForm).flatten = rows.flatMap (List.flatMap cellForm) := by
    rw [← List.flatMap_def, List.flatten_eq_flatMap, List.flatMap_assoc]
    rfl
  rw [encodeTable, u32_of formed.1, cells, tableForm, ← joined]
  rfl

theorem encodeWalletSnapshot_of {columns : List Nat} {snapshot : WalletSnapshot} (formed : snapshot.Formed columns) :
    encodeWalletSnapshot snapshot = .ok snapshot.form := by
  have tables : snapshot.tables.mapM encodeTable = .ok (snapshot.tables.map tableForm) := mapM_written fun rows member => by
    obtain ⟨i, within, rfl⟩ := List.mem_iff_getElem.mp member
    have inside : i < columns.length := by rw [formed.tables.length_eq]; exact within
    exact encodeTable_of ((List.forall₂_iff_get.mp formed.tables).2 i inside within)
  rw [encodeWalletSnapshot, require, if_pos (decide_eq_true formed.seed), encodeSized_of formed.profile.2, tables, WalletSnapshot.form,
    ← List.append_assoc, List.flatMap_def]
  rfl

theorem take_inverts (n : Nat) : Inverts (take n) id fun bytes => bytes.length = n := takeOr_inverts _ n

theorem count_inverts : Inverts count (toBytes 4) (· < 2 ^ 32) := Reader.uintOr_inverts _ 4

theorem readSized_inverts : Inverts readSized lengthPrefixed Sized := Reader.sizedOr_inverts _

theorem text_eq_ok {bytes : Bytes} {s : JsString} : text bytes = .ok s ↔ s.isWellFormed = true ∧ s.textEncode = bytes := by
  unfold text
  constructor
  · intro read
    split at read
    · cases read
    · rename_i other decoded
      split at read
      · rename_i same
        obtain rfl := Except.ok.inj read
        exact ⟨isWellFormed_of_textDecodeKeeping decoded, same⟩
      · cases read
  · rintro ⟨well, rfl⟩
    rw [textDecodeKeeping_textEncode well]
    exact if_pos rfl

theorem readText_inverts : Inverts readText (fun s => lengthPrefixed s.textEncode) Texted := by
  intro s own t
  simp only [readText, read_bind_eq_ok, read_lift_eq_ok, readSized_inverts _ _ _, text_eq_ok]
  constructor
  · rintro ⟨bytes, m, ⟨sized, rfl⟩, ⟨well, rfl⟩, rfl⟩
    exact ⟨⟨well, sized⟩, rfl⟩
  · rintro ⟨⟨well, sized⟩, rfl⟩
    exact ⟨own.textEncode, t, ⟨sized, rfl⟩, ⟨well, rfl⟩, rfl⟩

theorem readCell_inverts : Inverts readCell cellForm WalletCell.Formed := by
  intro s cell t
  rw [readCell, read_bind_eq_ok]
  constructor
  · rintro ⟨kind, m, ran, read⟩
    obtain ⟨-, rfl⟩ := (take_inverts _ _ _ _).mp ran
    split at read
    · rename_i null
      obtain ⟨rfl, rfl⟩ := read_pure_eq_ok.mp read
      exact ⟨trivial, by rw [null]; rfl⟩
    split at read
    · rename_i text
      obtain ⟨own, rest, ran, done⟩ := read_bind_eq_ok.mp read
      obtain ⟨texted, rfl⟩ := (readText_inverts _ _ _).mp ran
      obtain ⟨rfl, rfl⟩ := read_pure_eq_ok.mp done
      exact ⟨texted, by rw [text, cellForm, List.append_assoc]; rfl⟩
    split at read
    · rename_i blob
      obtain ⟨bytes, rest, ran, done⟩ := read_bind_eq_ok.mp read
      obtain ⟨sized, rfl⟩ := (readSized_inverts _ _ _).mp ran
      obtain ⟨rfl, rfl⟩ := read_pure_eq_ok.mp done
      exact ⟨sized, by rw [blob, cellForm, List.append_assoc]; rfl⟩
    · cases read
  · rintro ⟨formed, rfl⟩
    cases cell with
    | null => exact ⟨[0], t, (take_inverts 1).reads rfl t, rfl⟩
    | text own =>
      refine ⟨[1], lengthPrefixed own.textEncode ++ t, ?_, ?_⟩
      · rw [cellForm, List.append_assoc]
        exact (take_inverts 1).reads rfl _
      rw [if_neg (by decide), if_pos rfl]
      exact read_bind_eq_ok.mpr ⟨own, t, readText_inverts.reads formed t, rfl⟩
    | blob bytes =>
      refine ⟨[2], lengthPrefixed bytes ++ t, ?_, ?_⟩
      · rw [cellForm, List.append_assoc]
        exact (take_inverts 1).reads rfl _
      rw [if_neg (by decide), if_neg (by decide), if_pos rfl]
      exact read_bind_eq_ok.mpr ⟨bytes, t, readSized_inverts.reads formed t, rfl⟩

theorem readTable_inverts (width : Nat) : Inverts (readTable width) tableForm (TableFormed width) :=
  (count_inverts.bind List.length (fun n _ => Reader.times_inverts (Reader.times_inverts readCell_inverts width) n)
    fun _ _ _ many => many.1).congr (fun _ => ⟨fun formed => ⟨formed.1, formed.2.2⟩, fun formed => ⟨formed.1, rfl, formed.2⟩⟩)
    fun _ _ => rfl

theorem readTables_inverts (columns : List Nat) :
    Inverts (readTables columns) (List.flatMap tableForm) (List.Forall₂ TableFormed columns) := by
  induction columns with
  | nil =>
    intro s tables t
    rw [readTables, read_pure_eq_ok]
    constructor
    · rintro ⟨rfl, rfl⟩
      exact ⟨.nil, rfl⟩
    · rintro ⟨formed, rfl⟩
      cases formed
      exact ⟨rfl, rfl⟩
  | cons width columns ih =>
    intro s tables t
    simp only [readTables, read_bind_eq_ok, read_pure_eq_ok, readTable_inverts width _ _ _, ih _ _ _]
    constructor
    · rintro ⟨rows, m, ⟨first, rfl⟩, rest, m', ⟨others, rfl⟩, rfl, rfl⟩
      exact ⟨.cons first others, by rw [List.flatMap_cons, List.append_assoc]⟩
    · rintro ⟨formed, rfl⟩
      cases formed with
      | @cons _ rows _ rest first others =>
        exact ⟨rows, rest.flatMap tableForm ++ t, ⟨first, by rw [List.flatMap_cons, List.append_assoc]⟩, rest, t, ⟨others, rfl⟩, rfl, rfl⟩

theorem readSnapshot_inverts (columns : List Nat) : Inverts (readSnapshot columns) WalletSnapshot.form (WalletSnapshot.Formed columns) := by
  intro s snapshot t
  simp only [readSnapshot, read_bind_eq_ok, read_pure_eq_ok, readText_inverts _ _ _, take_inverts _ _ _ _, readTables_inverts columns _ _ _]
  constructor
  · rintro ⟨profile, _, ⟨texted, rfl⟩, seed, _, ⟨wide, rfl⟩, tables, _, ⟨formed, rfl⟩, rfl, rfl⟩
    exact ⟨⟨texted, wide, formed⟩, by simp only [WalletSnapshot.form, List.append_assoc, id_eq]⟩
  · rintro ⟨⟨texted, wide, formed⟩, rfl⟩
    exact ⟨snapshot.profile, _, ⟨texted, by rw [WalletSnapshot.form, List.append_assoc]⟩, snapshot.seed, _,
      ⟨wide, by rw [List.append_assoc]; rfl⟩, snapshot.tables, t, ⟨formed, rfl⟩, rfl, rfl⟩

end Moe.WalletSnapshots
