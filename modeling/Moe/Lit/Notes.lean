import Moe.Pool.Field
import Moe.Reading

namespace Moe

/-- Which bytes are an Ed25519 key, canonical and not of small order; the curve is the package's. -/
class PublicKeys where
  isValidPublicKey : Bytes → Bool

export PublicKeys (isValidPublicKey)

namespace Lit

def maxInputs : Nat := 2
def maxOutputs : Nat := 4

/-- An output as a statement carries it. -/
structure Output where
  backing : Bytes
  value : Nat
  owner : Bytes
  deriving DecidableEq

/-- A note's opening; its domain is the configuration's. -/
structure Opening extends Output where
  rho : Bytes
  deriving DecidableEq

def field32 (value : Bytes) (what : String) : Except Failure Bytes := do
  require (value.length = 32) (.encoding s!"{what} must be 32 bytes")
  return value

/-- A value or quantity: a positive u64. -/
def positive (value : Nat) (what : String) : Except Failure Nat := do
  require (0 < value && value < valueBound) (.encoding s!"{what} is not a positive u64")
  return value

def u64 (value : Nat) (what : String) : Except Failure Nat := do
  require (value < valueBound) (.encoding s!"{what} outside u64")
  return value

def writeOutput (o : Output) : Bytes := o.backing ++ toBytes 8 o.value ++ o.owner

def writeOpening (o : Opening) : Bytes := writeOutput o.toOutput ++ o.rho

def readOutput : Reader Output := do
  let backing ← Reader.raw 32
  let value ← Reader.u64
  let owner ← Reader.raw 32
  return { backing, value, owner }

def readOpening : Reader Opening := do
  let output ← readOutput
  let rho ← Reader.raw 32
  return { output with rho }

section Keys

variable [PublicKeys]

/-- A key: 32 bytes, canonical and not of small order. -/
def key32 (value : Bytes) (what : String) : Except Failure Bytes := do
  let own ← field32 value what
  require (isValidPublicKey own) (.encoding s!"invalid {what} key")
  return own

def ownOutput (o : Output) : Except Failure Output := do
  let backing ← field32 o.backing "backing"
  let value ← positive o.value "value"
  let owner ← key32 o.owner "owner"
  return { backing, value, owner }

def ownOpening (o : Opening) : Except Failure Opening := do
  let backing ← field32 o.backing "backing"
  let value ← positive o.value "value"
  let owner ← key32 o.owner "owner"
  let rho ← field32 o.rho "rho"
  return { backing, value, owner, rho }

/-- An output every codec takes. -/
def Output.Sound (o : Output) : Prop :=
  o.backing.length = 32 ∧ (0 < o.value ∧ o.value < valueBound) ∧ o.owner.length = 32 ∧ isValidPublicKey o.owner = true

/-- An opening every codec takes. -/
def Opening.Sound (o : Opening) : Prop := o.toOutput.Sound ∧ o.rho.length = 32

end Keys

/-- An output at the widths its bytes have. -/
def Output.Framed (o : Output) : Prop := o.backing.length = 32 ∧ o.value < 2 ^ 64 ∧ o.owner.length = 32

/-- An opening at the widths its bytes have. -/
def Opening.Framed (o : Opening) : Prop := o.toOutput.Framed ∧ o.rho.length = 32

section Derived

variable [Crypto]

/-- The commitment of a checked opening. -/
def noteCommitment (domain : Bytes) (opening : Opening) : Bytes := sha256 (tag "moe/lit/v1/note" ++ domain ++ writeOpening opening)

/-- Public, and fixed when the note is created. -/
def noteNullifier (commitment : Bytes) : Bytes := sha256 (tag "moe/lit/v1/nullifier" ++ commitment)

def noteTag (nullifier : Bytes) : Bytes := sha256 (tag "moe/lit/v1/tag" ++ nullifier)

/-- An issued output's randomness, from its issue's fields. -/
def issueRho (output : Output) (nonce : Bytes) : Bytes := sha256 (tag "moe/lit/v1/rho/issue" ++ writeOutput output ++ nonce)

/-- The randomness of output `position` of a statement that consumes `nullifiers`, in input order. -/
def spendRho (nullifiers : List Bytes) (position : Nat) : Bytes :=
  sha256 (tag "moe/lit/v1/rho/spend" ++ toBytes 1 nullifiers.length ++ nullifiers.flatten ++ toBytes 1 position)

end Derived

theorem field32_eq_ok {value own : Bytes} {what : String} : field32 value what = .ok own ↔ value.length = 32 ∧ own = value := by
  simp only [field32, bind_eq_ok, require_eq_ok, pure_eq_ok, decide_eq_true_eq]
  constructor
  · rintro ⟨-, width, rfl⟩
    exact ⟨width, rfl⟩
  · rintro ⟨width, rfl⟩
    exact ⟨(), width, rfl⟩

theorem positive_eq_ok {value own : Nat} {what : String} :
    positive value what = .ok own ↔ (0 < value ∧ value < valueBound) ∧ own = value := by
  simp only [positive, bind_eq_ok, require_eq_ok, pure_eq_ok, decide_eq_true_eq, Bool.and_eq_true]
  constructor
  · rintro ⟨-, range, rfl⟩
    exact ⟨range, rfl⟩
  · rintro ⟨range, rfl⟩
    exact ⟨(), range, rfl⟩

theorem u64_eq_ok {value own : Nat} {what : String} : u64 value what = .ok own ↔ value < valueBound ∧ own = value := by
  simp only [u64, bind_eq_ok, require_eq_ok, pure_eq_ok, decide_eq_true_eq]
  constructor
  · rintro ⟨-, range, rfl⟩
    exact ⟨range, rfl⟩
  · rintro ⟨range, rfl⟩
    exact ⟨(), range, rfl⟩

theorem key32_eq_ok [PublicKeys] {value own : Bytes} {what : String} :
    key32 value what = .ok own ↔ (value.length = 32 ∧ isValidPublicKey value = true) ∧ own = value := by
  simp only [key32, bind_eq_ok, field32_eq_ok, require_eq_ok, pure_eq_ok]
  constructor
  · rintro ⟨_, ⟨width, rfl⟩, _, valid, rfl⟩
    exact ⟨⟨width, valid⟩, rfl⟩
  · rintro ⟨⟨width, valid⟩, rfl⟩
    exact ⟨_, ⟨width, rfl⟩, (), valid, rfl⟩

theorem ownOutput_eq_ok [PublicKeys] {o own : Output} : ownOutput o = .ok own ↔ o.Sound ∧ own = o := by
  simp only [ownOutput, bind_eq_ok, field32_eq_ok, positive_eq_ok, key32_eq_ok, pure_eq_ok]
  constructor
  · rintro ⟨_, ⟨backing, rfl⟩, _, ⟨value, rfl⟩, _, ⟨⟨owner, valid⟩, rfl⟩, rfl⟩
    exact ⟨⟨backing, value, owner, valid⟩, rfl⟩
  · rintro ⟨⟨backing, value, owner, valid⟩, rfl⟩
    exact ⟨_, ⟨backing, rfl⟩, _, ⟨value, rfl⟩, _, ⟨⟨owner, valid⟩, rfl⟩, rfl⟩

theorem ownOpening_eq_ok [PublicKeys] {o own : Opening} : ownOpening o = .ok own ↔ o.Sound ∧ own = o := by
  simp only [ownOpening, bind_eq_ok, field32_eq_ok, positive_eq_ok, key32_eq_ok, pure_eq_ok]
  constructor
  · rintro ⟨_, ⟨backing, rfl⟩, _, ⟨value, rfl⟩, _, ⟨⟨owner, valid⟩, rfl⟩, _, ⟨rho, rfl⟩, rfl⟩
    exact ⟨⟨⟨backing, value, owner, valid⟩, rho⟩, rfl⟩
  · rintro ⟨⟨⟨backing, value, owner, valid⟩, rho⟩, rfl⟩
    exact ⟨_, ⟨backing, rfl⟩, _, ⟨value, rfl⟩, _, ⟨⟨owner, valid⟩, rfl⟩, _, ⟨rho, rfl⟩, rfl⟩

theorem Output.Sound.framed [PublicKeys] {o : Output} (sound : o.Sound) : o.Framed := ⟨sound.1, sound.2.1.2, sound.2.2.1⟩

theorem Opening.Sound.framed [PublicKeys] {o : Opening} (sound : o.Sound) : o.Framed := ⟨sound.1.framed, sound.2⟩

theorem readOutput_inverts : Inverts readOutput writeOutput Output.Framed := by
  intro s o t
  simp only [readOutput, read_bind_eq_ok, read_pure_eq_ok, Reader.raw_inverts _ _ _ _, Reader.u64_inverts _ _ _]
  constructor
  · rintro ⟨_, _, ⟨backing, rfl⟩, _, _, ⟨value, rfl⟩, _, _, ⟨owner, rfl⟩, rfl, rfl⟩
    refine ⟨⟨backing, value, owner⟩, ?_⟩
    simp only [writeOutput, id_eq, List.append_assoc]
  · rintro ⟨⟨backing, value, owner⟩, rfl⟩
    refine ⟨o.backing, _, ⟨backing, ?_⟩, o.value, _, ⟨value, rfl⟩, o.owner, t, ⟨owner, rfl⟩, rfl, rfl⟩
    simp only [writeOutput, id_eq, List.append_assoc]

theorem readOpening_inverts : Inverts readOpening writeOpening Opening.Framed := by
  intro s o t
  simp only [readOpening, read_bind_eq_ok, read_pure_eq_ok, Reader.raw_inverts _ _ _ _, readOutput_inverts _ _ _]
  constructor
  · rintro ⟨_, _, ⟨output, rfl⟩, _, _, ⟨rho, rfl⟩, rfl, rfl⟩
    refine ⟨⟨output, rho⟩, ?_⟩
    simp only [writeOpening, id_eq, List.append_assoc]
  · rintro ⟨⟨output, rho⟩, rfl⟩
    refine ⟨o.toOutput, _, ⟨output, ?_⟩, o.rho, t, ⟨rho, rfl⟩, rfl, rfl⟩
    simp only [writeOpening, id_eq, List.append_assoc]

theorem writeOutput_length {o : Output} (framed : o.Framed) : (writeOutput o).length = 72 := by
  obtain ⟨backing, -, owner⟩ := framed
  simp only [writeOutput, List.length_append, toBytes_length, backing, owner]

theorem writeOpening_length {o : Opening} (framed : o.Framed) : (writeOpening o).length = 104 := by
  rw [writeOpening, List.length_append, writeOutput_length framed.1, framed.2]

end Lit

end Moe
