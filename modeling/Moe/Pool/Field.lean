import Moe.Bytes

namespace Moe

/-- The BN254 scalar field modulus. -/
def fieldModulus : Nat :=
  21888242871839275222246405745257275088548364400416034343698204186575808495617

/-- A limb of a 32-byte identifier is below this. -/
def limbBound : Nat := 2 ^ 128

/-- A note value or a public quantity is below this. -/
def valueBound : Nat := 2 ^ 64

/-- A stored key is a 256-bit value. -/
def keyBound : Nat := 2 ^ 256

def isField (value : Nat) : Bool := value < fieldModulus
def isValue (value : Nat) : Bool := value < valueBound

/-- A field element fits a stored key. -/
theorem isField_lt_keyBound {value : Nat} (canonical : isField value = true) : value < keyBound :=
  Nat.lt_trans (of_decide_eq_true canonical) (by decide)

def requireField (value : Nat) (what : String) : Except Failure Nat := do
  require (isField value) (.encoding s!"{what} is not a canonical field element")
  return value

def fieldToBytes (value : Nat) : Bytes := toBytes 32 value

/-- Strict inverse of `fieldToBytes`: below the modulus. -/
def bytesToField (bytes : Bytes) : Except Failure Nat := do
  require (bytes.length = 32) (.encoding "field element must be 32 bytes")
  requireField (ofBytes bytes) "field element"

/-- The identifier with two 16-byte limbs. -/
def identifierOf (hi lo : Nat) : Except Failure Bytes := do
  require (hi < limbBound && lo < limbBound) (.encoding "identifier limb out of range")
  return toBytes 16 hi ++ toBytes 16 lo

/-- What the repository takes from its packages: SHA-256, the Poseidon2 sponge, whose answer is
checked canonical, and strict Ed25519 verification of (signature, message, key). -/
class Crypto where
  sha256 : Bytes → Bytes
  poseidon2Hash : List Nat → Nat
  verifySignatureStrict : Bytes → Bytes → Bytes → Bool
  sha256_length : ∀ bytes, (sha256 bytes).length = 32
  poseidon2Hash_isField : ∀ inputs, isField (poseidon2Hash inputs) = true

export Crypto (sha256 poseidon2Hash verifySignatureStrict)

/-- No frame of the one has another frame's digest in the other. -/
def HashesApart [Crypto] (first second : List Bytes) : Prop := ∀ x ∈ first, ∀ y ∈ second, sha256 x = sha256 y → x = y

/-- A running digest below the modulus. -/
def sampleDigest (seed : Nat) (values : List Nat) : Nat :=
  values.foldl (fun digest value => (digest * 257 + value + 1) % (2 ^ 251 - 9)) seed

theorem sampleDigest_lt {seed : Nat} (bound : seed < 2 ^ 251 - 9) (values : List Nat) : sampleDigest seed values < 2 ^ 251 - 9 := by
  induction values generalizing seed with
  | nil => exact bound
  | cons value rest ih => exact ih (Nat.mod_lt _ (by decide))

/-- Digests and signatures a run on fixed inputs evaluates, a signature being a digest of its key and message. -/
@[reducible] def sampleCrypto : Crypto where
  sha256 bytes := toBytes 32 (sampleDigest 7 (bytes.map (·.toNat)))
  poseidon2Hash values := sampleDigest 11 values
  verifySignatureStrict signature message key := signature = toBytes 64 (sampleDigest 13 ((key ++ message).map (·.toNat)))
  sha256_length _ := toBytes_length ..
  poseidon2Hash_isField values := by
    have bound := sampleDigest_lt (by decide : 11 < 2 ^ 251 - 9) values
    exact decide_eq_true (Nat.lt_trans bound (by decide))

/-- The tag a nullifier presents: its Poseidon2 hash under the tag domain. -/
def tagOf [Crypto] (nf : Nat) : Nat := poseidon2Hash [1007, nf]

theorem tagOf_isField [Crypto] (nf : Nat) : isField (tagOf nf) = true := Crypto.poseidon2Hash_isField _

end Moe

namespace Moe

/-- The limbs of an identifier, high then low. -/
def limbsOf (identifier : Bytes) : Except Failure (Nat × Nat) := do
  require (identifier.length = 32) (.encoding "identifier must be 32 bytes")
  return (ofBytes (identifier.take 16), ofBytes (identifier.drop 16))

theorem limbsOf_eq_ok {identifier : Bytes} {limbs : Nat × Nat} : limbsOf identifier = .ok limbs ↔
    identifier.length = 32 ∧ limbs = (ofBytes (identifier.take 16), ofBytes (identifier.drop 16)) := by
  rw [limbsOf, bind_unit_eq_ok, require_eq_ok, decide_eq_true_eq, pure_eq_ok]
  exact and_congr_right fun _ => eq_comm

/-- Identifiers with the same limbs are the same. -/
theorem limbsOf_inj {first second : Bytes} {limbs : Nat × Nat} (own : limbsOf first = .ok limbs) (other : limbsOf second = .ok limbs) :
    first = second := by
  obtain ⟨length, rfl⟩ := limbsOf_eq_ok.mp own
  obtain ⟨length', same⟩ := limbsOf_eq_ok.mp other
  rw [Prod.mk.injEq] at same
  have half : ∀ {x y : Bytes}, x.length = y.length → ofBytes x = ofBytes y → x = y := by
    intro x y lengths digests
    rw [← toBytes_ofBytes x, ← toBytes_ofBytes y, lengths, digests]
  rw [← List.take_append_drop 16 first, ← List.take_append_drop 16 second, half (by simp [length, length']) same.1,
    half (by simp [length, length']) same.2]

def hexDigit (value : Nat) : UInt8 := UInt8.ofNat (if value < 10 then 48 + value else 87 + value)

def hexText (bytes : Bytes) : Bytes := bytes.flatMap fun byte => [hexDigit (byte.toNat / 16), hexDigit (byte.toNat % 16)]

theorem hexDigit_inj : ∀ a < 16, ∀ b < 16, hexDigit a = hexDigit b → a = b := by decide

/-- Bytes are read off their digits. -/
theorem hexText_inj {first second : Bytes} (same : hexText first = hexText second) : first = second := by
  induction first generalizing second with
  | nil =>
    cases second with
    | nil => rfl
    | cons y ys => simp [hexText] at same
  | cons x xs ih =>
    cases second with
    | nil => simp [hexText] at same
    | cons y ys =>
      simp only [hexText, List.flatMap_cons, List.cons_append, List.nil_append, List.cons.injEq] at same
      obtain ⟨high, low, rest⟩ := same
      have boundX := x.toNat_lt
      have boundY := y.toNat_lt
      have high' := hexDigit_inj _ (by omega) _ (by omega) high
      have low' := hexDigit_inj _ (by omega) _ (by omega) low
      rw [ih rest, UInt8.toNat.inj (by omega : x.toNat = y.toNat)]

end Moe
