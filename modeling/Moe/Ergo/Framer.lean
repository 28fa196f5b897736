import Moe.Ergo.Scan

namespace Moe

def collByteType : UInt8 := 0x0e
def maxU16 : Nat := 0xffff
def maxU32 : Nat := 0xffffffff
def maxU64 : Nat := 0xffffffffffffffff
def maxExtension : Nat := 127

def p2pkPrefix : Bytes := [0x00, 0x08, 0xcd]
def p2pkBytes : Nat := 36

/-- The miner-fee proposition, the one unsized tree besides pay-to-public-key that the framer reads. -/
def minerFeeTree : Bytes :=
  toBytes 105 0x1005040004000e36100204a00b08cd0279be667ef9dcbbac55a06295ce870b07029bfcdb2dce28d959f2815b16f81798ea02d192a39a8cc7a701730073011001020402d19683030193a38cc7b2a57300000193c2b2a57301007473027303830108cdeeac93b1a57304

/-- A cursor over a transaction's unsigned bytes is those it has not read; any failure is `none`. -/
abbrev Framer := StateT Bytes Option

namespace Framer

def byte : Framer UInt8 := fun bytes =>
  match bytes with
  | [] => none
  | first :: rest => some (first, rest)

/-- The rest of a quantity of at most `left` more bytes, the next of them at `shift`. -/
def vlqFrom (max : Nat) : Nat → Nat → Nat → Framer Nat
  | 0, _, _ => failure
  | left + 1, shift, value => do
    let b ← byte
    let value := value ||| ((b.toNat &&& 0x7f) <<< shift)
    if b.toNat &&& 0x80 = 0 then do
      guard ¬((b = 0 ∧ 0 < shift) ∨ max < value)
      return value
    else vlqFrom max left (shift + 7) value

/-- A minimal unsigned variable-length quantity no larger than `max`. -/
def vlq (max : Nat) : Framer Nat := vlqFrom max 10 0 0

def skip (count : Nat) : Framer Unit := fun bytes =>
  if bytes.length < count then none else some ((), bytes.drop count)

/-- The bytes an action reads. -/
def read (action : Framer Unit) : Framer Bytes := do
  let start ← get
  action
  let stop ← get
  return start.take (start.length - stop.length)

/-- `action` so many times, in order. -/
def times {α : Type} (action : Framer α) : Nat → Framer (List α)
  | 0 => return []
  | count + 1 => do
    let first ← action
    let rest ← times action count
    return first :: rest

end Framer

open Framer

/-- An ErgoTree as a box carries it: a sized tree, pay-to-public-key or the miner-fee tree. -/
def frameTree : Framer Bytes := fun start =>
  read (do
    let header ← byte
    guard (header.toNat &&& 0xe0 = 0)
    if header.toNat &&& 0x08 ≠ 0 then do
      let size ← vlq maxU32
      skip size
    else do
      set start
      if p2pkPrefix.isPrefixOf start ∧ p2pkBytes ≤ start.length then skip p2pkBytes
      else do
        guard (minerFeeTree.isPrefixOf start)
        skip minerFeeTree.length) start

/-- A `Coll[Byte]` constant in place. -/
def frameCollBytes : Framer Bytes :=
  read do
    guard ((← byte) = collByteType)
    let length ← vlq maxU16
    skip length

/-- An output as the framer reads it: its tree's bytes, and its registers' constants from R4 on. -/
structure ErgoOutputView where
  ergoTree : Bytes
  registers : List Bytes
  deriving DecidableEq, Repr

def frameExtension : Framer Unit := do
  let _ ← byte
  let _ ← frameCollBytes

def frameInput : Framer Unit := do
  skip 32
  guard ((← vlq maxU16) = 0)
  let entries ← byte
  guard (entries.toNat ≤ maxExtension)
  let _ ← times frameExtension entries.toNat

def frameToken : Framer Unit := do
  let _ ← vlq maxU32
  let _ ← vlq maxU64

def frameOutput : Framer ErgoOutputView := do
  let _ ← vlq maxU64
  let ergoTree ← frameTree
  let _ ← vlq maxU32
  let tokens ← byte
  let _ ← times frameToken tokens.toNat
  let registerCount ← byte
  guard (registerCount.toNat ≤ 6)
  let registers ← times frameCollBytes registerCount.toNat
  return ⟨ergoTree, registers⟩

/-- Inputs with empty proofs, data inputs, token ids and outputs. -/
def frameOutputs : Framer (List ErgoOutputView) := do
  let inputs ← vlq maxU16
  let _ ← times frameInput inputs
  let dataInputs ← vlq maxU16
  skip (32 * dataInputs)
  let tokenIds ← vlq maxU32
  skip (32 * tokenIds)
  let count ← vlq maxU16
  times frameOutput count

/-- A transaction's outputs in order, or `none` where its unsigned bytes leave the framer's grammar. -/
def frameTransaction (unsigned : Bytes) : Option (List ErgoOutputView) :=
  match frameOutputs unsigned with
  | some (outputs, []) => some outputs
  | _ => none

/-- The length a constant's quantity gives, and the bytes after it. -/
def collLength : Bytes → Nat → Nat → Option (Nat × Bytes)
  | [], _, _ => none
  | byte :: rest, shift, length =>
    if 28 < shift then none
    else
      let length := length + (byte.toNat &&& 0x7f) * 2 ^ shift
      if byte.toNat &&& 0x80 = 0 then if byte = 0 ∧ 0 < shift then none else some (length, rest)
      else collLength rest (shift + 7) length

/-- A `Coll[Byte]` constant as a box carries it: its type, a minimal length and the bytes, ending exactly. -/
def collBytes (constant : Bytes) : Option Bytes :=
  match constant with
  | first :: rest =>
    if constant.length < 2 ∨ first ≠ collByteType then none
    else match collLength rest 0 0 with
      | some (length, body) => if body.length = length then some body else none
      | none => none
  | [] => none

/-- An output's subject, where it has the shape: its own R4 is a 32-byte `Coll[Byte]` and its R5 a `Coll[Byte]`. -/
def shapeOf (view : ErgoOutputView) : Option Bytes := do
  let r4 ← (← view.registers[0]?) |> collBytes
  let _ ← (← view.registers[1]?) |> collBytes
  guard (r4.length = 32)
  return r4

/-- The outputs with the shape by the framer's reading, in output order; none for a transaction outside the grammar. -/
def shapedOutputs (unsigned : Bytes) : Option (List ScannedOutput) := do
  let outputs ← frameTransaction unsigned
  return outputs.zipIdx.filterMap fun (view, output) => (shapeOf view).map (⟨output, ·⟩)

end Moe
