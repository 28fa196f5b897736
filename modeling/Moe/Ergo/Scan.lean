import Mathlib.Data.ZMod.Basic
import Moe.Lib.Transducer
import Moe.Pool.Field

namespace Moe

/-- An element of the BN254 scalar field: every value the scan computes is one. -/
abbrev Scalar := ZMod fieldModulus

/-- The scan machine's modes. -/
inductive ScanMode
  | vIn | sBox | proof | extCnt | eKey | eCt | eClen | eBody | vDi | sDi
  | vTok | sTok | vOut | vValue | tree | vTsize | sTbody | patP2pk | patFee | vHeight | tokCnt | vTidx
  | vTamt | regCnt | r4Ct | r4Clen | r4Hi | r4Lo | r4Body | r5Ct | r5Clen | r5Body | rxCt | rxClen
  | rxBody | end_ | err
  deriving DecidableEq, Repr

/-- The modes by their numbers in the tables. -/
def scanModes : List ScanMode :=
  [.vIn, .sBox, .proof, .extCnt, .eKey, .eCt, .eClen, .eBody, .vDi, .sDi, .vTok, .sTok, .vOut, .vValue, .tree, .vTsize, .sTbody,
    .patP2pk, .patFee, .vHeight, .tokCnt, .vTidx, .vTamt, .regCnt, .r4Ct, .r4Clen, .r4Hi, .r4Lo, .r4Body, .r5Ct, .r5Clen, .r5Body,
    .rxCt, .rxClen, .rxBody, .end_, .err]

def ScanMode.number (mode : ScanMode) : Nat := scanModes.idxOf mode

/-- How a mode reads its byte. -/
inductive ByteGroup
  | any | vlq | zero | ext | ct | tree | tok | reg | end_
  deriving DecidableEq, Repr

def byteGroups : List ByteGroup := [.any, .vlq, .zero, .ext, .ct, .tree, .tok, .reg, .end_]

def ByteGroup.number (group : ByteGroup) : Nat := byteGroups.idxOf group

def vlqModes : List ScanMode :=
  [.vIn, .eClen, .vDi, .vOut, .r4Clen, .r5Clen, .rxClen, .vTok, .vTsize, .vHeight, .vTidx, .vValue, .vTamt]

/-- Each mode's byte group. -/
def groupOf (mode : ScanMode) : ByteGroup :=
  if mode ∈ vlqModes then .vlq
  else match mode with
    | .proof => .zero
    | .extCnt => .ext
    | .eCt | .r4Ct | .r5Ct | .rxCt => .ct
    | .tree => .tree
    | .tokCnt => .tok
    | .regCnt => .reg
    | .end_ => .end_
    | _ => .any

/-- A byte's class in a group; 3 is a byte the mode cannot take. -/
def byteClass (group : ByteGroup) (b : Nat) : Nat :=
  match group with
  | .any => 0
  | .vlq => if 128 ≤ b then 1 else 0
  | .zero => if b = 0 then 0 else 3
  | .ext => if b = 0 then 0 else if b < 128 then 1 else 3
  | .ct => if b = 0x0e then 0 else 3
  | .tree => if b &&& 0xe0 ≠ 0 then 3 else if b &&& 0x08 ≠ 0 then 0 else if b = 0 then 1 else if b = 0x10 then 2 else 3
  | .tok => if b = 0 then 0 else 1
  | .reg => if b = 0 then 0 else if b ≤ 6 then 1 else 3
  | .end_ => 3

/-- Whether a variable-length quantity's byte has more to come. -/
def byteCont (group : ByteGroup) (b : Nat) : Nat := if group = .vlq ∧ 128 ≤ b then 1 else 0

/-- `cont + 2 cls` of every byte in every group, group by group. -/
def scanByte : List Nat := (List.range (9 * 256)).map fun i =>
  let group := byteGroups.getD (i / 256) .any
  byteCont group (i % 256) + 2 * byteClass group (i % 256)

/-- The next mode and the registers' affine updates. -/
structure ScanAction where
  NEXT : ScanMode
  RK : Int
  RC : Int
  RV : Int
  C1K : Int
  C1C : Int
  C1V : Int
  C2K : Int
  C2C : Int
  C2B : Int
  VK : Bool
  OEND : Bool
  HM : Int
  HB : Int
  LM : Int
  LB : Int
  SHM : Int
  SHC : Int
  deriving DecidableEq, Repr

/-- The zero tests a key reads: R = 1, V = 0, V = 32, C1 = 1, C2 = 1. -/
structure ScanTests where
  zR : Bool
  zV : Bool
  z32 : Bool
  zC1 : Bool
  zC2 : Bool
  deriving DecidableEq, Repr

namespace ScanAction

/-- The action that keeps every register. -/
def go (next : ScanMode) : ScanAction := ⟨next, 1, 0, 0, 1, 0, 0, 1, 0, 0, false, false, 1, 0, 1, 0, 1, 0⟩

def next (a : ScanAction) (next : ScanMode) : ScanAction := { a with NEXT := next }

def setR (a : ScanAction) (c v : Int) : ScanAction := { a with RK := 0, RC := c, RV := v }

def decR (a : ScanAction) : ScanAction := { a with RK := 1, RC := -1, RV := 0 }

def nextInput (a : ScanAction) (e : ScanTests) : ScanAction :=
  let a := { a with C1K := 1, C1C := -1 }
  if e.zC1 then a.next .vDi else (a.next .sBox).setR 32 0

def extDone (a : ScanAction) (e : ScanTests) : ScanAction :=
  let a := { a with C2K := 1, C2C := -1 }
  if e.zC2 then a.nextInput e else a.next .eKey

def outDone (a : ScanAction) (e : ScanTests) : ScanAction :=
  { a with OEND := true, C1K := 1, C1C := -1, NEXT := if e.zC1 then .end_ else .vValue }

def regDone (a : ScanAction) (e : ScanTests) (nextConstant : ScanMode) : ScanAction :=
  let a := { a with C2K := 1, C2C := -1 }
  if e.zC2 then a.outDone e else a.next nextConstant

end ScanAction

open ScanAction in
/-- What a mode does at a byte of a class. A continuing VLQ byte stays in its mode; a byte the mode cannot take ends the scan. -/
def transition (m : ScanMode) (cls : Nat) (e : ScanTests) : ScanAction :=
  if groupOf m = .vlq ∧ cls = 1 then { go m with VK := true }
  else if cls = 3 then go .err
  else match m with
    | .vIn =>
      let a := { go .vDi with C1K := 0, C1V := 1 }
      if e.zV then a else (a.next .sBox).setR 32 0
    | .sBox => (go (if e.zR then .proof else m)).decR
    | .proof => go .extCnt
    | .extCnt => if cls = 0 then (go m).nextInput e else { go .eKey with C2K := 0, C2B := 1 }
    | .eKey => go .eCt
    | .eCt => go .eClen
    | .eClen => if e.zV then (go m).extDone e else (go .eBody).setR 0 1
    | .eBody => if e.zR then (go m).decR.extDone e else (go m).decR
    | .vDi => if e.zV then go .vTok else (go .sDi).setR 0 32
    | .sDi => (go (if e.zR then .vTok else m)).decR
    | .vTok => if e.zV then go .vOut else (go .sTok).setR 0 32
    | .sTok => (go (if e.zR then .vOut else m)).decR
    | .vOut => { go (if e.zV then .end_ else .vValue) with C1K := 0, C1V := 1 }
    | .vValue => go .tree
    | .tree => if cls = 0 then go .vTsize else if cls = 1 then (go .patP2pk).setR 35 0 else (go .patFee).setR 104 0
    | .vTsize => if e.zV then go .vHeight else (go .sTbody).setR 0 1
    | .sTbody | .patP2pk | .patFee => (go (if e.zR then .vHeight else m)).decR
    | .vHeight => go .tokCnt
    | .tokCnt => if cls = 0 then go .regCnt else { go .vTidx with C2K := 0, C2B := 1 }
    | .vTidx => go .vTamt
    | .vTamt => { go (if e.zC2 then .regCnt else .vTidx) with C2K := 1, C2C := -1 }
    | .regCnt =>
      let a := { go m with SHM := 0 }
      if cls = 0 then a.outDone e else { a with C2K := 0, C2B := 1, NEXT := .r4Ct }
    | .r4Ct => go .r4Clen
    | .r4Clen =>
      if e.zV then (go m).regDone e .r5Ct
      else if e.z32 then { (go .r4Hi).setR 16 0 with HM := 0 }
      else (go .r4Body).setR 0 1
    | .r4Hi =>
      let a := { go m with HM := 256, HB := 1 }.decR
      if e.zR then { (a.next .r4Lo).setR 16 0 with LM := 0 } else a
    | .r4Lo =>
      let a := { go m with LM := 256, LB := 1 }.decR
      if e.zR then { a with SHM := 0, SHC := 1 }.regDone e .r5Ct else a
    | .r4Body => if e.zR then (go m).decR.regDone e .r5Ct else (go m).decR
    | .r5Ct => go .r5Clen
    | .r5Clen => if e.zV then { go m with SHM := 2 }.regDone e .rxCt else (go .r5Body).setR 0 1
    | .r5Body => if e.zR then { (go m).decR with SHM := 2 }.regDone e .rxCt else (go m).decR
    | .rxCt => go .rxClen
    | .rxClen => if e.zV then (go m).regDone e .rxCt else (go .rxBody).setR 0 1
    | .rxBody => if e.zR then (go m).decR.regDone e .rxCt else (go m).decR
    | .end_ | .err => go .err

/-- The action of each mode, class and tests, in the keys' order. -/
def keyedActions : List ScanAction := (List.range (37 * 128)).map fun i =>
  let k := i % 128
  transition (scanModes.getD (i / 128) .err) (k / 32)
    ⟨k / 16 % 2 = 1, k / 8 % 2 = 1, k / 4 % 2 = 1, k / 2 % 2 = 1, k % 2 = 1⟩

/-- Each distinct action, listed once. -/
def scanActions : List ScanAction := keyedActions.eraseDups

/-- The index of each key's action among the distinct ones. -/
def scanKey : List Nat := keyedActions.map (scanActions.idxOf ·)

/-- An output the scan reads as having the shape: its index in the transaction and its subject. -/
structure ScannedOutput where
  output : Nat
  subject : Bytes
  deriving DecidableEq, Repr

/-- The scan's state between bytes. -/
structure ScanState where
  mode : ScanMode
  r : Scalar
  c1 : Scalar
  c2 : Scalar
  a : Scalar
  p : Scalar
  hi : Scalar
  lo : Scalar
  sh : Scalar
  outputs : Nat
  deriving DecidableEq

/-- The state at a transaction's first byte. -/
def scanStart : ScanState := ⟨.vIn, 0, 0, 0, 0, 1, 0, 0, 0, 0⟩

namespace ScanState

/-- The state an action leaves, at a byte that ends a value. -/
def after (s : ScanState) (x : ScanAction) (value : Scalar) (b : Nat) : ScanState where
  mode := x.NEXT
  r := x.RK * s.r + x.RC + x.RV * value
  c1 := x.C1K * s.c1 + x.C1C + x.C1V * value
  c2 := x.C2K * s.c2 + x.C2C + x.C2B * b
  a := if x.VK then value else 0
  p := if x.VK then s.p * 128 else 1
  hi := x.HM * s.hi + x.HB * b
  lo := x.LM * s.lo + x.LB * b
  sh := x.SHM * s.sh + x.SHC
  outputs := s.outputs + x.OEND.toNat

/-- What a key tests of a state and the value ending at its byte. -/
def tests (s : ScanState) (value : Scalar) : ScanTests := ⟨s.r = 1, value = 0, value = 32, s.c1 = 1, s.c2 = 1⟩

end ScanState

def ScanTests.key (e : ScanTests) : Nat :=
  (if e.zR then 16 else 0) + (if e.zV then 8 else 0) + (if e.z32 then 4 else 0) + (if e.zC1 then 2 else 0) + (if e.zC2 then 1 else 0)

/-- One step: the state after `byte`, and whether an output with the shape ends at it. -/
def scanStep (state : ScanState) (byte : UInt8) : ScanState × Bool :=
  let v := scanByte.getD ((groupOf state.mode).number * 256 + byte.toNat) 0
  let cont := v % 2
  let cls := v / 2
  let value := state.a + (((byte.toNat : Int) - 128 * cont : Int) : Scalar) * state.p
  let key := state.mode.number * 128 + cls * 32 + (state.tests value).key
  let x := scanActions.getD (scanKey.getD key 0) (ScanAction.go .err)
  let next := state.after x value byte.toNat
  (next, x.OEND && next.sh = 2)

def limbBytes (limb : Scalar) : Bytes := toBytes 16 limb.val

/-- The outputs read as having the shape from a state on, up to the first byte its mode cannot take. -/
def scanFrom : ScanState → Bytes → List ScannedOutput
  | _, [] => []
  | state, byte :: rest =>
    let (next, shaped) := scanStep state byte
    let found := if shaped then [⟨state.outputs, limbBytes next.hi ++ limbBytes next.lo⟩] else []
    if next.mode = .err then found else found ++ scanFrom next rest

/-- Every output the scan reads as having the shape, in output order. -/
def scanTransaction (unsigned : Bytes) : List ScannedOutput := scanFrom scanStart unsigned

end Moe
