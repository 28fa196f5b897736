import Mathlib.Algebra.GroupWithZero.Nat
import Moe.Lit.Notes
import Moe.Pool.Records

namespace Moe

namespace Lit

/-- What a statement says under its domain, by kind. -/
inductive Body
  | issue (segment backing : Bytes) (quantity : Nat) (owner nonce : Bytes)
  | spend (segment : Bytes) (inputs : List Opening) (outputs : List Output)
  | burn (segment : Bytes) (quantity : Nat) (inputs : List Opening) (outputs : List Output)
  | demand (segment : Bytes) (inputs : List Opening) (presenter : Bytes) (instant deadline : Nat)
  | withdraw (segment demand : Bytes)
  | settle (segment demand owner : Bytes)
  | request (input : Opening) (refresh : Nat)
  deriving DecidableEq

def Body.kind : Body → Nat
  | issue .. => 1
  | spend .. => 2
  | burn .. => 3
  | demand .. => 4
  | withdraw .. => 5
  | settle .. => 6
  | request .. => 7

structure Statement where
  domain : Bytes
  body : Body
  deriving DecidableEq

structure LitRecord where
  statement : Statement
  authorization : Bytes
  deriving DecidableEq

def statementContext : Bytes := tag "moe/lit/v1/statement"

/-- The bytes before a statement's body: context, configuration hash and kind. -/
def statementPrefixBytes : Nat := statementContext.length + 33

def settlementAuthorizationBytes : Nat := 200

/-- Counted before any element is taken. -/
def list {α : Type} (min max : Nat) (own : α → Except Failure α) (what : String) (items : List α) : Except Failure (List α) := do
  require (min ≤ items.length && items.length ≤ max) (.encoding s!"wrong {what} count")
  items.mapM own

def writeBody : Body → Bytes
  | .issue segment backing quantity owner nonce => segment ++ writeOutput ⟨backing, quantity, owner⟩ ++ nonce
  | .spend segment inputs outputs =>
    segment ++ toBytes 1 inputs.length ++ inputs.flatMap writeOpening ++ toBytes 1 outputs.length ++ outputs.flatMap writeOutput
  | .burn segment quantity inputs outputs =>
    segment ++ toBytes 8 quantity ++ toBytes 1 inputs.length ++ inputs.flatMap writeOpening ++ toBytes 1 outputs.length ++
      outputs.flatMap writeOutput
  | .demand segment inputs presenter instant deadline =>
    segment ++ toBytes 1 inputs.length ++ inputs.flatMap writeOpening ++ presenter ++ toBytes 8 instant ++ toBytes 8 deadline
  | .withdraw segment demand => segment ++ demand
  | .settle segment demand owner => segment ++ demand ++ owner
  | .request input refresh => writeOpening input ++ toBytes 8 refresh

def writeStatement (s : Statement) : Bytes := statementContext ++ s.domain ++ toBytes 1 s.body.kind ++ writeBody s.body

def readCount (min max : Nat) : Reader Nat := do
  let n ← Reader.u8
  require (min ≤ n && n ≤ max) (.encoding "wrong input or output count")
  return n

def readInputs : Reader (List Opening) := do Reader.times readOpening (← readCount 1 maxInputs)

def readOutputs (min max : Nat) : Reader (List Output) := do Reader.times readOutput (← readCount min max)

def readIssue : Reader Body := do
  let segment ← Reader.raw 32
  let o ← readOutput
  let nonce ← Reader.raw 32
  return .issue segment o.backing o.value o.owner nonce

def readSpend : Reader Body := do
  let segment ← Reader.raw 32
  let ins ← readInputs
  let outs ← readOutputs 1 maxOutputs
  return .spend segment ins outs

def readBurn : Reader Body := do
  let segment ← Reader.raw 32
  let quantity ← Reader.u64
  let ins ← readInputs
  let outs ← readOutputs 0 1
  return .burn segment quantity ins outs

def readDemand : Reader Body := do
  let segment ← Reader.raw 32
  let ins ← readInputs
  let presenter ← Reader.raw 32
  let instant ← Reader.u64
  let deadline ← Reader.u64
  return .demand segment ins presenter instant deadline

def readWithdraw : Reader Body := do
  let segment ← Reader.raw 32
  let demand ← Reader.raw 32
  return .withdraw segment demand

def readSettle : Reader Body := do
  let segment ← Reader.raw 32
  let demand ← Reader.raw 32
  let owner ← Reader.raw 32
  return .settle segment demand owner

def readRequest : Reader Body := do
  let input ← readOpening
  let refresh ← Reader.u64
  return .request input refresh

/-- A kind's own fields; the reader has refused any other kind. -/
def readBody (kind : Nat) : Reader Body :=
  if kind = 7 then readRequest
  else if kind = 1 then readIssue
  else if kind = 2 then readSpend
  else if kind = 3 then readBurn
  else if kind = 4 then readDemand
  else if kind = 5 then readWithdraw
  else readSettle

/-- An owner per input, the presenter key's, or a settlement's three with its deadline. -/
def authorizationLength (s : Statement) : Nat :=
  match s.body with
  | .spend _ inputs _ | .burn _ _ inputs _ | .demand _ inputs _ _ _ => 64 * inputs.length
  | .settle .. => settlementAuthorizationBytes
  | _ => 64

/-- A record's two fields, split without decoding. -/
def readSplit : Reader (Bytes × Bytes) := do
  let statement ← Reader.lengthPrefixed (2 ^ 53 - 1)
  let authorization ← Reader.lengthPrefixed (2 ^ 53 - 1)
  Reader.expectEnd
  return (statement, authorization)

def splitRecord (bytes : Bytes) : Except Failure (Bytes × Bytes) := readSplit.run bytes

section Keys

variable [PublicKeys]

def inputs (items : List Opening) : Except Failure (List Opening) := list 1 maxInputs ownOpening "input" items

def ownBody : Body → Except Failure Body
  | .issue segment backing quantity owner nonce => do
    return .issue (← field32 segment "segment") (← field32 backing "backing") (← positive quantity "quantity") (← key32 owner "owner")
      (← field32 nonce "nonce")
  | .spend segment ins outs => do
    return .spend (← field32 segment "segment") (← inputs ins) (← list 1 maxOutputs ownOutput "output" outs)
  | .burn segment quantity ins outs => do
    return .burn (← field32 segment "segment") (← positive quantity "quantity") (← inputs ins) (← list 0 1 ownOutput "output" outs)
  | .demand segment ins presenter instant deadline => do
    return .demand (← field32 segment "segment") (← inputs ins) (← key32 presenter "presenter") (← u64 instant "instant")
      (← u64 deadline "deadline")
  | .withdraw segment demand => do return .withdraw (← field32 segment "segment") (← field32 demand "demand")
  | .settle segment demand owner => do
    return .settle (← field32 segment "segment") (← field32 demand "demand") (← key32 owner "owner")
  | .request input refresh => do return .request (← ownOpening input) (← u64 refresh "refresh")

/-- An owned, checked statement. -/
def ownStatement (s : Statement) : Except Failure Statement := do
  return ⟨← field32 s.domain "domain", ← ownBody s.body⟩

def statementBytes (s : Statement) : Except Failure Bytes := do return writeStatement (← ownStatement s)

def readStatement : Reader Statement := do
  let context ← Reader.raw statementContext.length
  require (context = statementContext) (.encoding "wrong statement context")
  let domain ← Reader.raw 32
  let kind ← Reader.u8
  require (1 ≤ kind && kind ≤ 7) (.encoding "unknown statement kind")
  let body ← readBody kind
  ownStatement ⟨domain, body⟩

/-- The exact statement frame: no trailing byte, alternate spelling or optional field. -/
def decodeStatement (bytes : Bytes) : Except Failure Statement := Reader.run (do
  let s ← readStatement
  Reader.expectEnd
  return s) bytes

def ownRecord (record : LitRecord) : Except Failure LitRecord := do
  let statement ← ownStatement record.statement
  require (record.authorization.length = authorizationLength statement) (.encoding "wrong authorization length")
  return ⟨statement, record.authorization⟩

def encodeRecord (record : LitRecord) : Except Failure Bytes := do
  let r ← ownRecord record
  return lengthPrefixed (← statementBytes r.statement) ++ lengthPrefixed r.authorization

/-- Strict canonical inverse of `encodeRecord`: proves neither signatures nor admission. -/
def decodeRecord (bytes : Bytes) : Except Failure LitRecord := do
  let (statement, authorization) ← splitRecord bytes
  ownRecord ⟨← decodeStatement statement, authorization⟩

/-- A demand's derived backing and quantity: its inputs' common backing and their sum, a u64. -/
def demandClaim (demand : Statement) : Except Failure (Bytes × Nat) := do
  let d ← ownStatement demand
  match d.body with
  | .demand _ ins _ _ _ => do
    let backing := (ins.map (·.backing)).headD []
    require (ins.all (·.backing = backing)) (.encoding "demand inputs of several backings")
    let quantity := (ins.map (·.value)).sum
    require (quantity < valueBound) (.encoding "demand quantity outside u64")
    return (backing, quantity)
  | _ => .error (.encoding "not a demand")

structure Acceptance where
  domain : Bytes
  demand : Bytes
  owner : Bytes
  deadline : Nat
  deriving DecidableEq

/-- The obligor's signature and the owner key's, each over `acceptanceBytes`. -/
structure SignedAcceptance extends Acceptance where
  signature : Bytes
  ownerSignature : Bytes
  deriving DecidableEq

def ownAcceptance (a : Acceptance) : Except Failure Acceptance := do
  return ⟨← field32 a.domain "domain", ← field32 a.demand "demand", ← key32 a.owner "owner", ← u64 a.deadline "deadline"⟩

def acceptanceContext : Bytes := tag "moe/lit/v1/acceptance"

def acceptanceBytes (acceptance : Acceptance) : Except Failure Bytes := do
  let a ← ownAcceptance acceptance
  return acceptanceContext ++ a.domain ++ a.demand ++ a.owner ++ toBytes 8 a.deadline

/-- What a publication of a kind carries: kind 2 a signed acceptance, the others a record. -/
inductive PublicationBody
  | acceptance (acceptance : SignedAcceptance)
  | record (kind : Nat) (record : LitRecord)
  deriving DecidableEq

def PublicationBody.kind : PublicationBody → Nat
  | acceptance _ => 2
  | record kind _ => kind

structure Publication where
  domain : Bytes
  backing : Bytes
  body : PublicationBody
  deriving DecidableEq

/-- A publication kind's record kind: 1 a demand, 3 a settlement, 4 a withdrawal, 5 a request. -/
def publicationStatement (kind : Nat) : Nat := [0, 4, 0, 6, 5, 7].getD kind 0

def openingBytes : Nat := 104

def recordBound (statement authorization : Nat) : Nat := 8 + statementPrefixBytes + statement + authorization

def publicationContext : Bytes := tag "moe/lit/v1/publication"

/-- Each kind's largest valid body. -/
def bodyBounds (kind : Nat) : Nat :=
  [0, recordBound (81 + openingBytes * maxInputs) (64 * maxInputs), acceptanceContext.length + 104 + 128,
    recordBound 96 settlementAuthorizationBytes, recordBound 64 64, recordBound (openingBytes + 8) 64].getD kind 0

/-- The largest publication. -/
def maxPublicationBytes : Nat := publicationContext.length + 69 + (([1, 2, 3, 4, 5].map bodyBounds).max?.getD 0)

def requireKind (kind : Nat) : Except Failure Unit :=
  require (1 ≤ kind && kind ≤ 5) (.encoding "unknown publication kind")

/-- Owned, and routed where the body alone decides: a demand's or a request's backing is its own inputs'. -/
def ownPublication (p : Publication) : Except Failure Publication := do
  requireKind p.body.kind
  let domain ← field32 p.domain "domain"
  let backing ← field32 p.backing "backing"
  match p.body with
  | .acceptance signed => do
    let a ← ownAcceptance signed.toAcceptance
    require (signed.signature.length = 64) (.encoding "wrong signature length")
    require (signed.ownerSignature.length = 64) (.encoding "wrong signature length")
    require (a.domain = domain) (.encoding "inconsistent domain")
    return ⟨domain, backing, .acceptance { a with signature := signed.signature, ownerSignature := signed.ownerSignature }⟩
  | .record kind value => do
    require (kind ≠ 2) (.encoding "invalid acceptance")
    let record ← ownRecord value
    let s := record.statement
    require (s.body.kind = publicationStatement kind) (.encoding "wrong publication body kind")
    require (s.domain = domain) (.encoding "inconsistent domain")
    match s.body with
    | .demand .. => do
      let claim ← demandClaim s
      require (claim.1 = backing) (.encoding "wrong routing backing")
      return ⟨domain, backing, .record kind record⟩
    | .request input _ => do
      require (input.backing = backing) (.encoding "wrong routing backing")
      return ⟨domain, backing, .record kind record⟩
    | _ => return ⟨domain, backing, .record kind record⟩

def PublicationBody.bytes : PublicationBody → Except Failure Bytes
  | acceptance a => do return (← acceptanceBytes a.toAcceptance) ++ a.signature ++ a.ownerSignature
  | record _ value => encodeRecord value

def encodePublication (publication : Publication) : Except Failure Bytes := do
  let p ← ownPublication publication
  return publicationContext ++ p.domain ++ p.backing ++ toBytes 1 p.body.kind ++ lengthPrefixed (← p.body.bytes)

/-- A publication's routing and its body's bytes, bounded by its kind's largest valid body. -/
def readPublication : Reader (Bytes × Bytes × Nat × Bytes) := do
  let context ← Reader.raw publicationContext.length
  require (context = publicationContext) (.encoding "wrong publication context")
  let domain ← Reader.raw 32
  let backing ← Reader.raw 32
  let kind ← Reader.u8
  requireKind kind
  let body ← Reader.lengthPrefixed (bodyBounds kind)
  Reader.expectEnd
  return (domain, backing, kind, body)

def readAcceptance : Reader SignedAcceptance := do
  let context ← Reader.raw acceptanceContext.length
  require (context = acceptanceContext) (.encoding "wrong acceptance context")
  let domain ← Reader.raw 32
  let demand ← Reader.raw 32
  let owner ← Reader.raw 32
  let deadline ← Reader.u64
  let signature ← Reader.raw 64
  let ownerSignature ← Reader.raw 64
  Reader.expectEnd
  return { domain, demand, owner, deadline, signature, ownerSignature }

def decodePublication (bytes : Bytes) : Except Failure Publication := do
  require (bytes.length ≤ maxPublicationBytes) (.encoding "publication too long")
  let (domain, backing, kind, body) ← readPublication.run bytes
  if kind ≠ 2 then do
    let record ← decodeRecord body
    ownPublication ⟨domain, backing, .record kind record⟩
  else do
    let acceptance ← readAcceptance.run body
    ownPublication ⟨domain, backing, .acceptance acceptance⟩

end Keys

section Identity

variable [Crypto] [PublicKeys]

def statementHash (s : Statement) : Except Failure Bytes := do return sha256 (← statementBytes s)

end Identity

end Lit

end Moe
