import Moe.Ergo.Difficulty
import Moe.Ergo.Framer
import Moe.Ergo.Section
import Moe.Lib.Savepoint

namespace Moe.HeaderTree

open OrderedMap Framer Difficulty

/-- A header read from its canonical bytes. -/
structure FullHeader extends ErgoHeader where
  bytes : Bytes
  id : Bytes
  version : Nat
  parentId : Bytes
  transactionsRoot : Bytes
  withoutPow : Bytes
  minerKey : Bytes
  nonce : Bytes
  v1 : Option (Bytes × Nat)
  deriving DecidableEq, Repr

/-- The largest multiple of `q` not above 2^256: Autolykos v1's hash to `[0, q)` rehashes above it. -/
def modQRange : Nat := 2 ^ 256 / q.toNat * q.toNat

/-- What the header source takes from its packages: which bytes decode as a compressed point, whether `w^f = g^d · pk`, and that rehashing
gets below the range. -/
class Autolykos [Blake] where
  decodes : Bytes → Bool
  equation : (w : Bytes) → (f d : Nat) → (pk : Bytes) → Bool
  rehashed : ∀ digest : Bytes, ∃ count, ofBytes (blake2b^[count] digest) < modQRange

def ergoMaxTimestamp : Nat := 2 ^ 63 - 1
def ergoMaxHeight : Nat := 2 ^ 31 - 1

/-- Headers below the anchor the difficulty rule can read: eight epochs. -/
def anchorContext : Nat := 1024

def eip37ActivationHeight : Int := 844673
def testnetV2ActivationHeight : Int := 2147483647

/-- Version 1 carries an Autolykos v1 solution and no new-fields length. -/
def initialVersion : Int := 1

/-- The last version whose new-fields length the node skips rather than reads. -/
def lastFixedLayoutVersion : Int := 4

/-- The version byte as the node reads it, a signed byte. -/
def signedVersion (version : Nat) : Int := if version < 128 then version else version - 256

inductive Rules
  | mainnet | testnet
  deriving DecidableEq, Repr

section

variable [Blake] [Autolykos]

/-- A group element as the node writes it: zero bytes for the identity, otherwise a compressed point that decodes. -/
def canonicalPoint (bytes : Bytes) : Bool :=
  if bytes.head? = some 0 then bytes.all (· = 0)
  else if bytes.head? ≠ some 2 ∧ bytes.head? ≠ some 3 then false
  else Autolykos.decodes bytes

def takeBytes (count : Nat) : Framer Bytes := read (skip count)

/-- A header's fields before its solution. -/
structure Unsolved where
  version : UInt8
  parentId : Bytes
  transactionsRoot : Bytes
  timestamp : Nat
  nBits : Nat
  height : Nat

def newFields (version : Int) : Framer Unit :=
  if initialVersion < version then do
    let length ← byte
    if version ≤ lastFixedLayoutVersion then guard (length = 0) else skip length.toNat
  else return

def frameUnsolved : Framer Unsolved := do
  let version ← byte
  let parentId ← takeBytes 32
  skip 32
  let transactionsRoot ← takeBytes 32
  skip 33
  let timestamp ← vlq ergoMaxTimestamp
  skip 32
  let nBits ← takeBytes 4
  let height ← vlq ergoMaxHeight
  skip 3
  newFields (signedVersion version.toNat)
  return ⟨version, parentId, transactionsRoot, timestamp, ofBytes nBits, height⟩

def framePoint : Framer Bytes := do
  let bytes ← takeBytes 33
  guard (canonicalPoint bytes = true)
  return bytes

/-- Version 1's `w`, nonce and `d`, which the node writes minimally and zero as one zero byte. -/
def frameSolutionV1 : Framer (Bytes × Option (Bytes × Nat)) := do
  let w ← framePoint
  let nonce ← takeBytes 8
  let length ← byte
  let d ← takeBytes length.toNat
  guard ¬(d = [] ∨ 1 < d.length ∧ d.head? = some 0)
  return (nonce, some (w, ofBytes d))

/-- One header from its bytes as the pinned node serializes it, which end exactly. -/
def parseErgoHeader (bytes : Bytes) : Option FullHeader := do
  let (unsolved, solution) ← frameUnsolved bytes
  let withoutPow := bytes.take (bytes.length - solution.length)
  let (minerKey, rest) ← framePoint solution
  let ((nonce, v1), left) ← (if unsolved.version = 1 then frameSolutionV1 else do return (← takeBytes 8, none)) rest
  guard (left = [])
  return {
    height := unsolved.height
    timestamp := unsolved.timestamp
    nBits := unsolved.nBits
    bytes := bytes
    id := blake2b bytes
    version := unsolved.version.toNat
    parentId := unsolved.parentId
    transactionsRoot := unsolved.transactionsRoot
    withoutPow := withoutPow
    minerKey := minerKey
    nonce := nonce
    v1 := v1 }

/-- Autolykos' constant: the 8-byte big-endian integers 0 to 1023. -/
def autolykosM : Bytes := (List.range 1024).flatMap (toBytes 8)

def k : Nat := 32
def nBase : Nat := 2 ^ 26
def nIncreaseStart : Int := 600 * 1024
def nIncreasePeriod : Int := 50 * 1024
def nIncreaseMax : Int := 4198400

def u32be (n : Int) : Bytes := toBytes 4 (n % 2 ^ 32).toNat

/-- Autolykos v2's table size at a height. -/
def autolykosTableSize (height : Int) : Nat :=
  let h := if height < nIncreaseMax then height else nIncreaseMax
  if h < nIncreaseStart then nBase else (fun n => n / 100 * 105)^[((h - nIncreaseStart) / nIncreasePeriod + 1).toNat] nBase

/-- Autolykos' indices below a table's size from a seed. -/
def indexes (seed : Bytes) (n : Nat) : List Nat :=
  let digest := blake2b seed
  let extended := digest ++ digest.take 3
  (List.range k).map fun i => ofBytes ((extended.drop i).take 4) % n

/-- The Autolykos v2 hit of a header, which proof of work requires below its target. -/
def autolykosHit (header : FullHeader) : Nat :=
  let msg := blake2b header.withoutPow
  let heightBytes := u32be header.height
  let n := autolykosTableSize header.height
  let i := u32be (ofBytes ((blake2b (msg ++ header.nonce)).drop 24) % n : Nat)
  let f := (blake2b (i ++ heightBytes ++ autolykosM)).drop 1
  let sum := ((indexes (f ++ msg ++ header.nonce) n).map fun index : Nat => ofBytes ((blake2b (u32be index ++ heightBytes ++ autolykosM)).drop 1)).sum
  ofBytes (blake2b (toBytes 32 sum))

/-- Autolykos v1's hash to `[0, q)`: rehashed until below the largest multiple of `q`, then reduced. -/
def hashModQ (input : Bytes) : Nat :=
  let digest := blake2b input
  ofBytes (blake2b^[Nat.find (Autolykos.rehashed digest)] digest) % q.toNat

/-- Autolykos v1's `f` mod `q`. It does not read `d`. -/
def autolykosV1Exponent (withoutPow nonce minerKey w : Bytes) : Nat :=
  let msg := blake2b withoutPow
  ((indexes (msg ++ nonce) nBase).map fun index : Nat => hashModQ (u32be index ++ autolykosM ++ minerKey ++ msg ++ w)).sum % q.toNat

def isIdentity (bytes : Bytes) : Bool := bytes.head? = some 0

/-- Autolykos v1's equation for a version 1 header: `d` below the target, the miner key and `w` not the identity, and the points equal. -/
def autolykosV1Valid (header : FullHeader) (target : Int) : Bool :=
  match header.v1 with
  | none => false
  | some (w, d) =>
    if target ≤ d || isIdentity header.minerKey || isIdentity w then false
    else Autolykos.equation w (autolykosV1Exponent header.withoutPow header.nonce header.minerKey w) (d % q.toNat) header.minerKey

/-- Proof of work at the header's own difficulty: positive and at most `q`, then the node's dispatch by version. -/
def autolykosPowValid (header : FullHeader) : Bool :=
  let difficulty := decodeCompactBits header.nBits
  if difficulty ≤ 0 ∨ q < difficulty then false
  else if header.version = 1 then autolykosV1Valid header (q.tdiv difficulty)
  else (autolykosHit header : Int) < q.tdiv difficulty

end

/-- An accepted header as the store walks it: its bytes are parsed when a rule reads them. -/
structure Entry where
  id : Bytes
  parentId : Bytes
  height : Int
  score : Int
  above : Bool
  header : Except Failure FullHeader

def parsed (header : FullHeader) (score : Int) (above : Bool) : Entry :=
  ⟨header.id, header.parentId, header.height, score, above, .ok header⟩

/-- The fields of an accepted header a reader reads its block's section by. -/
structure HeaderView where
  id : Bytes
  parentId : Bytes
  height : Int
  version : Nat
  transactionsRoot : Bytes
  deriving DecidableEq, Repr

def view (header : FullHeader) : HeaderView := ⟨header.id, header.parentId, header.height, header.version, header.transactionsRoot⟩

/-- The rules, the context's headers ascending to the anchor, the anchor itself and the lowest height. -/
structure Anchor where
  rules : Rules
  byHeight : List FullHeader
  root : FullHeader
  lowest : Int
  deriving DecidableEq, Repr

/-- A store: the rows of everything above the anchor, and the best chain's tip. -/
structure Store extends Anchor where
  rows : MemoryHeaderRows
  best : Entry

/-- A walk over rows that lead nowhere up; the code's would not end. -/
def unending : Failure := .error "a walk over the rows does not end"

section

variable [Blake] [Autolykos]

/-- The context read in order, each header the child of the one before it. -/
def readContext : List Bytes → List FullHeader → Option (List FullHeader)
  | [], done => some done
  | bytes :: rest, done => do
    let header ← parseErgoHeader bytes
    guard (∀ other ∈ done, other.id ≠ header.id)
    guard (∀ previous ∈ done.getLast?, header.height = previous.height + 1 ∧ header.parentId = previous.id)
    readContext rest (done ++ [header])

/-- The anchor a store is rooted at, its context authenticated by linkage alone. -/
def readAnchor (anchorId : Bytes) (context : List Bytes) (rules : Rules) : Option Anchor := do
  guard (anchorId.length = 32 ∧ anchorContext + 1 ≤ context.length)
  let byHeight ← readContext context []
  let root ← byHeight.getLast?
  let lowest ← byHeight.head?
  let minimum : Int := match rules with | .testnet => anchorContext + 1 | .mainnet => eip37ActivationHeight - 1
  guard (root.id = anchorId ∧ minimum ≤ root.height)
  return ⟨rules, byHeight, root, lowest.height⟩

namespace Anchor

variable (anchor : Anchor) (rows : MemoryHeaderRows)

omit [Blake] [Autolykos] in
def below (id : Bytes) : Option Entry := (anchor.byHeight.find? (·.id = id)).map fun header => parsed header 0 false

omit [Blake] [Autolykos] in
/-- The context's header at a height. -/
def contextAt (height : Int) : Option Entry :=
  if height < anchor.lowest then none else anchor.byHeight[(height - anchor.lowest).toNat]?.map fun header => parsed header 0 false

def storedHeader (id : Bytes) (row : ErgoHeaderRow) : Except Failure FullHeader :=
  match parseErgoHeader row.bytes with
  | some header =>
    if header.id ≠ id ∨ header.height ≠ row.height ∨ header.parentId ≠ row.parentId then
      .error (.error "a stored header row does not reproduce its id, parent and height")
    else .ok header
  | none => .error (.error "a stored header row does not reproduce its id, parent and height")

/-- An accepted header above the anchor from the rows. -/
def stored (id : Bytes) : Except Failure (Option Entry) :=
  match rows.get id with
  | none => .ok none
  | some row =>
    if row.height ≤ anchor.root.height ∨ row.parentId.length ≠ 32 then .error (.error "a stored header row is malformed")
    else .ok (some ⟨id, row.parentId, row.height, row.score, true, storedHeader id row⟩)

def entry (id : Bytes) : Except Failure (Option Entry) :=
  match anchor.below id with
  | some at_ => .ok (some at_)
  | none => anchor.stored rows id

def tipOf : Except Failure Entry :=
  match rows.bestHeight with
  | none => .ok (parsed anchor.root 0 false)
  | some height => do
    match ← anchor.stored rows ((rows.bestAt height).getD []) with
    | none => throw (.error "the best chain's rows do not reach its tip")
    | some at_ => if at_.height ≠ height then throw (.error "the best chain's rows do not reach its tip") else return at_

/-- A store over rows that hold a chain its rules accepted before, or none. -/
def store : Except Failure Store := do return { toAnchor := anchor, rows, best := ← anchor.tipOf rows }

end Anchor

def ergoHeaderStore (anchorId : Bytes) (context : List Bytes) (rules : Rules) (rows : MemoryHeaderRows) : Except Failure (Option Store) :=
  match readAnchor anchorId context rules with
  | none => .ok none
  | some anchor => some <$> anchor.store rows

namespace Store

variable (s : Store)

def stored (id : Bytes) : Except Failure (Option Entry) := s.toAnchor.stored s.rows id

def entry (id : Bytes) : Except Failure (Option Entry) := s.toAnchor.entry s.rows id

/-- The best chain's header at a height above the anchor and at most its tip. -/
def bestEntry (height : Int) : Except Failure Entry :=
  match s.rows.bestAt height with
  | none => .error (.error "the best chain's rows are incomplete")
  | some id => do
    match ← s.stored id with
    | none => throw (.error "the best chain's rows are incomplete")
    | some at_ => return at_

omit [Blake] [Autolykos] in
def onBest (at_ : Entry) : Bool := !at_.above || (s.rows.bestAt at_.height).getD [] = at_.id

def parentOf (at_ : Entry) : Except Failure (Option Entry) :=
  if at_.above then s.entry at_.parentId else .ok (s.contextAt (at_.height - 1))

/-- Steps a walk up from an entry can take. -/
def fuel (at_ : Entry) : Nat := (at_.height - s.lowest).toNat + 1

/-- The ancestor of an entry at a height: by height once the walk reaches the best chain or the context. -/
def ancestorWalk (height : Int) : Nat → Option Entry → Except Failure (Option Entry)
  | _, none => .ok none
  | 0, some _ => .error unending
  | left + 1, some at_ =>
    if at_.height ≤ height then .ok (if at_.height = height then some at_ else none)
    else if s.onBest at_ then
      if height ≤ s.root.height then .ok (s.contextAt height)
      else if s.best.height < height then .ok none
      else some <$> s.bestEntry height
    else do ancestorWalk height left (← s.parentOf at_)

def ancestorAt (at_ : Entry) (height : Int) : Except Failure (Option Entry) := s.ancestorWalk height (s.fuel at_) (some at_)

/-- The entries from one up to where it stops, on the best chain or there, and where that is. -/
def walkOff (stop : Entry → Bool) : Nat → Option Entry → Except Failure (List Entry × Option Entry)
  | _, none => .ok ([], none)
  | 0, some _ => .error unending
  | left + 1, some at_ =>
    if s.onBest at_ || stop at_ then .ok ([], some at_)
    else do
      let (path, last) ← walkOff stop left (← s.parentOf at_)
      return (at_ :: path, last)

def off (at_ : Option Entry) (stop : Entry → Bool) : Except Failure (List Entry × Option Entry) :=
  s.walkOff stop ((at_.map s.fuel).getD 0) at_

def notDescended : Failure := .error "an accepted header does not descend from the anchor"

/-- The highest header on the best chain that an entry descends from or is. -/
def fork (at_ : Entry) : Except Failure Entry := do
  match (← s.off (some at_) fun _ => false).2 with
  | none => throw notDescended
  | some met => return met

/-- The ancestors a new epoch's difficulty is calculated from, the oldest first; none where one is missing. -/
def epochAncestors (parent : Entry) : List Int → Except Failure (Option (List FullHeader))
  | [] => .ok (some [])
  | i :: rest => do
    match ← s.ancestorAt parent (parent.height - i * epoch) with
    | none => return none
    | some ancestor =>
      let header ← ancestor.header
      return (← epochAncestors parent rest).map (header :: ·)

def epochsBack : List Int := [8, 7, 6, 5, 4, 3, 2, 1, 0]

omit [Blake] [Autolykos] in
/-- The rules' difficulty over an epoch's ancestors. -/
def Rules.difficulty (rules : Rules) (previous : List ErgoHeader) : Except Failure Int :=
  match rules with
  | .testnet => testnetDifficulty previous
  | .mainnet => eip37Difficulty previous

def required (parent : Entry) : Except Failure (Option Int) :=
  if s.rules = .testnet ∧ (parent.height = testnetV2ActivationHeight ∨ parent.height + 1 = testnetV2ActivationHeight) then .ok (some 32)
  else if parent.height.tmod epoch ≠ 0 then do return some (decodeCompactBits (← parent.header).nBits)
  else do
    match ← s.epochAncestors parent epochsBack with
    | none => return none
    | some previous => some <$> Rules.difficulty s.rules (previous.map (·.toErgoHeader))

/-- Why an accepted header no longer meets the rules it was accepted under, or none. -/
def fault (at_ : Entry) (work : Bool) : Except Failure (Option String) := do
  let parent ← s.parentOf at_
  let header ← at_.header
  match parent with
  | none => return some "its parent is missing"
  | some parent => do
    if header.height ≠ parent.height + 1 then return some "it does not follow its parent"
    if header.timestamp ≤ (← parent.header).timestamp then return some "it does not follow its parent"
    let difficulty ← s.required parent
    if difficulty = none ∨ some (decodeCompactBits header.nBits) ≠ difficulty ∨ some at_.score ≠ difficulty.map (parent.score + ·) then
      return some "its difficulty or score is wrong"
    if work && !autolykosPowValid header then return some "its work does not hold"
    return none

/-- The best chain's heights above the anchor. -/
def bestHeights : List Int := (List.range (s.best.height - s.root.height).toNat).map fun i : Nat => s.root.height + 1 + i

/-- The best chain checked from the anchor's child up: how many headers. -/
def auditBest (work : Bool) : Entry → List Int → Except Failure Nat
  | _, [] => .ok 0
  | parent, height :: rest => do
    let at_ ← s.bestEntry height
    let why ← if at_.parentId ≠ parent.id then pure (some "it does not link to the best chain below it") else s.fault at_ work
    match why with
    | some why => throw (.error s!"best-chain header at height {height}: {why}")
    | none => return (← auditBest work at_ rest) + 1

/-- An id's digits. -/
def hex (id : Bytes) : String := String.ofList ((hexText id).map fun digit => Char.ofNat digit.toNat)

def sideFault (work : Bool) (at_ : Option Entry) : Except Failure (Option String) :=
  match at_ with
  | none => .ok (some "its row is missing")
  | some at_ =>
    if at_.above && s.onBest at_ then .ok (some "it is on the best chain")
    else if s.best.score < at_.score then .ok (some "it outscores the best chain")
    else s.fault at_ work

def auditSides (work : Bool) : List Bytes → Except Failure Nat
  | [] => .ok 0
  | id :: rest => do
    match ← s.sideFault work (← s.stored id) with
    | some why => throw (.error s!"side header {hex id}: {why}")
    | none => return (← auditSides work rest) + 1

/-- Every header the rows hold checked as it was accepted: how many. -/
def audit (work : Bool) : Except Failure Nat := do
  let chain ← s.auditBest work (parsed s.root 0 false) s.bestHeights
  return chain + (← s.auditSides work s.rows.sides)

/-- The best chain from the anchor's child to its tip. -/
structure HeaderChain where
  tipId : Bytes
  height : Int
  score : Int
  headers : List HeaderView
  deriving DecidableEq, Repr

def viewAt (height : Int) : Except Failure HeaderView := do return view (← (← s.bestEntry height).header)

def bestChain : Except Failure HeaderChain := do return ⟨s.best.id, s.best.height, s.best.score, ← s.bestHeights.mapM s.viewAt⟩

def bestAt (height : Int) : Except Failure (Option HeaderView) :=
  if height ≤ s.root.height ∨ s.best.height < height then .ok none else some <$> s.viewAt height

def isBest (id : Bytes) : Except Failure Bool := do return (← s.stored id).any s.onBest

def forkHeight (id : Bytes) : Except Failure (Option Int) := do
  match ← s.stored id with
  | none => return none
  | some at_ => return some (← s.fork at_).height

def offBest (id : Bytes) : Except Failure (List Bytes) := do return (← s.off (← s.stored id) fun _ => false).1.map (·.id)

def bytesOf (id : Bytes) : Except Failure (Option Bytes) := do
  match ← s.stored id with
  | none => return none
  | some at_ => return some (← at_.header).bytes

/-- The headers off the best chain on the protected paths. -/
def keepPaths : List Bytes → HeaderIds → Except Failure HeaderIds
  | [], keep => .ok keep
  | id :: rest, keep => do
    match ← s.entry id with
    | none => throw (.error "unknown protected header")
    | some at_ =>
      let path := (← s.off (some at_) fun other => (get? keep other.id).isSome).1
      keepPaths rest (path.foldl (fun keep other => set keep other.id ()) keep)

/-- Where a side header meets the best chain, with every header walked to know it. -/
def meeting (at_ : Entry) (meets : OrderedMap Bytes Int) : Except Failure (Int × OrderedMap Bytes Int) := do
  let (walked, last) ← s.off (some at_) fun other => (get? meets other.id).isSome
  match last with
  | none => throw notDescended
  | some met =>
    let height := if s.onBest met then met.height else (get? meets met.id).getD met.height
    return (height, walked.foldl (fun meets other => set meets other.id height) meets)

/-- The side headers to drop below a final header. -/
def doomed (final : Entry) (keep : HeaderIds) : List Bytes → OrderedMap Bytes Int → Except Failure (List Bytes)
  | [], _ => .ok []
  | id :: rest, meets =>
    if (get? keep id).isSome then doomed final keep rest meets
    else do
      match ← s.stored id with
      | none => throw (.error "a side header row is missing")
      | some at_ =>
        let (height, meets) ← s.meeting at_ meets
        let others ← doomed final keep rest meets
        return if height < final.height then id :: others else others

end Store

inductive AddAnswer
  | added | known
  | malformed | unknownParent | belowAnchor | height | timestamp | difficulty | pow
  deriving DecidableEq, Repr

abbrev StoreWork := Work Store Failure

/-- Make an entry the best chain's tip: the headers above where it meets the old best chain replace the old ones, which become side headers. -/
def promote (tip : Entry) : StoreWork Unit := do
  let s ← get
  let (path, last) ← liftM (s.off (some tip) fun _ => false)
  match last with
  | none => throw Store.notDescended
  | some met =>
    let heights := (List.range (s.best.height - met.height).toNat).map fun i : Nat => met.height + 1 + i
    heights.forM fun height => do
      let old ← liftM (s.bestEntry height)
      modify fun s => { s with rows := s.rows.addSide old.id }
    path.reverse.forM fun step => modify fun s => { s with rows := s.rows.removeSide step.id }
    let s ← get
    let rows ← liftM (s.rows.setBest (met.height + 1) (path.reverse.map (·.id)))
    modify fun s => { s with rows, best := tip }

/-- What the rules say of a header that is not held, its parent and their difficulty given. -/
def judge (s : Store) (header : FullHeader) (parent : Entry) : Except Failure (Except AddAnswer Int) := do
  if !parent.above && parent.id ≠ s.root.id then return .error .belowAnchor
  if header.height ≠ parent.height + 1 then return .error .height
  if header.timestamp ≤ (← parent.header).timestamp then return .error .timestamp
  match ← s.required parent with
  | none => throw (.error "anchor context misses a difficulty ancestor")
  | some difficulty =>
    if difficulty ≤ 0 ∨ q < difficulty ∨ decodeCompactBits header.nBits ≠ difficulty then return .error .difficulty
    if !autolykosPowValid header then return .error .pow
    return .ok difficulty

/-- Accept one header whose parent is the anchor or an accepted header. -/
def add (input : Bytes) : StoreWork AddAnswer := do
  match parseErgoHeader input with
  | none => return .malformed
  | some header =>
    let s ← get
    if (← liftM (s.entry header.id)).isSome then return .known
    match ← liftM (s.entry header.parentId) with
    | none => return .unknownParent
    | some parent => match ← liftM (judge s header parent) with
      | .error answer => return answer
      | .ok difficulty =>
        let added := parsed header (parent.score + difficulty) true
        modify fun s => { s with rows := s.rows.put header.id ⟨header.height, header.parentId, added.score, header.bytes⟩ }
        if s.best.score < added.score then promote added
        else modify fun s => { s with rows := s.rows.addSide header.id }
        return .added

/-- Drop complete inferior side subtrees below a final header, except those containing a protected incomplete supplier pass. -/
def prune (witnessed : Bytes) (protectedIds : List Bytes) : StoreWork Unit := do
  let s ← get
  match ← liftM (s.stored witnessed) with
  | none => throw (.error "pruning requires a best-chain final header")
  | some final =>
    if !s.onBest final then throw (.error "pruning requires a best-chain final header")
    let keep ← liftM (s.keepPaths protectedIds [])
    let doomed ← liftM (s.doomed final keep s.rows.sides [])
    doomed.forM fun id => modify fun s => { s with rows := (s.rows.delete id).removeSide id }

/-- What happens to a store: a header offered, a pruning, or its process opening it again over its rows. -/
inductive Event
  | add (input : Bytes)
  | prune (witnessed : Bytes) (protectedIds : List Bytes)
  | reopen

/-- The store after an event. -/
def Store.after (s : Store) : Event → Store
  | .add input => ((HeaderTree.add input).runs s).2
  | .prune witnessed protectedIds => ((HeaderTree.prune witnessed protectedIds).runs s).2
  | .reopen => match s.toAnchor.store s.rows with
    | .ok opened => opened
    | .error _ => s

def Store.run (s : Store) (events : List Event) : Store := events.foldl Store.after s

end

end Moe.HeaderTree
