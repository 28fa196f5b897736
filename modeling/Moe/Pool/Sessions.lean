import Moe.Lib.Savepoint
import Moe.Pool.SpentRows
import Moe.Pool.State

namespace Moe

variable [Crypto] {K : Type}

/-- A store's tables: its namespaces, with the set their spent nodes hold, the nodes themselves, and the kept rows. -/
structure Tables (K : Type) where
  store : Store
  nodes : Nat → SpentTable
  kept : K

/-- What a store holds beside its rows. -/
structure Aside where
  generation : Nat
  replaying : Bool
  /-- Its rows are a kept file's. -/
  file : Bool
  deriving DecidableEq

/-- What was known of the rows goes with a transaction rolled back. -/
def Aside.lose (aside : Aside) : Aside := { aside with generation := aside.generation + 1 }

abbrev Session (K : Type) := Connection (Tables K) Aside

/-- What a store's call throws: what the call refuses by, or what recording a commit's digest threw after it. -/
inductive Thrown
  | call (failure : Failure)
  | vouch (failure : Failure)
  deriving DecidableEq

namespace Session

abbrev Call (K α : Type) := Work (Session K) Thrown α

def attempt {α : Type} (value : Except Failure α) : Call K α := liftM (value.mapError Thrown.call)

def tables : Call K (Tables K) := do return (← get).rows

def write (f : Tables K → Tables K) : Call K PUnit := modify fun c => { c with rows := f c.rows }

def find (ns : Nat) : Call K Namespace := do attempt ((← tables).store.find ns)

/-- Write over a namespace's row and its tables. -/
def writeNamespace (ns : Nat) (f : Namespace → Namespace) : Call K PUnit :=
  write fun t => { t with store := match t.store.namespaces ns with
    | some n => t.store.put ns (f n)
    | none => t.store }

def writeNodes (ns : Nat) (f : SpentTable → SpentTable) : Call K PUnit :=
  write fun t => { t with nodes := fun other => if other = ns then f (t.nodes ns) else t.nodes other }

def addFact (ns position : Nat) (fact : Fact) : Call K PUnit :=
  writeNamespace ns fun n => { n with rows := ⟨ns, position, fact⟩ :: n.rows }

section

-- What recording a commit's digest throws, besides that another store of the process is reading the file.
variable (digest : Tables K → Option Failure)

/-- A commit outside a walk records its digest; the writes stand whether or not it can. -/
def vouch : Call K PUnit := do
  match digest (← tables) with
  | none => pure ⟨⟩
  | some failure => throw (.vouch failure)

/-- Writes that stand only if `body` returns. Outside a transaction they commit, and on a kept file that is a keep point. -/
def atomic {α : Type} (body : Call K α) : Call K α := do
  let own := !(← get).isTransaction
  let result ← Connection.savepoint Aside.lose body
  if own && (← get).aside.file then vouch digest
  return result

/-- One checkpoint's replay: its writes stand only if `body` returns. -/
def replay {α : Type} (body : Call K α) : Call K α := do
  if (← get).aside.replaying then attempt (.error (.error "a replay is already open on this store"))
  modify fun c => { c with aside := { c.aside with replaying := true } }
  Work.lastly (atomic digest body) fun c => { c with aside := { c.aside with replaying := false } }

/-- An output's row, at its width: the table holds each commitment once. -/
def insertOutput (ns position leaf : Nat) (output : AppendOutput) : Call K PUnit := do
  let n ← find ns
  attempt (if n.keeps.tree then require (isField output.cm) (.encoding "left child is not a canonical field element")
    else requireKey output.cm)
  attempt (require (n.rows.outputs.all fun held => held.row.cm ≠ output.cm) (.constraint "output"))
  addFact ns position (.output ⟨output.cm, leaf, output.capsule, output.settlement⟩)

def putWitness (ns : Nat) (witness : StoredWitness) : Call K PUnit :=
  writeNamespace ns fun n => { n with witnesses := n.witnesses ++ [witness] }

/-- The rows of a record's outputs, and of the witnesses born with them. With a note tree, the witnesses beside each block
completed are written again. -/
def insertOutputs (ns position : Nat) (n : Namespace) (outputs : List AppendOutput) (notes : NoteAppend) : Call K PUnit := do
  let rows := outputs.zip notes.born
  if n.keeps.tree then
    rows.forM fun row => insertOutput ns position row.2.1 row.1
    rows.forM fun row => row.1.witness.forM fun mark => putWitness ns ⟨row.2.1, row.1.cm, mark, row.2.2⟩
    notes.completed.forM fun completed => writeNamespace ns fun n => { n with witnesses := n.witnesses.map (Namespace.settleSibling completed) }
  else
    rows.forM fun row => do
      insertOutput ns position row.2.1 row.1
      row.1.witness.forM fun mark => putWitness ns ⟨row.2.1, row.1.cm, mark, row.2.2⟩

/-- Insert a key into a namespace's spent set: its nodes are written on the way, also where it is refused. -/
def insertSpent (ns : Nat) (spent : SpentTable) (nf : Nat) : Call K SpentTable := do
  let (grown, done) := spent.insert (toBytes 32 nf)
  writeNodes ns fun table => { table with rows := grown.rows }
  attempt done
  return grown

/-- A nullifier's row and its key in the spent set; a note tree's namespace drops the witness of the note it spends. -/
def insertNullifier (ns position : Nat) (tree : Bool) (spent : SpentTable) (row : StoredNullifier) : Call K SpentTable := do
  attempt (requireKey row.nf)
  let grown ← insertSpent ns spent row.nf
  attempt (requireKey row.tag)
  let n ← find ns
  attempt (require (n.rows.nullifiers.all fun held => held.row.nf ≠ row.nf) (.constraint "nullifier"))
  addFact ns position (.nullifier row)
  if tree then writeNamespace ns fun n => { n with witnesses := n.witnesses.filter fun held => held.mark.nf ≠ row.nf }
  return grown

/-- The top node and the next node's number, once every key is in. -/
def saveSpent (ns : Nat) (spent : SpentTable) (keys : List Nat) : Call K PUnit := do
  writeNodes ns fun _ => spent
  writeNamespace ns fun n => { n with spent := (n.spent.insertAll keys).toOption.getD n.spent }

/-- A demand's row, then its tag rows and its nullifier rows. -/
def insertDemand (ns position : Nat) (demand : Bytes × Demand) : Call K PUnit := do
  let (id, value) := demand
  let n ← find ns
  attempt (require (n.rows.demands.all (fun held => held.row.id ≠ id || held.row.nullifiers = []) &&
    n.rows.demandEnds.all (·.row ≠ id)) (.keptState "a demand's rows before it stands"))
  let tag0 ← attempt (known value.tags[0]?)
  attempt (requireKey tag0)
  let tag1 ← attempt (known value.tags[1]?)
  attempt (requireKey tag1)
  attempt (require (n.rows.demands.all (·.row.id ≠ id)) (.constraint "demand"))
  let held (tags nullifiers : List Nat) : Fact :=
    .demand ⟨id, value.backing, value.quantity, tag0, tag1, value.presenter, value.instant, value.deadline, tags, nullifiers⟩
  -- The row stands with the tag and nullifier rows written so far.
  addFact ns position (held [] [])
  (value.tags.inits.tail.zip value.tags).forM fun (tags, tag) => do
    attempt (requireKey tag)
    writeNamespace ns fun n => { n with rows := ⟨ns, position, held tags []⟩ :: n.rows.tail }
  let nullifiers := value.nullifiers.getD []
  (nullifiers.inits.tail.zip nullifiers).forM fun (spent, nf) => do
    attempt (requireKey nf)
    writeNamespace ns fun n => { n with rows := ⟨ns, position, held value.tags spent⟩ :: n.rows.tail }

def insertDemandEnd (ns position : Nat) (id : Bytes) : Call K PUnit := do
  attempt ((← find ns).endDemand id >>= fun _ => .ok ())
  addFact ns position (.demandEnd id)

/-- Write one judged record at the tip of `ns`, atomically. -/
def append (ns : Nat) (record : Append) : Call K Namespace := atomic digest do
  let n ← find ns
  let position := n.position + 1
  let notes := n.appendOutputs (record.outputs.map (·.cm))
  insertOutputs ns position n record.outputs notes
  let spent ← record.nullifiers.foldlM (insertNullifier ns position n.keeps.tree) ((← tables).nodes ns)
  saveSpent ns spent (record.nullifiers.map (·.nf))
  let spentRoot ← attempt spent.root
  if n.keeps.tree then (n.newAnchors notes.noteRoot).forM fun root => addFact ns position (.anchor root)
  record.demand.forM (insertDemand ns position)
  record.ended.forM (insertDemandEnd ns position)
  record.supply.forM fun supply => writeNamespace ns fun held =>
    { held with totals := ⟨supply.backing, position, (held.total n.position supply.backing).add supply.totals⟩ :: held.totals }
  let history := record.history notes.noteRoot spentRoot
  addFact ns position (.event { identity := record.identity, kind := record.kind, index := record.index, proofHash := record.proofHash
                                signatureHash := record.signatureHash, settlement := if record.kind = 6 then some record.record else none
                                history, evidence := record.evidence, noteRoot := notes.noteRoot, spentRoot, supply := record.supply })
  record.keys.dedup.forM fun key => addFact ns position (.eventKey key)
  writeNamespace ns fun held =>
    { held with position, history, evidence := record.evidence, leaves := notes.leaves, noteRoot := notes.noteRoot, ommers := notes.ommers }
  find ns

/-- A fresh namespace for `segment` under `identity`: the empty tree and anchor, the imported frontier's rows by reference,
its spent set built from them and the totals it starts from. -/
def «open» (segment identity : Bytes) (imported : Option Imports) (history evidence : Bytes) (keeps : NamespaceConstruction) :
    Call K Nat := do
  let imports := imported.getD .empty
  let s := (← tables).store
  attempt (imports.segments.forM fun entry => do
    let source ← s.find entry.2.ns
    require (source.keeps = keeps) (.typeError "an import is of another construction"))
  atomic digest do
    let s := (← tables).store
    let ns := s.next
    write fun t => { t with store := { s.put ns { s.fresh segment identity .empty history evidence keeps none with rows := [] } with
                                       next := ns + 1 }
                            nodes := fun other => if other = ns then {} else t.nodes other }
    imports.segments.forM fun entry => do
      attempt (require ((← find ns).imports.all fun held => held.2.ns ≠ entry.2.ns) (.constraint "import"))
      writeNamespace ns fun n => { n with imports := n.imports ++ [entry] }
    if keeps.tree then addFact ns 0 (.anchor emptyNoteRoot)
    imports.totals.forM fun total => writeNamespace ns fun n => { n with totals := n.totals ++ [⟨total.1, 0, total.2⟩] }
    let keys := s.importedNullifiers imports
    let spent ← keys.foldlM (insertSpent ns) ((← tables).nodes ns)
    saveSpent ns spent keys
    let base ← attempt spent.root
    writeNamespace ns fun n => { n with baseSpent := base }
    return ns

variable {R : Type}

/-- Write a judged record's effects. Only the last check follows: at the last valid checkpoint's position the new history
hash must be its own, and a mismatch undoes this record's writes before refusing. -/
def applyJudged (state : SegmentState R) (judged : Judged R) (replay : SegmentReplay) : Call K PUnit := do
  attempt (require (state.handle.position (← tables).store = judged.position) (.error "the state moved since the record was judged"))
  let previous := (← find state.ns).history
  atomic digest do
    let effects ← attempt (judged.effects state.construction replay previous)
    let tip ← append digest state.ns effects
    attempt (requireReplay (replay.lastValid.all fun last => judged.position + 1 ≠ last.position || tip.history = last.historyHash)
      .continuity)

/-- Judge then apply the record at the state's position. -/
def applyRecord (state : SegmentState R) (bytes : Bytes) (replay : SegmentReplay) : Call K PUnit := do
  let judged ← attempt (judgeRecord (← tables).store state bytes replay)
  applyJudged digest state judged replay

def openSegmentState (segment identity : Bytes) (imported : Option Imports) (construction : Construction R) :
    Call K (SegmentState R) := do
  let history ← attempt (construction.genesisHistory segment)
  let evidence ← attempt (construction.genesisEvidence segment)
  return ⟨← «open» digest segment identity imported history evidence construction.keeps, construction⟩

end

end Session

end Moe
