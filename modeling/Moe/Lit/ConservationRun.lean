import Moe.Lit.Conservation
import Moe.Pool.Adopted

namespace Moe

theorem Fact.told_output {fact : Fact} {cm : Nat} {settlement : Bool} :
    fact.told = some (.output ⟨cm, 0, none, settlement⟩) ↔ ∃ row, fact = .output row ∧ row.cm = cm ∧ row.settlement = settlement := by
  cases fact with
  | output row =>
    simp only [told, Option.some.injEq, output.injEq, StoredOutput.mk.injEq, true_and, exists_eq_left']
  | _ => simp [told]

/-- An output some rows hold is one they tell. -/
theorem Rows.hasOutput_tells {rows : Rows} {cm : Nat} :
    rows.hasOutput cm = true ↔ ∃ settlement, rows.Tells (.output ⟨cm, 0, none, settlement⟩) := by
  simp only [hasOutput, List.any_eq_true, decide_eq_true_eq, Tells, mem_told, Fact.told_output]
  constructor
  · rintro ⟨placed, member, rfl⟩
    obtain ⟨fact, picked, inside⟩ := mem_table.mp member
    refine ⟨placed.row.settlement, placed.position, _, inside, rfl, placed.row, ?_, rfl, rfl⟩
    cases fact with
    | output row => exact congrArg Fact.output (Option.some.inj picked)
    | _ => cases picked
  · rintro ⟨settlement, q, placed, member, rfl, row, same, rfl, rfl⟩
    exact ⟨⟨placed.ns, placed.position, row⟩, mem_table.mpr ⟨placed.row, by rw [same], member⟩, rfl⟩

theorem Rows.table_through {α : Type} {pick : Fact → Option α} {rows : Rows} {p : Nat} (none_ : table pick rows = []) :
    table pick (through p rows) = [] := by
  refine List.eq_nil_iff_forall_not_mem.mpr fun placed member => ?_
  obtain ⟨fact, picked, inside⟩ := mem_table.mp member
  have source : placed ∈ table pick rows := mem_table.mpr ⟨fact, picked, (mem_through.mp inside).1⟩
  rw [none_] at source
  cases source

theorem Rows.Tells.through {rows : Rows} {p q : Nat} {fact : Fact} (told : (rows.through p).Tells fact) (le : p ≤ q) :
    (rows.through q).Tells fact := by
  obtain ⟨at_, member⟩ := told
  obtain ⟨placed, inside, position, tells⟩ := Rows.mem_told.mp member
  obtain ⟨source, within⟩ := Rows.mem_through.mp inside
  exact ⟨at_, Rows.mem_told.mpr ⟨placed, Rows.mem_through.mpr ⟨source, within.trans le⟩, position, tells⟩⟩

/-- What an imported prefix shows, a state that imports it shows. -/
theorem Store.Known.visible_tells {names : Preimages} {s : Store} (known : s.Known names) (placed : s.WellPlaced) {ns p : Nat} {n : Namespace}
    (found : s.namespaces ns = some n) {entry : ImportEntry} {name : Bytes} (imported : (name, entry) ∈ n.imports) {q : Nat}
    (le : q ≤ entry.upto) {fact : Fact} (told : (s.visible entry.ns q).Tells fact) : (s.visible ns p).Tells fact := by
  obtain ⟨-, m, foundM, -⟩ := placed.imports ns n found _ imported
  rcases (Store.visible_tells foundM).mp told with own | ⟨other, inner, member, inside⟩
  · refine (Store.visible_tells found).mpr (.inr ⟨name, entry, imported, ?_⟩)
    rw [Store.rows_of_found foundM]
    exact own.through le
  · obtain ⟨held, at_, prefix_⟩ := (known ns n found).closed (name, entry) imported (other, inner) ((Store.imports_perm foundM).mem_iff.mpr member)
    have listed := OrderedMap.mem_of_get? at_
    have first : s.Holds inner := (placed.imports _ m foundM _ member).2
    have second : s.Holds held := (placed.imports ns n found _ listed).2
    have segment : s.segment inner.ns = s.segment held.ns :=
      ((known _ m foundM).named _ member).trans ((known ns n found).named _ listed).symm
    obtain ⟨at_, tells⟩ := inside
    exact (Store.visible_tells found).mpr (.inr ⟨other, held, listed, at_, known.prefix_told placed first second segment prefix_ tells⟩)

/-- What is visible where a visible row was written stays visible. -/
theorem Store.Known.visible_mono {names : Preimages} {s : Store} (known : s.Known names) (placed : s.WellPlaced) {ns p : Nat}
    (held : s.Holds ⟨ns, p⟩) {row : Placed Fact} (member : row ∈ s.visible ns p) {fact : Fact}
    (told : (s.visible row.ns row.position).Tells fact) : (s.visible ns p).Tells fact := by
  obtain ⟨n, found, -⟩ := id held
  obtain ⟨m, foundM, -, entry, listed, same, within⟩ := (placed.mem_visible held).mp member
  rcases List.mem_cons.mp listed with rfl | imported
  · rw [← same] at told
    rcases (Store.visible_tells found).mp told with own | import_
    · exact (Store.visible_tells found).mpr (.inl (own.through within))
    · exact (Store.visible_tells found).mpr (.inr import_)
  · obtain ⟨⟨name, source⟩, inside, rfl⟩ := List.mem_map.mp imported
    rw [← same] at told
    exact known.visible_tells placed found ((Store.imports_perm found).mem_iff.mp inside) within told

namespace Lit

section Balance

variable (notes : NotePreimages)

/-- Rows whose events balance: what they create and burn of each backing is what they spend and issue. -/
def NotePreimages.Balanced (rows : Rows) : Prop := ∀ backing,
  notes.worth backing (rows.outputs.map (·.row.cm)) + (rows.supplied backing).burned =
    notes.worth backing ((rows.nullifiers.map (·.row.nf)).map notes.spends) + (rows.supplied backing).issued

variable {notes}

theorem NotePreimages.Balanced.append {a b : Rows} (first : notes.Balanced a) (second : notes.Balanced b) : notes.Balanced (a ++ b) := by
  intro backing
  have one := first backing
  have two := second backing
  simp only [Rows.outputs_append, Rows.nullifiers_append, Rows.supplied_append, List.map_append, NotePreimages.worth_append, Totals.add]
  omega

/-- Rows that hold no output, nullifier or event balance. -/
theorem NotePreimages.balanced_of_empty {rows : Rows} (outputs : rows.outputs = []) (nullifiers : rows.nullifiers = [])
    (events : rows.events = []) : notes.Balanced rows := by
  intro backing
  simp [outputs, nullifiers, events, Rows.supplied]

theorem NotePreimages.balanced_union {s : Store} {entries : List ImportEntry} (each : ∀ entry ∈ entries, notes.Balanced ((s.rows entry.ns).through entry.upto)) :
    notes.Balanced (s.union entries) := by
  induction entries with
  | nil => exact NotePreimages.balanced_of_empty rfl rfl rfl
  | cons entry rest ih =>
    obtain ⟨first, others⟩ := List.forall_mem_cons.mp each
    rw [Store.union_cons]
    exact first.append (ih others)

end Balance

section Keeping

variable [Crypto] {names : Preimages} {notes : NotePreimages} {s later : Store} {ns : Nat} {n : Namespace} {rows rows' : Rows}

theorem NotePreimages.Spends.mono {nf : Nat} (spends : notes.Spends rows nf)
    (more : ∀ cm, rows.hasOutput cm = true → rows'.hasOutput cm = true) : notes.Spends rows' nf := ⟨spends.1, more _ spends.2⟩

theorem NotePreimages.Claims.mono {demand : Demand} (claims : notes.Claims rows demand)
    (more : ∀ cm, rows.hasOutput cm = true → rows'.hasOutput cm = true) : notes.Claims rows' demand :=
  ⟨fun nf member => (claims.nullifiers nf member).mono more, claims.worth, claims.quantity⟩

/-- What the lit records of a namespace keep of their notes. -/
structure Conserves (notes : NotePreimages) (s : Store) (ns : Nat) (n : Namespace) : Prop where
  balanced : ∀ p, notes.Balanced (n.rows.through p)
  outputs : ∀ output ∈ n.rows.outputs, notes.Holds output.row.cm
  nullifiers : ∀ spend ∈ n.rows.nullifiers, notes.Spends (s.visible ns spend.position) spend.row.nf
  demands : ∀ held ∈ n.rows.demands, notes.Claims (s.visible ns held.position) held.row.demand

/-- A namespace that does not move keeps its notes as the store grows. -/
theorem Conserves.grows (conserves : Conserves notes s ns n) (placed : s.WellPlaced) (found : s.namespaces ns = some n) (grows : s.Grows later) :
    Conserves notes later ns n := by
  have below : ∀ row ∈ n.rows, row.position ≤ n.position := fun row member => (placed.rows ns n found row member).2
  refine ⟨conserves.balanced, conserves.outputs, fun spend member => ?_, fun held member => ?_⟩
  · have bound : spend.position ≤ n.position := @Rows.table_place _ _ _ (fun _ q => q ≤ n.position) below _ member
    rw [grows.visible placed ⟨n, found, bound⟩]
    exact conserves.nullifiers spend member
  · have bound : held.position ≤ n.position := @Rows.table_place _ _ _ (fun _ q => q ≤ n.position) below _ member
    rw [grows.visible placed ⟨n, found, bound⟩]
    exact conserves.demands held member

omit [Crypto] in
/-- An output visible where a visible row was written is visible. -/
theorem visible_output (known : s.Known names) (placed : s.WellPlaced) {p : Nat} (held : s.Holds ⟨ns, p⟩) {α : Type} {pick : Fact → Option α}
    {row : Placed α} (member : row ∈ Rows.table pick (s.visible ns p)) (cm : Nat)
    (shown : (s.visible row.ns row.position).hasOutput cm = true) : (s.visible ns p).hasOutput cm = true := by
  obtain ⟨fact, -, inside⟩ := Rows.mem_table.mp member
  obtain ⟨settlement, told⟩ := Rows.hasOutput_tells.mp shown
  exact Rows.hasOutput_tells.mpr ⟨settlement, known.visible_mono placed held inside told⟩

omit [Crypto] in
/-- A visible row of a table is its namespace's own. -/
theorem visible_own (placed : s.WellPlaced) {p : Nat} (held : s.Holds ⟨ns, p⟩) {α : Type} {pick : Fact → Option α}
    {row : Placed α} (member : row ∈ Rows.table pick (s.visible ns p)) :
    ∃ m, s.namespaces row.ns = some m ∧ row ∈ Rows.table pick m.rows := by
  obtain ⟨fact, picked, inside⟩ := Rows.mem_table.mp member
  obtain ⟨m, found, source, -⟩ := (placed.mem_visible held).mp inside
  exact ⟨m, found, Rows.mem_table.mpr ⟨fact, picked, source⟩⟩

/-- A demand a state shows is of notes the state shows. -/
theorem visible_claims (conserves : ∀ ns n, s.namespaces ns = some n → Conserves notes s ns n) (known : s.Known names) (placed : s.WellPlaced)
    {p : Nat} (held : s.Holds ⟨ns, p⟩) {id : Bytes} {demand : Demand} (read : (s.visible ns p).demand id = some demand) :
    notes.Claims (s.visible ns p) demand := by
  obtain ⟨row, member, -, rfl, -⟩ := Rows.demand_eq_some read
  obtain ⟨m, found, own⟩ := visible_own placed held member
  exact ((conserves _ m found).demands row own).mono (visible_output known placed held member)

end Keeping

section Step

variable [Crypto] [PublicKeys] {names : Preimages} {notes : NotePreimages} {s later : Store} {ns : Nat} {n : Namespace} {bytes : Bytes}
  {replay : SegmentReplay} {record : DecodedRecord} {rows : Rows} {effects : Append} {spent : SpentSet} {demand : Option StoredDemand}

/-- A lit segment's state. -/
def litState (ns : Nat) : SegmentState DecodedRecord := ⟨ns, lit⟩

/-- An adopted record was judged by force: over a state that shows the demands the segment shows, and inputs it shows. -/
def ForceJudged (s : Store) (ns : Nat) (bytes : Bytes) : Prop := ∃ force context after,
  (∀ id, ((litState ns).handle.view s).demand id = force.view.demand id) ∧
    (∀ cm, force.view.isInput cm = true → ((litState ns).handle.view s).isInput cm = true) ∧
      applyForceRecord force bytes context lit = .ok after

/-- The digests of the notes a record names and creates are known. -/
structure Noted (notes : NotePreimages) (record : LitRecord) (demandOf : Bytes → Option Demand) : Prop where
  inputs : ∀ o ∈ record.statement.body.inputs, notes.Tells record.statement.domain o
  outputs : ∀ outputs, litOutputs record (endedBy record demandOf) = .ok outputs → ∀ o ∈ outputs, notes.Tells record.statement.domain o

theorem litView_inputs (record : LitRecord) (demandOf : Bytes → Option Demand) :
    (litView record demandOf).inputs = record.statement.body.inputs.map (commitmentKey record.statement.domain) := by
  cases body : record.statement.body with
  | settle segment settled owner =>
    simp only [litView, body]
    split
    · rfl
    · split <;> rfl
  | _ =>
    simp only [litView, body]
    rfl

theorem litView_check {record : LitRecord} {demandOf : Bytes → Option Demand} {verifier : ProofCheck} (some_ : record.statement.body.inputs ≠ [])
    (passed : (litView record demandOf).check verifier = .ok ()) : arithmeticHolds record.statement = true := by
  have checked : owned record = .ok () := by
    cases body : record.statement.body with
    | spend | burn | demand =>
      simp only [litView, body] at passed
      exact passed
    | _ =>
      rw [body] at some_
      exact absurd rfl some_
  simp only [owned, bind_unit_eq_ok, requireReplay_eq_ok] at checked
  exact checked.1

/-- The statement check a record passed and the inputs it read, there or by force. -/
structure Passed (record : LitRecord) (demandOf : Bytes → Option Demand) (rows : Rows) : Prop where
  check : ∃ verifier, (litView record demandOf).check verifier = .ok ()
  inputs : ∀ cm ∈ (litView record demandOf).inputs, rows.hasOutput cm = true

/-- A record applied at a lit segment's tip was judged, there or by force. -/
theorem passed_of_applied (applied : Applied s (litState ns) bytes replay record n effects spent demand later)
    (adopted : replay.modeAt ((litState ns).handle.position s) = .adoption → ForceJudged s ns bytes) :
    Passed record.toLitRecord ((litState ns).handle.view s).demand (s.visible ns n.position) := by
  have rows : (litState ns).handle.rows s = s.visible ns n.position := SegmentState.rows applied.found
  by_cases mode : replay.modeAt ((litState ns).handle.position s) = .adoption
  · obtain ⟨force, context, after, demands, inputs, run⟩ := adopted mode
    obtain ⟨record', decoded, -, checked, -⟩ := applyForceRecord_eq_ok.mp run
    obtain rfl : record = record' := Except.ok.inj ((decodeJudged_eq_ok.mp applied.decoded).symm.trans decoded)
    have same : force.demand = ((litState ns).handle.view s).demand := funext fun id => (demands id).symm
    rw [same] at checked
    simp only [checkForceView, bind_unit_eq_ok] at checked
    obtain ⟨-, -, check, read, -⟩ := checked
    refine ⟨⟨context.verifier, check⟩, fun cm member => ?_⟩
    simp only [checkInputs, bind_unit_eq_ok, requireReplay_eq_ok, List.all_eq_true] at read
    rw [← rows]
    exact inputs cm (read.2 cm member)
  · have checked := applied.checked
    have guards := applied.finishable.guards
    have check : (judgmentFor s (litState ns) record replay bytes n).check = true := decide_eq_true mode
    rw [Judgment.checkStatement, if_pos check] at checked
    rw [checkGuards, if_pos check] at guards
    simp only [bind_unit_eq_ok, checkInputs, requireReplay_eq_ok, List.all_eq_true] at guards
    refine ⟨⟨replay.verifier, checked⟩, fun cm member => ?_⟩
    rw [← rows]
    exact guards.1.2 cm member

/-- A judged record whose digests are known passed its checks. -/
theorem Passed.checked {record : DecodedRecord} {demandOf : Bytes → Option Demand} {rows : Rows} (judged : Passed record.toLitRecord demandOf rows)
    (noted : Noted notes record.toLitRecord demandOf) (claims : ∀ id demand, demandOf id = some demand → notes.Claims rows demand) :
    Checked notes record.toLitRecord demandOf rows where
  sound := record.sound
  arithmetic some_ := by
    obtain ⟨verifier, passed⟩ := judged.check
    exact litView_check some_ passed
  inputs o member := by
    refine judged.inputs _ ?_
    rw [litView_inputs]
    exact List.mem_map_of_mem member
  named := noted.inputs
  outputs := noted.outputs
  claims := claims

omit [Crypto] [PublicKeys] in
/-- An event moves the supply its statement moves. -/
theorem supplyOf_stated {event : StoredEvent} {st : Stated} (kind : event.kind = st.kind) (supply : event.supply = st.supply) (backing : Bytes) :
    event.supplyOf backing = suppliedBy st backing := by
  rw [StoredEvent.supplyOf, suppliedBy, supply, kind]
  cases moved : st.supply with
  | none => rfl
  | some value =>
    have kinds : st.kind = 1 ∨ st.kind = 3 := by
      by_contra other
      rw [Stated.supply, if_neg fun one => other (.inl one), if_neg fun three => other (.inr three)] at moved
      cases moved
    simp only [kinds, true_and]

/-- What a lit record writes balances. -/
theorem balanced_added (applied : Applied s (litState ns) bytes replay record n effects spent demand later)
    (checked : Checked notes record.toLitRecord ((litState ns).handle.view s).demand rows)
    (supply : effects.supply = (judgedView s (litState ns) record).stated.supply) : notes.Balanced (n.added ns effects spent demand) := by
  intro backing
  have balances := checked.balances backing
  have outputs : (n.added ns effects spent demand).outputs.map (·.row.cm) = (litView record.toLitRecord ((litState ns).handle.view s).demand).outputs := by
    rw [Namespace.added_outputs, List.map_map]
    exact (n.outputRows_cms effects.outputs).trans applied.carries.outputs
  have nullifiers : (n.added ns effects spent demand).nullifiers.map (·.row.nf) = (litView record.toLitRecord ((litState ns).handle.view s).demand).nfs := by
    rw [Namespace.added_nullifiers, List.map_map]
    exact applied.nfs
  have supplied : Rows.supplied (n.added ns effects spent demand) backing =
      suppliedBy (litView record.toLitRecord ((litState ns).handle.view s).demand).stated backing := by
    have moved := @supplyOf_stated (n.eventOf effects spent) (judgedView s (litState ns) record).stated applied.carries.kind supply backing
    rw [Rows.supplied, Namespace.added_events]
    refine Eq.trans ?_ moved
    simp only [List.map_cons, List.map_nil, List.sum_cons, List.sum_nil, Nat.add_zero]
  rw [outputs, nullifiers, supplied]
  exact balances

/-- The namespace a lit record is applied to keeps its notes. -/
theorem conserves_applied (applied : Applied s (litState ns) bytes replay record n effects spent demand later) (placed : s.WellPlaced)
    (stood : s.Stood) (conserves : Conserves notes s ns n) (supply : effects.supply = (judgedView s (litState ns) record).stated.supply)
    (checked : Checked notes record.toLitRecord ((litState ns).handle.view s).demand (s.visible ns n.position)) :
    Conserves notes later ns (n.written ns effects spent demand) := by
  have below : ∀ row ∈ n.rows, row.position ≤ n.position := fun row member => (placed.rows ns n applied.found row member).2
  have balanced := balanced_added applied checked supply
  have old := conserves.grows placed applied.found applied.grows
  have regular := judgedView_regular placed stood applied.found record
  have stored := applied.stored placed stood
  have carries := applied.carries
  have nfs := applied.nfs
  obtain rfl := applied.later
  have more : ∀ cm, (s.visible ns n.position).hasOutput cm = true →
      ((s.put ns (n.written ns effects spent demand)).visible ns (n.position + 1)).hasOutput cm = true := by
    intro cm shown
    have visible : (s.put ns (n.written ns effects spent demand)).visible ns (n.position + 1) = _ := Store.visible_written placed applied.found
    rw [visible, Rows.hasOutput_append, shown, Bool.or_true]
  refine ⟨fun p => ?_, fun output member => ?_, fun spend member => ?_, fun held member => ?_⟩
  · rw [Namespace.written, Rows.through_append]
    refine NotePreimages.Balanced.append ?_ (conserves.balanced p)
    rcases Nat.lt_or_ge n.position p with past | within
    · rw [Rows.through_all fun row member => ?_]
      · exact balanced
      · rw [(n.mem_added _ _ _ _ member).2]
        exact past
    · rw [Rows.through_none fun row member => ?_]
      · exact NotePreimages.balanced_of_empty rfl rfl rfl
      · rw [(n.mem_added _ _ _ _ member).2]
        omega
  · rw [Namespace.written, Rows.outputs_append, List.mem_append] at member
    rcases member with new | kept
    · refine checked.holds ?_
      have cms : (n.added ns effects spent demand).outputs.map (·.row.cm) =
          (litView record.toLitRecord ((litState ns).handle.view s).demand).outputs := by
        rw [Namespace.added_outputs, List.map_map]
        exact (n.outputRows_cms effects.outputs).trans carries.outputs
      rw [← cms]
      exact List.mem_map_of_mem new
    · exact old.outputs output kept
  · rw [Namespace.written, Rows.nullifiers_append, List.mem_append] at member
    rcases member with new | kept
    · rw [Namespace.added_nullifiers] at new
      obtain ⟨row, listed, rfl⟩ := List.mem_map.mp new
      have spends : row.nf ∈ (judgedView s (litState ns) record).nfs := by
        rw [← nfs]
        exact List.mem_map_of_mem listed
      exact (checked.spends spends).mono more
    · exact old.nullifiers spend kept
  · rw [Namespace.written, Rows.demands_append, List.mem_append] at member
    rcases member with new | kept
    · rw [Namespace.added_demands] at new
      obtain ⟨row, listed, rfl⟩ := List.mem_map.mp new
      obtain ⟨⟨id, value⟩, stands, rfl⟩ := Option.map_eq_some_iff.mp (stored ▸ Option.mem_toList.mp listed)
      have standable : value.Standable := by
        by_cases four : (judgedView s (litState ns) record).kind = 4
        · obtain ⟨same, named, standable⟩ := regular.stands four
          rw [named] at stands
          cases stands
          exact standable
        · rw [regular.others four] at stands
          cases stands
      change notes.Claims _ (StoredDemand.of id value).demand
      rw [StoredDemand.of_demand standable]
      exact (checked.stands stands).mono more
    · exact old.demands held kept

end Step

section Runs

variable [Crypto] [PublicKeys] {names : Preimages} {notes : NotePreimages}

/-- A call that did not refuse, of lit records only, where no two digests collide: what a segment adopts was judged by force. -/
inductive LitStep (names : Preimages) (notes : NotePreimages) : Replays → ReplayAction → Replays → Prop
  | opened {r later : Replays} {segment : Bytes} {imported : Option Imports} : KnownStep names r (.opened segment imported) later →
      LitStep names notes r (.opened segment imported) later
  | merged {r later : Replays} {imports : Imports} : KnownStep names r (.merged imports) later → LitStep names notes r (.merged imports) later
  | applied {r : Replays} {ns : Nat} {n : Namespace} {bytes : Bytes} {record : DecodedRecord} {replay : SegmentReplay} {later : Store} :
      r.store.namespaces ns = some n → n.keeps = lit.keeps → applyRecord r.store (litState ns) bytes replay = .ok later →
      decodeJudged lit bytes = .ok record →
      (judgedView r.store (litState ns) record).stated =
        names.stated (judgedView r.store (litState ns) record).identity ((litState ns).handle.view r.store).demand →
      (∀ tip, later.namespaces ns = some tip → names.link tip.history =
        ⟨n.history, (judgedView r.store (litState ns) record).identity, tip.noteRoot, tip.spent.root, n.position + 1⟩) →
      (replay.modeAt ((litState ns).handle.position r.store) = .adoption → ForceJudged r.store ns bytes) →
      Noted notes record.toLitRecord ((litState ns).handle.view r.store).demand →
      LitStep names notes r (.applied ns bytes) { r with store := later }

def litReplays (names : Preimages) (notes : NotePreimages) : Machine Replays ReplayAction := ⟨replays.start, LitStep names notes⟩

theorem decodeJudged_lit {bytes : Bytes} {record : DecodedRecord} :
    decodeJudged lit bytes = .ok record ↔ decodeRecord bytes = .ok record.toLitRecord := decodeJudged_eq_ok.trans decodeOwned_eq_ok

/-- An issue and a burn name their backing. -/
theorem litView_named {record : DecodedRecord} {demandOf : Bytes → Option Demand}
    (kinds : (litView record.toLitRecord demandOf).kind = 1 ∨ (litView record.toLitRecord demandOf).kind = 3) :
    (litView record.toLitRecord demandOf).backings ≠ [] := by
  rw [litView_kind] at kinds
  have sound := record.sound.1.2
  cases body : record.statement.body with
  | issue => simp [litView, body]
  | burn segment quantity ins outs =>
    rw [body] at sound
    obtain ⟨input, rest, rfl⟩ := List.exists_cons_of_ne_nil (List.ne_nil_of_length_pos sound.2.2.1.1.1)
    simp [litView, body, List.eraseDups_cons]
  | _ => simp [body, Body.kind] at kinds

theorem LitStep.known {r later : Replays} {action : ReplayAction} (step : LitStep names notes r action later) : KnownStep names r action later := by
  cases step with
  | opened step => exact step
  | merged step => exact step
  | @applied ns n bytes record replay later found keeps run decoded stated link adopted noted =>
    exact @KnownStep.applied _ names r DecodedRecord (litState ns) n bytes record replay later found keeps run decoded
      (fun kinds => litView_named kinds) stated link

theorem litReplays_known {r : Replays} (reach : (litReplays names notes).Reach r) : (knownReplays names).Reach r := by
  induction reach with
  | start first => exact .start first
  | next _ step ih => exact .next ih (LitStep.known step)

/-- Every call that did not refuse keeps each namespace's notes. -/
theorem litReplays_conserves {r : Replays} (reach : (litReplays names notes).Reach r) :
    ∀ ns n, r.store.namespaces ns = some n → Conserves notes r.store ns n := by
  induction reach with
  | start first =>
    obtain rfl : _ = _ := first
    intro ns n found
    cases found
  | @next r action later reach step ih =>
    have reached := litReplays_known reach
    have known := knownReplays_known reached
    have audited := apartReplays_audited.reach (knownReplays_apart reached)
    obtain ⟨-, stood⟩ := replays_stood.reach (apartReplays_reach (knownReplays_apart reached))
    have placed := audited.store.toWellPlaced
    intro ns m seen
    cases step with
    | opened step =>
      cases step with
      | @opened _ construction segment identity imported state later source run based apart =>
        obtain ⟨history, evidence, spent, -, -, -, -, -, -, rfl⟩ := openSegmentState_eq_ok.mp run
        rcases Store.opened_found seen with ⟨-, rfl⟩ | ⟨-, same⟩
        · refine ⟨fun p => ?_, fun output member => ?_, fun spend member => ?_, fun held member => ?_⟩
          · exact NotePreimages.balanced_of_empty (Rows.table_through (Store.fresh_table rfl)) (Rows.table_through (Store.fresh_table rfl))
              (Rows.table_through (Store.fresh_table rfl))
          · rw [Rows.outputs, Store.fresh_table rfl] at member
            cases member
          · rw [Rows.nullifiers, Store.fresh_table rfl] at member
            cases member
          · rw [Rows.demands, Store.fresh_table rfl] at member
            cases member
        · exact (ih ns m same).grows placed same (Store.opened_grows (placed.fresh _ le_rfl))
    | merged step =>
      cases step with
      | merged held run => exact ih ns m seen
    | @applied at_ n bytes record replay later found keeps run decoded stated link adopted noted =>
      obtain ⟨record', n', effects, spent, demand, applied⟩ := applyRecord_applied.mp run
      obtain rfl : record = record' := Except.ok.inj (decoded.symm.trans applied.decoded)
      obtain rfl : n = n' := Option.some.inj (found.symm.trans applied.found)
      have claims : ∀ id demand, ((litState at_).handle.view r.store).demand id = some demand →
          notes.Claims (r.store.visible at_ n.position) demand := by
        intro id demand read
        have read : ((litState at_).handle.rows r.store).demand id = some demand := read
        rw [SegmentState.rows applied.found] at read
        exact visible_claims ih known.store placed ⟨n, found, le_rfl⟩ read
      have checked := (passed_of_applied applied adopted).checked noted claims
      have supply := applied.supply (judgedView_regular placed stood applied.found record) fun kinds => litView_named kinds
      have own := conserves_applied applied placed stood (ih at_ n found) supply checked
      have grows := applied.grows
      obtain rfl := applied.later
      rcases Store.written_found seen with ⟨rfl, rfl⟩ | ⟨-, same⟩
      · exact own
      · exact (ih ns m same).grows placed same grows

end Runs

section Conserved

variable [Crypto] {notes : NotePreimages} {rows : Rows}

/-- The outputs some rows hold whose nullifiers they do not. -/
def unspent (rows : Rows) : List Nat := (rows.outputs.map (·.row.cm)).filter fun cm => !rows.hasNullifier (nullifierOf cm)

def spent (rows : Rows) : List Nat := (rows.outputs.map (·.row.cm)).filter fun cm => rows.hasNullifier (nullifierOf cm)

/-- What a state's notes are worth: each output a note of a positive u64, and those unspent worth, backing by backing, what was issued
and not burned. -/
structure Conserved (notes : NotePreimages) (rows : Rows) (total : Bytes → Totals) : Prop where
  holds : ∀ output ∈ rows.outputs, notes.Holds output.row.cm
  balance : ∀ backing, notes.worth backing (unspent rows) + (total backing).burned = (total backing).issued

theorem worth_unspent (rows : Rows) (backing : Bytes) :
    notes.worth backing (rows.outputs.map (·.row.cm)) = notes.worth backing (unspent rows) + notes.worth backing (spent rows) := by
  rw [← NotePreimages.worth_append]
  refine NotePreimages.worth_perm notes backing ?_
  have parts := List.filter_append_perm (fun cm => !rows.hasNullifier (nullifierOf cm)) (rows.outputs.map (·.row.cm))
  simp only [Bool.not_not] at parts
  exact parts.symm

/-- The outputs spent are those the nullifiers spend, each once. -/
theorem spends_perm (holds : ∀ output ∈ rows.outputs, notes.Holds output.row.cm) (spends : ∀ spend ∈ rows.nullifiers, notes.Spends rows spend.row.nf)
    (nullifiers : (rows.nullifiers.map (·.row.nf)).Nodup) (outputs : (rows.outputs.map (·.row.cm)).Nodup) :
    ((rows.nullifiers.map (·.row.nf)).map notes.spends).Perm (spent rows) := by
  have back : ∀ nf ∈ rows.nullifiers.map (·.row.nf), nullifierOf (notes.spends nf) = nf := by
    intro nf member
    obtain ⟨spend, inside, rfl⟩ := List.mem_map.mp member
    exact (spends spend inside).1
  have distinct : ((rows.nullifiers.map (·.row.nf)).map notes.spends).Nodup := by
    refine List.Nodup.of_map nullifierOf ?_
    rw [List.map_map]
    have same : (rows.nullifiers.map (·.row.nf)).map (nullifierOf ∘ notes.spends) = rows.nullifiers.map (·.row.nf) :=
      (List.map_congr_left back).trans (List.map_id _)
    rw [same]
    exact nullifiers
  refine (List.perm_ext_iff_of_nodup distinct (outputs.filter _)).mpr fun cm => ?_
  rw [List.mem_map, List.mem_filter]
  constructor
  · rintro ⟨nf, member, rfl⟩
    have shown := back nf member
    obtain ⟨spend, inside, rfl⟩ := List.mem_map.mp member
    obtain ⟨output, listed, same⟩ := List.any_eq_true.mp (spends spend inside).2
    refine ⟨List.mem_map.mpr ⟨output, listed, of_decide_eq_true same⟩, ?_⟩
    rw [shown]
    exact List.any_eq_true.mpr ⟨spend, inside, decide_eq_true rfl⟩
  · rintro ⟨member, shown⟩
    obtain ⟨spend, inside, same⟩ := List.any_eq_true.mp shown
    obtain ⟨output, listed, rfl⟩ := List.mem_map.mp member
    exact ⟨spend.row.nf, List.mem_map_of_mem inside, by rw [of_decide_eq_true same]; exact (holds output listed).spends⟩

variable [PublicKeys] {names : Preimages}

/-- In every state of a run of lit records the notes unspent are worth what was issued and not burned. -/
theorem litReplays_conserved {r : Replays} (reach : (litReplays names notes).Reach r) {ns p : Nat} (held : r.store.Holds ⟨ns, p⟩) :
    Conserved notes (r.store.visible ns p) (r.store.total ns p) := by
  have reached := litReplays_known reach
  have known := knownReplays_known reached
  have audited := apartReplays_audited.reach (knownReplays_apart reached)
  have placed := audited.store.toWellPlaced
  have conserves := litReplays_conserves reach
  have ledger := audited.store.ledgers ns p held
  have holds : ∀ output ∈ (r.store.visible ns p).outputs, notes.Holds output.row.cm := by
    intro output member
    obtain ⟨m, found, own⟩ := visible_own placed held member
    exact (conserves _ m found).outputs output own
  have spends : ∀ spend ∈ (r.store.visible ns p).nullifiers, notes.Spends (r.store.visible ns p) spend.row.nf := by
    intro spend member
    obtain ⟨m, found, own⟩ := visible_own placed held member
    exact ((conserves _ m found).nullifiers spend own).mono (visible_output known.store placed held member)
  have balanced : notes.Balanced (r.store.visible ns p) := by
    refine NotePreimages.balanced_union fun entry listed => ?_
    obtain ⟨m, found, -⟩ := placed.holds held entry listed
    rw [Store.rows_of_found found]
    exact (conserves _ m found).balanced entry.upto
  refine ⟨holds, fun backing => ?_⟩
  have balance := balanced backing
  have perm := spends_perm holds spends ledger.nullifiers ledger.outputs
  rw [worth_unspent, NotePreimages.worth_perm notes backing perm, ← ledger.supply] at balance
  omega

omit [Crypto] in
/-- Every value a reader takes is a positive u64. -/
theorem values_of_sound {body : Body} (sound : body.Sound) :
    ∀ o ∈ body.inputs.map (·.toOutput) ++ body.creates none, 0 < o.value ∧ o.value < valueBound := by
  have inputs : ∀ ins : List Opening, (∀ i ∈ ins, i.Sound) → ∀ o ∈ ins.map (·.toOutput), 0 < o.value ∧ o.value < valueBound := by
    intro ins each o member
    obtain ⟨i, inside, rfl⟩ := List.mem_map.mp member
    exact (each i inside).1.2.1
  cases body with
  | issue =>
    intro o member
    obtain rfl := List.mem_singleton.mp member
    exact sound.2.2.1
  | spend =>
    exact List.forall_mem_append.mpr ⟨inputs _ sound.2.1.2, fun o member => (sound.2.2.2 o member).2.1⟩
  | burn =>
    exact List.forall_mem_append.mpr ⟨inputs _ sound.2.2.1.2, fun o member => (sound.2.2.2.2 o member).2.1⟩
  | demand =>
    exact List.forall_mem_append.mpr ⟨inputs _ sound.2.1.2, fun o member => absurd member List.not_mem_nil⟩
  | _ => exact fun o member => absurd member List.not_mem_nil

/-- Lit spends conserve value: a statement a reader takes has values that are positive u64s, and holds its arithmetic exactly where its
notes balance as unbounded integers; and in every state of every run of accepted records the unspent notes of a backing are worth what
was issued less what was burned. -/
theorem lit_conserves :
    (∀ (s : Statement) (bytes rest : Bytes), readStatement bytes = .ok (s, rest) →
      (∀ o ∈ s.body.inputs.map (·.toOutput) ++ s.body.creates none, 0 < o.value ∧ o.value < valueBound) ∧
        (arithmeticHolds s = true ↔ s.body.Balanced)) ∧
      ∀ (names : Preimages) (notes : NotePreimages) (r : Replays), (litReplays names notes).Reach r → ∀ ns p, r.store.Holds ⟨ns, p⟩ →
        Conserved notes (r.store.visible ns p) (r.store.total ns p) := by
  refine ⟨fun s bytes rest read => ?_, fun _ _ _ reach _ _ held => litReplays_conserved reach held⟩
  have sound := ((readStatement_inverts _ _ _).mp read).1
  exact ⟨values_of_sound sound.2, arithmeticHolds_iff sound⟩

end Conserved

/-- The digests of one note. -/
def sampleNotes [Crypto] (domain : Bytes) (o : Opening) : NotePreimages := ⟨fun _ => o, fun _ => commitmentKey domain o⟩

theorem sampleNotes_tells [Crypto] (domain : Bytes) (o : Opening) : (sampleNotes domain o).Tells domain o := ⟨rfl, rfl⟩

section Sample

local instance sampleLitCrypto : Crypto := sampleCrypto

/-- A key of prime order: the curve's base point. -/
def sampleOwner : Bytes := 0x58 :: List.replicate 31 0x66

local instance sampleLitKeys : PublicKeys := ⟨fun key => key = sampleOwner⟩

def sampleNote : Opening := ⟨⟨sampleName 3, 1, sampleOwner⟩, sampleName 8⟩

/-- A spend of one note twice, for an output worth two of it. -/
def sampleRepeated : Statement := ⟨sampleName 0, .spend (sampleName 1) [sampleNote, sampleNote] [⟨sampleName 3, 2, sampleOwner⟩]⟩

theorem sampleNote_sound : sampleNote.Sound := ⟨⟨by decide, by decide, by decide, by decide⟩, by decide⟩

theorem sampleRepeated_sound : sampleRepeated.Sound := by
  refine ⟨by decide, by decide, ⟨by decide, fun i member => ?_⟩, by decide, fun o member => ?_⟩
  · have same : i = sampleNote := by simpa using member
    exact same ▸ sampleNote_sound
  · obtain rfl := List.mem_singleton.mp member
    exact ⟨by decide, by decide, by decide, by decide⟩

/-- A spend that names one note twice balances per backing, and its arithmetic does not hold. -/
theorem sampleRepeated_unheld : ∃ bytes, readStatement bytes = .ok (sampleRepeated, []) ∧
    (∀ backing, worthIn backing (sampleRepeated.body.inputs.map (·.toOutput)) = worthIn backing (sampleRepeated.body.creates none)) ∧
    arithmeticHolds sampleRepeated = false := by
  refine ⟨writeStatement sampleRepeated, ?_, fun backing => ?_, ?_⟩
  · have read := readStatement_inverts.reads sampleRepeated_sound []
    rwa [List.append_nil] at read
  · change worthIn backing [sampleNote.toOutput, sampleNote.toOutput] = worthIn backing [⟨sampleName 3, 2, sampleOwner⟩]
    rw [worthIn_cons, worthIn_single, worthIn_single]
    change (if sampleName 3 = backing then 1 else 0) + (if sampleName 3 = backing then 1 else 0) = if sampleName 3 = backing then 2 else 0
    split <;> rfl
  · rw [← Bool.not_eq_true, arithmeticHolds_iff sampleRepeated_sound]
    rintro ⟨distinct, -⟩
    exact absurd distinct (by decide)

/-- An issue of five, in the segment named 1. -/
def sampleIssued : LitRecord :=
  let statement : Statement := ⟨sampleName 0, .issue (sampleName 1) (sampleName 3) 5 sampleOwner (sampleName 8)⟩
  ⟨statement, toBytes 64 (sampleDigest 13 ((sampleName 4 ++ writeStatement statement).map (·.toNat)))⟩

theorem sampleIssued_sound : sampleIssued.Sound :=
  ⟨⟨by decide, by decide, by decide, by decide, ⟨by decide, by decide⟩, by decide⟩, toBytes_length ..⟩

def sampleLitReplay : SegmentReplay := { sampleReplay with scope := none }

/-- The segment named 1 opened and its issue applied. -/
def sampleLit : Except Failure (SegmentState DecodedRecord × Store × Store) := do
  let (first, opened) ← openSegmentState Store.empty (sampleName 1) (sampleName 9) none lit
  let issued ← applyRecord opened first (writeRecord sampleIssued) sampleLitReplay
  return (first, opened, issued)

theorem sampleLit_conserved : ∃ names notes r bytes, (litReplays names notes).Reach r ∧ r.store.Holds ⟨1, 1⟩ ∧
    (r.store.total 1 1 (sampleName 3)).issued = 5 ∧ Conserved notes (r.store.visible 1 1) (r.store.total 1 1) ∧
    readStatement bytes = .ok (sampleRepeated, []) ∧ (arithmeticHolds sampleRepeated = true ↔ sampleRepeated.body.Balanced) := by
  have runs : sampleLit.toOption.any (fun (_, _, issued) =>
      (issued.namespaces 1).any (1 ≤ ·.position) && (issued.total 1 1 (sampleName 3)).issued = 5) = true := by decide +kernel
  obtain ⟨⟨first, opened, issued⟩, run, runs⟩ := ok_of_any runs
  simp only [Bool.and_eq_true, Option.any_eq_true, decide_eq_true_eq] at runs
  obtain ⟨⟨n, found, bound⟩, total⟩ := runs
  obtain ⟨⟨first, opened⟩, opening, run⟩ := bind_eq_ok.mp run
  obtain ⟨issued, issuing, run⟩ := bind_eq_ok.mp run
  obtain ⟨rfl, rfl, rfl⟩ : _ ∧ _ ∧ _ := by simpa using pure_eq_ok.mp run
  obtain ⟨n₀, found₀, -, -, -, keeps⟩ := openSegmentState_opened opening
  obtain ⟨n₁, found₁, -⟩ := applyRecord_grows issuing _ _ found₀
  obtain ⟨-, -, -, -, -, -, -, -, rfl, -⟩ := openSegmentState_eq_ok.mp opening
  let record : DecodedRecord := ⟨sampleIssued, sampleIssued_sound⟩
  have decoded : decodeRecord (writeRecord sampleIssued) = .ok sampleIssued := decodeRecord_eq_ok.mpr ⟨sampleIssued_sound, rfl⟩
  have decoded : decodeJudged lit (writeRecord sampleIssued) = .ok record := decodeJudged_lit.mpr decoded
  obtain ⟨outputs, created, creates⟩ := litOutputs_creates sampleIssued_sound.1 none
  obtain ⟨note, rfl, -⟩ : ∃ note : Opening, outputs = [note] ∧ note.toOutput = ⟨sampleName 3, 5, sampleOwner⟩ := List.map_eq_singleton_iff.mp creates
  let notes := sampleNotes sampleIssued.statement.domain note
  let names : Preimages :=
    { link := fun _ => ⟨n₀.history, (judgedView opened (litState 1) record).identity, n₁.noteRoot, n₁.spent.root, n₀.position + 1⟩
      stated := fun _ _ => (judgedView opened (litState 1) record).stated
      base := fun _ _ => none
      stands := fun _ _ _ => rfl }
  have noted : Noted notes sampleIssued ((litState 1).handle.view opened).demand := by
    refine ⟨fun o member => absurd member List.not_mem_nil, fun outputs run o member => ?_⟩
    obtain rfl : [note] = outputs := Except.ok.inj (created.symm.trans run)
    obtain rfl := List.mem_singleton.mp member
    exact sampleNotes_tells _ _
  have openedReach : (litReplays names notes).Reach ⟨opened, []⟩ := .next (.start rfl) (.opened (.opened (r := ⟨Store.empty, []⟩) .none opening
    (fun _ => rfl) rfl))
  have linked : ∀ tip, issued.namespaces 1 = some tip → names.link tip.history =
      ⟨n₀.history, (judgedView opened (litState 1) record).identity, tip.noteRoot, tip.spent.root, n₀.position + 1⟩ := by
    intro tip seen
    obtain rfl : n₁ = tip := Option.some.inj (found₁.symm.trans seen)
    rfl
  have adopted : sampleLitReplay.modeAt ((litState 1).handle.position opened) = .adoption → ForceJudged opened 1 (writeRecord sampleIssued) :=
    fun mode => absurd mode (by simp [SegmentReplay.modeAt, sampleLitReplay, sampleReplay])
  have reach : (litReplays names notes).Reach ⟨issued, []⟩ := .next openedReach (.applied (r := ⟨opened, []⟩) found₀ keeps issuing decoded
    rfl linked adopted noted)
  have read := readStatement_inverts.reads sampleRepeated_sound []
  rw [List.append_nil] at read
  exact ⟨names, notes, ⟨issued, []⟩, writeStatement sampleRepeated, reach, ⟨n, found, bound⟩, total,
    lit_conserves.2 names notes ⟨issued, []⟩ reach 1 1 ⟨n, found, bound⟩, read, (lit_conserves.1 _ _ _ read).2⟩

end Sample

end Lit

end Moe
