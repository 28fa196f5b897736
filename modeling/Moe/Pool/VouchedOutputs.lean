import Moe.Pool.KeptOutputsRuns

namespace Moe

namespace KeptOutputs

variable {known : Option KnownOutputs} {position : Nat} {tip : Bool}

theorem Cell.atMost_mono {cell : Cell} {m n : Int} (le : m ≤ n) (held : cell.atMost m = true) : cell.atMost n = true := by
  cases cell with
  | integer value => exact decide_eq_true (Int.le_trans (of_decide_eq_true held) le)
  | real value => exact decide_eq_true (Rat.le_trans (of_decide_eq_true held) (Rat.intCast_le_intCast.mpr le))
  | other => cases held

theorem Cell.atLeast_mono {cell : Cell} {m n : Int} (le : m ≤ n) (held : cell.atLeast n = true) : cell.atLeast m = true := by
  cases cell with
  | integer value => exact decide_eq_true (Int.le_trans le (of_decide_eq_true held))
  | real value => exact decide_eq_true (Rat.le_trans (Rat.intCast_le_intCast.mpr le) (of_decide_eq_true held))
  | other => rfl

/-- The own rows through a position are those derived: at each position its record's outputs in leaf order, and each demand stood up
there with its content, none more. -/
structure RowsAre (rows : KeptRows) (position : Nat) (d : Derived) : Prop where
  integers : ∀ row ∈ rows.outputs, row.position.atMost position = true → ∃ i, row.position = .integer i
  outputs : ∀ i : Int, i ≤ position → (rows.outputs.filter fun row => row.position = .integer i).map (·.cm) =
    (d.outputs.filter fun entry => (entry.2 : Int) = i).map fun entry => some entry.1
  demands : ∀ row ∈ rows.demands, row.ns = rows.ns → row.position.atMost position = true →
    ∃ id p, row.id = some id ∧ row.position = .integer (p : Nat) ∧ (id, p, row.value) ∈ d.demands
  stood : ∀ stand ∈ d.demands, ⟨some stand.1, rows.ns, .integer stand.2.1, stand.2.2⟩ ∈ rows.demands

/-- A derivation that goes on past a position derives nothing at one before it. -/
theorem filter_later {d : Derived} {before : Nat} (places : ∀ output ∈ d.outputs, before < output.2) {i : Int} (le : i ≤ before) :
    d.outputs.filter (fun entry => (entry.2 : Int) = i) = [] := by
  rw [List.filter_eq_nil_iff]
  intro output member
  have := places output member
  simp only [decide_eq_true_eq]
  omega

theorem filter_earlier {d : Derived} {before : Nat} (places : ∀ output ∈ d.outputs, output.2 ≤ before) {i : Int} (lt : before < i) :
    d.outputs.filter (fun entry => (entry.2 : Int) = i) = [] := by
  rw [List.filter_eq_nil_iff]
  intro output member
  have := places output member
  simp only [decide_eq_true_eq]
  omega

/-- Rows that are what records derive are, through an earlier position, what the records through it derive. -/
theorem RowsAre.lower {rows : KeptRows} {d later : Derived} {before : Nat} (are : RowsAre rows position (d.append later))
    (le : before ≤ position) (outputs : ∀ output ∈ later.outputs, before < output.2) (demands : ∀ stand ∈ later.demands, before < stand.2.1) :
    RowsAre rows before d where
  integers := fun row member held => are.integers row member (Cell.atMost_mono (by omega) held)
  outputs := fun i bound => by
    rw [are.outputs i (by omega), Derived.append, List.filter_append, filter_later outputs bound, List.append_nil]
  demands := fun row member own held => by
    obtain ⟨id, p, named, place, stand⟩ := are.demands row member own (Cell.atMost_mono (by omega) held)
    refine ⟨id, p, named, place, ?_⟩
    rcases List.mem_append.mp stand with first | second
    · exact first
    · have := demands _ second
      rw [place, Cell.atMost, decide_eq_true_eq] at held
      simp only at this
      omega
  stood := fun stand member => are.stood stand (List.mem_append_left _ member)

theorem read_filter {rows : List OutputRow} {outputs : List OwnOutput} (read : rows.map OutputRow.read = outputs.map fun output => .ok (some output))
    (i : Int) : (rows.filter fun row => row.position = .integer i).map (·.cm) =
      (outputs.filter fun output => output.position = i).map fun output => some output.cm := by
  induction rows generalizing outputs with
  | nil =>
    obtain rfl : outputs = [] := List.map_eq_nil_iff.mp read.symm
    rfl
  | cons row rest ih =>
    cases outputs with
    | nil => cases read
    | cons output others =>
      obtain ⟨first, tail⟩ := List.cons.inj read
      obtain ⟨place, -, cm⟩ := OutputRow.read_eq_ok.mp first
      have later := ih tail
      by_cases here : output.position = i <;> simp [place, cm, here, later]

/-- At a position whose rows no earlier walk compared, the walked rows are the derived outputs there. -/
theorem Walk.filter_at {rows : List OutputRow} {derived : List (Nat × Nat)} {top : Int} {skipped : Option Int} {result : Int × Option Int}
    {outputs : List OwnOutput} (walk : Walk known position tip rows derived top skipped result outputs) {i : Int} (le : i ≤ position)
    (unseen : ∀ output ∈ outputs, output.position = i → compared known output = false) :
    (rows.filter fun row => row.position = .integer i).map (·.cm) =
      (derived.filter fun entry => (entry.2 : Int) = i).map fun entry => some entry.1 := by
  rw [read_filter walk.read]
  have kept : (outputs.filter fun output => output.position = i) =
      (outputs.filter (fresh known position)).filter fun output => output.position = i := by
    rw [List.filter_filter]
    refine List.filter_congr fun output member => ?_
    by_cases here : output.position = i
    · simp [here, fresh, le, unseen output member here]
    · simp [here]
  have agree := congrArg (fun pairs => (pairs.filter fun pair => pair.2 = i).map fun pair => some pair.1) walk.agree
  simp only [List.filter_map, List.map_map] at agree
  rw [kept]
  exact agree

theorem Walk.integers {rows : List OutputRow} {derived : List (Nat × Nat)} {top : Int} {skipped : Option Int} {result : Int × Option Int}
    {outputs : List OwnOutput} (walk : Walk known position tip rows derived top skipped result outputs) {row : OutputRow} (member : row ∈ rows) :
    ∃ output ∈ outputs, row.read = .ok (some output) := by
  have read : row.read ∈ outputs.map fun output => (.ok (some output) : Except Failure (Option OwnOutput)) := by
    rw [← walk.read]
    exact List.mem_map_of_mem member
  obtain ⟨output, among, same⟩ := List.mem_map.mp read
  exact ⟨output, among, same.symm⟩

theorem foldl_lower {outputs : List OwnOutput} {skipped : Option Int} {leaf : Int}
    (below : (∃ q, skipped = some q ∧ q ≤ leaf) ∨ ∃ output ∈ outputs, output.leaf = leaf) :
    ∃ q, outputs.foldl (fun least output => some (lower least output.leaf)) skipped = some q ∧ q ≤ leaf := by
  induction outputs generalizing skipped with
  | nil =>
    rcases below with below | ⟨_, member, _⟩
    · exact below
    · cases member
  | cons output rest ih =>
    refine ih ?_
    rcases below with ⟨q, rfl, le⟩ | ⟨other, member, rfl⟩
    · refine .inl ⟨_, rfl, ?_⟩
      show (if output.leaf < q then output.leaf else q) ≤ leaf
      split <;> omega
    · rcases List.mem_cons.mp member with rfl | later
      · refine .inl ⟨_, rfl, ?_⟩
        unfold lower
        split
        · omega
        · split <;> omega
      · exact .inr ⟨other, later, rfl⟩

/-- A row walked past the position is passed over at a leaf not past its own. -/
theorem Walk.passed {rows : List OutputRow} {derived : List (Nat × Nat)} {top : Int} {result : Int × Option Int}
    {outputs : List OwnOutput} (walk : Walk known position tip rows derived top none result outputs) {row : OutputRow} (member : row ∈ rows) :
    row.position.atMost position = true ∨ ∃ q, result.2 = some q ∧ row.leaf.atLeast q = true := by
  obtain ⟨output, among, read⟩ := walk.integers member
  obtain ⟨place, leaf, -⟩ := OutputRow.read_eq_ok.mp read
  by_cases through : output.position ≤ position
  · left
    rw [place]
    exact decide_eq_true through
  · right
    have past : output ∈ outputs.filter fun output => (position : Int) < output.position := by
      rw [List.mem_filter]
      exact ⟨among, decide_eq_true (by omega)⟩
    obtain ⟨q, skips, le⟩ := @foldl_lower _ none _ (.inr ⟨output, past, rfl⟩)
    refine ⟨q, by rw [walk.skipped, skips], ?_⟩
    rw [leaf]
    exact decide_eq_true le

theorem presented_row {rows : KeptRows} {p ns : Nat} {id : Bytes} {value : Demand} {place : Int}
    (read : rows.presented p id = .ok (some (value, ns, place))) : (⟨some id, ns, .integer place, value⟩ : DemandRow) ∈ rows.demands := by
  unfold KeptRows.presented at read
  split at read
  · cases read
  · rename_i row found
    split at read
    · rename_i at_ placed
      split at read
      · simp only [Except.ok.injEq, Option.some.injEq, Prod.mk.injEq] at read
        obtain ⟨rfl, rfl, rfl⟩ := read
        have named := List.find?_some found
        simp only [Bool.and_eq_true, decide_eq_true_eq] at named
        have same : row = ⟨some id, row.ns, .integer at_, row.value⟩ := by
          obtain ⟨own, ns, cell, value⟩ := row
          simp only at named placed
          rw [named.1, placed]
        rw [← same]
        exact List.mem_of_find?_eq_some found
      · cases read
    · cases read

/-- A namespace holds one row for a demand identity. -/
theorem KeptRows.row_unique {rows : KeptRows} {a b : DemandRow} (first : a ∈ rows.demands) (second : b ∈ rows.demands) (named : a.id.isSome)
    (same : a.id = b.id) (ns : a.ns = b.ns) : a = b := by
  by_contra other
  have apart := rows.keyed
  rw [List.pairwise_iff_getElem] at apart
  obtain ⟨i, hi, rfl⟩ := List.mem_iff_getElem.mp first
  obtain ⟨j, hj, rfl⟩ := List.mem_iff_getElem.mp second
  rcases Nat.lt_trichotomy i j with lt | eq | gt
  · exact apart i j hi hj lt named same ns
  · subst eq
    exact other rfl
  · exact apart j i hj hi gt (same ▸ named) same.symm ns.symm

theorem standAt_get? {stood : OrderedMap Bytes Nat} {demands : List (Bytes × Nat × Demand)} {id : Bytes} {p : Nat}
    (found : (standAt stood demands).get? id = some p) : stood.get? id = some p ∨ ∃ value, (id, p, value) ∈ demands := by
  induction demands generalizing stood with
  | nil => exact .inl found
  | cons stand rest ih =>
    rcases ih found with here | ⟨value, later⟩
    · rw [OrderedMap.get?_set] at here
      split at here
      · rename_i same
        obtain rfl := Option.some.inj here
        subst same
        exact .inr ⟨stand.2.2, List.mem_cons_self⟩
      · exact .inl here
    · exact .inr ⟨value, List.mem_cons_of_mem _ later⟩

/-- Demand rows that match those stood up are theirs, with their content. -/
theorem demandsStood_rows {rows : KeptRows} {d : Derived} (presented : Presented rows d) {read : List DemandRow}
    (stands : demandsStood (standAt [] d.demands) read = true) {row : DemandRow} (among : row ∈ read) (member : row ∈ rows.demands)
    (own : row.ns = rows.ns) : ∃ id p, row.id = some id ∧ row.position = .integer (p : Nat) ∧ (id, p, row.value) ∈ d.demands := by
  rw [demandsStood, Bool.and_eq_true, List.all_eq_true] at stands
  have matched := stands.1 row among
  split at matched
  · rename_i id place named placed
    rw [decide_eq_true_eq, Option.map_eq_some_iff] at matched
    obtain ⟨p, found, rfl⟩ := matched
    rcases standAt_get? found with none_ | ⟨value, stand⟩
    · cases none_
    · have kept := presented_row (presented _ stand)
      have same : row = ⟨some id, rows.ns, .integer p, value⟩ := KeptRows.row_unique member kept (by rw [named]; rfl) named own
      refine ⟨id, p, named, placed, ?_⟩
      rw [same]
      exact stand
  · cases matched

section Checks

variable {R : Type} (c : Construction R)

/-- The own rows through a check's position are those its trail derives. -/
def Vouched (trail : Option (List Bytes)) (visit : Visit) : Prop :=
  ∃ records d, trail = some records ∧ visit.position ≤ records.length ∧
    derive c visit (records.take visit.position) 0 [] = some d ∧ RowsAre visit.rows visit.position d

/-- What is known of a namespace is so of what the store holds. -/
structure Sound (records : List Bytes) (visit : Visit) (k : KnownOutputs) (d : Derived) : Prop where
  covers : k.position ≤ records.length
  derived : derive c visit (records.take k.position) 0 [] = some d
  rows : RowsAre visit.rows k.position d
  leaves : k.leaves = d.outputs.length
  demands : k.demands = standAll [] d.demands
  passed : ∀ row ∈ visit.rows.outputs, row.leaf.atLeast k.leaves = false →
    row.position.atMost k.position = true ∨ ∃ q, k.skipped = some q ∧ row.leaf.atLeast q = true

/-- A row that is known: at or below the known position, or below the known leaves. -/
def KnownOutputs.holds (k : KnownOutputs) (row : OutputRow) : Bool := row.position.atMost k.position || !row.leaf.atLeast k.leaves

/-- Rows altered only where nothing is known of them: the known output and demand rows are as they were, and so is the state a
settlement through the known position reads its demand from. -/
structure Keeps (k : KnownOutputs) (visit later : Visit) : Prop where
  ns : later.rows.ns = visit.rows.ns
  outputs : later.rows.outputs.filter k.holds = visit.rows.outputs.filter k.holds
  demands : later.rows.ownDemands none k.position = visit.rows.ownDemands none k.position
  standing : ∀ p < k.position, ∀ id, later.before p id = visit.before p id

/-- Checks, the last first, between which rows are altered only where nothing is known of them. -/
def Steady (trail : Option (List Bytes)) : List Visit → Prop
  | later :: visit :: earlier =>
    (∀ k, knownAfter c trail (visit :: earlier) = some k → Keeps k visit later) ∧ Steady trail (visit :: earlier)
  | _ => True

variable {c} {records : List Bytes} {visit later : Visit} {k next : KnownOutputs} {d : Derived}

theorem mem_ownDemands {rows : KeptRows} {after : Option Nat} {through : Nat} {row : DemandRow} : row ∈ rows.ownDemands after through ↔
    row ∈ rows.demands ∧ row.ns = rows.ns ∧ (∀ p, after = some p → row.position.atMost p = false) ∧ row.position.atMost through = true := by
  cases after <;> simp [KeptRows.ownDemands, and_assoc]

theorem Keeps.rowsAre (keeps : Keeps k visit later) (are : RowsAre visit.rows k.position d)
    (within : ∀ stand ∈ d.demands, stand.2.1 ≤ k.position) : RowsAre later.rows k.position d where
  integers := fun row member held => by
    have known : row ∈ later.rows.outputs.filter k.holds := List.mem_filter.mpr ⟨member, by simp [KnownOutputs.holds, held]⟩
    rw [keeps.outputs] at known
    exact are.integers row (List.mem_filter.mp known).1 held
  outputs := fun i le => by
    have known : ∀ rows : List OutputRow, (rows.filter fun row => row.position = .integer i) =
        (rows.filter k.holds).filter fun row => row.position = .integer i := by
      intro rows
      rw [List.filter_filter]
      refine List.filter_congr fun row _ => ?_
      by_cases here : row.position = .integer i
      · simp [here, KnownOutputs.holds, Cell.atMost, le]
      · simp [here]
    rw [known, keeps.outputs, ← known]
    exact are.outputs i le
  demands := fun row member own held => by
    have known : row ∈ later.rows.ownDemands none k.position := mem_ownDemands.mpr ⟨member, own, by simp, held⟩
    rw [keeps.demands] at known
    obtain ⟨before, own, -⟩ := mem_ownDemands.mp known
    exact are.demands row before own held
  stood := fun stand member => by
    have row : _ ∈ visit.rows.ownDemands none k.position := mem_ownDemands.mpr
      ⟨are.stood stand member, rfl, by simp, decide_eq_true (Int.ofNat_le.mpr (within stand member))⟩
    rw [← keeps.demands, ← keeps.ns] at row
    exact (mem_ownDemands.mp row).1

theorem Sound.within (sound : Sound c records visit k d) : (∀ output ∈ d.outputs, output.2 ≤ k.position) ∧
    ∀ stand ∈ d.demands, stand.2.1 ≤ k.position := by
  obtain ⟨outputs, demands, -⟩ := derive_places sound.derived
  have length : (records.take k.position).length = k.position := List.length_take_of_le sound.covers
  rw [length, Nat.zero_add] at outputs demands
  exact ⟨fun output member => (outputs output member).2, fun stand member => (demands stand member).2⟩

/-- What is known stays so of rows altered only where nothing is known. -/
theorem Sound.keep (sound : Sound c records visit k d) (keeps : Keeps k visit later) : Sound c records later k d where
  covers := sound.covers
  derived := by
    rw [derive_congr fun p id _ high => keeps.standing p (by rw [List.length_take_of_le sound.covers] at high; omega) id]
    exact sound.derived
  rows := keeps.rowsAre sound.rows sound.within.2
  leaves := sound.leaves
  demands := sound.demands
  passed := fun row member below => by
    have known : row ∈ later.rows.outputs.filter k.holds := List.mem_filter.mpr ⟨member, by simp [KnownOutputs.holds, below]⟩
    rw [keeps.outputs] at known
    exact sound.passed row (List.mem_filter.mp known).1 below

/-- What a check starts from. -/
def startAfter (known : Option KnownOutputs) : Nat := (known.map (·.position)).getD 0

def startDemands (known : Option KnownOutputs) : OrderedMap Bytes Demand := (known.map (·.demands)).getD []

/-- A check past what is known holds where its records past it are derived, their demands read back, the rows walked are the outputs
derived and the demand rows those stood up. -/
theorem walkOutputs_eq_ok : walkOutputs c records known visit = .ok (some next) ↔
    ∃ d result outputs, derive c visit ((records.drop (startAfter known)).take (visit.position - startAfter known)) (startAfter known)
        (startDemands known) = some d ∧ Presented visit.rows d ∧
      Walk known visit.position visit.tip (visit.rows.ownOutputs (startLeaf known)) d.outputs ((known.map (·.top)).getD 0) none result outputs ∧
      demandsStood (standAt [] d.demands) (visit.rows.ownDemands (known.map (·.position)) visit.position) = true ∧
      (visit.tip = true → visit.rows.demandPast visit.position = false) ∧
      next = ⟨visit.position, (known.map (·.leaves)).getD 0 + d.outputs.length, result.1, result.2, standAll (startDemands known) d.demands⟩ := by
  have records_ : (if visit.position = startAfter known then [] else records.drop (startAfter known)).take (visit.position - startAfter known) =
      (records.drop (startAfter known)).take (visit.position - startAfter known) := by
    split
    · rename_i same
      simp [same]
    · rfl
  unfold walkOutputs
  simp only [← startAfter.eq_def, ← startDemands.eq_def]
  constructor
  · intro run
    split at run
    · cases run
    · cases run
    · rename_i rebuilt read
      obtain ⟨d, derived, presented, rfl⟩ := rebuild_eq_ok.mp read
      rw [records_] at derived
      split at run
      · cases run
      · cases run
      · rename_i top skipped walked
        obtain ⟨outputs, walk⟩ := compareOutputs_eq_ok.mp walked
        split at run
        · rename_i stands
          simp only [Except.ok.injEq, Option.some.injEq] at run
          subst run
          rw [Bool.and_eq_true] at stands
          refine ⟨d, (top, skipped), outputs, derived, presented, by simpa [Rebuilt.addAll] using walk, stands.1, fun tip => ?_,
            by simp [Rebuilt.addAll]⟩
          simpa [tip] using stands.2
        · cases run
  · rintro ⟨d, result, outputs, derived, presented, walk, stands, past, rfl⟩
    rw [← records_] at derived
    rw [rebuild_eq_ok.mpr ⟨d, derived, presented, rfl⟩]
    have walked : compareOutputs known visit.position visit.tip (visit.rows.ownOutputs (startLeaf known))
        (Rebuilt.addAll ⟨startDemands known, [], []⟩ d).derived ((known.map (·.top)).getD 0) none = .ok (some result) :=
      compareOutputs_eq_ok.mpr ⟨outputs, by simpa [Rebuilt.addAll] using walk⟩
    simp only [walked]
    rw [if_pos]
    · simp [Rebuilt.addAll]
    · rw [Bool.and_eq_true]
      refine ⟨stands, ?_⟩
      cases tip : visit.tip with
      | false => rfl
      | true => simp [past tip]

/-- The records through a position are those through an earlier one and those past it. -/
theorem take_split {records : List Bytes} {before position : Nat} (le : before ≤ position) :
    records.take position = records.take before ++ (records.drop before).take (position - before) := by
  rw [← List.take_add, Nat.add_sub_cancel' le]

/-- A row below where a walk starts is one known, at or below the known position. -/
theorem Sound.below_start (sound : Sound c records visit k d) {row : OutputRow} (member : row ∈ visit.rows.outputs) {start : Int}
    (starts : startLeaf (some k) = some start) (below : row.leaf.atLeast start = false) : row.position.atMost k.position = true := by
  have low : row.leaf.atLeast k.leaves = false := by
    by_contra high
    rw [Bool.not_eq_false] at high
    have le : start ≤ k.leaves := by
      have same := Option.some.inj starts
      dsimp only at same
      rw [← same]
      split
      · split <;> omega
      · exact Int.le_refl _
    rw [Cell.atLeast_mono le high] at below
    cases below
  rcases sound.passed row member low with held | ⟨q, skipped, high⟩
  · exact held
  · rw [startLeaf, Option.map_some, Option.some.injEq, skipped] at starts
    simp only at starts
    split at starts
    · rw [starts] at high
      rw [high] at below
      cases below
    · rename_i past
      rw [Cell.atLeast_mono (by omega : (k.leaves : Int) ≤ q) high] at low
      cases low

/-- The walked demand rows of a check are what its records stand up. -/
theorem rows_stood {known : Option KnownOutputs} (presented : Presented visit.rows d)
    (stands : demandsStood (standAt [] d.demands) (visit.rows.ownDemands (known.map (·.position)) visit.position) = true)
    {row : DemandRow} (member : row ∈ visit.rows.demands) (own : row.ns = visit.rows.ns) (held : row.position.atMost visit.position = true)
    (past : ∀ k, known = some k → row.position.atMost k.position = false) :
    ∃ id p, row.id = some id ∧ row.position = .integer (p : Nat) ∧ (id, p, row.value) ∈ d.demands := by
  have read : row ∈ visit.rows.ownDemands (known.map (·.position)) visit.position := by
    refine mem_ownDemands.mpr ⟨member, own, fun p at_ => ?_, held⟩
    obtain ⟨k, rfl, rfl⟩ := Option.map_eq_some_iff.mp at_
    exact past k rfl
  exact demandsStood_rows presented stands read member own

/-- A first check that holds knows what the trail derives. -/
theorem walkOutputs_first (covers : visit.position ≤ records.length) (run : walkOutputs c records none visit = .ok (some next)) :
    next.position = visit.position ∧ ∃ d, Sound c records visit next d := by
  obtain ⟨d, result, outputs, derived, presented, walk, stands, -, rfl⟩ := walkOutputs_eq_ok.mp run
  refine ⟨rfl, d, covers, derived, ⟨fun row member _ => ?_, fun i le => walk.filter_at le fun output _ _ => rfl,
    fun row member own held => rows_stood presented stands member own held (by simp),
    fun stand member => presented_row (presented stand member)⟩, by simp, rfl, fun row member _ => walk.passed member⟩
  obtain ⟨output, -, read⟩ := walk.integers member
  exact ⟨_, (OutputRow.read_eq_ok.mp read).1⟩

/-- A check that resumes from what is known, and holds, knows what the trail derives through its own position. -/
theorem walkOutputs_resumed (sound : Sound c records visit k d) (ahead : k.position < visit.position) (covers : visit.position ≤ records.length)
    (run : walkOutputs c records (some k) visit = .ok (some next)) : next.position = visit.position ∧ ∃ d, Sound c records visit next d := by
  obtain ⟨more, result, outputs, derived, presented, walk, stands, -, rfl⟩ := walkOutputs_eq_ok.mp run
  obtain ⟨start, starts⟩ : ∃ start, startLeaf (some k) = some start := ⟨_, rfl⟩
  rw [starts] at walk
  have derived : derive c visit ((records.drop k.position).take (visit.position - k.position)) k.position k.demands = some more := derived
  have read : ∀ row ∈ visit.rows.outputs, row.position.atMost k.position = true ∨ row ∈ visit.rows.ownOutputs (some start) := by
    intro row member
    cases below : row.leaf.atLeast start with
    | false => exact .inl (sound.below_start member starts below)
    | true => exact .inr (List.mem_filter.mpr ⟨member, below⟩)
  obtain ⟨outputPlaces, demandPlaces, -⟩ := derive_places derived
  refine ⟨rfl, d.append more, covers, ?_, ⟨?_, ?_, ?_, ?_⟩, ?_, ?_, ?_⟩
  · have length : (records.take k.position).length = k.position := List.length_take_of_le sound.covers
    rw [take_split (Nat.le_of_lt ahead)]
    refine derive_append.mpr ⟨d, more, sound.derived, ?_, rfl⟩
    rw [length, Nat.zero_add, ← sound.demands]
    exact derived
  · intro row member _
    rcases read row member with old | fresh
    · exact sound.rows.integers row member old
    · obtain ⟨output, -, read⟩ := walk.integers fresh
      exact ⟨_, (OutputRow.read_eq_ok.mp read).1⟩
  · intro i le
    rw [Derived.append, List.filter_append]
    by_cases old : i ≤ k.position
    · rw [filter_later (fun output member => (outputPlaces output member).1) old, List.append_nil]
      exact sound.rows.outputs i old
    · have here : (visit.rows.outputs.filter fun row => row.position = .integer i) =
          (visit.rows.ownOutputs (some start)).filter fun row => row.position = .integer i := by
        rw [KeptRows.ownOutputs, List.filter_filter]
        refine List.filter_congr fun row member => ?_
        by_cases place : row.position = .integer i
        · rcases read row member with known | fresh
          · rw [place, Cell.atMost, decide_eq_true_eq] at known
            exact absurd known old
          · simp [place, (List.mem_filter.mp fresh).2]
        · simp [place]
      rw [filter_earlier sound.within.1 (by omega), List.nil_append, here]
      refine walk.filter_at le fun output _ place => ?_
      simp only [compared, Bool.and_eq_false_iff, decide_eq_false_iff_not]
      right
      omega
  · intro row member own held
    cases old : row.position.atMost k.position with
    | true =>
      obtain ⟨id, p, named, place, stand⟩ := sound.rows.demands row member own old
      exact ⟨id, p, named, place, List.mem_append_left _ stand⟩
    | false =>
      obtain ⟨id, p, named, place, stand⟩ := rows_stood presented stands member own held fun k' same => by
        cases same
        exact old
      exact ⟨id, p, named, place, List.mem_append_right _ stand⟩
  · intro stand member
    rcases List.mem_append.mp member with old | fresh
    · exact sound.rows.stood stand old
    · exact presented_row (presented stand fresh)
  · simp [sound.leaves, Derived.append]
  · rw [Derived.append, standAll_append, ← sound.demands]
    rfl
  · intro row member _
    rcases read row member with old | fresh
    · exact .inl (Cell.atMost_mono (Int.ofNat_le.mpr (Nat.le_of_lt ahead)) old)
    · exact walk.passed fresh

/-- A check leaves what is known, or knows through its own position what its trail's records are. -/
theorem keptOutputsHold_cases {trail : Option (List Bytes)} {known after : Option KnownOutputs} {held : Bool}
    (run : keptOutputsHold c trail known visit = .ok (held, after)) : after = known ∨
      ∃ records next, trail = some records ∧ visit.position ≤ records.length ∧ (∀ k, known = some k → k.position < visit.position) ∧
        walkOutputs c records known visit = .ok (some next) ∧ after = some next := by
  unfold keptOutputsHold at run
  split at run
  · cases run
    exact .inl rfl
  · split at run
    · cases run
      exact .inl rfl
    · rename_i ahead
      split at run
      · cases run
        exact .inl rfl
      · rename_i records
        split at run
        · cases run
          exact .inl rfl
        · rename_i covers
          split at run
          · cases run
          · cases run
            exact .inl rfl
          · rename_i next walked
            cases run
            refine .inr ⟨records, next, rfl, by omega, fun k same => ?_, walked, rfl⟩
            rw [same, Option.filter_eq_none_iff] at ahead
            simpa using ahead

end Checks

end KeptOutputs

end Moe
