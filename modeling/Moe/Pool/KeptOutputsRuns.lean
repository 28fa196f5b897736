import Moe.Pool.KeptOutputs

namespace Moe

namespace KeptOutputs

/-- What a trail's records derive: each output's commitment with its position, in order, and each demand stood up at one. -/
structure Derived where
  outputs : List (Nat × Nat)
  demands : List (Bytes × Nat × Demand)

def Derived.append (a b : Derived) : Derived := ⟨a.outputs ++ b.outputs, a.demands ++ b.demands⟩

/-- What one record's view derives at its position. -/
def Derived.ofView (p : Nat) (view : StatementView) : Derived :=
  ⟨view.outputs.map fun cm => (cm, p), (view.demand.map fun stand => (stand.1, p, stand.2)).toList⟩

/-- The demands stood up, with those derived. -/
def standAll (stood : OrderedMap Bytes Demand) (demands : List (Bytes × Nat × Demand)) : OrderedMap Bytes Demand :=
  demands.foldl (fun map stand => map.set stand.1 stand.2.2) stood

def standAt (stood : OrderedMap Bytes Nat) (demands : List (Bytes × Nat × Demand)) : OrderedMap Bytes Nat :=
  demands.foldl (fun map stand => map.set stand.1 stand.2.1) stood

section Derivation

variable {R : Type} (c : Construction R)

/-- The derivation of records, the first of which is past `before`, a settlement's demand read from the trail or the state before it. -/
def derive (visit : Visit) : List Bytes → Nat → OrderedMap Bytes Demand → Option Derived
  | [], _, _ => some ⟨[], []⟩
  | bytes :: rest, before, stood =>
    match c.decode bytes with
    | .error _ => none
    | .ok record =>
      if c.kind record < 1 ∨ 6 < c.kind record then none
      else (derive visit rest (before + 1) (standAll stood (Derived.ofView (before + 1) (viewAt c visit before stood record)).demands)).map
        (Derived.ofView (before + 1) (viewAt c visit before stood record)).append

variable {c} {visit : Visit} {records : List Bytes} {before : Nat} {stood : OrderedMap Bytes Demand} {d : Derived}

theorem derive_cons {bytes : Bytes} {rest : List Bytes} :
    derive c visit (bytes :: rest) before stood = some d ↔ ∃ record later, c.decode bytes = .ok record ∧
      ¬ (c.kind record < 1 ∨ 6 < c.kind record) ∧
      derive c visit rest (before + 1) (standAll stood (Derived.ofView (before + 1) (viewAt c visit before stood record)).demands) =
        some later ∧
      d = (Derived.ofView (before + 1) (viewAt c visit before stood record)).append later := by
  rw [derive]
  cases decoded : c.decode bytes with
  | error failure => simp
  | ok record =>
    by_cases kind : c.kind record < 1 ∨ 6 < c.kind record
    · simp only [if_pos kind, reduceCtorEq, Except.ok.injEq, false_iff]
      rintro ⟨_, _, rfl, other, -⟩
      exact other kind
    · simp only [if_neg kind, Option.map_eq_some_iff, Except.ok.injEq]
      constructor
      · rintro ⟨later, tail, rfl⟩
        exact ⟨record, later, rfl, kind, tail, rfl⟩
      · rintro ⟨_, later, rfl, -, tail, rfl⟩
        exact ⟨later, tail, rfl⟩

/-- A record's outputs and demand stand past the position it is read from, and within the records. -/
theorem derive_places (derived : derive c visit records before stood = some d) :
    (∀ output ∈ d.outputs, before < output.2 ∧ output.2 ≤ before + records.length) ∧
      (∀ stand ∈ d.demands, before < stand.2.1 ∧ stand.2.1 ≤ before + records.length) ∧
      d.demands.Pairwise fun a b => a.2.1 < b.2.1 := by
  induction records generalizing before stood d with
  | nil =>
    cases derived
    simp
  | cons bytes rest ih =>
    obtain ⟨record, later, -, -, tail, rfl⟩ := derive_cons.mp derived
    obtain ⟨outputs, demands, sorted⟩ := ih tail
    refine ⟨fun output member => ?_, fun stand member => ?_, ?_⟩
    · rw [Derived.append, Derived.ofView, List.mem_append, List.mem_map] at member
      rw [List.length_cons]
      rcases member with ⟨cm, -, rfl⟩ | member
      · omega
      · have := outputs output member
        omega
    · rw [Derived.append, Derived.ofView, List.mem_append, Option.mem_toList, Option.map_eq_some_iff] at member
      rw [List.length_cons]
      rcases member with ⟨cm, -, rfl⟩ | member
      · exact ⟨Nat.lt_succ_self before, by show before + 1 ≤ _; omega⟩
      · have := demands stand member
        omega
    · rw [Derived.append, List.pairwise_append]
      refine ⟨?_, sorted, fun a first b second => ?_⟩
      · unfold Derived.ofView
        cases (viewAt c visit before stood record).demand <;> simp
      · rw [Derived.ofView, Option.mem_toList, Option.map_eq_some_iff] at first
        obtain ⟨_, -, rfl⟩ := first
        exact (demands b second).1

theorem standAll_append (a b : List (Bytes × Nat × Demand)) : standAll stood (a ++ b) = standAll (standAll stood a) b :=
  List.foldl_append

theorem derive_append {later : List Bytes} : derive c visit (records ++ later) before stood = some d ↔
    ∃ first rest, derive c visit records before stood = some first ∧
      derive c visit later (before + records.length) (standAll stood first.demands) = some rest ∧ d = first.append rest := by
  induction records generalizing before stood d with
  | nil => simp [derive, standAll, Derived.append]
  | cons bytes tail ih =>
    rw [List.cons_append, derive_cons]
    constructor
    · rintro ⟨record, all, decoded, kind, derived, rfl⟩
      obtain ⟨first, rest, one, two, rfl⟩ := ih.mp derived
      refine ⟨_, rest, derive_cons.mpr ⟨record, first, decoded, kind, one, rfl⟩, ?_, ?_⟩
      · rw [Derived.append, standAll_append, List.length_cons, ← Nat.add_assoc, Nat.add_right_comm]
        exact two
      · simp only [Derived.append, List.append_assoc]
    · rintro ⟨first, rest, one, two, rfl⟩
      obtain ⟨record, next, decoded, kind, tailed, rfl⟩ := derive_cons.mp one
      rw [Derived.append, standAll_append, List.length_cons, ← Nat.add_assoc, Nat.add_right_comm] at two
      exact ⟨record, next.append rest, decoded, kind, ih.mpr ⟨next, rest, tailed, two, rfl⟩, by simp only [Derived.append, List.append_assoc]⟩

/-- A derivation reads no more of the store than the demands standing before each of its records. -/
theorem derive_congr {other : Visit}
    (same : ∀ p id, before ≤ p → p < before + records.length → other.before p id = visit.before p id) :
    derive c other records before stood = derive c visit records before stood := by
  induction records generalizing before stood with
  | nil => rfl
  | cons bytes rest ih =>
    have view : ∀ record, viewAt c other before stood record = viewAt c visit before stood record := by
      intro record
      have here : other.before before = visit.before before := funext fun id => same before id (Nat.le_refl before) (by simp)
      rw [viewAt, viewAt, here]
    have tail := fun stood => @ih (before + 1) stood fun p id low high =>
      same p id (by omega) (by rw [List.length_cons]; omega)
    simp only [derive, view, tail]

end Derivation

section Rebuilding

variable {R : Type} {c : Construction R} {visit : Visit} {records : List Bytes} {before : Nat} {rebuilt : Rebuilt}

/-- A rebuild with what records derive. -/
def Rebuilt.addAll (rebuilt : Rebuilt) (d : Derived) : Rebuilt :=
  ⟨standAll rebuilt.demands d.demands, standAt rebuilt.stood d.demands, rebuilt.derived ++ d.outputs⟩

/-- Every demand derived reads back from its kept row. -/
def Presented (rows : KeptRows) (d : Derived) : Prop :=
  ∀ stand ∈ d.demands, rows.presented stand.2.1 stand.1 = .ok (some (stand.2.2, rows.ns, (stand.2.1 : Int)))

theorem rowStands_eq_ok {rows : KeptRows} {p : Nat} {stand : Option (Bytes × Demand)} :
    rowStands rows p stand = .ok true ↔ ∀ id value, stand = some (id, value) → rows.presented p id = .ok (some (value, rows.ns, (p : Int))) := by
  cases stand with
  | none => simp [rowStands]
  | some entry =>
    obtain ⟨id, value⟩ := entry
    simp only [rowStands, Option.some.injEq, Prod.mk.injEq]
    constructor
    · rintro held _ _ ⟨rfl, rfl⟩
      split at held
      · cases held
      · cases held
      · rename_i demand ns position read
        rw [read]
        simp only [Except.ok.injEq, Bool.and_eq_true, decide_eq_true_eq] at held
        obtain ⟨⟨rfl, rfl⟩, rfl⟩ := held
        rfl
    · intro held
      rw [held id value ⟨rfl, rfl⟩]
      simp

theorem Rebuilt.add_addAll (p : Nat) (view : StatementView) (later : Derived) :
    (rebuilt.add p view).addAll later = rebuilt.addAll ((Derived.ofView p view).append later) := by
  cases stand : view.demand with
  | none => simp [Rebuilt.add, Rebuilt.addAll, Derived.ofView, Derived.append, stand]
  | some entry => simp [Rebuilt.add, Rebuilt.addAll, Derived.ofView, Derived.append, stand, standAll, standAt]

theorem presented_ofView {rows : KeptRows} {p : Nat} {view : StatementView} {later : Derived} :
    Presented rows ((Derived.ofView p view).append later) ↔ rowStands rows p view.demand = .ok true ∧ Presented rows later := by
  rw [rowStands_eq_ok]
  simp only [Presented, Derived.append, Derived.ofView, List.forall_mem_append]
  refine and_congr_left' ?_
  cases view.demand with
  | none => simp
  | some entry =>
    obtain ⟨id, value⟩ := entry
    simp

/-- A rebuild gives what the records through the position checked derive, where each demand's row is the one stood up. -/
theorem rebuild_eq_ok {result : Rebuilt} : rebuild c visit records before rebuilt = .ok (some result) ↔
    ∃ d, derive c visit (records.take (visit.position - before)) before rebuilt.demands = some d ∧ Presented visit.rows d ∧
      result = rebuilt.addAll d := by
  induction records generalizing before rebuilt with
  | nil => simp [rebuild, derive, Rebuilt.addAll, standAll, standAt, Presented, eq_comm]
  | cons bytes rest ih =>
    by_cases past : visit.position < before + 1
    · have none_ : visit.position - before = 0 := by omega
      simp [rebuild, past, none_, derive, Rebuilt.addAll, standAll, standAt, Presented, eq_comm]
    · obtain ⟨more, count⟩ : ∃ more, visit.position - before = more + 1 := ⟨visit.position - (before + 1), by omega⟩
      have fewer : visit.position - (before + 1) = more := by omega
      rw [rebuild, if_neg past, count, List.take_succ_cons]
      constructor
      · intro run
        split at run
        · cases run
        · cases run
        · rename_i record decoded
          split at run
          · cases run
          · rename_i kind
            split at run
            · cases run
            · cases run
            · rename_i stands
              obtain ⟨later, derived, presented, rfl⟩ := ih.mp run
              rw [fewer] at derived
              refine ⟨_, derive_cons.mpr ⟨record, later, decoded, kind, ?_, rfl⟩, presented_ofView.mpr ⟨stands, presented⟩,
                Rebuilt.add_addAll ..⟩
              have demands : (rebuilt.add (before + 1) (viewAt c visit before rebuilt.demands record)).demands =
                  standAll rebuilt.demands (Derived.ofView (before + 1) (viewAt c visit before rebuilt.demands record)).demands := by
                cases stand : (viewAt c visit before rebuilt.demands record).demand <;> simp [Rebuilt.add, Derived.ofView, standAll, stand]
              rw [← demands]
              exact derived
      · rintro ⟨d, derived, presented, rfl⟩
        obtain ⟨record, later, decoded, kind, tail, rfl⟩ := derive_cons.mp derived
        obtain ⟨stands, presented⟩ := presented_ofView.mp presented
        have demands : (rebuilt.add (before + 1) (viewAt c visit before rebuilt.demands record)).demands =
            standAll rebuilt.demands (Derived.ofView (before + 1) (viewAt c visit before rebuilt.demands record)).demands := by
          cases stand : (viewAt c visit before rebuilt.demands record).demand <;> simp [Rebuilt.add, Derived.ofView, standAll, stand]
        simp only [decoded, if_neg kind, stands]
        refine ih.mpr ⟨later, ?_, presented, (Rebuilt.add_addAll ..).symm⟩
        rw [fewer, demands]
        exact tail

end Rebuilding

section Walking

variable {known : Option KnownOutputs} {position : Nat} {tip : Bool}

theorem OutputRow.read_eq_ok {row : OutputRow} {output : OwnOutput} : row.read = .ok (some output) ↔
    row.position = .integer output.position ∧ row.leaf = .integer output.leaf ∧ row.cm = some output.cm := by
  obtain ⟨cm, place, leaf, settlement⟩ := row
  obtain ⟨value, at_, number⟩ := output
  cases place <;> cases leaf <;> cases cm <;> simp [OutputRow.read, and_assoc, and_comm]

/-- A row the walk compares with a derived output. -/
def fresh (known : Option KnownOutputs) (position : Nat) (output : OwnOutput) : Bool :=
  output.position ≤ position && !compared known output

/-- A walk that found its rows to be the derived outputs. -/
structure Walk (known : Option KnownOutputs) (position : Nat) (tip : Bool) (rows : List OutputRow) (derived : List (Nat × Nat))
    (top : Int) (skipped : Option Int) (result : Int × Option Int) (outputs : List OwnOutput) : Prop where
  read : rows.map OutputRow.read = outputs.map fun output => .ok (some output)
  agree : (outputs.filter (fresh known position)).map (fun output => (output.cm, output.position)) =
    derived.map fun entry => (entry.1, (entry.2 : Int))
  within : tip = true → ∀ output ∈ outputs, output.position ≤ position
  capped : tip = true → result.1 ≤ position
  top : result.1 = outputs.foldl (fun highest output => max highest output.position) top
  skipped : result.2 = (outputs.filter fun output => (position : Int) < output.position).foldl
    (fun least output => some (lower least output.leaf)) skipped

/-- A walk sees of the derived outputs what the rows state. -/
theorem Walk.congr {rows : List OutputRow} {derived other : List (Nat × Nat)} {top : Int} {skipped : Option Int} {result : Int × Option Int}
    {outputs : List OwnOutput} (walk : Walk known position tip rows other top skipped result outputs)
    (same : derived.map (fun entry => (entry.1, (entry.2 : Int))) = other.map fun entry => (entry.1, (entry.2 : Int))) :
    Walk known position tip rows derived top skipped result outputs :=
  ⟨walk.read, walk.agree.trans same.symm, walk.within, walk.capped, walk.top, walk.skipped⟩

/-- A walk's first row was read, and the rest of it is a walk. -/
theorem exists_walk_cons {row : OutputRow} {rest : List OutputRow} {derived : List (Nat × Nat)} {top : Int} {skipped : Option Int}
    {result : Int × Option Int} : (∃ outputs, Walk known position tip (row :: rest) derived top skipped result outputs) ↔
      ∃ output others, row.read = .ok (some output) ∧ Walk known position tip (row :: rest) derived top skipped result (output :: others) := by
  constructor
  · rintro ⟨outputs, walk⟩
    cases outputs with
    | nil => cases walk.read
    | cons output others => exact ⟨output, others, (List.cons.inj walk.read).1, walk⟩
  · rintro ⟨output, others, -, walk⟩
    exact ⟨_, walk⟩

theorem walk_cons_past {row : OutputRow} {rest : List OutputRow} {derived : List (Nat × Nat)} {top : Int} {skipped : Option Int}
    {result : Int × Option Int} {output : OwnOutput} {others : List OwnOutput} (read : row.read = .ok (some output))
    (past : (position : Int) < output.position) : Walk known position tip (row :: rest) derived top skipped result (output :: others) ↔
      tip = false ∧ Walk known position tip rest derived (max top output.position) (some (lower skipped output.leaf)) result others := by
  have stale : fresh known position output = false := by
    simp [fresh, show ¬ output.position ≤ position by omega]
  constructor
  · intro walk
    have open_ : tip = false := by
      by_contra closed
      have := walk.within (by simpa using closed) output List.mem_cons_self
      omega
    refine ⟨open_, (List.cons.inj walk.read).2, ?_, fun closed => ?_, walk.capped, walk.top, ?_⟩
    · have agree := walk.agree
      rw [List.filter_cons, if_neg (by simp [stale])] at agree
      exact agree
    · rw [open_] at closed
      cases closed
    · have skips := walk.skipped
      rw [List.filter_cons, if_pos (by simpa using past)] at skips
      exact skips
  · rintro ⟨open_, walk⟩
    refine ⟨by rw [List.map_cons, List.map_cons, read, walk.read], ?_, fun closed => ?_, walk.capped, walk.top, ?_⟩
    · rw [List.filter_cons, if_neg (by simp [stale])]
      exact walk.agree
    · rw [open_] at closed
      cases closed
    · rw [List.filter_cons, if_pos (by simpa using past)]
      exact walk.skipped

/-- A row at or below the position is passed where it was compared, else it is the first derived output. -/
theorem walk_cons_through {row : OutputRow} {rest : List OutputRow} {derived : List (Nat × Nat)} {top : Int} {skipped : Option Int}
    {result : Int × Option Int} {output : OwnOutput} {others : List OwnOutput} (read : row.read = .ok (some output))
    (through : output.position ≤ (position : Int)) :
    Walk known position tip (row :: rest) derived top skipped result (output :: others) ↔
      ∃ later, derived.map (fun entry => (entry.1, (entry.2 : Int))) =
          (if compared known output then [] else [(output.cm, output.position)]) ++ later.map (fun entry => (entry.1, (entry.2 : Int))) ∧
        Walk known position tip rest later (max top output.position) skipped result others := by
  have kept : ¬ (position : Int) < output.position := by omega
  have taken : (List.filter (fresh known position) (output :: others)).map (fun output => (output.cm, output.position)) =
      (if compared known output then [] else [(output.cm, output.position)]) ++
        (others.filter (fresh known position)).map fun output => (output.cm, output.position) := by
    cases seen : compared known output <;> simp [fresh, through, seen]
  constructor
  · intro walk
    have agree := walk.agree
    rw [taken] at agree
    refine ⟨derived.drop (if compared known output then 0 else 1), ?_, (List.cons.inj walk.read).2, ?_, fun closed other member =>
      walk.within closed other (List.mem_cons_of_mem _ member), walk.capped, walk.top, ?_⟩
    · split at agree
      · rename_i seen
        simp [seen]
      · rename_i seen
        rw [← agree, if_neg seen, if_neg seen, List.map_drop, ← agree]
        rfl
    · rw [List.map_drop, ← agree]
      split <;> rfl
    · have skips := walk.skipped
      rw [List.filter_cons, if_neg (by simpa using through)] at skips
      exact skips
  · rintro ⟨later, agree, walk⟩
    refine ⟨by rw [List.map_cons, List.map_cons, read, walk.read], by rw [taken, agree, walk.agree], fun closed => ?_, walk.capped, walk.top, ?_⟩
    · exact List.forall_mem_cons.mpr ⟨through, walk.within closed⟩
    · rw [List.filter_cons, if_neg (by simpa using through)]
      exact walk.skipped

theorem compareOutputs_eq_ok {rows : List OutputRow} {derived : List (Nat × Nat)} {top : Int} {skipped : Option Int}
    {result : Int × Option Int} : compareOutputs known position tip rows derived top skipped = .ok (some result) ↔
      ∃ outputs, Walk known position tip rows derived top skipped result outputs := by
  induction rows generalizing derived top skipped with
  | nil =>
    simp only [compareOutputs, Except.ok.injEq]
    constructor
    · intro run
      split at run
      · rename_i ended
        obtain ⟨rfl, within⟩ := ended
        cases run
        exact ⟨[], rfl, rfl, by simp, fun closed => by have := not_and.mp within closed; omega, rfl, rfl⟩
      · cases run
    · rintro ⟨outputs, walk⟩
      obtain rfl : outputs = [] := List.map_eq_nil_iff.mp walk.read.symm
      have none_ : derived = [] := List.map_eq_nil_iff.mp walk.agree.symm
      have same : result = (top, skipped) := Prod.ext walk.top walk.skipped
      subst same
      rw [if_pos ⟨none_, fun outside => by have := walk.capped outside.1; have := outside.2; simp only at *; omega⟩]
  | cons row rest ih =>
    rw [compareOutputs, exists_walk_cons]
    cases read : row.read with
    | error failure => simp
    | ok found =>
      cases found with
      | none => simp
      | some output =>
        simp only [Except.ok.injEq, Option.some.injEq]
        by_cases past : (position : Int) < output.position
        · rw [if_pos past]
          constructor
          · intro run
            split at run
            · cases run
            · rename_i open_
              obtain ⟨others, walk⟩ := ih.mp run
              exact ⟨output, others, rfl, (walk_cons_past read past).mpr ⟨by simpa using open_, walk⟩⟩
          · rintro ⟨_, others, rfl, walk⟩
            obtain ⟨open_, walk⟩ := (walk_cons_past read past).mp walk
            rw [if_neg (by simp [open_])]
            exact ih.mpr ⟨others, walk⟩
        · have through : output.position ≤ (position : Int) := by omega
          rw [if_neg past]
          by_cases seen : compared known output = true
          · rw [if_pos seen]
            constructor
            · intro run
              obtain ⟨others, walk⟩ := ih.mp run
              exact ⟨output, others, rfl, (walk_cons_through read through).mpr ⟨derived, by simp [seen], walk⟩⟩
            · rintro ⟨_, others, rfl, walk⟩
              obtain ⟨later, agree, rest⟩ := (walk_cons_through read through).mp walk
              rw [if_pos seen] at agree
              exact ih.mpr ⟨others, rest.congr agree⟩
          · rw [if_neg seen]
            constructor
            · intro run
              split at run
              · cases run
              · rename_i expected others
                split at run
                · rename_i same
                  obtain ⟨more, walk⟩ := ih.mp run
                  exact ⟨output, more, rfl, (walk_cons_through read through).mpr ⟨others, by simp [seen, same], walk⟩⟩
                · cases run
            · rintro ⟨_, others, rfl, walk⟩
              obtain ⟨later, agree, rest⟩ := (walk_cons_through read through).mp walk
              rw [if_neg seen] at agree
              cases derived with
              | nil => cases agree
              | cons expected more =>
                obtain ⟨first, tail⟩ := List.cons.inj agree
                obtain ⟨cm, at_⟩ := Prod.mk.inj first
                simp only [if_pos (And.intro cm at_)]
                exact ih.mpr ⟨others, rest.congr tail⟩

end Walking

end KeptOutputs

end Moe
