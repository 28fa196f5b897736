import Moe.Pool.Audit
import Moe.Pool.Applied

namespace Moe

/-- What a row tells of its statement alone: no index, proof or bytes of its record, and no place in the note tree. -/
def Fact.told : Fact → Option Fact
  | .event row => some (.event { row with index := none, proofHash := [], signatureHash := [], settlement := none, evidence := [] })
  | .output row => some (.output { row with leaf := 0, capsule := none })
  | .anchor _ => none
  | fact => some fact

namespace Rows

/-- What some rows tell, each with its position. -/
def told (rows : Rows) : List (Nat × Fact) := rows.filterMap fun placed => placed.row.told.map (placed.position, ·)

/-- The rows of one position. -/
def at_ (p : Nat) (rows : Rows) : Rows := rows.filter (·.position = p)

/-- Rows newest first. -/
def Newest (rows : Rows) : Prop := rows.Pairwise fun a b => b.position ≤ a.position

theorem told_append (a b : Rows) : told (a ++ b) = told a ++ told b := List.filterMap_append

theorem mem_told {rows : Rows} {q : Nat} {fact : Fact} :
    (q, fact) ∈ rows.told ↔ ∃ placed ∈ rows, placed.position = q ∧ placed.row.told = some fact := by
  simp only [told, List.mem_filterMap, Option.map_eq_some_iff, Prod.mk.injEq]
  constructor
  · rintro ⟨placed, member, other, tells, same, rfl⟩
    exact ⟨placed, member, same, tells⟩
  · rintro ⟨placed, member, same, tells⟩
    exact ⟨placed, member, fact, tells, same, rfl⟩

/-- A table of what rows tell is told by what they tell. -/
theorem told_table {α : Type} {pick : Fact → Option α} (blind : ∀ fact : Fact, fact.told.bind pick = pick fact) (rows : Rows) :
    (rows.told.filterMap fun told => (pick told.2).map (told.1, ·)) = (table pick rows).map fun placed => (placed.position, placed.row) := by
  simp only [told, table, List.filterMap_filterMap, List.map_filterMap]
  refine List.filterMap_congr fun placed _ => ?_
  rw [← blind placed.row]
  cases placed.row.told with
  | none => rfl
  | some fact => cases picked : pick fact <;> simp [picked]

theorem table_map {α β : Type} (pick : Fact → Option α) (f : α → β) (rows : Rows) :
    table (fun fact => (pick fact).map f) rows = (table pick rows).map fun placed => ⟨placed.ns, placed.position, f placed.row⟩ := by
  simp only [table, List.map_filterMap, Option.map_map]
  rfl

/-- Rows up to the next position are those at it over those up to the last. -/
theorem through_succ {rows : Rows} (newest : rows.Newest) (p : Nat) : through (p + 1) rows = at_ (p + 1) rows ++ through p rows := by
  induction rows with
  | nil => rfl
  | cons placed rest ih =>
    obtain ⟨older, newest⟩ := List.pairwise_cons.mp newest
    have rest_ := ih newest
    simp only [through, at_] at rest_ ⊢
    rcases Nat.lt_trichotomy placed.position (p + 1) with below | same | above
    · have none_ : rest.filter (fun placed => decide (placed.position = p + 1)) = [] := by
        refine List.filter_eq_nil_iff.mpr fun other member => ?_
        have := older other member
        simp only [decide_eq_true_eq]
        omega
      rw [none_] at rest_
      rw [List.filter_cons_of_pos (by simpa using below.le), List.filter_cons_of_neg (by simpa using below.ne),
        List.filter_cons_of_pos (by simpa using Nat.le_of_lt_succ below), none_, rest_]
      rfl
    · rw [List.filter_cons_of_pos (by simpa using same.le), List.filter_cons_of_pos (by simpa using same),
        List.filter_cons_of_neg (by simp only [decide_eq_true_eq]; omega), rest_]
      rfl
    · rw [List.filter_cons_of_neg (by simp only [decide_eq_true_eq]; omega),
        List.filter_cons_of_neg (by simp only [decide_eq_true_eq]; omega),
        List.filter_cons_of_neg (by simp only [decide_eq_true_eq]; omega), rest_]

end Rows

/-- A link of a history chain, as it is hashed. -/
structure HistoryLink where
  previous : Bytes
  identity : Bytes
  noteRoot : Nat
  spentRoot : Bytes
  position : Nat
  deriving DecidableEq

/-- What of a statement its event tells. -/
structure Stated where
  kind : Nat
  backing : Option Bytes
  quantity : Option Nat
  nfs : List Nat
  tags : List Nat
  outputs : List Nat
  demand : Option (Bytes × Demand)
  ended : Option Bytes
  deriving DecidableEq

def StatementView.stated (view : StatementView) : Stated :=
  ⟨view.kind, view.backings.head?, view.quantity, view.nfs, view.tags, view.outputs, view.demand, view.ended⟩

namespace Stated

variable (st : Stated)

def supply : Option Supply :=
  if st.kind = 1 then st.backing.map fun backing => ⟨backing, st.quantity.getD 0, 0⟩
  else if st.kind = 3 then st.backing.map fun backing => ⟨backing, 0, st.quantity.getD 0⟩ else none

/-- The tags and the demand an event touches. -/
def keys (identity : Bytes) (ended : Option Demand) : List EventKey :=
  let tags := if st.kind = 4 then (st.demand.map fun stands => standingTags stands.2).getD []
    else if st.kind = 5 then (ended.map standingTags).getD [] else st.tags
  let touched := if st.kind = 4 then some identity else st.ended
  tags.map .tag ++ touched.toList.map .demand

/-- What the event of a statement tells, at its link of the history. -/
def facts (link : HistoryLink) (history : Bytes) (demandOf : Bytes → Option Demand) : List Fact :=
  .event ⟨link.identity, st.kind, none, [], [], none, history, [], link.noteRoot, link.spentRoot, st.supply⟩ ::
    st.outputs.map (fun cm => .output ⟨cm, 0, none, st.kind = 6⟩) ++ (st.nfs.zip st.tags).map (fun (nf, tag) => .nullifier ⟨nf, tag⟩) ++
    st.demand.toList.map (fun (id, demand) => .demand (.of id demand)) ++ st.ended.toList.map .demandEnd ++
    (st.keys link.identity (st.ended.bind demandOf)).dedup.map .eventKey

end Stated

section

variable [Crypto] {R : Type} {s later : Store} {state : SegmentState R} {bytes : Bytes} {replay : SegmentReplay} {record : R}
  {n : Namespace} {effects : Append} {spent : SpentSet} {demand : Option StoredDemand}

omit [Crypto] in
theorem Namespace.outputRows_told (n : Namespace) {outputs : List AppendOutput} {settlement : Bool}
    (settled : ∀ output ∈ outputs, output.settlement = settlement) : ((n.outputRows outputs).map Fact.output).filterMap Fact.told =
      (outputs.map (·.cm)).map fun cm => .output ⟨cm, 0, none, settlement⟩ := by
  have told : (fun row => (Fact.output row).told) = some ∘ fun row => Fact.output { row with leaf := 0, capsule := none } := rfl
  simp only [List.filterMap_map, Function.comp_def, told, List.filterMap_eq_map']
  simp only [outputRows, List.map_map, Function.comp_def]
  refine List.ext_getElem (by simp) fun i first second => ?_
  simp only [List.getElem_map, List.getElem_zipIdx, Fact.output.injEq, StoredOutput.mk.injEq, true_and]
  exact settled _ (List.getElem_mem _)

omit [Crypto] in
theorem Fact.told_map {α : Type} {wrap : α → Fact} (told : ∀ value, (wrap value).told = some (wrap value)) (values : List α) :
    (values.map wrap).filterMap Fact.told = values.map wrap := by
  simp only [List.filterMap_map, Function.comp_def, told, List.filterMap_eq_map']

/-- The supply a record writes is its statement's. -/
theorem Applied.supply (applied : Applied s state bytes replay record n effects spent demand later)
    (regular : (judgedView s state record).Regular state.construction.keeps.tree (state.handle.view s).demand)
    (named : (judgedView s state record).kind = 1 ∨ (judgedView s state record).kind = 3 → (judgedView s state record).backings ≠ []) :
    effects.supply = (judgedView s state record).stated.supply := by
  have backing : (judgedView s state record).kind = 1 ∨ (judgedView s state record).kind = 3 →
      (judgedView s state record).backings.head? = some (backingOf s state record replay) := by
    intro kinds
    have needs : (judgedView s state record).needsDemand = false := by
      cases needs : (judgedView s state record).needsDemand with
      | false => rfl
      | true => rcases regular.needs needs with five | six <;> omega
    cases backings : (judgedView s state record).backings with
    | nil => exact absurd backings (named kinds)
    | cons first rest =>
      simp only [backingOf, judgedBacking, needs, backings]
      rfl
  rw [applied.carries.supply]
  simp only [judgmentFor, StatementView.stated, Stated.supply]
  by_cases one : (judgedView s state record).kind = 1
  · simp only [one, if_true, backing (.inl one), Option.map_some]
  · by_cases three : (judgedView s state record).kind = 3
    · simp only [three, if_true, backing (.inr three), Option.map_some]
    · simp only [one, three, if_false]

/-- The keys a record writes are its statement's. -/
theorem Applied.keys (applied : Applied s state bytes replay record n effects spent demand later) :
    effects.keys = (judgedView s state record).stated.keys (judgedView s state record).identity (endedDemand s state record) := by
  have ran := applied.ran
  simp only [Judged.effects] at ran
  obtain ⟨tags, touched, rest⟩ := bind_eq_ok.mp ran
  obtain ⟨outputs, -, done⟩ := bind_eq_ok.mp rest
  obtain rfl := pure_eq_ok.mp done
  simp only [judgmentFor, StatementView.stated, Stated.keys] at touched ⊢
  refine congrArg (· ++ _) (congrArg (List.map EventKey.tag) ?_)
  simp only [touchedTags] at touched
  by_cases four : (judgedView s state record).kind = 4
  · simp only [four, if_true] at touched ⊢
    obtain ⟨stands, known_, done⟩ := bind_eq_ok.mp touched
    obtain rfl := pure_eq_ok.mp done
    cases demand : (judgedView s state record).demand with
    | none =>
      rw [demand] at known_
      cases known_
    | some value =>
      rw [demand] at known_
      cases known_
      rfl
  · by_cases five : (judgedView s state record).kind = 5
    · simp only [five, if_true] at touched ⊢
      exact (Except.ok.inj touched).symm
    · simp only [four, five, if_false] at touched ⊢
      exact (Except.ok.inj touched).symm

/-- What a record's rows tell is what its statement tells at its link. -/
theorem Applied.told (applied : Applied s state bytes replay record n effects spent demand later) (placed : s.WellPlaced) (stood : s.Stood)
    (named : (judgedView s state record).kind = 1 ∨ (judgedView s state record).kind = 3 → (judgedView s state record).backings ≠ []) :
    Rows.told (n.added state.ns effects spent demand) =
      ((judgedView s state record).stated.facts
        ⟨n.history, (judgedView s state record).identity, (n.eventOf effects spent).noteRoot, spent.root, n.position + 1⟩
        (n.eventOf effects spent).history (state.handle.view s).demand).map (n.position + 1, ·) := by
  have regular := judgedView_regular placed stood applied.found record
  have carries := applied.carries
  have nullifiers : effects.nullifiers =
      ((judgedView s state record).nfs.zip (judgedView s state record).tags).map fun (nf, tag) => ⟨nf, tag⟩ := carries.nullifiers
  have cms : effects.outputs.map (·.cm) = (judgedView s state record).outputs := carries.outputs
  have ended : effects.ended = (judgedView s state record).ended := carries.ended
  have identity : effects.identity = (judgedView s state record).identity := carries.identity
  have kind : effects.kind = (judgedView s state record).kind := carries.kind
  have place : Rows.told (n.added state.ns effects spent demand) = ((n.added state.ns effects spent demand).filterMap
      fun placed => placed.row.told).map (n.position + 1, ·) := by
    rw [Rows.told, List.map_filterMap]
    refine List.filterMap_congr fun placed member => ?_
    rw [(n.mem_added _ _ _ _ member).2]
  rw [place]
  refine congrArg (List.map _) ?_
  have row : (Fact.event (n.eventOf effects spent)).told = some (.event ⟨(judgedView s state record).identity,
      (judgedView s state record).kind, none, [], [], none, (n.eventOf effects spent).history, [],
      (n.eventOf effects spent).noteRoot, spent.root, (judgedView s state record).stated.supply⟩) := by
    rw [← applied.supply regular named, ← identity, ← kind]
    rfl
  have demands : demand.toList.map Fact.demand =
      (judgedView s state record).demand.toList.map fun (id, demand) => .demand (.of id demand) := by
    rw [applied.stored placed stood]
    cases (judgedView s state record).demand <;> rfl
  have keys : effects.keys = (judgedView s state record).stated.keys (judgedView s state record).identity
      ((judgedView s state record).ended.bind (state.handle.view s).demand) := applied.keys
  have anchors : ((n.newAnchors (n.eventOf effects spent).noteRoot).map Fact.anchor).filterMap Fact.told = [] :=
    List.filterMap_eq_nil_iff.mpr fun fact member => by
      obtain ⟨root, -, rfl⟩ := List.mem_map.mp member
      rfl
  simp only [Namespace.added, List.filterMap_map, Function.comp_def]
  rw [List.filterMap_append, List.filterMap_append, List.filterMap_append, List.filterMap_append, List.filterMap_append,
    anchors, List.filterMap_cons_some row, n.outputRows_told carries.settlements, cms, Fact.told_map fun _ => rfl, nullifiers,
    Fact.told_map fun _ => rfl, Fact.told_map fun _ => rfl, Fact.told_map fun _ => rfl, demands, ended, keys]
  rw [List.append_nil, List.map_map]
  rfl

end

end Moe
