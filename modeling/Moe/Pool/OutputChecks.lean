import Moe.Lit.ConservationRun
import Moe.Pool.VouchedOutputs

namespace Moe

namespace KeptOutputs

variable {R : Type} {c : Construction R} {trail : Option (List Bytes)} {visit : Visit} {earlier : List Visit} {k : KnownOutputs}

/-- What is known before a check is so of what the store then holds, where it is after the check before. -/
theorem known_kept (steady : Steady c trail (visit :: earlier))
    (known : ∀ last rest, earlier = last :: rest → knownAfter c trail earlier = some k → ∃ records d, trail = some records ∧ Sound c records last k d)
    (is : knownAfter c trail earlier = some k) : ∃ records d, trail = some records ∧ Sound c records visit k d := by
  cases earlier with
  | nil => cases is
  | cons last rest =>
    obtain ⟨records, d, same, sound⟩ := known last rest rfl is
    exact ⟨records, d, same, sound.keep (steady.1 k is)⟩

/-- After every check what is known is what the trail derives and the store holds. -/
theorem knownAfter_sound (steady : Steady c trail (visit :: earlier)) (is : knownAfter c trail (visit :: earlier) = some k) :
    ∃ records d, trail = some records ∧ Sound c records visit k d := by
  induction earlier generalizing visit k with
  | nil =>
    rw [knownAfter] at is
    split at is
    · rename_i run
      rcases keptOutputsHold_cases run with same | ⟨records, next, same, covers, -, walked, same'⟩
      · rw [is, knownAfter] at same
        cases same
      · rw [is] at same'
        cases same'
        obtain ⟨-, d, sound⟩ := walkOutputs_first covers walked
        exact ⟨records, d, same, sound⟩
    · cases is
  | cons last rest ih =>
    have before : ∀ {k}, knownAfter c trail (last :: rest) = some k → ∃ records d, trail = some records ∧ Sound c records visit k d :=
      fun is => known_kept steady (fun _ _ same is => by cases same; exact ih steady.2 is) is
    rw [knownAfter] at is
    split at is
    · rename_i run
      rcases keptOutputsHold_cases run with same | ⟨records, next, same, covers, ahead, walked, same'⟩
      · rw [is] at same
        exact before same.symm
      · rw [is] at same'
        cases same'
        cases known : knownAfter c trail (last :: rest) with
        | none =>
          rw [known] at walked
          obtain ⟨-, d, sound⟩ := walkOutputs_first covers walked
          exact ⟨records, d, same, sound⟩
        | some k =>
          obtain ⟨records', d, same', sound⟩ := before known
          obtain rfl : records = records' := Option.some.inj (same.symm.trans same')
          rw [known] at walked
          obtain ⟨-, d, sound⟩ := walkOutputs_resumed sound (ahead k known) covers walked
          exact ⟨records, d, same, sound⟩
    · exact before is

theorem knownBefore_sound (steady : Steady c trail (visit :: earlier)) (is : knownAfter c trail earlier = some k) :
    ∃ records d, trail = some records ∧ Sound c records visit k d := by
  refine known_kept steady (fun last rest same is => ?_) is
  subst same
  exact knownAfter_sound steady.2 is

/-- What is known vouches for every position it reaches. -/
theorem Sound.vouched {records : List Bytes} {d : Derived} (sound : Sound c records visit k d) (le : visit.position ≤ k.position) :
    Vouched c (some records) visit := by
  have derived := sound.derived
  rw [take_split le] at derived
  obtain ⟨first, rest, through, later, rfl⟩ := derive_append.mp derived
  have covers : visit.position ≤ records.length := Nat.le_trans le sound.covers
  rw [List.length_take_of_le covers, Nat.zero_add] at later
  obtain ⟨outputs, demands, -⟩ := derive_places later
  exact ⟨records, first, rfl, covers, through,
    sound.rows.lower le (fun output member => (outputs output member).1) fun stand member => (demands stand member).1⟩

/-- A check that holds vouches for the rows through its position. -/
theorem vouched_of_holds (flat : c.keeps.tree = false) (steady : Steady c trail (visit :: earlier)) {after : Option KnownOutputs}
    (run : keptOutputsHold c trail (knownAfter c trail earlier) visit = .ok (true, after)) : Vouched c trail visit := by
  unfold keptOutputsHold at run
  rw [if_neg (by simp [flat])] at run
  split at run
  · rename_i k covered
    obtain ⟨is, le⟩ := Option.filter_eq_some_iff.mp covered
    obtain ⟨records, d, rfl, sound⟩ := knownBefore_sound steady is
    exact sound.vouched (by simpa using le)
  · rename_i ahead
    split at run
    · cases run
    · rename_i records
      split at run
      · cases run
      · rename_i covers
        split at run
        · cases run
        · cases run
        · rename_i next walked
          have reached : next.position = visit.position ∧ ∃ d, Sound c records visit next d := by
            cases known : knownAfter c (some records) earlier with
            | none =>
              rw [known] at walked
              exact walkOutputs_first (by omega) walked
            | some k =>
              obtain ⟨records', d, same, sound⟩ := knownBefore_sound steady known
              obtain rfl := Option.some.inj same
              rw [known, Option.filter_eq_none_iff] at ahead
              rw [known] at walked
              exact walkOutputs_resumed sound (by simpa using ahead k rfl) (by omega) walked
          obtain ⟨same, d, sound⟩ := reached
          exact sound.vouched (by omega)

/-- Derived outputs at consecutive leaves. -/
def atLeaves (outputs : List (Nat × Nat)) (leaf : Nat) : List OwnOutput :=
  (outputs.zipIdx leaf).map fun entry => ⟨entry.1.1, entry.1.2, entry.2⟩

/-- The rows of a namespace nothing altered: every output row readable, those through the position the outputs derived, at the leaves
from 0 on, and the demand rows those stood up, which read back. -/
structure WholeRows (rows : KeptRows) (position : Nat) (d : Derived) : Prop where
  readable : ∀ row ∈ rows.outputs, ∃ output, row.read = .ok (some output)
  numbered : (rows.outputs.filter (·.position.atMost position)).map OutputRow.read =
    (atLeaves d.outputs 0).map fun output => .ok (some output)
  demands : ∀ row ∈ rows.demands, row.ns = rows.ns → row.position.atMost position = true →
    ∃ id p, row.id = some id ∧ row.position = .integer (p : Nat) ∧ (id, p, row.value) ∈ d.demands
  presented : Presented rows d

variable (c) in
/-- A namespace's rows through a check's position as its trail's records leave them. -/
def Whole (trail : Option (List Bytes)) (visit : Visit) : Prop :=
  ∃ records d, trail = some records ∧ visit.position ≤ records.length ∧
    derive c visit (records.take visit.position) 0 [] = some d ∧ WholeRows visit.rows visit.position d

theorem exists_outputs {rows : List OutputRow} (readable : ∀ row ∈ rows, ∃ output, row.read = .ok (some output)) :
    ∃ outputs : List OwnOutput, rows.map OutputRow.read = outputs.map fun output => .ok (some output) := by
  induction rows with
  | nil => exact ⟨[], rfl⟩
  | cons row rest ih =>
    obtain ⟨output, read⟩ := readable row List.mem_cons_self
    obtain ⟨outputs, reads⟩ := ih fun other member => readable other (List.mem_cons_of_mem _ member)
    exact ⟨output :: outputs, by rw [List.map_cons, List.map_cons, read, reads]⟩

/-- A query that takes a row by its columns takes the outputs read from those it takes. -/
theorem read_taken {rows : List OutputRow} {outputs : List OwnOutput} (read : rows.map OutputRow.read = outputs.map fun output => .ok (some output))
    {takes : OutputRow → Bool} {taken : OwnOutput → Bool} (same : ∀ row output, row.read = .ok (some output) → takes row = taken output) :
    (rows.filter takes).map OutputRow.read = (outputs.filter taken).map fun output => .ok (some output) := by
  induction rows generalizing outputs with
  | nil =>
    obtain rfl : outputs = [] := List.map_eq_nil_iff.mp read.symm
    rfl
  | cons row rest ih =>
    cases outputs with
    | nil => cases read
    | cons output others =>
      obtain ⟨first, tail⟩ := List.cons.inj read
      have equal := same row output first
      have later := ih tail
      cases takes_ : takes row with
      | true =>
        rw [List.filter_cons, List.filter_cons, if_pos takes_, if_pos (by rw [← equal, takes_]), List.map_cons, List.map_cons, first, later]
      | false => rw [List.filter_cons, List.filter_cons, if_neg (by simp [takes_]), if_neg (by simp [← equal, takes_]), later]

theorem foldl_max_le {outputs : List OwnOutput} {top bound : Int} (start : top ≤ bound) (le : ∀ output ∈ outputs, output.position ≤ bound) :
    outputs.foldl (fun highest output => max highest output.position) top ≤ bound := by
  induction outputs generalizing top with
  | nil => exact start
  | cons output rest ih =>
    exact ih (Int.max_le.mpr ⟨start, le output List.mem_cons_self⟩) fun other member => le other (List.mem_cons_of_mem _ member)

theorem read_bound {rows : List OutputRow} {outputs : List OwnOutput} {position : Nat}
    (read : rows.map OutputRow.read = outputs.map fun output => .ok (some output)) (held : ∀ row ∈ rows, row.position.atMost position = true) :
    ∀ output ∈ outputs, output.position ≤ position := by
  intro output member
  have among : (.ok (some output) : Except Failure (Option OwnOutput)) ∈ rows.map OutputRow.read := by
    rw [read]
    exact List.mem_map_of_mem member
  obtain ⟨row, member, same⟩ := List.mem_map.mp among
  have bound := held row member
  rw [(OutputRow.read_eq_ok.mp same).1] at bound
  exact of_decide_eq_true bound

theorem mem_atLeaves {outputs : List (Nat × Nat)} {leaf : Nat} {output : OwnOutput} (member : output ∈ atLeaves outputs leaf) :
    leaf ≤ output.leaf ∧ output.leaf < leaf + outputs.length ∧ ∃ entry ∈ outputs, output.position = entry.2 := by
  obtain ⟨⟨entry, i⟩, among, rfl⟩ := List.mem_map.mp member
  obtain ⟨low, high, at_⟩ := List.mem_zipIdx among
  exact ⟨by simpa using low, by simp only; omega, entry, by rw [at_]; exact List.getElem_mem _, rfl⟩

theorem atLeaves_append (first later : List (Nat × Nat)) (leaf : Nat) :
    atLeaves (first ++ later) leaf = atLeaves first leaf ++ atLeaves later (leaf + first.length) := by
  rw [atLeaves, List.zipIdx_append, List.map_append]
  rfl

theorem atLeaves_pairs (outputs : List (Nat × Nat)) (leaf : Nat) :
    (atLeaves outputs leaf).map (fun output => (output.cm, output.position)) = outputs.map fun entry => (entry.1, (entry.2 : Int)) := by
  induction outputs generalizing leaf with
  | nil => rfl
  | cons entry rest ih => exact congrArg (List.cons _) (ih (leaf + 1))

/-- Outputs read at consecutive leaves, those of an earlier walk first, agree with what is derived past it. -/
theorem fresh_numbered {known : Option KnownOutputs} {outputs : List OwnOutput} {position : Nat} {first later : List (Nat × Nat)}
    (numbered : outputs.filter (fun output => output.position ≤ (position : Int)) = atLeaves (first ++ later) 0) {reads : OwnOutput → Bool}
    (seen : ∀ output ∈ atLeaves first 0, compared known output = true)
    (unseen : ∀ output ∈ atLeaves later first.length, reads output = true ∧ compared known output = false) :
    ((outputs.filter reads).filter (fresh known position)).map (fun output => (output.cm, output.position)) =
      later.map fun entry => (entry.1, (entry.2 : Int)) := by
  have order : (outputs.filter reads).filter (fresh known position) =
      (outputs.filter fun output => output.position ≤ (position : Int)).filter fun output => reads output && !compared known output := by
    rw [List.filter_filter, List.filter_filter]
    refine List.filter_congr fun output _ => ?_
    unfold fresh
    cases reads output <;> cases compared known output <;> simp
  have old : (atLeaves first 0).filter (fun output => reads output && !compared known output) = [] := by
    rw [List.filter_eq_nil_iff]
    intro output member
    simp [seen output member]
  have new : (atLeaves later first.length).filter (fun output => reads output && !compared known output) = atLeaves later first.length := by
    rw [List.filter_eq_self]
    intro output member
    simp [unseen output member]
  rw [order, numbered, atLeaves_append, List.filter_append, old, List.nil_append, Nat.zero_add, new, atLeaves_pairs]

theorem standAt_nodup {demands : List (Bytes × Nat × Demand)} (nodup : (demands.map (·.1)).Nodup) :
    standAt [] demands = demands.map fun stand => (stand.1, stand.2.1) := by
  suffices general : ∀ stood : OrderedMap Bytes Nat, (∀ stand ∈ demands, stand.1 ∉ stood.map (·.1)) →
      standAt stood demands = stood ++ demands.map fun stand => (stand.1, stand.2.1) by
    exact general [] (by simp)
  induction demands with
  | nil => simp [standAt]
  | cons stand rest ih =>
    intro stood apart
    obtain ⟨absent, nodup⟩ := List.nodup_cons.mp nodup
    show standAt (stood.set stand.1 stand.2.1) rest = _
    rw [OrderedMap.set_of_not_mem (apart stand List.mem_cons_self), ih nodup]
    · simp
    · intro other member
      simp only [List.map_append, List.map_cons, List.map_nil, List.mem_append, List.mem_singleton, not_or]
      refine ⟨apart other (List.mem_cons_of_mem _ member), fun same => absent ?_⟩
      exact List.mem_map.mpr ⟨other, member, same⟩

/-- Demand rows that are those stood up, each once, are found to be. -/
theorem demandsStood_of {rows : KeptRows} {demands : List (Bytes × Nat × Demand)} {after : Option Nat} {through : Nat}
    (sorted : demands.Pairwise fun a b => a.2.1 < b.2.1)
    (kept : ∀ stand ∈ demands, (⟨some stand.1, rows.ns, .integer stand.2.1, stand.2.2⟩ : DemandRow) ∈ rows.ownDemands after through)
    (stands : ∀ row ∈ rows.ownDemands after through, ∃ id p, row.id = some id ∧ row.position = .integer (p : Nat) ∧ (id, p, row.value) ∈ demands) :
    demandsStood (standAt [] demands) (rows.ownDemands after through) = true := by
  have nodup : (demands.map (·.1)).Nodup := by
    rw [List.nodup_iff_pairwise_ne, List.pairwise_map]
    refine sorted.imp_of_mem fun {a b} first second lt same => ?_
    have one := KeptRows.row_unique (mem_ownDemands.mp (kept a first)).1 (mem_ownDemands.mp (kept b second)).1 rfl (congrArg some same) rfl
    have place : (a.2.1 : Int) = b.2.1 := Cell.integer.inj (congrArg DemandRow.position one)
    omega
  have keys : ((standAt [] demands).map (·.1)).Nodup := by
    rw [standAt_nodup nodup, List.map_map]
    exact nodup
  rw [demandsStood, Bool.and_eq_true, List.all_eq_true, decide_eq_true_eq]
  refine ⟨fun row member => ?_, ?_⟩
  · obtain ⟨id, p, named, place, stand⟩ := stands row member
    have found : (standAt [] demands).get? id = some p := by
      refine OrderedMap.get?_of_mem keys ?_
      rw [standAt_nodup nodup]
      exact List.mem_map.mpr ⟨_, stand, rfl⟩
    simp [named, place, found]
  · have apart : ((rows.ownDemands after through).map (·.id)).Nodup := by
      rw [List.nodup_iff_pairwise_ne, List.pairwise_map]
      refine (rows.keyed.filter _).imp_of_mem fun {a b} first second keyed same => ?_
      obtain ⟨id, p, named, -, -⟩ := stands a first
      exact keyed (by rw [named]; rfl) same ((mem_ownDemands.mp first).2.1.trans (mem_ownDemands.mp second).2.1.symm)
    have perm : ((rows.ownDemands after through).map (·.id)).Perm (demands.map fun stand => some stand.1) := by
      refine (List.perm_ext_iff_of_nodup apart ?_).mpr fun id => ?_
      · rw [List.nodup_iff_pairwise_ne, List.pairwise_map] at nodup ⊢
        exact nodup.imp fun other same => other (Option.some.inj same)
      · rw [List.mem_map, List.mem_map]
        constructor
        · rintro ⟨row, member, rfl⟩
          obtain ⟨id, p, named, -, stand⟩ := stands row member
          exact ⟨_, stand, named.symm⟩
        · rintro ⟨stand, member, rfl⟩
          exact ⟨_, kept stand member, rfl⟩
    have length := perm.length_eq
    rw [List.length_map, List.length_map] at length
    rw [length, standAt_nodup nodup, List.length_map]

/-- What is known of rows none of which lies past a position does not lie past it. -/
theorem knownAfter_top {position : Nat} {visits : List Visit} (is : knownAfter c trail visits = some k)
    (held : ∀ other ∈ visits, ∀ row ∈ other.rows.outputs, row.position.atMost position = true) : k.top ≤ position := by
  induction visits generalizing k with
  | nil => cases is
  | cons visit earlier ih =>
    have before : ∀ {k}, knownAfter c trail earlier = some k → k.top ≤ position :=
      fun is => ih is fun other member => held other (List.mem_cons_of_mem _ member)
    rw [knownAfter] at is
    split at is
    · rename_i run
      rcases keptOutputsHold_cases run with same | ⟨records, next, -, -, -, walked, same⟩
      · exact before (same ▸ is)
      · rw [is] at same
        cases same
        obtain ⟨d, result, outputs, -, -, walk, -, -, rfl⟩ := walkOutputs_eq_ok.mp walked
        show result.1 ≤ position
        rw [walk.top]
        refine foldl_max_le ?_ (read_bound walk.read fun row member => held visit List.mem_cons_self row ?_)
        · cases known : knownAfter c trail earlier with
          | none => exact Int.natCast_nonneg position
          | some k => exact before known
        · cases start : startLeaf (knownAfter c trail earlier) with
          | none =>
            rw [start] at member
            exact member
          | some leaf =>
            rw [start] at member
            exact (List.mem_filter.mp member).1
    · exact before is

/-- Rows read, the fresh of which are the outputs derived, are walked. -/
theorem exists_walk {known : Option KnownOutputs} {position : Nat} {tip : Bool} {rows : List OutputRow} {derived : List (Nat × Nat)} {top : Int}
    {outputs : List OwnOutput} (read : rows.map OutputRow.read = outputs.map fun output => .ok (some output))
    (agree : (outputs.filter (fresh known position)).map (fun output => (output.cm, output.position)) =
      derived.map fun entry => (entry.1, (entry.2 : Int)))
    (within : tip = true → top ≤ position ∧ ∀ output ∈ outputs, output.position ≤ position) :
    ∃ result, Walk known position tip rows derived top none result outputs :=
  ⟨(_, _), read, agree, fun closed => (within closed).2, fun closed => foldl_max_le (within closed).1 (within closed).2, rfl, rfl⟩

variable {records : List Bytes} {d : Derived}

/-- A first check of whole rows holds, at a tip where none lies past it. -/
theorem WholeRows.first (whole : WholeRows visit.rows visit.position d)
    (derived : derive c visit (records.take visit.position) 0 [] = some d)
    (tip : visit.tip = true → (∀ row ∈ visit.rows.outputs, row.position.atMost visit.position = true) ∧
      visit.rows.demandPast visit.position = false) : ∃ next, walkOutputs c records none visit = .ok (some next) := by
  obtain ⟨outputs, read⟩ := exists_outputs whole.readable
  have numbered : outputs.filter (fun output => output.position ≤ (visit.position : Int)) = atLeaves ([] ++ d.outputs) 0 := by
    have same := @read_taken _ _ read (fun row => row.position.atMost visit.position)
      (fun output => output.position ≤ (visit.position : Int)) fun row output read => by rw [(OutputRow.read_eq_ok.mp read).1]; rfl
    rw [whole.numbered] at same
    exact (List.map_injective_iff.mpr (fun a b same => by simpa using same) same).symm
  have agree := @fresh_numbered none _ _ _ _ numbered (fun _ => true) (by simp [atLeaves]) fun _ _ => ⟨rfl, rfl⟩
  rw [List.filter_eq_self.mpr fun _ _ => rfl] at agree
  obtain ⟨result, walk⟩ := @exists_walk _ _ visit.tip _ _ 0 _ read agree fun closed =>
    ⟨Int.natCast_nonneg _, read_bound read (tip closed).1⟩
  obtain ⟨-, places, sorted⟩ := derive_places derived
  refine ⟨_, walkOutputs_eq_ok.mpr ⟨d, result, outputs, derived, whole.presented, walk, demandsStood_of sorted (fun stand member => ?_)
    (fun row member => ?_), fun closed => (tip closed).2, rfl⟩⟩
  · have bound := (places stand member).2
    rw [List.length_take] at bound
    exact mem_ownDemands.mpr ⟨presented_row (whole.presented stand member), rfl, by simp, decide_eq_true (by omega)⟩
  · obtain ⟨among, own, -, held⟩ := mem_ownDemands.mp member
    exact whole.demands row among own held

/-- A check of whole rows that resumes from what is known holds, at a tip where none lies past it. -/
theorem WholeRows.resumed (whole : WholeRows visit.rows visit.position d)
    (derived : derive c visit (records.take visit.position) 0 [] = some d) {d' : Derived} (sound : Sound c records visit k d')
    (ahead : k.position < visit.position) (covers : visit.position ≤ records.length)
    (tip : visit.tip = true → k.top ≤ visit.position ∧ (∀ row ∈ visit.rows.outputs, row.position.atMost visit.position = true) ∧
      visit.rows.demandPast visit.position = false) : ∃ next, walkOutputs c records (some k) visit = .ok (some next) := by
  obtain ⟨start, starts⟩ : ∃ start, startLeaf (some k) = some start := ⟨_, rfl⟩
  rw [take_split (Nat.le_of_lt ahead)] at derived
  obtain ⟨first, later, before, past, rfl⟩ := derive_append.mp derived
  obtain rfl : first = d' := Option.some.inj (before.symm.trans sound.derived)
  rw [List.length_take_of_le sound.covers, Nat.zero_add, ← sound.demands] at past
  obtain ⟨outputPlaces, demandPlaces, sorted⟩ := derive_places past
  have length : ((records.drop k.position).take (visit.position - k.position)).length = visit.position - k.position := by
    rw [List.length_take, List.length_drop]
    omega
  rw [length, Nat.add_sub_cancel' (Nat.le_of_lt ahead)] at outputPlaces demandPlaces
  obtain ⟨outputs, read⟩ := exists_outputs whole.readable
  have numbered : outputs.filter (fun output => output.position ≤ (visit.position : Int)) = atLeaves (first.outputs ++ later.outputs) 0 := by
    have same := @read_taken _ _ read (fun row => row.position.atMost visit.position)
      (fun output => output.position ≤ (visit.position : Int)) fun row output read => by rw [(OutputRow.read_eq_ok.mp read).1]; rfl
    rw [whole.numbered] at same
    exact (List.map_injective_iff.mpr (fun a b same => by simpa using same) same).symm
  have low : start ≤ k.leaves := by
    rw [startLeaf, Option.map_some, Option.some.injEq] at starts
    rw [← starts]
    split
    · split <;> omega
    · exact Int.le_refl _
  have agree := @fresh_numbered (some k) _ _ _ _ numbered (fun output => start ≤ output.leaf)
    (fun output member => by
      obtain ⟨-, high, entry, among, place⟩ := mem_atLeaves member
      have bound := sound.within.1 entry among
      simp only [compared, Bool.and_eq_true, decide_eq_true_eq, sound.leaves]
      omega)
    (fun output member => by
      obtain ⟨least, -, entry, among, place⟩ := mem_atLeaves member
      have bound := outputPlaces entry among
      rw [← sound.leaves] at least
      simp only [compared, Bool.and_eq_false_iff, decide_eq_true_eq, decide_eq_false_iff_not]
      omega)
  have walked := @read_taken _ _ read (fun row => row.leaf.atLeast start) (fun output => start ≤ output.leaf)
    fun row output read => by rw [(OutputRow.read_eq_ok.mp read).2.1]; rfl
  obtain ⟨result, walk⟩ := @exists_walk _ _ visit.tip _ _ k.top _ walked agree fun closed =>
    ⟨(tip closed).1, fun output member => read_bound read (tip closed).2.1 output (List.mem_filter.mp member).1⟩
  refine ⟨_, walkOutputs_eq_ok.mpr ⟨later, result, _, past, fun stand member => whole.presented stand (List.mem_append_right _ member),
    by rw [starts]; exact walk, demandsStood_of sorted (fun stand member => ?_) (fun row member => ?_), fun closed => (tip closed).2.2, rfl⟩⟩
  · have bound := demandPlaces stand member
    refine mem_ownDemands.mpr ⟨presented_row (whole.presented stand (List.mem_append_right _ member)), rfl, fun p at_ => ?_,
      decide_eq_true (by omega)⟩
    obtain rfl : k.position = p := Option.some.inj at_
    exact decide_eq_false (by omega)
  · obtain ⟨among, own, fresh_, held⟩ := mem_ownDemands.mp member
    obtain ⟨id, p, named, place, stand⟩ := whole.demands row among own held
    refine ⟨id, p, named, place, ?_⟩
    rcases List.mem_append.mp stand with old | new
    · have bound := sound.within.2 _ old
      have beyond := fresh_ k.position rfl
      rw [place, Cell.atMost, decide_eq_false_iff_not] at beyond
      simp only at bound
      omega
    · exact new

/-- A check of whole rows holds, at a tip where no row lay past it in any check of the run. -/
theorem holds_of_whole (flat : c.keeps.tree = false) (steady : Steady c trail (visit :: earlier)) (whole : Whole c trail visit)
    (tip : visit.tip = true → (∀ other ∈ visit :: earlier, ∀ row ∈ other.rows.outputs, row.position.atMost visit.position = true) ∧
      visit.rows.demandPast visit.position = false) :
    ∃ after, keptOutputsHold c trail (knownAfter c trail earlier) visit = .ok (true, after) := by
  obtain ⟨records, d, rfl, covers, derived, whole⟩ := whole
  have here : visit.tip = true → (∀ row ∈ visit.rows.outputs, row.position.atMost visit.position = true) ∧
      visit.rows.demandPast visit.position = false := fun closed => ⟨(tip closed).1 visit List.mem_cons_self, (tip closed).2⟩
  have top : ∀ k, knownAfter c (some records) earlier = some k → visit.tip = true → k.top ≤ visit.position :=
    fun k known closed => knownAfter_top known fun other member => (tip closed).1 other (List.mem_cons_of_mem _ member)
  unfold keptOutputsHold
  rw [if_neg (by simp [flat])]
  split
  · rename_i k covered
    obtain ⟨is, le⟩ := Option.filter_eq_some_iff.mp covered
    cases closed : visit.tip with
    | false => exact ⟨_, rfl⟩
    | true => simp [top k is closed, (here closed).2]
  · rename_i ahead
    have walked : ∃ next, walkOutputs c records (knownAfter c (some records) earlier) visit = .ok (some next) := by
      cases known : knownAfter c (some records) earlier with
      | none => exact whole.first derived here
      | some k =>
        obtain ⟨records', d', same, sound⟩ := knownBefore_sound steady known
        obtain rfl := Option.some.inj same
        rw [known, Option.filter_eq_none_iff] at ahead
        exact whole.resumed derived sound (by simpa using ahead k rfl) covers fun closed => ⟨top k known closed, here closed⟩
    obtain ⟨next, run⟩ := walked
    simp only [if_neg (Nat.not_lt.mpr covers), run]
    exact ⟨_, rfl⟩

end KeptOutputs

section Lit

variable [Crypto] [PublicKeys]

open KeptOutputs in
/-- Over checks of a lit namespace, whatever rows were altered before them, and between them wherever nothing was known of the rows: one that
holds vouches for the own rows through its position, and one of whole rows holds, at a tip where none lay past it. -/
theorem keptOutputs_vouched {trail : Option (List Bytes)} {visit : Visit} {earlier : List Visit} (steady : Steady Lit.lit trail (visit :: earlier)) :
    (∀ after, keptOutputsHold Lit.lit trail (knownAfter Lit.lit trail earlier) visit = .ok (true, after) → KeptOutputs.Vouched Lit.lit trail visit) ∧
      (Whole Lit.lit trail visit → (visit.tip = true → (∀ other ∈ visit :: earlier, ∀ row ∈ other.rows.outputs,
          row.position.atMost visit.position = true) ∧ visit.rows.demandPast visit.position = false) →
        ∃ after, keptOutputsHold Lit.lit trail (knownAfter Lit.lit trail earlier) visit = .ok (true, after)) :=
  ⟨fun _ run => vouched_of_holds rfl steady run, holds_of_whole rfl steady⟩

end Lit

section Samples

local instance outputsCrypto : Crypto := sampleCrypto

local instance outputsKeys : PublicKeys := ⟨fun key => key = Lit.sampleOwner⟩

open KeptOutputs

/-- An issue's trail, and the commitment of the note it creates. -/
def sampleOutputTrail : Option (List Bytes) := some [Lit.writeRecord Lit.sampleIssued]

def sampleCommitment : Nat := (Lit.created Lit.sampleIssued none).headD 0

/-- A namespace of one output row. -/
def sampleOutputRows (row : OutputRow) : KeptRows := ⟨1, [row], [], [], [], [], .nil⟩

def sampleVisit (row : OutputRow) (position : Nat) : Visit := ⟨sampleOutputRows row, position, false, fun _ => none⟩

/-- The issue's row as its replay writes it. -/
def sampleIssuedRow : OutputRow := ⟨some sampleCommitment, .integer 1, .integer 0, false⟩

/-- The same row at another leaf, of a settlement. -/
def sampleMovedRow : OutputRow := ⟨some sampleCommitment, .integer 1, .integer 5, true⟩

/-- A check that returned held as its value says. -/
theorem holds_of_map {held : Bool} {run : Except Failure (Bool × Option KnownOutputs)} (value : run.map Prod.fst = .ok held) :
    ∃ after, run = .ok (held, after) := by
  cases run with
  | error failure => cases value
  | ok result => exact ⟨result.2, congrArg Except.ok (Prod.ext (Except.ok.inj value) rfl)⟩

theorem keptOutputs_vouched_sample : (∃ after, keptOutputsHold Lit.lit sampleOutputTrail
      (knownAfter Lit.lit sampleOutputTrail [sampleVisit sampleIssuedRow 0]) (sampleVisit sampleIssuedRow 1) = .ok (true, after)) ∧
    KeptOutputs.Vouched Lit.lit sampleOutputTrail (sampleVisit sampleIssuedRow 1) := by
  have run : (keptOutputsHold Lit.lit sampleOutputTrail (knownAfter Lit.lit sampleOutputTrail [sampleVisit sampleIssuedRow 0])
      (sampleVisit sampleIssuedRow 1)).map Prod.fst = .ok true := by decide +kernel
  obtain ⟨after, held⟩ := holds_of_map run
  have steady : Steady Lit.lit sampleOutputTrail [sampleVisit sampleIssuedRow 1, sampleVisit sampleIssuedRow 0] :=
    ⟨fun _ _ => ⟨rfl, rfl, rfl, fun _ _ _ => rfl⟩, trivial⟩
  exact ⟨⟨after, held⟩, (keptOutputs_vouched steady).1 after held⟩

/-- A check holds of the issue's row at whatever leaf, of a settlement or not, and of a row added at a position already known. -/
theorem keptOutputs_unread : sampleIssuedRow ≠ sampleMovedRow ∧
    (∀ row ∈ [sampleIssuedRow, sampleMovedRow], ∃ after,
      keptOutputsHold Lit.lit sampleOutputTrail none { sampleVisit row 1 with tip := true } = .ok (true, after)) ∧
    (∃ after, keptOutputsHold Lit.lit (some []) (knownAfter Lit.lit (some []) [⟨⟨1, [], [], [], [], [], .nil⟩, 0, false, fun _ => none⟩])
      (sampleVisit ⟨some 7, .integer 0, .integer 0, false⟩ 0) = .ok (true, after)) ∧
    ¬ KeptOutputs.Vouched Lit.lit (some []) (sampleVisit ⟨some 7, .integer 0, .integer 0, false⟩ 0) := by
  refine ⟨by decide +kernel, fun row member => ?_, holds_of_map (by decide +kernel), ?_⟩
  · rcases List.mem_cons.mp member with rfl | second
    · exact holds_of_map (by decide +kernel)
    · obtain rfl := List.mem_singleton.mp second
      exact holds_of_map (by decide +kernel)
  · rintro ⟨records, d, same, -, derived, are⟩
    cases same
    cases derived
    have none_ := are.outputs 0 (Int.le_refl 0)
    cases none_

end Samples

end Moe
