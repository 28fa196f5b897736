import Moe.Pool.Forced

namespace Moe

variable {R : Type}

/-- An event held at a position is the same in a store that has grown. -/
theorem Store.Grows.event {s later : Store} (grows : s.Grows later) {ns p : Nat} (held : s.Holds ⟨ns, p⟩) :
    later.event ns p = s.event ns p := by
  obtain ⟨n, found, bound⟩ := held
  obtain ⟨n', found', grown⟩ := grows _ _ found
  obtain ⟨added, rows, after⟩ := grown.rows
  have none_added : added.events.find? (·.position = p) = none := by
    refine List.find?_eq_none.mpr fun event member => ?_
    have past : n.position < event.position := @Rows.table_place _ _ _ (fun _ q => n.position < q) after _ member
    have bound : p ≤ n.position := bound
    simp only [decide_eq_true_eq]
    omega
  simp only [Store.event, found, found', Option.bind_some, Namespace.event, rows, Rows.events_append, List.find?_append,
    none_added, Option.none_or]

/-- A visible row is held where it was written. -/
theorem Store.WellPlaced.visible_holds {s : Store} (placed : s.WellPlaced) {ns p : Nat} (held : s.Holds ⟨ns, p⟩)
    {row : Placed Fact} (member : row ∈ s.visible ns p) : s.Holds ⟨row.ns, row.position⟩ := by
  obtain ⟨n, found, source, -⟩ := (placed.mem_visible held).mp member
  exact ⟨n, found, (placed.rows _ n found row source).2⟩

/-- A settlement read from the same output row names the same demand, in whichever store has grown since. -/
theorem StateHandle.settledFor_congr {s later : Store} {h h' : StateHandle R} {cm : Nat} (grows : s.Grows later)
    (placed : s.WellPlaced) (held : s.Holds ⟨h.ns, h.position s⟩) (construction : h'.construction = h.construction)
    (output : (h'.rows later).output cm = (h.rows s).output cm) : h'.settledFor later cm = h.settledFor s cm := by
  rw [StateHandle.settledFor, StateHandle.settledFor, output, construction]
  cases seen : (h.rows s).output cm with
  | none => rfl
  | some stored =>
    obtain ⟨fact, -, inside⟩ := Rows.mem_table.mp (List.mem_of_find?_eq_some seen)
    have event : later.event stored.ns stored.position = s.event stored.ns stored.position :=
      grows.event (placed.visible_holds held inside)
    simp only [event]

/-! A state's answers, read over newer rows. -/
namespace Rows

theorem hasNullifier_eq (rows : Rows) (nf : Nat) : rows.hasNullifier nf = decide (nf ∈ rows.nullifiers.map (·.row.nf)) := by
  rw [Bool.eq_iff_iff]
  simp [hasNullifier]

theorem hasOutput_eq (rows : Rows) (cm : Nat) : rows.hasOutput cm = decide (cm ∈ rows.outputs.map (·.row.cm)) := by
  rw [Bool.eq_iff_iff]
  simp [hasOutput]

theorem hasAnchor_eq (rows : Rows) (root : Nat) : rows.hasAnchor root = decide (root ∈ rows.anchors.map (·.row)) := by
  rw [Bool.eq_iff_iff]
  simp [hasAnchor]

theorem hasSpentTag_eq (rows : Rows) (tag : Nat) : rows.hasSpentTag tag = decide (tag ∈ rows.nullifiers.map (·.row.tag)) := by
  rw [Bool.eq_iff_iff]
  simp [hasSpentTag]

theorem hasNullifier_append (a b : Rows) (nf : Nat) : (a ++ b).hasNullifier nf = (a.hasNullifier nf || b.hasNullifier nf) := by
  simp [hasNullifier]

theorem hasOutput_append (a b : Rows) (cm : Nat) : (a ++ b).hasOutput cm = (a.hasOutput cm || b.hasOutput cm) := by
  simp [hasOutput]

theorem hasAnchor_append (a b : Rows) (root : Nat) : (a ++ b).hasAnchor root = (a.hasAnchor root || b.hasAnchor root) := by
  simp [hasAnchor]

theorem hasSpentTag_append (a b : Rows) (tag : Nat) : (a ++ b).hasSpentTag tag = (a.hasSpentTag tag || b.hasSpentTag tag) := by
  simp [hasSpentTag]

theorem isEffective_append (a b : Rows) (id : Bytes) : (a ++ b).isEffective id = (a.isEffective id || b.isEffective id) := by
  simp [isEffective]

theorem isEnded_append (a b : Rows) (id : Bytes) : (a ++ b).isEnded id = (a.isEnded id || b.isEnded id) := by
  simp [isEnded]

/-- A demand is read where it has not ended. -/
theorem demand_eq (rows : Rows) (id : Bytes) : rows.demand id =
    if rows.isEnded id then none else (rows.demands.find? (·.row.id = id)).map (·.row.demand) := by
  cases ended : rows.isEnded id with
  | true =>
    have none : rows.demands.find? (fun held => held.row.id = id && !rows.isEnded held.row.id) = none := by
      refine List.find?_eq_none.mpr fun held _ matched => ?_
      simp only [Bool.and_eq_true, decide_eq_true_eq, Bool.not_eq_true'] at matched
      obtain ⟨rfl, standing⟩ := matched
      rw [ended] at standing
      cases standing
    simp [demand, none]
  | false =>
    have same : (fun held : Placed StoredDemand => decide (held.row.id = id) && !rows.isEnded held.row.id) =
        fun held => decide (held.row.id = id) := by
      funext held
      by_cases named : held.row.id = id <;> simp [named, ended]
    simp [demand, same]

theorem mem_demandsWithTag {rows : Rows} {tag : Nat} {entry : Bytes × Demand} : entry ∈ rows.demandsWithTag tag ↔
    ∃ held ∈ rows.demands, tag ∈ held.row.tags ∧ rows.isEnded held.row.id = false ∧ (held.row.id, held.row.demand) = entry := by
  simp only [demandsWithTag, List.mem_map, List.mem_filter, decide_eq_true_eq, Bool.not_eq_true', and_assoc]

theorem mem_presentedWithTag {rows : Rows} {tag : Nat} {entry : Bytes × Demand} : entry ∈ rows.presentedWithTag tag ↔
    ∃ held ∈ rows.demands, tag ∈ held.row.tags ∧ (held.row.id, held.row.demand) = entry := by
  simp only [presentedWithTag, List.mem_map, List.mem_filter, decide_eq_true_eq, and_assoc]

end Rows

@[simp] theorem StoredDemand.of_id (id : Bytes) (demand : Demand) : (StoredDemand.of id demand).id = id := rfl

/-- A demand read by its identity is of an effective statement. -/
theorem Store.Stood.effective {s : Store} (stood : s.Stood) (placed : s.WellPlaced) {ns p : Nat} (held : s.Holds ⟨ns, p⟩)
    {id : Bytes} {demand : Demand} (read : (s.visible ns p).demand id = some demand) :
    (s.visible ns p).isEffective id = true := by
  obtain ⟨row, member, rfl, -, -⟩ := Rows.demand_eq_some read
  obtain ⟨-, event, recorded, identity, kind⟩ := stood.visible placed held member
  exact List.any_eq_true.mpr ⟨event, recorded, by simp [identity, kind]⟩

variable [Crypto]

section Moved

variable {s later : Store} {state : SegmentState R} {bytes : Bytes} {replay : SegmentReplay} {record : R} {n : Namespace}
  {effects : Append} {spent : SpentSet} {demand : Option StoredDemand}

theorem Applied.isEnded (applied : Applied s state bytes replay record n effects spent demand later) (placed : s.WellPlaced)
    (id : Bytes) : (state.handle.rows later).isEnded id =
      (decide ((judgedView s state record).ended = some id) || (state.handle.rows s).isEnded id) := by
  rw [applied.rows placed, Rows.isEnded_append]
  congr 1
  have ended : effects.ended = (judgedView s state record).ended := applied.carries.ended
  cases none : (judgedView s state record).ended <;> simp [Rows.isEnded, ended, none]

theorem Applied.demands (applied : Applied s state bytes replay record n effects spent demand later) (placed : s.WellPlaced)
    (stood : s.Stood) : (state.handle.rows later).demands =
      ((judgedView s state record).demand.toList.map fun stands =>
        ⟨state.ns, n.position + 1, StoredDemand.of stands.1 stands.2⟩) ++ (state.handle.rows s).demands := by
  rw [applied.rows placed, Rows.demands_append, Namespace.added_demands, applied.stored placed stood]
  cases (judgedView s state record).demand <;> rfl

theorem Applied.isEffective (applied : Applied s state bytes replay record n effects spent demand later)
    (placed : s.WellPlaced) (recovery : 4 ≤ (judgedView s state record).kind) (id : Bytes) :
    (state.handle.rows later).isEffective id =
      (decide (id = (judgedView s state record).identity) || (state.handle.rows s).isEffective id) := by
  have carries := applied.carries
  have identity : effects.identity = (judgedView s state record).identity := carries.identity
  have kind : effects.kind = (judgedView s state record).kind := carries.kind
  rw [applied.rows placed, Rows.isEffective_append]
  congr 1
  simp [Rows.isEffective, Namespace.eventOf, identity, kind, recovery, eq_comm]

/-- An output of a settlement is read with the demand it settled; every other output reads as it read. -/
theorem Applied.settledFor (applied : Applied s state bytes replay record n effects spent demand later)
    (placed : s.WellPlaced) (cm : Nat) : state.handle.settledFor later cm =
      if cm ∈ (judgedView s state record).outputs then
        if (judgedView s state record).kind = 6 then (judgedView s state record).ended else none
      else state.handle.settledFor s cm := by
  have rows := applied.rows placed
  have tip : s.Holds ⟨state.handle.ns, state.handle.position s⟩ :=
    ⟨n, applied.found, (SegmentState.position applied.found).le⟩
  have outputs : (state.handle.rows later).outputs =
      (n.outputRows effects.outputs).map (⟨state.ns, n.position + 1, ·⟩) ++ (state.handle.rows s).outputs := by
    rw [rows, Rows.outputs_append, Namespace.added_outputs]
  have created : effects.outputs.map (·.cm) = (judgedView s state record).outputs := applied.carries.outputs
  by_cases own : cm ∈ (judgedView s state record).outputs
  · rw [if_pos own]
    have listed : ((n.outputRows effects.outputs).find? (·.cm = cm)).isSome = true := by
      rw [← created, ← n.outputRows_cms] at own
      obtain ⟨row, member, named⟩ := List.mem_map.mp own
      exact List.find?_isSome.mpr ⟨row, member, by simpa using named⟩
    obtain ⟨row, seen⟩ := Option.isSome_iff_exists.mp listed
    have found : (state.handle.rows later).output cm = some ⟨state.ns, n.position + 1, row⟩ := by
      rw [Rows.output, outputs, List.find?_append, List.find?_map]
      simp [seen]
    have settles : row.settlement = decide ((judgedView s state record).kind = 6) := by
      obtain ⟨⟨output, i⟩, inside, rfl⟩ := List.mem_map.mp (List.mem_of_find?_eq_some seen)
      exact applied.carries.settlements output (List.fst_mem_of_mem_zipIdx inside)
    have event : later.event state.ns (n.position + 1) = some (n.eventOf effects spent) := by
      rw [applied.later, Store.event, Store.put_self]
      simp [Namespace.event, Namespace.written]
    have kind : effects.kind = (judgedView s state record).kind := applied.carries.kind
    have bytesOf : effects.record = bytes := applied.carries.record
    simp only [StateHandle.settledFor, found, settles, decide_eq_true_eq]
    by_cases six : (judgedView s state record).kind = 6
    · have decoded := decodeJudged_eq_ok.mp applied.decoded
      rw [if_pos six, if_pos six, event, Option.bind_some, Namespace.eventOf, kind, if_pos six, Option.bind_some, bytesOf]
      exact state.construction.settled_ended bytes record _ decoded (applied.kind.symm.trans six)
    · rw [if_neg six, if_neg six]
  · rw [if_neg own]
    refine StateHandle.settledFor_congr applied.grows placed tip rfl ?_
    have none : (n.outputRows effects.outputs).find? (·.cm = cm) = none := by
      refine List.find?_eq_none.mpr fun row member named => own ?_
      rw [← created, ← n.outputRows_cms]
      exact List.mem_map.mpr ⟨row, member, by simpa using named⟩
    rw [Rows.output, Rows.output, outputs, List.find?_append, List.find?_map]
    simp [none]

/-- A record that fits its state moves the segment's answers as its statement does. -/
theorem Applied.moved (applied : Applied s state bytes replay record n effects spent demand later) (placed : s.WellPlaced)
    (stood : s.Stood) (presented : ∀ id, (state.handle.rows s).isEnded id = true → (state.handle.rows s).isEffective id = true)
    (fits : (judgedView s state record).Fits (state.handle.view s)) :
    (state.handle.view s).Moved (state.handle.view later) (judgedView s state record) := by
  have recovery : 4 ≤ (judgedView s state record).kind := by
    rcases fits.cases with ⟨_, four, _⟩ | ⟨_, _, -, -, -, ⟨five, _⟩ | ⟨six, _⟩⟩ <;> omega
  have rows := applied.rows placed
  have ended := applied.isEnded placed
  have demands := applied.demands placed stood
  have unended : (state.handle.rows s).isEnded (judgedView s state record).identity = false := by
    by_contra was
    have effective := presented _ (by simpa using was)
    exact Bool.noConfusion (effective.symm.trans fits.fresh)
  refine ⟨fun nf => ?_, fun cm => ?_, fun tag => ?_, applied.isEffective placed recovery, fun id => ?_, fun tag entry => ?_,
    fun tag entry => ?_, fun cm => ?_⟩
  · show (state.handle.rows later).hasNullifier nf = _
    rw [rows, Rows.hasNullifier_append, ← applied.nfs, Rows.hasNullifier_eq, Namespace.added_nullifiers, List.map_map]
    rfl
  · show (state.handle.rows later).hasOutput cm = _
    have created : effects.outputs.map (·.cm) = (judgedView s state record).outputs := applied.carries.outputs
    rw [rows, Rows.hasOutput_append, ← created, ← n.outputRows_cms, Rows.hasOutput_eq, Namespace.added_outputs, List.map_map]
    rfl
  · show (state.handle.rows later).hasSpentTag tag = _
    rw [rows, Rows.hasSpentTag_append, ← applied.tags, Rows.hasSpentTag_eq, Namespace.added_nullifiers, List.map_map]
    rfl
  · show (state.handle.rows later).demand id = _
    have read : (state.handle.view s).demand id = (state.handle.rows s).demand id := rfl
    rw [read, Rows.demand_eq, Rows.demand_eq, ended, demands]
    rcases fits.cases with ⟨value, -, stands, none, -, -, standable⟩ | ⟨other, value, none, ends, -, -⟩
    · rw [stands, none]
      by_cases own : (judgedView s state record).identity = id
      · subst own
        simp [unended, Option.filter_some, StoredDemand.of_demand standable]
      · simp [own, Option.filter_some]
    · rw [none, ends]
      by_cases own : other = id <;> simp [own]
  · show entry ∈ (state.handle.rows later).demandsWithTag tag ↔ (entry ∈ (state.handle.rows s).demandsWithTag tag ∨ _) ∧ _
    rw [Rows.mem_demandsWithTag, Rows.mem_demandsWithTag, demands]
    simp only [ended, Bool.or_eq_false_iff, decide_eq_false_iff_not]
    rcases fits.cases with ⟨value, -, stands, none, -, -, standable⟩ | ⟨other, value, none, ends, -, -⟩
    · rw [stands, none]
      constructor
      · rintro ⟨held, member, named, ⟨-, standing⟩, rfl⟩
        refine ⟨?_, (Option.some_ne_none _).symm⟩
        rcases List.mem_append.mp member with new | old
        · obtain rfl := List.mem_singleton.mp new
          rw [StoredDemand.of_demand standable]
          exact .inr ⟨rfl, named⟩
        · exact .inl ⟨held, old, named, standing, rfl⟩
      · rintro ⟨⟨held, old, named, standing, rfl⟩ | ⟨same, named⟩, -⟩
        · exact ⟨held, List.mem_append_right _ old, named, ⟨(Option.some_ne_none _).symm, standing⟩, rfl⟩
        · cases same
          refine ⟨_, List.mem_append_left _ (List.mem_singleton.mpr rfl), named, ⟨(Option.some_ne_none _).symm, unended⟩, ?_⟩
          rw [StoredDemand.of_demand standable]
          rfl
    · rw [none, ends]
      constructor
      · rintro ⟨held, member, named, ⟨apart, standing⟩, rfl⟩
        exact ⟨.inl ⟨held, member, named, standing, rfl⟩, apart⟩
      · rintro ⟨⟨held, member, named, standing, rfl⟩ | ⟨same, -⟩, apart⟩
        · exact ⟨held, member, named, ⟨apart, standing⟩, rfl⟩
        · cases same
  · show entry ∈ (state.handle.rows later).presentedWithTag tag ↔ entry ∈ (state.handle.rows s).presentedWithTag tag ∨ _
    rw [Rows.mem_presentedWithTag, Rows.mem_presentedWithTag, demands]
    rcases fits.cases with ⟨value, -, stands, -, -, -, standable⟩ | ⟨other, value, none, -⟩
    · rw [stands]
      constructor
      · rintro ⟨held, member, named, rfl⟩
        rcases List.mem_append.mp member with new | old
        · obtain rfl := List.mem_singleton.mp new
          rw [StoredDemand.of_demand standable]
          exact .inr ⟨rfl, named⟩
        · exact .inl ⟨held, old, named, rfl⟩
      · rintro (⟨held, old, named, rfl⟩ | ⟨same, named⟩)
        · exact ⟨held, List.mem_append_right _ old, named, rfl⟩
        · cases same
          refine ⟨_, List.mem_append_left _ (List.mem_singleton.mpr rfl), named, ?_⟩
          rw [StoredDemand.of_demand standable]
          rfl
    · rw [none]
      simp
  · show state.handle.settledFor later cm = if _ then _ else state.handle.settledFor s cm
    rw [applied.settledFor placed]
    rcases fits.cases with ⟨_, four, -, -, -, barren, -⟩ | ⟨_, _, -, -, -, ⟨five, -, barren⟩ | ⟨six, -⟩⟩
    · simp [barren]
    · simp [barren]
    · simp [six]

/-- Where every demand shown ended was shown presented, it still is. -/
theorem Applied.presented (applied : Applied s state bytes replay record n effects spent demand later) (placed : s.WellPlaced)
    (stood : s.Stood) (presented : ∀ id, (state.handle.rows s).isEnded id = true → (state.handle.rows s).isEffective id = true)
    (fits : (judgedView s state record).Fits (state.handle.view s)) {id : Bytes}
    (ends : (state.handle.rows later).isEnded id = true) : (state.handle.rows later).isEffective id = true := by
  have moved := applied.moved placed stood presented fits
  have effective : (state.handle.rows later).isEffective id = _ := moved.isEffective id
  rw [applied.isEnded placed, Bool.or_eq_true, decide_eq_true_eq] at ends
  have was : (state.handle.rows s).isEffective id = true := by
    rcases ends with own | old
    · rcases fits.cases with ⟨_, -, -, none, -⟩ | ⟨_, _, -, named, read, -⟩
      · cases own.symm.trans none
      · obtain rfl := Option.some.inj (own.symm.trans named)
        have read : (state.handle.rows s).demand id = some _ := read
        rw [SegmentState.rows applied.found] at read ⊢
        exact stood.effective placed ⟨n, applied.found, le_rfl⟩ read
    · exact presented id old
  rw [effective]
  exact Bool.or_eq_true_iff.mpr (.inr was)

end Moved

end Moe
