import Moe.Pool.Frontiers

namespace Moe

theorem Fact.told_demand {fact : Fact} {row : StoredDemand} : fact.told = some (.demand row) ↔ fact = .demand row := by
  cases fact <;> simp [told]

theorem Fact.told_demandEnd {fact : Fact} {id : Bytes} : fact.told = some (.demandEnd id) ↔ fact = .demandEnd id := by
  cases fact <;> simp [told]

namespace Rows

/-- A fact some rows tell, at whatever position. -/
def Tells (rows : Rows) (fact : Fact) : Prop := ∃ q, (q, fact) ∈ rows.told

theorem tells_demand {rows : Rows} {row : StoredDemand} : rows.Tells (.demand row) ↔ ∃ placed ∈ rows.demands, placed.row = row := by
  simp only [Tells, mem_told, Fact.told_demand]
  constructor
  · rintro ⟨q, placed, member, rfl, same⟩
    exact ⟨⟨placed.ns, placed.position, row⟩, mem_table.mpr ⟨placed.row, by rw [same], member⟩, rfl⟩
  · rintro ⟨placed, member, rfl⟩
    obtain ⟨fact, picked, inside⟩ := mem_table.mp member
    refine ⟨placed.position, _, inside, rfl, ?_⟩
    cases fact with
    | demand row => exact congrArg Fact.demand (Option.some.inj picked)
    | _ => cases picked

theorem tells_demandEnd {rows : Rows} {id : Bytes} : rows.Tells (.demandEnd id) ↔ rows.isEnded id = true := by
  simp only [Tells, mem_told, Fact.told_demandEnd, isEnded, List.any_eq_true, decide_eq_true_eq]
  constructor
  · rintro ⟨q, placed, member, rfl, same⟩
    exact ⟨⟨placed.ns, placed.position, id⟩, mem_table.mpr ⟨placed.row, by rw [same], member⟩, rfl⟩
  · rintro ⟨placed, member, rfl⟩
    obtain ⟨fact, picked, inside⟩ := mem_table.mp member
    refine ⟨placed.position, _, inside, rfl, ?_⟩
    cases fact with
    | demandEnd id => exact congrArg Fact.demandEnd (Option.some.inj picked)
    | _ => cases picked

/-- Where a demand's identity names one row, what rows tell fixes the demands they show. -/
theorem demand_of_tells {a b : Rows} (same : ∀ fact, a.Tells fact ↔ b.Tells fact)
    (single : ∀ first second, a.Tells (.demand first) → a.Tells (.demand second) → first.id = second.id → first = second) :
    a.demand = b.demand := by
  funext id
  have ended : a.isEnded id = b.isEnded id := by
    rw [Bool.eq_iff_iff, ← tells_demandEnd, ← tells_demandEnd]
    exact same _
  have half : ∀ {a b : Rows}, (∀ fact, a.Tells fact ↔ b.Tells fact) → a.isEnded id = b.isEnded id →
      (∀ first second, a.Tells (.demand first) → a.Tells (.demand second) → first.id = second.id → first = second) →
      ∀ demand, a.demand id = some demand → b.demand id = some demand := by
    intro a b same ended single demand read
    obtain ⟨held, member, rfl, rfl, standing⟩ := demand_eq_some read
    obtain ⟨other, member', row⟩ := tells_demand.mp ((same _).mp (tells_demand.mpr ⟨held, member, rfl⟩))
    have some_ : (b.demands.find? fun placed => placed.row.id = held.row.id && !b.isEnded placed.row.id).isSome = true := by
      refine List.find?_isSome.mpr ⟨other, member', ?_⟩
      rw [row, ← ended, standing]
      simp
    obtain ⟨found, seen⟩ := Option.isSome_iff_exists.mp some_
    have matched := List.find?_some seen
    simp only [Bool.and_eq_true, decide_eq_true_eq] at matched
    have inside : a.Tells (.demand found.row) := (same _).mpr (tells_demand.mpr ⟨found, List.mem_of_find?_eq_some seen, rfl⟩)
    have equal := single _ _ inside (tells_demand.mpr ⟨held, member, rfl⟩) matched.1
    simp only [Rows.demand, seen, Option.map_some, equal]
  cases read : a.demand id with
  | some demand => exact (half same ended single demand read).symm
  | none =>
    cases other : b.demand id with
    | none => rfl
    | some demand =>
      have single' : ∀ first second, b.Tells (.demand first) → b.Tells (.demand second) → first.id = second.id → first = second :=
        fun first second one two => single first second ((same _).mpr one) ((same _).mpr two)
      rw [half (fun fact => (same fact).symm) ended.symm single' demand other] at read
      cases read

end Rows

section Copies

variable {names : Preimages} {s : Store}

/-- A stored demand is the one its identity's statement stands. -/
theorem Store.Known.demand (known : s.Known names) (placed : s.WellPlaced) {ns : Nat} {n : Namespace} (found : s.namespaces ns = some n)
    {row : StoredDemand} (told : n.rows.Tells (.demand row)) :
    ∃ value, (names.stated row.id fun _ => none).demand = some (row.id, value) ∧ row = StoredDemand.of row.id value := by
  obtain ⟨q, member⟩ := told
  obtain ⟨source, inside, position, tells⟩ := Rows.mem_told.mp member
  have own := known ns n found
  rcases Nat.eq_zero_or_pos q with rfl | positive
  · rw [own.zero source inside position] at tells
    cases tells
  · obtain ⟨p, rfl⟩ : ∃ p, q = p + 1 := ⟨q - 1, by omega⟩
    have bound := (placed.rows ns n found source inside).2
    obtain ⟨history, event⟩ := own.tells p (by omega)
    have listed : (p + 1, Fact.demand row) ∈ (n.rows.at_ (p + 1)).told :=
      Rows.mem_told.mpr ⟨source, List.mem_filter.mpr ⟨inside, by simpa using position⟩, position, tells⟩
    rw [event.rows] at listed
    obtain ⟨fact, fact_, same⟩ := List.mem_map.mp listed
    obtain rfl : fact = .demand row := congrArg Prod.snd same
    simp only [Stated.facts, List.mem_append, List.mem_cons, List.mem_map, reduceCtorEq, false_or, and_false, exists_false, or_false,
      Option.mem_toList, Prod.exists, Fact.demand.injEq] at fact_
    obtain ⟨id, value, stands, rfl⟩ := fact_
    have same := event.own _ stands
    simp only at same
    subst same
    refine ⟨value, ?_, rfl⟩
    have again := names.stands (names.link history).identity (fun _ => none) (s.visible ns p).demand
    exact again.trans stands

/-- Entries a segment's copies import under one name: read as far, in one history. -/
theorem Store.base_eq {t : Store} {a b : OrderedMap Bytes ImportEntry} {name : Bytes} (same : s.base a name = t.base b name)
    {entry : ImportEntry} (found : OrderedMap.get? a name = some entry) :
    ∃ other, OrderedMap.get? b name = some other ∧ other.upto = entry.upto ∧ s.historyAt ⟨entry.ns, entry.upto⟩ = t.historyAt ⟨other.ns, entry.upto⟩ := by
  simp only [Store.base, found, Option.map_some] at same
  obtain ⟨other, found', equal⟩ := Option.map_eq_some_iff.mp same.symm
  obtain ⟨upto, history⟩ := Prod.mk.inj equal
  exact ⟨other, found', upto, by rw [← upto]; rw [upto]; exact history.symm.trans (by rw [← upto])⟩

/-- What is visible at a held position is told by its own rows and those it imports. -/
theorem Store.visible_tells {ns p : Nat} {n : Namespace} (found : s.namespaces ns = some n) {fact : Fact} :
    (s.visible ns p).Tells fact ↔ (n.rows.through p).Tells fact ∨
      ∃ name entry, (name, entry) ∈ n.imports ∧ ((s.rows entry.ns).through entry.upto).Tells fact := by
  simp only [Rows.Tells, Rows.mem_told, Store.visible, Store.union_cons, Store.rows_of_found found, List.mem_append]
  constructor
  · rintro ⟨q, placed, own | imported, rfl, told⟩
    · exact .inl ⟨_, placed, own, rfl, told⟩
    · obtain ⟨entry, listed, inside⟩ := List.mem_flatMap.mp imported
      obtain ⟨⟨name, entry⟩, member, rfl⟩ := List.mem_map.mp listed
      exact .inr ⟨name, entry, (Store.imports_perm found).mem_iff.mp member, _, placed, inside, rfl, told⟩
  · rintro (⟨q, placed, own, rfl, told⟩ | ⟨name, entry, member, q, placed, inside, rfl, told⟩)
    · exact ⟨_, placed, .inl own, rfl, told⟩
    · refine ⟨_, placed, .inr (List.mem_flatMap.mpr ⟨entry, ?_, inside⟩), rfl, told⟩
      exact List.mem_map.mpr ⟨_, (Store.imports_perm found).mem_iff.mpr member, rfl⟩

theorem Rows.Tells.of_through {rows : Rows} {p : Nat} {fact : Fact} (told : (rows.through p).Tells fact) : rows.Tells fact := by
  obtain ⟨q, member⟩ := told
  obtain ⟨placed, inside, position, tells⟩ := Rows.mem_told.mp member
  exact ⟨q, Rows.mem_told.mpr ⟨placed, (Rows.mem_through.mp inside).1, position, tells⟩⟩

/-- A visible demand's row is its identity's. -/
theorem Store.Known.visible_demand (known : s.Known names) (placed : s.WellPlaced) {ns p : Nat} {n : Namespace}
    (found : s.namespaces ns = some n) {first second : StoredDemand} (one : (s.visible ns p).Tells (.demand first))
    (two : (s.visible ns p).Tells (.demand second)) (id : first.id = second.id) : first = second := by
  have stood : ∀ row, (s.visible ns p).Tells (.demand row) →
      ∃ value, (names.stated row.id fun _ => none).demand = some (row.id, value) ∧ row = StoredDemand.of row.id value := by
    intro row told
    rcases (Store.visible_tells found).mp told with own | ⟨name, entry, member, told⟩
    · exact known.demand placed found own.of_through
    · obtain ⟨-, m, foundM, -⟩ := placed.imports ns n found _ member
      rw [Store.rows_of_found foundM] at told
      exact known.demand placed foundM told.of_through
  obtain ⟨value, stated, same⟩ := stood first one
  obtain ⟨value', stated', same'⟩ := stood second two
  rw [← id, stated] at stated'
  obtain rfl : value = value' := congrArg Prod.snd (Option.some.inj stated')
  rw [same, same', id]

/-- What the rows visible at a position of two stores tell is the same, where their own rows and those they import tell the same. -/
theorem Store.Known.demand_across (known : s.Known names) (placed : s.WellPlaced) {t : Store} (known' : t.Known names) (placed' : t.WellPlaced)
    {ns ns' p : Nat} {n n' : Namespace} (found : s.namespaces ns = some n) (found' : t.namespaces ns' = some n') (segment : n.segment = n'.segment)
    (own : (Rows.through p n.rows).told = (Rows.through p n'.rows).told)
    (imported : ∀ name entry entry', OrderedMap.get? n.imports name = some entry → OrderedMap.get? n'.imports name = some entry' →
      entry'.upto = entry.upto → s.historyAt ⟨entry.ns, entry.upto⟩ = t.historyAt ⟨entry'.ns, entry.upto⟩ →
      ((s.rows entry.ns).through entry.upto).told = ((t.rows entry'.ns).through entry'.upto).told) :
    (s.visible ns p).demand = (t.visible ns' p).demand := by
  have based := (known ns n found).based
  have based' := (known' ns' n' found').based
  have visible : ∀ fact, (s.visible ns p).Tells fact ↔ (t.visible ns' p).Tells fact := by
    intro fact
    rw [Store.visible_tells found, Store.visible_tells found', Rows.Tells, own]
    refine or_congr Iff.rfl ⟨?_, ?_⟩
    · rintro ⟨name, entry, member, q, told⟩
      have at_ := OrderedMap.get?_of_mem (placed.segments ns n found) member
      obtain ⟨entry', at_', upto, history⟩ := Store.base_eq ((based name).trans (segment ▸ (based' name).symm)) at_
      exact ⟨name, entry', OrderedMap.mem_of_get? at_', q, imported name entry entry' at_ at_' upto history ▸ told⟩
    · rintro ⟨name, entry', member, q, told⟩
      have at_' := OrderedMap.get?_of_mem (placed'.segments ns' n' found') member
      obtain ⟨entry, at_, upto, history⟩ := Store.base_eq ((based' name).trans (segment ▸ (based name).symm)) at_'
      refine ⟨name, entry, OrderedMap.mem_of_get? at_, q, ?_⟩
      rw [imported name entry entry' at_ at_' upto.symm (upto ▸ history.symm)]
      exact told
  exact Rows.demand_of_tells visible fun first second one two id => known.visible_demand placed found one two id

/-- A segment's copies in two stores that end in one history tell the same throughout, and so do the segments they import. -/
theorem Store.Known.copies_across (known : s.Known names) (placed : s.WellPlaced) {t : Store} (known' : t.Known names) (placed' : t.WellPlaced)
    (ns : Nat) : ∀ (ns' : Nat) (n n' : Namespace), s.namespaces ns = some n → t.namespaces ns' = some n' → n.segment = n'.segment →
      ∀ p, p ≤ n.position → p ≤ n'.position → (0 < p → s.historyAt ⟨ns, p⟩ = t.historyAt ⟨ns', p⟩) →
        (Rows.through p n.rows).told = (Rows.through p n'.rows).told ∧ (s.visible ns p).demand = (t.visible ns' p).demand := by
  induction ns using Nat.strongRecOn with
  | ind ns earlier =>
    intro ns' n n' found found' segment p
    have own := known ns n found
    have own' := known' ns' n' found'
    have opening : ∀ {m : Namespace} {r : Store} {other : Nat}, m.Known names r other → (Rows.through 0 m.rows).told = [] := by
      intro m r other own
      refine List.filterMap_eq_nil_iff.mpr fun row member => ?_
      obtain ⟨inside, within⟩ := Rows.mem_through.mp member
      rw [own.zero row inside (Nat.le_zero.mp within)]
      rfl
    have imported : ∀ name entry entry', OrderedMap.get? n.imports name = some entry → OrderedMap.get? n'.imports name = some entry' →
        entry'.upto = entry.upto → s.historyAt ⟨entry.ns, entry.upto⟩ = t.historyAt ⟨entry'.ns, entry.upto⟩ →
        ((s.rows entry.ns).through entry.upto).told = ((t.rows entry'.ns).through entry'.upto).told := by
      intro name entry entry' at_ at_' upto history
      obtain ⟨less, m, foundM, bound⟩ := placed.imports ns n found _ (OrderedMap.mem_of_get? at_)
      obtain ⟨-, m', foundM', bound'⟩ := placed'.imports ns' n' found' _ (OrderedMap.mem_of_get? at_')
      have namedM : s.segment entry.ns = name := own.named _ (OrderedMap.mem_of_get? at_)
      have namedM' : t.segment entry'.ns = name := own'.named _ (OrderedMap.mem_of_get? at_')
      simp only [Store.segment, foundM, foundM', Option.map_some, Option.getD_some] at namedM namedM'
      rw [Store.rows_of_found foundM, Store.rows_of_found foundM', upto]
      exact (earlier _ less _ _ _ foundM foundM' (namedM.trans namedM'.symm) _ bound (upto ▸ bound') fun _ => history).1
    have demandOf : ∀ p, (Rows.through p n.rows).told = (Rows.through p n'.rows).told → (s.visible ns p).demand = (t.visible ns' p).demand :=
      fun p told => known.demand_across placed known' placed' found found' segment told imported
    suffices told : p ≤ n.position → p ≤ n'.position → (0 < p → s.historyAt ⟨ns, p⟩ = t.historyAt ⟨ns', p⟩) →
        (Rows.through p n.rows).told = (Rows.through p n'.rows).told from
      fun bound bound' ends => ⟨told bound bound' ends, demandOf p (told bound bound' ends)⟩
    induction p with
    | zero => exact fun _ _ _ => (opening own).trans (opening own').symm
    | succ p ih =>
      intro bound bound' ends
      obtain ⟨m, history, foundM, -, ended, tells⟩ := known.history ⟨n, found, bound⟩
      obtain ⟨m', history', foundM', -, ended', tells'⟩ := known'.history ⟨n', found', bound'⟩
      obtain rfl : n = m := Option.some.inj (found.symm.trans foundM)
      obtain rfl : n' = m' := Option.some.inj (found'.symm.trans foundM')
      obtain rfl : history = history' := Option.some.inj (ended.symm.trans ((ends (Nat.succ_pos p)).trans ended'))
      have before : (Rows.through p n.rows).told = (Rows.through p n'.rows).told := by
        refine ih (by omega) (by omega) fun positive => ?_
        exact known.historyAt_across known' ⟨n, found, bound⟩ ⟨n', found', bound'⟩ (ends (Nat.succ_pos p)) positive (Nat.le_succ p)
      rw [Rows.through_succ own.newest, Rows.through_succ own'.newest, Rows.told_append, Rows.told_append, tells.rows, tells'.rows, before,
        demandOf p before]

/-- A segment's copies that end in one history tell the same throughout. -/
theorem Store.Known.copies (known : s.Known names) (placed : s.WellPlaced) (ns ns' : Nat) (n n' : Namespace)
    (found : s.namespaces ns = some n) (found' : s.namespaces ns' = some n') (segment : n.segment = n'.segment) (p : Nat)
    (bound : p ≤ n.position) (bound' : p ≤ n'.position) (ends : 0 < p → s.historyAt ⟨ns, p⟩ = s.historyAt ⟨ns', p⟩) :
    (Rows.through p n.rows).told = (Rows.through p n'.rows).told :=
  (known.copies_across placed known placed ns ns' n n' found found' segment p bound bound' ends).1

end Copies

end Moe
