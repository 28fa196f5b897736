import Moe.Pool.NoteFrontier
import Moe.Pool.StoreGrowth

namespace Moe

open HashTree

section Pages

/-- A row with one of its siblings stored again. -/
def StoredWitness.move (row : StoredWitness) (completed : CompletedBlock) : StoredWitness :=
  { row with siblings := row.siblings.set completed.height completed.node }

instance leafTotal : Std.Total fun (a b : StoredWitness) => a.leaf ≤ b.leaf := ⟨fun a b => Nat.le_total a.leaf b.leaf⟩

instance leafTrans : IsTrans StoredWitness fun a b => a.leaf ≤ b.leaf := ⟨fun _ _ _ => Nat.le_trans⟩

/-- The leaves a page moves: all in its range, or where it is full those up to its last. -/
theorem mem_witnessesIn {rows : List StoredWitness} {start stop limit : Nat} {row : StoredWitness} (member : row ∈ rows) :
    row.leaf ∈ (witnessesIn rows start stop limit).map (·.leaf) ↔ start ≤ row.leaf ∧ row.leaf < stop ∧
      ((witnessesIn rows start stop limit).length < limit ∨
        ∃ last, (witnessesIn rows start stop limit).getLast? = some last ∧ row.leaf ≤ last.leaf) := by
  have sorted : ∀ {other}, other ∈ (rows.filter fun row => start ≤ row.leaf && row.leaf < stop).insertionSort (·.leaf ≤ ·.leaf) ↔
      other ∈ rows ∧ start ≤ other.leaf ∧ other.leaf < stop := by
    intro other
    rw [List.mem_insertionSort, List.mem_filter]
    simp
  have order := List.pairwise_insertionSort (fun a b : StoredWitness => a.leaf ≤ b.leaf)
    (rows.filter fun row => start ≤ row.leaf && row.leaf < stop)
  unfold witnessesIn
  generalize (rows.filter fun row => start ≤ row.leaf && row.leaf < stop).insertionSort (·.leaf ≤ ·.leaf) = all at sorted order ⊢
  have split := List.take_append_drop limit all
  constructor
  · intro inside
    obtain ⟨other, taken, same⟩ := List.mem_map.mp inside
    obtain ⟨-, low, high⟩ := sorted.mp (List.mem_of_mem_take taken)
    refine ⟨same ▸ low, same ▸ high, .inr ?_⟩
    obtain ⟨front, last, page⟩ := List.eq_nil_or_concat'  (all.take limit) |>.resolve_left (List.ne_nil_of_mem taken)
    refine ⟨last, by simp [page], ?_⟩
    have ordered := order.sublist (List.take_sublist limit all)
    rw [page] at ordered taken
    rcases List.mem_append.mp taken with before | atEnd
    · exact same ▸ (List.pairwise_append.mp ordered).2.2 other before last (List.mem_singleton_self _)
    · rw [← same, List.mem_singleton.mp atEnd]
  · rintro ⟨low, high, short | ⟨last, page, upto⟩⟩
    · have whole : all.take limit = all := List.take_of_length_le (by rw [List.length_take] at short; omega)
      rw [whole]
      exact List.mem_map_of_mem (sorted.mpr ⟨member, low, high⟩)
    · have inAll := sorted.mpr ⟨member, low, high⟩
      rw [← split] at inAll order
      rcases List.mem_append.mp inAll with taken | dropped
      · exact List.mem_map_of_mem taken
      · have inPage := List.mem_of_getLast? page
        have above := (List.pairwise_append.mp order).2.2 last inPage row dropped
        exact List.mem_map.mpr ⟨last, inPage, Nat.le_antisymm above upto⟩

/-- The rows of a block left to move after a page are fewer. -/
theorem filter_after_page {rows : List StoredWitness} {start stop : Nat} {last : StoredWitness} (member : last ∈ rows)
    (inside : start ≤ last.leaf ∧ last.leaf < stop) :
    (rows.filter fun row => last.leaf + 1 ≤ row.leaf && row.leaf < stop).length <
      (rows.filter fun row => start ≤ row.leaf && row.leaf < stop).length := by
  have nested : (rows.filter fun row => last.leaf + 1 ≤ row.leaf && row.leaf < stop) =
      (rows.filter fun row => start ≤ row.leaf && row.leaf < stop).filter fun row => last.leaf + 1 ≤ row.leaf := by
    rw [List.filter_filter]
    refine List.filter_congr fun row _ => ?_
    by_cases past : last.leaf + 1 ≤ row.leaf
    · have low : start ≤ row.leaf := by omega
      simp [past, low]
    · simp [past]
  rw [nested]
  refine lt_of_le_of_ne (List.length_filter_le _ _) fun same => ?_
  have all := List.length_filter_eq_length_iff.mp same last (List.mem_filter.mpr ⟨member, by simpa using inside⟩)
  simp at all

/-- However long its pages, a left block's every row is moved, and no other. -/
theorem settlePages_eq {limit : Nat} (positive : 0 < limit) (completed : CompletedBlock) {pages start : Nat} {rows : List StoredWitness}
    (room : (rows.filter fun row => start ≤ row.leaf && row.leaf < completed.block <<< completed.height).length < pages) :
    settlePages limit completed pages start rows =
      rows.map fun row => if start ≤ row.leaf ∧ row.leaf < completed.block <<< completed.height then row.move completed else row := by
  induction pages generalizing start rows with
  | zero => omega
  | succ pages ih =>
    rw [settlePages]
    have moves := fun row (member : row ∈ rows) => @mem_witnessesIn rows start (completed.block <<< completed.height) limit row member
    by_cases short : (witnessesIn rows start (completed.block <<< completed.height) limit).length < limit
    · rw [if_pos short]
      refine List.map_congr_left fun row member => ?_
      have inside := moves row member
      simp only [short, true_or, and_true] at inside
      simp only [inside]
      rfl
    · rw [if_neg short]
      obtain ⟨last, page⟩ : ∃ last, (witnessesIn rows start (completed.block <<< completed.height) limit).getLast? = some last := by
        cases page : (witnessesIn rows start (completed.block <<< completed.height) limit).getLast? with
        | none =>
          rw [List.getLast?_eq_none_iff.mp page] at short
          exact absurd positive short
        | some last => exact ⟨last, rfl⟩
      obtain ⟨inRows, inside⟩ : last ∈ rows ∧ start ≤ last.leaf ∧ last.leaf < completed.block <<< completed.height := by
        have sorted := (List.mem_insertionSort _).mp (List.mem_of_mem_take (List.mem_of_getLast? page))
        simpa using List.mem_filter.mp sorted
      have moved : movePage (witnessesIn rows start (completed.block <<< completed.height) limit) completed rows =
          rows.map fun row => if start ≤ row.leaf ∧ row.leaf < completed.block <<< completed.height ∧ row.leaf ≤ last.leaf
            then row.move completed else row := by
        refine List.map_congr_left fun row member => ?_
        have mine := moves row member
        simp only [short, false_or, page, Option.some.injEq, exists_eq_left'] at mine
        simp only [mine]
        rfl
      have leaves : ∀ row : StoredWitness, (if start ≤ row.leaf ∧ row.leaf < completed.block <<< completed.height ∧ row.leaf ≤ last.leaf
          then row.move completed else row).leaf = row.leaf := by
        intro row
        split <;> rfl
      have fewer := filter_after_page inRows inside
      rw [moved, page, Option.map_some, Option.getD_some, ih, List.map_map]
      · refine List.map_congr_left fun row _ => ?_
        simp only [Function.comp_apply, leaves]
        by_cases early : row.leaf ≤ last.leaf
        · have notPast : ¬last.leaf + 1 ≤ row.leaf := by omega
          simp [early, notPast]
        · have low : start ≤ row.leaf := by omega
          have past : last.leaf + 1 ≤ row.leaf := by omega
          simp [early, low, past]
      · rw [List.filter_map, List.length_map]
        simp only [Function.comp_def, leaves]
        omega

/-- A leaf is in the left block beside a right one where the right one is the block beside its own. -/
theorem inLeft_iff {leaf height b : Nat} (odd : b % 2 = 1) :
    (b - 1) <<< height ≤ leaf ∧ leaf < b <<< height ↔ leaf / 2 ^ height + 1 = b := by
  rw [Nat.shiftLeft_eq, Nat.shiftLeft_eq, ← Nat.le_div_iff_mul_le (Nat.two_pow_pos height), ← Nat.div_lt_iff_lt_mul (Nat.two_pow_pos height)]
  generalize leaf / 2 ^ height = x
  omega

theorem settleBlock_eq {limit : Nat} (positive : 0 < limit) (rows : List StoredWitness) (completed : CompletedBlock) :
    settleBlock limit rows completed = rows.map (Namespace.settleSibling completed) := by
  unfold settleBlock
  by_cases skipped : noteTreeDepth ≤ completed.height ∨ completed.block % 2 = 0
  · have same : ∀ row, Namespace.settleSibling completed row = row := by
      intro row
      rw [Namespace.settleSibling, if_neg]
      omega
    rw [if_pos skipped, List.map_congr_left (g := id) fun row _ => same row, List.map_id]
  · rw [if_neg skipped, settlePages_eq positive completed (Nat.lt_succ_of_le (List.length_filter_le _ _))]
    refine List.map_congr_left fun row _ => ?_
    have taken : completed.height < noteTreeDepth ∧ completed.block % 2 = 1 := by omega
    simp only [Namespace.settleSibling, taken, true_and]
    rfl

end Pages

section

variable [Crypto]

/-- Whatever its pages, a record leaves the witness rows it leaves with none. -/
theorem Namespace.appendPaged_eq {limit : Nat} (positive : 0 < limit) (n : Namespace) (ns : Nat) (record : Append) :
    n.appendPaged limit ns record = n.append ns record := by
  have blocks : settleBlock limit = fun rows completed => rows.map (settleSibling completed) := by
    funext rows completed
    exact settleBlock_eq positive rows completed
  have paged : ∀ notes, n.witnessesPaged limit record notes = n.witnessesAfter record notes := by
    intro notes
    simp only [witnessesPaged, witnessesAfter, blocks]
  unfold appendPaged
  cases run : n.append ns record with
  | error failure => rfl
  | ok after =>
    obtain ⟨-, spent, demand, -, -, -, -, rfl⟩ := Namespace.append_eq_ok.mp run
    simp only [bind, Except.bind, pure, Except.pure, paged]
    rfl

/-- A sibling kept for a leaf, at a height its block is a left one: the node of the full block on its right. -/
def StoredWitness.Settled (outputs : List Nat) (row : StoredWitness) (h : Nat) : Prop :=
  row.siblings.getD h 0 = noteBlock outputs h (row.leaf / 2 ^ h + 1)

omit [Crypto] in
theorem settleSibling_moves {completed : CompletedBlock} {row : StoredWitness} :
    Namespace.settleSibling completed row =
      if completed.height < noteTreeDepth ∧ completed.block % 2 = 1 ∧ row.leaf / 2 ^ completed.height + 1 = completed.block
      then row.move completed else row := by
  simp only [Namespace.settleSibling]
  by_cases odd : completed.block % 2 = 1
  · simp only [odd, true_and, inLeft_iff odd]
    rfl
  · simp [odd]

omit [Crypto] in
@[simp] theorem settleSibling_leaf (completed : CompletedBlock) (row : StoredWitness) :
    (Namespace.settleSibling completed row).leaf = row.leaf := by
  rw [settleSibling_moves]
  split <;> rfl

omit [Crypto] in
@[simp] theorem settleSibling_cm (completed : CompletedBlock) (row : StoredWitness) :
    (Namespace.settleSibling completed row).cm = row.cm := by
  rw [settleSibling_moves]
  split <;> rfl

/-- A completed block leaves what is stored of every leaf's left. -/
theorem BornAt.settle {outputs : List Nat} {row : StoredWitness} (born : BornAt outputs row.leaf row.siblings) (completed : CompletedBlock) :
    BornAt outputs row.leaf (Namespace.settleSibling completed row).siblings := by
  rw [settleSibling_moves]
  split
  · rename_i moved
    refine ⟨by rw [StoredWitness.move, List.length_set]; exact born.length, fun h below right => ?_⟩
    have other : completed.height ≠ h := by
      rintro rfl
      have odd := (testBit_iff row.leaf completed.height).mp right
      omega
    rw [StoredWitness.move, List.getD_eq_getElem?_getD, List.getElem?_set_ne other, ← List.getD_eq_getElem?_getD]
    exact born.left h below right
  · exact born

theorem StoredWitness.Settled.settle {outputs : List Nat} {row : StoredWitness} {h : Nat} (length : row.siblings.length = noteTreeDepth)
    {completed : CompletedBlock} (node : completed.node = noteBlock outputs completed.height completed.block)
    (settled : row.Settled outputs h ∨ completed.height = h ∧ h < noteTreeDepth ∧ completed.block % 2 = 1 ∧
      row.leaf / 2 ^ h + 1 = completed.block) : (Namespace.settleSibling completed row).Settled outputs h := by
  unfold StoredWitness.Settled at settled ⊢
  rw [settleSibling_leaf, settleSibling_moves]
  split
  · rename_i moved
    by_cases same : completed.height = h
    · obtain ⟨small, -, block⟩ := moved
      subst same
      rw [StoredWitness.move, List.getD_eq_getElem?_getD, List.getElem?_set_self (by omega), Option.getD_some, node, block]
    · rw [StoredWitness.move, List.getD_eq_getElem?_getD, List.getElem?_set_ne same, ← List.getD_eq_getElem?_getD]
      exact settled.resolve_right fun new => same new.1
  · rename_i still
    refine settled.resolve_right fun new => still ?_
    obtain ⟨rfl, small, odd, block⟩ := new
    exact ⟨small, odd, block⟩

/-- A witness row as its namespace keeps it: an output in use, the full blocks beside its path, none of them stale. -/
structure StoredWitness.Kept (outputs : List Nat) (row : StoredWitness) : Prop where
  output : outputs[row.leaf]? = some row.cm
  born : BornAt outputs row.leaf row.siblings
  settled : ∀ h < noteTreeDepth, row.leaf.testBit h = false → (row.leaf / 2 ^ h + 1 + 1) * 2 ^ h ≤ outputs.length → row.Settled outputs h

/-- A row through the blocks a record completed. -/
theorem settle_all {outputs : List Nat} {row : StoredWitness} (born : BornAt outputs row.leaf row.siblings) {completed : List CompletedBlock}
    (nodes : ∀ c ∈ completed, c.node = noteBlock outputs c.height c.block) :
    let after := completed.foldl (fun row c => Namespace.settleSibling c row) row
    after.leaf = row.leaf ∧ after.cm = row.cm ∧ BornAt outputs row.leaf after.siblings ∧
      ∀ h, (row.Settled outputs h ∨ ∃ c ∈ completed, c.height = h ∧ h < noteTreeDepth ∧ c.block % 2 = 1 ∧ row.leaf / 2 ^ h + 1 = c.block) →
        after.Settled outputs h := by
  induction completed generalizing row with
  | nil =>
    refine ⟨rfl, rfl, born, fun h settled => ?_⟩
    rcases settled with old | ⟨c, member, -⟩
    · exact old
    · cases member
  | cons first rest ih =>
    have node := nodes first List.mem_cons_self
    have step := @ih (Namespace.settleSibling first row) (by rw [settleSibling_leaf]; exact born.settle first)
      (fun c member => nodes c (List.mem_cons_of_mem _ member))
    simp only [settleSibling_leaf, settleSibling_cm] at step
    obtain ⟨leaf, cm, kept, settled⟩ := step
    refine ⟨leaf, cm, kept, fun h either => settled h ?_⟩
    rcases either with old | ⟨c, member, height, small, odd, block⟩
    · exact .inl (.settle born.length node (.inl old))
    · rcases List.mem_cons.mp member with rfl | later
      · exact .inl (.settle born.length node (.inr ⟨height, small, odd, block⟩))
      · exact .inr ⟨c, later, height, small, odd, block⟩

omit [Crypto] in
theorem foldl_settle (completed : List CompletedBlock) (rows : List StoredWitness) :
    completed.foldl (fun rows c => rows.map (Namespace.settleSibling c)) rows =
      rows.map fun row => completed.foldl (fun row c => Namespace.settleSibling c row) row := by
  induction completed generalizing rows with
  | nil => simp
  | cons first rest ih => rw [List.foldl_cons, ih, List.map_map]; rfl

/-- A row kept before a record, through the blocks the record completed. -/
theorem StoredWitness.Kept.after {outputs cms : List Nat} {row : StoredWitness} (kept : row.Kept outputs) {completed : List CompletedBlock}
    (completes : Completes outputs (outputs ++ cms) completed) :
    (completed.foldl (fun row c => Namespace.settleSibling c row) row).Kept (outputs ++ cms) := by
  obtain ⟨output, born, settled⟩ := kept
  have used : row.leaf < outputs.length := (List.getElem?_eq_some_iff.mp output).1
  obtain ⟨leaf, cm, born', settles⟩ := settle_all (born.append used.le cms) completes.node
  refine ⟨?_, by rw [leaf]; exact born', ?_⟩
  · rw [leaf, cm, List.getElem?_append_left used]
    exact output
  · intro h small clear full
    rw [leaf] at clear full
    refine settles h ?_
    by_cases early : (row.leaf / 2 ^ h + 1 + 1) * 2 ^ h ≤ outputs.length
    · left
      rw [StoredWitness.Settled, noteBlock_append early]
      exact settled h small clear early
    · right
      obtain ⟨c, member, height, block⟩ := completes.every h small.le _ (Nat.lt_of_not_le early) full
      refine ⟨c, member, height, small, ?_, block.symm⟩
      have even : ¬row.leaf / 2 ^ h % 2 = 1 := fun odd => by simp [(testBit_iff row.leaf h).mpr odd] at clear
      omega

/-- A row born in a record, through the blocks the record completed. -/
theorem kept_of_born {outputs cms : List Nat} {row : StoredWitness} (output : (outputs ++ cms)[row.leaf]? = some row.cm)
    (fresh : outputs.length ≤ row.leaf) (born : BornAt (outputs ++ cms) row.leaf row.siblings) {completed : List CompletedBlock}
    (completes : Completes outputs (outputs ++ cms) completed) :
    (completed.foldl (fun row c => Namespace.settleSibling c row) row).Kept (outputs ++ cms) := by
  obtain ⟨leaf, cm, born', settles⟩ := settle_all born completes.node
  refine ⟨by rw [leaf, cm]; exact output, by rw [leaf]; exact born', ?_⟩
  intro h small clear full
  rw [leaf] at clear full
  obtain ⟨c, member, height, block⟩ := completes.every h small.le (row.leaf / 2 ^ h + 1)
    (fresh.trans_lt ((lt_succ_div_mul row.leaf h).trans_le (Nat.mul_le_mul_right _ (Nat.le_succ _)))) full
  refine settles h (.inr ⟨c, member, height, small, ?_, block.symm⟩)
  have even : ¬row.leaf / 2 ^ h % 2 = 1 := fun odd => by simp [(testBit_iff row.leaf h).mpr odd] at clear
  omega

/-- A note tree's namespace over the outputs it took: its tip's root is their whole tree's, its witness rows are theirs. -/
structure Namespace.NotesKept (n : Namespace) (outputs : List Nat) : Prop where
  tree : n.keeps.tree = true
  leaves : n.leaves = outputs.length
  ommers : n.ommers.Of outputs
  root : n.noteRoot = wholeRoot outputs
  fields : ∀ cm ∈ outputs, isField cm = true
  rows : ∀ row ∈ n.witnesses, row.Kept outputs

theorem Namespace.NotesKept.fresh {s : Store} {segment identity : Bytes} {imports : Imports} {history evidence : Bytes}
    {keeps : NamespaceConstruction} {spent : SpentSet} (tree : keeps.tree = true) :
    (s.fresh segment identity imports history evidence keeps spent).NotesKept [] where
  tree := tree
  leaves := rfl
  ommers := ⟨by simp [Store.fresh, emptyOmmers], fun h set => by simp at set⟩
  root := wholeRoot_nil.symm
  fields cm member := by cases member
  rows row member := by cases member

/-- One record keeps the whole tree's root and every row it leaves. -/
theorem Namespace.NotesKept.append {n after : Namespace} {outputs : List Nat} (kept : n.NotesKept outputs) {ns : Nat} {record : Append}
    (room : outputs.length + record.outputs.length ≤ noteTreeCapacity) (run : n.append ns record = .ok after) :
    after.NotesKept (outputs ++ record.outputs.map (·.cm)) := by
  obtain ⟨tree, leaves, ommers, root, fields, rows⟩ := kept
  obtain ⟨checked, spent, demand, -, -, -, -, rfl⟩ := Namespace.append_eq_ok.mp run
  have notes := @Ommers.Of.appended _ _ _ ommers (record.outputs.map (·.cm)) (by simpa using room) n.noteRoot
  have same : n.appendOutputs (record.outputs.map (·.cm)) = appendNotes (record.outputs.map (·.cm)) n.ommers outputs.length n.noteRoot := by
    rw [Namespace.appendOutputs, if_pos tree, leaves]
  refine ⟨tree, ?_, ?_, ?_, ?_, ?_⟩
  · simp only [Namespace.written, same, appendNotes_leaves, List.length_append]
  · simp only [Namespace.written, same]
    exact notes.ommers
  · simp only [Namespace.written, same, notes.root]
    split
    · rename_i none
      rw [none, List.append_nil]
      exact root
    · rfl
  · intro cm member
    rcases List.mem_append.mp member with old | new
    · exact fields cm old
    · have field := (Namespace.checkOutputs_eq_ok.mp checked).1 cm new
      simpa only [tree, if_true] using field
  · intro row member
    simp only [Namespace.written, same, Namespace.witnessesAfter, tree, if_true] at member
    rw [foldl_settle] at member
    obtain ⟨before, held, rfl⟩ := List.mem_map.mp (List.mem_of_mem_filter member)
    rcases List.mem_append.mp held with old | new
    · exact (rows before old).after notes.completes
    · obtain ⟨⟨output, leaf, siblings⟩, paired, made⟩ := List.mem_filterMap.mp new
      obtain ⟨mark, -, rfl⟩ := Option.map_eq_some_iff.mp made
      obtain ⟨i, atI⟩ := List.mem_iff_getElem?.mp paired
      obtain ⟨outputAt, bornAt⟩ := List.getElem?_zip_eq_some.mp atI
      have place : leaf = outputs.length + i := by
        have numbers := congrArg (·[i]?) notes.leaves
        simp only [List.getElem?_map, bornAt, Option.map_some] at numbers
        obtain ⟨inside, value⟩ := List.getElem?_eq_some_iff.mp numbers.symm
        simpa using value.symm
      refine kept_of_born ?_ ?_ (notes.born _ (List.mem_of_getElem? bornAt)) notes.completes
      · rw [place, List.getElem?_append_right (Nat.le_add_right _ _), Nat.add_sub_cancel_left, List.getElem?_map, outputAt]
        rfl
      · exact place ▸ Nat.le_add_right _ _

/-- Filling nodes a store kept: where they are of this tip's leaf count, they are its own. -/
def Namespace.Cached (n : Namespace) (ns : Nat) (last : Option Filling) : Prop :=
  ∀ filling, last = some filling → filling.ns = ns → filling.leaves ≤ n.leaves ∧
    (filling.leaves = n.leaves → filling.nodes = fillingNodes n.leaves n.ommers)

theorem Namespace.Cached.filling {n : Namespace} {ns : Nat} {last : Option Filling} (cached : n.Cached ns last) :
    (n.filling ns last).nodes = fillingNodes n.leaves n.ommers ∧ n.Cached ns (some (n.filling ns last)) := by
  have mine : (n.filling ns last).nodes = fillingNodes n.leaves n.ommers ∧ (n.filling ns last).leaves = n.leaves := by
    unfold Namespace.filling
    cases last with
    | none => exact ⟨rfl, rfl⟩
    | some filling =>
      simp only
      split
      · rename_i same
        exact ⟨(cached filling rfl same.1).2 same.2.1, same.2.1⟩
      · exact ⟨rfl, rfl⟩
  refine ⟨mine.1, ?_⟩
  rintro filling ⟨⟩ -
  exact ⟨mine.2.le, fun _ => mine.1⟩

/-- The sibling read for a left block: the full block's as kept, the filling block's from the frontier, an empty one's. -/
theorem Namespace.NotesKept.right {n : Namespace} {outputs : List Nat} (kept : n.NotesKept outputs) {filling : Filling}
    (nodes : filling.nodes = fillingNodes n.leaves n.ommers) {row : StoredWitness} (keptRow : row.Kept outputs) {h : Nat}
    (small : h < noteTreeDepth) (clear : row.leaf.testBit h = false) :
    Namespace.rightSibling n.leaves filling row.leaf h (row.siblings.getD h 0) = noteBlock outputs h (row.leaf / 2 ^ h + 1) := by
  unfold Namespace.rightSibling
  simp only [Nat.shiftRight_eq_div_pow, Nat.shiftLeft_eq, kept.leaves, Nat.one_mul]
  have positive := Nat.two_pow_pos h
  have next : (row.leaf / 2 ^ h + 1) * 2 ^ h + 2 ^ h = (row.leaf / 2 ^ h + 1 + 1) * 2 ^ h := by ring
  by_cases empty : outputs.length ≤ (row.leaf / 2 ^ h + 1) * 2 ^ h
  · rw [if_pos empty, emptyNoteSubtree_eq]
    exact (block_empty empty).symm
  · rw [if_neg empty]
    by_cases partly : outputs.length < (row.leaf / 2 ^ h + 1) * 2 ^ h + 2 ^ h
    · have block : outputs.length / 2 ^ h = row.leaf / 2 ^ h + 1 := by
        refine Nat.div_eq_of_lt_le (Nat.le_of_not_le empty) ?_
        rw [← next]
        exact partly
      rw [if_pos partly, nodes, kept.leaves, kept.ommers.filling small, block]
    · rw [if_neg partly]
      exact keptRow.settled h small clear (by omega)

theorem noteBlock_isField {outputs : List Nat} (fields : ∀ cm ∈ outputs, isField cm = true) (h i : Nat) :
    isField (noteBlock outputs h i) = true := by
  cases h with
  | zero =>
    rw [noteBlock, block]
    rcases Nat.lt_or_ge i outputs.length with inside | past
    · rw [List.getD_eq_getElem _ _ inside]
      exact fields _ (List.getElem_mem inside)
    · rw [List.getD_eq_default _ _ past]
      decide
  | succ h => exact Crypto.poseidon2Hash_isField _

/-- A path of the blocks beside an output carries it to the whole tree's root. -/
theorem noteRootOf_besides {outputs : List Nat} (fields : ∀ cm ∈ outputs, isField cm = true) (room : outputs.length ≤ noteTreeCapacity)
    {leaf cm : Nat} (output : outputs[leaf]? = some cm) {siblings : Nat → Nat}
    (besides : ∀ h < noteTreeDepth, siblings h = noteBlock outputs h (beside leaf h)) :
    noteRootOf cm ⟨(List.range noteTreeDepth).map siblings, (List.range noteTreeDepth).map leaf.testBit⟩ = .ok (wholeRoot outputs) := by
  have field : isField cm = true := fields cm (List.mem_of_getElem? output)
  have used : leaf < 2 ^ noteTreeDepth := (List.getElem?_eq_some_iff.mp output).1.trans_le room
  have path : isNotePath ⟨(List.range noteTreeDepth).map siblings, (List.range noteTreeDepth).map leaf.testBit⟩ = true := by
    simp only [isNotePath, List.length_map, List.length_range, decide_true, Bool.true_and, List.all_map, List.all_eq_true,
      List.mem_range, Function.comp_apply]
    intro h small
    rw [besides h small]
    exact noteBlock_isField fields _ _
  have climbed := @climb_block _ noteNode 0 outputs leaf noteTreeDepth siblings besides
  rw [List.getD_eq_getElem?_getD, output, Option.getD_some, Nat.div_eq_of_lt used] at climbed
  rw [noteRootOf, path, requireField, field]
  refine congrArg Except.ok ?_
  rw [foldl_climb, wholeRoot, noteBlock, ← climbed]
  refine climb_congr (fun h small => ?_) (fun h small => ?_)
  · simp [List.getD_eq_getElem?_getD, small]
  · simp [List.getD_eq_getElem?_getD, small]

/-- The path read for a kept row carries its commitment to the tip's root. -/
theorem Namespace.NotesKept.witness {n : Namespace} {outputs : List Nat} (kept : n.NotesKept outputs) {ns : Nat} {last : Option Filling}
    (cached : n.Cached ns last) (room : outputs.length ≤ noteTreeCapacity) (keeping : Bool) {row : StoredWitness} (member : row ∈ n.witnesses) :
    ∃ path, n.witness ns keeping last n.position row.leaf = (.ok (some ⟨row.leaf, n.noteRoot, ns, path⟩), some (n.filling ns last)) ∧
      path.right = (List.range noteTreeDepth).map row.leaf.testBit ∧ noteRootOf row.cm path = .ok n.noteRoot := by
  obtain ⟨first, found⟩ : ∃ first, n.witnesses.find? (·.leaf = row.leaf) = some first := by
    refine Option.isSome_iff_exists.mp (List.find?_isSome.mpr ⟨row, member, by simp⟩)
  have sameLeaf : first.leaf = row.leaf := by simpa using List.find?_some found
  have keptFirst := kept.rows first (List.mem_of_find?_eq_some found)
  have nodes := cached.filling.1
  have siblingAt : ∀ h < noteTreeDepth, (if row.leaf.testBit h then first.siblings.getD h 0
      else Namespace.rightSibling n.leaves (n.filling ns last) row.leaf h (first.siblings.getD h 0)) = noteBlock outputs h (beside row.leaf h) := by
    intro h small
    rw [← sameLeaf, beside]
    by_cases right : first.leaf.testBit h = true
    · rw [if_pos right, if_pos right]
      exact keptFirst.born.left h small right
    · rw [if_neg right, if_neg right]
      exact kept.right nodes keptFirst small (eq_false_of_ne_true right)
  refine ⟨_, ?_, rfl, kept.root ▸ noteRootOf_besides kept.fields room (kept.rows row member).output siblingAt⟩
  rw [Namespace.witness, if_neg (by simp), found]
  simp only
  rw [if_neg (by simpa using keptFirst.born.length)]

/-- A note tree's namespace as its store goes on, with the outputs it took and the filling nodes the store last folded:
records appended to it, its paths read, and other namespaces' paths read. -/
inductive NoteRun (limit ns : Nat) : List Nat → Namespace → Option Filling → Prop
  | fresh {s : Store} {segment identity : Bytes} {imports : Imports} {history evidence : Bytes} {keeps : NamespaceConstruction}
      {spent : SpentSet} {last : Option Filling} : keeps.tree = true → (∀ filling, last = some filling → filling.ns ≠ ns) →
      NoteRun limit ns [] (s.fresh segment identity imports history evidence keeps spent) last
  | append {outputs : List Nat} {n after : Namespace} {last : Option Filling} {record : Append} : NoteRun limit ns outputs n last →
      n.appendPaged limit ns record = .ok after → NoteRun limit ns (outputs ++ record.outputs.map (·.cm)) after last
  | read {outputs : List Nat} {n : Namespace} {last : Option Filling} (keeping : Bool) (position leaf : Nat) :
      NoteRun limit ns outputs n last → NoteRun limit ns outputs n (n.witness ns keeping last position leaf).2
  | elsewhere {outputs : List Nat} {n : Namespace} {last : Option Filling} {filling : Filling} : NoteRun limit ns outputs n last →
      filling.ns ≠ ns → NoteRun limit ns outputs n (some filling)

theorem Namespace.Cached.append {n after : Namespace} {ns : Nat} {last : Option Filling} (cached : n.Cached ns last) {record : Append}
    (run : n.append ns record = .ok after) : after.Cached ns last := by
  obtain ⟨-, spent, demand, -, -, -, -, rfl⟩ := Namespace.append_eq_ok.mp run
  have leaves : (n.written ns record spent demand).leaves = n.leaves + (record.outputs.map (·.cm)).length := by
    simp only [Namespace.written, Namespace.appendOutputs]
    split
    · exact appendNotes_leaves ..
    · rfl
  intro filling held mine
  obtain ⟨before, nodes⟩ := cached filling held mine
  refine ⟨by omega, fun same => ?_⟩
  have none : record.outputs.map (·.cm) = [] := List.eq_nil_of_length_eq_zero (by omega)
  have ommers : (n.written ns record spent demand).ommers = n.ommers := by
    simp only [Namespace.written, none, Namespace.appendOutputs]
    split <;> rfl
  rw [ommers, leaves, none]
  exact nodes (by rw [leaves, none] at same; exact same)

theorem Namespace.Cached.read {n : Namespace} {ns : Nat} {last : Option Filling} (cached : n.Cached ns last) (keeping : Bool)
    (position leaf : Nat) : n.Cached ns (n.witness ns keeping last position leaf).2 := by
  unfold Namespace.witness
  split
  · exact cached
  · split
    · exact cached
    · split
      · exact cached
      · exact cached.filling.2

/-- Along a run, the namespace is over the outputs it took, and the filling nodes kept for it are its tip's. -/
theorem NoteRun.kept {limit ns : Nat} (positive : 0 < limit) {outputs : List Nat} {n : Namespace} {last : Option Filling}
    (run : NoteRun limit ns outputs n last) (room : outputs.length ≤ noteTreeCapacity) : n.NotesKept outputs ∧ n.Cached ns last := by
  induction run with
  | fresh tree other => exact ⟨.fresh tree, fun filling held mine => absurd mine (other filling held)⟩
  | @append outputs n after last record _ appended ih =>
    rw [List.length_append, List.length_map] at room
    obtain ⟨kept, cached⟩ := ih (by omega)
    rw [n.appendPaged_eq positive] at appended
    exact ⟨kept.append room appended, cached.append appended⟩
  | read keeping position leaf _ ih =>
    obtain ⟨kept, cached⟩ := ih room
    exact ⟨kept, cached.read keeping position leaf⟩
  | elsewhere _ other ih =>
    refine ⟨(ih room).1, ?_⟩
    rintro filling ⟨⟩ mine
    exact absurd mine other

/-- A namespace whose tip's root is its outputs' whole tree's, and whose every kept row reads a path to it. -/
structure Namespace.Whole (n : Namespace) (ns : Nat) (last : Option Filling) (outputs : List Nat) : Prop where
  root : n.noteRoot = wholeRoot outputs
  built : ∀ tree, NoteTree.Built outputs tree → tree.root = n.noteRoot
  output : ∀ row ∈ n.witnesses, outputs[row.leaf]? = some row.cm
  path : ∀ row ∈ n.witnesses, ∀ keeping, ∃ path,
    (n.witness ns keeping last n.position row.leaf).1 = .ok (some ⟨row.leaf, n.noteRoot, ns, path⟩) ∧
      path.right = (List.range noteTreeDepth).map row.leaf.testBit ∧ noteRootOf row.cm path = .ok n.noteRoot

/-- However a namespace came to its outputs, whatever its witness pages, it is whole. -/
theorem NoteRun.whole {limit ns : Nat} (positive : 0 < limit) {outputs : List Nat} {n : Namespace} {last : Option Filling}
    (run : NoteRun limit ns outputs n last) (room : outputs.length ≤ noteTreeCapacity) : n.Whole ns last outputs := by
  obtain ⟨kept, cached⟩ := run.kept positive room
  refine ⟨kept.root, fun tree built => built.root.trans kept.root.symm, fun row member => (kept.rows row member).output, ?_⟩
  intro row member keeping
  obtain ⟨path, read, right, proves⟩ := kept.witness cached room keeping member
  exact ⟨path, by rw [read], right, proves⟩

end

section Sample

local instance noteCrypto : Crypto := sampleCrypto

/-- A record of some outputs, those under 4 marked by their own value, spending some. -/
def sampleAppend (cms spends : List Nat) : Append where
  identity := []
  kind := 1
  index := none
  record := []
  proofHash := []
  signatureHash := []
  evidence := []
  supply := none
  nullifiers := spends.map fun nf => ⟨nf, nf⟩
  outputs := cms.map fun cm => ⟨cm, none, false, if cm < 4 then some ⟨cm, []⟩ else none⟩
  demand := none
  ended := none
  keys := []
  history _ _ := []

/-- Two records, the second completing blocks of four heights and spending a note of the first. -/
def sampleNotes : Except Failure (List Nat) := do
  let first ← (Store.empty.fresh [] [] .empty [] [] poolV3Namespace none).appendPaged 1 1 (sampleAppend [1, 9, 2] [])
  let second ← first.appendPaged 1 1 (sampleAppend [8, 3, 7, 6, 5] [2])
  return second.witnesses.map (·.leaf)

theorem sampleNotes_whole : ∃ n : Namespace, n.witnesses.map (·.leaf) = [0, 4] ∧
    n.Whole 1 none [1, 9, 2, 8, 3, 7, 6, 5] := by
  have runs : sampleNotes = .ok [0, 4] := by decide +kernel
  obtain ⟨first, once, run⟩ := bind_eq_ok.mp runs
  obtain ⟨second, twice, leaves⟩ := bind_eq_ok.mp run
  have start : NoteRun 1 1 [] (Store.empty.fresh [] [] .empty [] [] poolV3Namespace none) none :=
    .fresh rfl fun filling held => absurd held (Option.some_ne_none filling).symm
  exact ⟨second, pure_eq_ok.mp leaves, NoteRun.whole (by decide) (.append (.append start once) twice) (by decide)⟩

end Sample

end Moe
