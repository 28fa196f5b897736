import Moe.Scope.KeptWhole

namespace Moe

section Requiring

variable {kind : RecordKind} {request : RangeRequest} {entries : List RangeEntry}

theorem inOrder_of_follows {p e : RangeEntry} (framed : e.Framed kind) (follows : RangeEntry.Follows kind p e) : inOrder kind e (some p) = true := by
  have zero : (decide (kind = .publication) || decide (e.ordinal = 0)) = true := by
    by_cases publication : kind = .publication
    · simp [publication]
    · simp [publication, framed.zero publication]
  rw [inOrder]
  rcases follows with less | ⟨same, order⟩
  · rw [if_pos less]
    exact zero
  · rw [if_neg (by omega), if_neg (by omega)]
    split at order
    · rename_i publication
      rw [if_pos publication]
      exact decide_eq_true order
    · rename_i other
      rw [if_neg other, framed.zero other]
      simp only [decide_true, Bool.true_and]
      exact decide_eq_true order

theorem inOrder_first {e : RangeEntry} (framed : e.Framed kind) : inOrder kind e none = true := by
  rw [inOrder]
  by_cases publication : kind = .publication
  · simp [publication]
  · simp [publication, framed.zero publication]

/-- Framed entries in order and in range are valid, one after the other. -/
theorem validEntries_run {count : Nat} (own : request.kind = kind) (framed : ∀ e ∈ entries, e.Framed kind)
    (inside : ∀ e ∈ entries, request.fromIndex ≤ e.index ∧ e.index ≤ request.toIndex) (ordered : entries.Pairwise (RangeEntry.Follows kind))
    (read : Option RangeEntry × Nat) (after : ∀ p, read.1 = some p → ∀ e ∈ entries, RangeEntry.Follows kind p e) :
    ∃ result, entries.foldlM (validEntry request none count) read = .ok result := by
  induction entries generalizing read with
  | nil => exact ⟨read, rfl⟩
  | cons e rest ih =>
    have frame := framed e List.mem_cons_self
    have range := inside e List.mem_cons_self
    have order : inOrder kind e read.1 = true := by
      cases previous : read.1 with
      | none => exact inOrder_first frame
      | some p => exact inOrder_of_follows frame (after p previous e List.mem_cons_self)
    have step : validEntry request none count read e = .ok (some e, read.2 + e.record.length) := by
      subst own
      simp only [validEntry, frame.index, frame.ordinal, frame.fits, order, range.1, range.2, Bool.and_self, decide_true, require, if_true]
      rfl
    obtain ⟨first, later⟩ := List.pairwise_cons.mp ordered
    obtain ⟨result, run⟩ := ih (fun e member => framed e (List.mem_cons_of_mem _ member)) (fun e member => inside e (List.mem_cons_of_mem _ member))
      later (some e, read.2 + e.record.length) fun p same other member => by
        rw [← Option.some.inj same]
        exact first other member
    refine ⟨result, ?_⟩
    rw [List.foldlM_cons, step]
    exact run

/-- What a required answer's request is, and how many entries it has. -/
theorem requireKind_conditions {answer : RangeAnswer} {read : RangeRequest × List RangeEntry} (required : answer.requireKind kind = .ok read) :
    isWellFormedRequest answer.request = true ∧ answer.request.kind = kind ∧ answer.entries.length ≤ 2 ^ 32 - 1 := by
  obtain ⟨request, copied, kinded⟩ := bind_eq_ok.mp required
  have own := copyRequest_eq_ok copied
  obtain ⟨_, formed, -⟩ := bind_eq_ok.mp copied
  obtain ⟨_, same, entered⟩ := bind_eq_ok.mp kinded
  obtain ⟨whole, valid, -⟩ := bind_eq_ok.mp entered
  obtain ⟨again, -, counting⟩ := bind_eq_ok.mp valid
  obtain ⟨_, counted, -⟩ := bind_eq_ok.mp counting
  rw [require_eq_ok, own, decide_eq_true_eq] at same
  exact ⟨require_eq_ok.mp formed, same, of_decide_eq_true (require_eq_ok.mp counted)⟩

/-- Framed entries in order, in range and within the frame's count are an answer of their kind. -/
theorem requireKind_of (formed : isWellFormedRequest request = true) (own : request.kind = kind) (few : entries.length ≤ 2 ^ 32 - 1)
    (framed : ∀ e ∈ entries, e.Framed kind) (inside : ∀ e ∈ entries, request.fromIndex ≤ e.index ∧ e.index ≤ request.toIndex)
    (ordered : entries.Pairwise (RangeEntry.Follows kind)) : (RangeAnswer.mk request entries).requireKind kind = .ok (request, entries) := by
  obtain ⟨result, run⟩ := @validEntries_run kind request entries entries.length own framed inside ordered
    (none, fixedBytes + entryBytes * entries.length) fun p none_ => by cases none_
  have copied : copyRequest request = .ok request := bind_eq_ok.mpr ⟨(), require_eq_ok.mpr formed, rfl⟩
  have valid : validEntries ⟨request, entries⟩ none = .ok (request, entries, result.2) :=
    bind_eq_ok.mpr ⟨request, copied, bind_eq_ok.mpr ⟨(), require_eq_ok.mpr (decide_eq_true few), bind_eq_ok.mpr ⟨(), rfl,
      bind_eq_ok.mpr ⟨result, run, rfl⟩⟩⟩⟩
  exact bind_eq_ok.mpr ⟨request, copied, bind_eq_ok.mpr ⟨(), require_eq_ok.mpr (decide_eq_true own),
    bind_eq_ok.mpr ⟨(request, entries, result.2), valid, rfl⟩⟩⟩

end Requiring

variable [Crypto]

section Kept

variable {backing : Bytes} {rule : Option Bytes}

/-- The rows a backing's entries are kept in. -/
def keptRows (backing : Bytes) (rule : Option Bytes) (entries : List RangeEntry) : List ReplacementRow := entries.foldl (keepRow backing rule) []

def ReplacementRow.entry (row : ReplacementRow) : RangeEntry := ⟨row.index, 0, row.record⟩

omit [Crypto] in
theorem putFirst_filter (rows : List ReplacementRow) (row : ReplacementRow) (b : Bytes) : (putFirst rows row).filter (·.backing = b) =
    if row.backing = b then putFirst (rows.filter (·.backing = b)) row else rows.filter (·.backing = b) := by
  have found : row.backing = b → (rows.any (fun r => r.backing = row.backing && r.identity = row.identity) = true ↔
      (rows.filter (·.backing = b)).any (fun r => r.backing = row.backing && r.identity = row.identity) = true) := by
    rintro rfl
    simp only [List.any_eq_true, List.mem_filter, decide_eq_true_eq, Bool.and_eq_true]
    constructor
    · rintro ⟨r, member, same⟩
      exact ⟨r, ⟨member, same.1⟩, same⟩
    · rintro ⟨r, ⟨member, -⟩, same⟩
      exact ⟨r, member, same⟩
  rw [putFirst, putFirst]
  by_cases own : row.backing = b
  · by_cases any : rows.any (fun r => r.backing = row.backing && r.identity = row.identity) = true
    · rw [if_pos any, if_pos own, if_pos ((found own).mp any)]
    · rw [if_neg any, if_pos own, if_neg fun there => any ((found own).mpr there), List.filter_append,
        List.filter_cons_of_pos (by simpa using own), List.filter_nil]
  · rw [if_neg own]
    split
    · rfl
    · rw [List.filter_append, List.filter_cons_of_neg (by simpa using own), List.filter_nil, List.append_nil]

theorem admitRow_eq_some {e : RangeEntry} {row : ReplacementRow} (found : admitRow backing rule e = some row) :
    row.backing = backing ∧ row.index = e.index ∧ row.record = e.record ∧
      ∃ key a, rule = some key ∧ admitEntry backing key e = some a ∧ a.identity = row.identity := by
  obtain ⟨key, declared, found⟩ := Option.bind_eq_some_iff.mp found
  obtain ⟨a, admitted, rfl⟩ := Option.map_eq_some_iff.mp found
  exact ⟨rfl, rfl, rfl, key, a, declared, admitted, rfl⟩

/-- A backing's rows are kept apart from every other's. -/
theorem keepRows_filter (entries : List RangeEntry) (rows : List ReplacementRow) (b : Bytes) :
    (entries.foldl (keepRow backing rule) rows).filter (·.backing = b) =
      if backing = b then entries.foldl (keepRow backing rule) (rows.filter (·.backing = b)) else rows.filter (·.backing = b) := by
  induction entries generalizing rows with
  | nil => rw [List.foldl_nil, List.foldl_nil, ite_self]
  | cons e rest ih =>
    rw [List.foldl_cons, List.foldl_cons, ih]
    cases row : admitRow backing rule e with
    | none => simp only [keepRow, row]
    | some row_ =>
      have own := (admitRow_eq_some row).1
      simp only [keepRow, row, putFirst_filter, own]
      split <;> rfl

/-- Later entries leave the rows of earlier ones as they are. -/
theorem keepRows_before {t : Nat} {entries : List RangeEntry} (later : ∀ e ∈ entries, t < e.index) (rows : List ReplacementRow) :
    (entries.foldl (keepRow backing rule) rows).filter (·.index ≤ t) = rows.filter (·.index ≤ t) := by
  induction entries generalizing rows with
  | nil => rfl
  | cons e rest ih =>
    rw [List.foldl_cons, ih fun e member => later e (List.mem_cons_of_mem _ member), keepRow]
    split
    · rfl
    · rename_i row found
      have index := (admitRow_eq_some found).2.1
      have beyond := later e List.mem_cons_self
      rw [putFirst]
      split
      · rfl
      · rw [List.filter_append, List.filter_cons_of_neg (by simp only [decide_eq_true_eq]; omega), List.filter_nil, List.append_nil]

theorem keepRows_index {t : Nat} {entries : List RangeEntry} (early : ∀ e ∈ entries, e.index ≤ t) {rows : List ReplacementRow}
    (all : ∀ row ∈ rows, row.index ≤ t) : ∀ row ∈ entries.foldl (keepRow backing rule) rows, row.index ≤ t := by
  induction entries generalizing rows with
  | nil => exact all
  | cons e rest ih =>
    rw [List.foldl_cons]
    refine ih (fun e member => early e (List.mem_cons_of_mem _ member)) fun row member => ?_
    rw [keepRow] at member
    split at member
    · exact all row member
    · rename_i new found
      rw [putFirst] at member
      split at member
      · exact all row member
      · rcases List.mem_append.mp member with old | fresh
        · exact all row old
        · rw [List.mem_singleton.mp fresh, (admitRow_eq_some found).2.1]
          exact early e List.mem_cons_self

/-- What is kept of entries is some of them, in their order. -/
theorem keptRows_sublist {entries : List RangeEntry} (zero : ∀ e ∈ entries, e.ordinal = 0) :
    ((keptRows backing rule entries).map (·.entry)).Sublist entries := by
  induction entries using List.reverseRecOn with
  | nil => exact List.Sublist.slnil
  | append_singleton entries e ih =>
    have before := ih fun e member => zero e (List.mem_append_left _ member)
    rw [keptRows, List.foldl_append, List.foldl_cons, List.foldl_nil]
    rw [keptRows] at before
    generalize List.foldl (keepRow backing rule) [] entries = rows at before
    rw [keepRow]
    split
    · exact before.trans (List.sublist_append_left _ _)
    · rename_i row found
      obtain ⟨-, index, record, -⟩ := admitRow_eq_some found
      rw [putFirst]
      split
      · exact before.trans (List.sublist_append_left _ _)
      · have same : row.entry = e := by
          have ordinal := zero e (List.mem_append_right _ List.mem_cons_self)
          cases e
          simp only at ordinal index record
          simp only [ReplacementRow.entry, index, record, ordinal]
        rw [List.map_append, List.map_cons, same, List.map_nil]
        exact before.append (List.Sublist.refl _)

theorem admitEntry_entry {key : Bytes} {row : ReplacementRow} {e : RangeEntry} (index : row.index = e.index) (record : row.record = e.record) :
    admitEntry backing key row.entry = admitEntry backing key e := by
  simp only [admitEntry, ReplacementRow.entry, index, record]

/-- What is admitted of the rows kept is what is admitted of the entries. -/
theorem admitEntries_keptRows {key : Bytes} (entries : List RangeEntry) : let rows := keptRows backing (some key) entries
    (∀ row ∈ rows, row.backing = backing) ∧ rows.map (·.identity) = (admitEntries backing key entries).map (·.identity) ∧
      admitEntries backing key (rows.map (·.entry)) = admitEntries backing key entries := by
  induction entries using List.reverseRecOn with
  | nil => exact ⟨fun row member => absurd member List.not_mem_nil, rfl, rfl⟩
  | append_singleton entries e ih =>
    obtain ⟨own, identities, same⟩ := ih
    have unfoldRows : keptRows backing (some key) (entries ++ [e]) = keepRow backing (some key) (keptRows backing (some key) entries) e := by
      rw [keptRows, List.foldl_append]
      rfl
    have unfoldAdmit : ∀ l : List RangeEntry, ∀ x, admitEntries backing key (l ++ [x]) = admitNext backing key (admitEntries backing key l) x := by
      intro l x
      rw [admitEntries, List.foldl_append]
      rfl
    intro rows
    have rows_ : rows = keepRow backing (some key) (keptRows backing (some key) entries) e := unfoldRows
    rw [rows_, unfoldAdmit, keepRow, admitNext]
    cases found : admitEntry backing key e with
    | none =>
      have none_ : admitRow backing (some key) e = none := by rw [admitRow, Option.bind_some, found]; rfl
      rw [none_]
      exact ⟨own, identities, same⟩
    | some a =>
      have row : admitRow backing (some key) e = some ⟨backing, a.identity, e.index, e.record⟩ := by rw [admitRow, Option.bind_some, found]; rfl
      rw [row]
      have present : ((keptRows backing (some key) entries).any (fun r => r.backing = backing && r.identity = a.identity) = true) ↔
          ((admitEntries backing key entries).any (·.identity = a.identity) = true) := by
        have listed : a.identity ∈ (keptRows backing (some key) entries).map (·.identity) ↔
            a.identity ∈ (admitEntries backing key entries).map (·.identity) := by rw [identities]
        simp only [List.any_eq_true, Bool.and_eq_true, decide_eq_true_eq]
        rw [List.mem_map, List.mem_map] at listed
        constructor
        · rintro ⟨r, member, -, is_⟩
          exact listed.mp ⟨r, member, is_⟩
        · intro inside
          obtain ⟨r, member, is_⟩ := listed.mpr inside
          exact ⟨r, member, own r member, is_⟩
      simp only [putFirst]
      by_cases known : (admitEntries backing key entries).any (·.identity = a.identity) = true
      · rw [if_pos (present.mpr known), if_pos known]
        exact ⟨own, identities, same⟩
      · rw [if_neg fun there => known (present.mp there), if_neg known]
        refine ⟨fun r member => ?_, by rw [List.map_append, List.map_append, identities]; rfl, ?_⟩
        · rcases List.mem_append.mp member with old | new
          · exact own r old
          · rw [List.mem_singleton.mp new]
        · rw [List.map_append, List.map_cons, List.map_nil, unfoldAdmit, same, admitNext,
            @admitEntry_entry _ backing key ⟨backing, a.identity, e.index, e.record⟩ e rfl rfl, found]
          simp only
          rw [if_neg known]

end Kept

end Moe
