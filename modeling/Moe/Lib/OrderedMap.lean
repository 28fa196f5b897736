import Mathlib.Data.List.Basic

namespace Moe

variable {α β : Type*} [DecidableEq α]

/-- A map that lists its entries in the order their keys were first set. -/
abbrev OrderedMap (α β : Type*) := List (α × β)

namespace OrderedMap

def get? (map : OrderedMap α β) (key : α) : Option β :=
  (map.find? (·.1 = key)).map (·.2)

/-- Setting a present key replaces its value in place; a new key goes last. -/
def set : OrderedMap α β → α → β → OrderedMap α β
  | [], key, value => [(key, value)]
  | (k, v) :: rest, key, value => if k = key then (key, value) :: rest else (k, v) :: set rest key value

def erase (map : OrderedMap α β) (key : α) : OrderedMap α β := map.filter (·.1 ≠ key)

@[simp] theorem get?_nil (key : α) : get? ([] : OrderedMap α β) key = none := rfl

theorem get?_cons (key k : α) (v : β) (rest : OrderedMap α β) :
    get? ((k, v) :: rest) key = if k = key then some v else get? rest key := by
  by_cases same : k = key <;> simp [get?, same]

theorem get?_set (map : OrderedMap α β) (key other : α) (value : β) :
    get? (set map key value) other = if key = other then some value else get? map other := by
  induction map with
  | nil => simp [set, get?_cons]
  | cons entry rest ih =>
    obtain ⟨k, v⟩ := entry
    by_cases at_key : k = key
    · subst at_key
      by_cases same : k = other <;> simp [set, get?_cons, same]
    · by_cases same : k = other
      · subst same
        simp [set, get?_cons, at_key, Ne.symm at_key]
      · simp [set, get?_cons, at_key, same, ih]

theorem get?_erase (map : OrderedMap α β) (key other : α) :
    get? (erase map key) other = if key = other then none else get? map other := by
  induction map with
  | nil => simp [erase]
  | cons entry rest ih =>
    obtain ⟨k, v⟩ := entry
    by_cases at_key : k = key
    · subst at_key
      rw [show erase ((k, v) :: rest) k = erase rest k by simp [erase], ih]
      by_cases same : k = other <;> simp [get?_cons, same]
    · rw [show erase ((k, v) :: rest) key = (k, v) :: erase rest key by simp [erase, at_key], get?_cons, ih, get?_cons]
      by_cases same : k = other
      · subst same
        simp [Ne.symm at_key]
      · simp [same]

theorem get?_tabulate (keys : List α) (f : α → β) (key : α) :
    get? (keys.map fun k => (k, f k)) key = if key ∈ keys then some (f key) else none := by
  induction keys with
  | nil => simp
  | cons k rest ih =>
    by_cases same : k = key
    · simp [get?_cons, same]
    · simp [get?_cons, same, ih, Ne.symm same]

theorem mem_of_get? {map : OrderedMap α β} {key : α} {value : β} (found : get? map key = some value) :
    (key, value) ∈ map := by
  obtain ⟨entry, seen, rfl⟩ := Option.map_eq_some_iff.mp found
  have at_key : entry.1 = key := by simpa using List.find?_some seen
  subst at_key
  exact List.mem_of_find?_eq_some seen

/-- Where each key is listed once, an entry is its key's. -/
theorem get?_of_mem {map : OrderedMap α β} (keys : (map.map (·.1)).Nodup) {key : α} {value : β} (member : (key, value) ∈ map) :
    get? map key = some value := by
  induction map with
  | nil => cases member
  | cons head rest ih =>
    obtain ⟨k, v⟩ := head
    obtain ⟨absent, keys⟩ := List.nodup_cons.mp keys
    rw [get?_cons]
    rcases List.mem_cons.mp member with same | later
    · obtain ⟨rfl, rfl⟩ := Prod.mk.inj same
      rw [if_pos rfl]
    · have other : k ≠ key := by
        rintro rfl
        exact absent (List.mem_map.mpr ⟨_, later, rfl⟩)
      rw [if_neg other]
      exact ih keys later

/-- The order entries are listed in does not matter where each key is listed once. -/
theorem get?_perm {a b : OrderedMap α β} (perm : a.Perm b) (keys : (a.map (·.1)).Nodup) (key : α) : get? a key = get? b key := by
  have keys' : (b.map (·.1)).Nodup := (perm.map _).nodup_iff.mp keys
  cases found : get? b key with
  | some value => exact get?_of_mem keys (perm.mem_iff.mpr (mem_of_get? found))
  | none =>
    cases other : get? a key with
    | none => rfl
    | some value =>
      rw [get?_of_mem keys' (perm.mem_iff.mp (mem_of_get? other))] at found
      cases found

theorem get?_isSome_iff {map : OrderedMap α β} {key : α} : (get? map key).isSome = true ↔ key ∈ map.map (·.1) := by
  simp [get?]

/-- Maps whose values are read alike list what is read of them alike, in whatever order. -/
theorem flatMap_perm {γ : Type*} {a b : OrderedMap α β} (keys : (a.map (·.1)).Nodup) (keys' : (b.map (·.1)).Nodup) {read : β → List γ}
    (same : ∀ key, (get? a key).map read = (get? b key).map read) :
    (a.flatMap fun entry => read entry.2).Perm (b.flatMap fun entry => read entry.2) := by
  have byKey : ∀ {map : OrderedMap α β}, (map.map (·.1)).Nodup → (map.flatMap fun entry => read entry.2) =
      (map.map (·.1)).flatMap fun key => ((get? map key).map read).getD [] := by
    intro map keys
    rw [List.flatMap_map]
    refine List.flatMap_congr fun entry member => ?_
    rw [get?_of_mem keys member]
    rfl
  have listed : (a.map (·.1)).Perm (b.map (·.1)) := by
    refine (List.perm_ext_iff_of_nodup keys keys').mpr fun key => ?_
    have equal := congrArg Option.isSome (same key)
    simp only [Option.isSome_map] at equal
    rw [← get?_isSome_iff, ← get?_isSome_iff, equal]
  rw [byKey keys, byKey keys']
  simp only [same]
  exact listed.flatMap_right _

theorem get?_eq_none_iff {map : OrderedMap α β} {key : α} :
    get? map key = none ↔ ∀ entry ∈ map, entry.1 ≠ key := by
  simp [get?]

/-- Setting a key adds its entry alone. -/
theorem mem_of_mem_set {map : OrderedMap α β} {key : α} {value : β} {entry : α × β} (member : entry ∈ set map key value) :
    entry = (key, value) ∨ entry ∈ map := by
  induction map with
  | nil => exact .inl (List.mem_singleton.mp member)
  | cons head rest ih =>
    obtain ⟨k, v⟩ := head
    simp only [set] at member
    split at member
    · rcases List.mem_cons.mp member with same | later
      · exact .inl same
      · exact .inr (List.mem_cons_of_mem _ later)
    · rcases List.mem_cons.mp member with same | later
      · exact .inr (same ▸ List.mem_cons_self)
      · exact (ih later).imp_right (List.mem_cons_of_mem _)

/-- A key set last is the only one; every other entry stays. -/
theorem mem_set {map : OrderedMap α β} (keys : (map.map (·.1)).Nodup) {key : α} {value : β} {entry : α × β} :
    entry ∈ set map key value ↔ entry = (key, value) ∨ (entry ∈ map ∧ entry.1 ≠ key) := by
  induction map with
  | nil => simp [set]
  | cons head rest ih =>
    obtain ⟨k, v⟩ := head
    simp only [List.map_cons, List.nodup_cons] at keys
    by_cases at_key : k = key
    · subst at_key
      have fresh : ∀ other ∈ rest, other.1 ≠ k := fun other member same =>
        keys.1 (List.mem_map.mpr ⟨other, member, same⟩)
      simp only [set, if_true, List.mem_cons]
      constructor
      · rintro (rfl | member)
        · exact .inl rfl
        · exact .inr ⟨.inr member, fresh _ member⟩
      · rintro (rfl | ⟨rfl | member, other⟩)
        · exact .inl rfl
        · exact absurd rfl other
        · exact .inr member
    · simp only [set, at_key, if_false, List.mem_cons, ih keys.2]
      constructor
      · rintro (rfl | rfl | ⟨member, other⟩)
        · exact .inr ⟨.inl rfl, at_key⟩
        · exact .inl rfl
        · exact .inr ⟨.inr member, other⟩
      · rintro (rfl | ⟨rfl | member, other⟩)
        · exact .inr (.inl rfl)
        · exact .inl rfl
        · exact .inr (.inr ⟨member, other⟩)

theorem set_keys_of_mem {map : OrderedMap α β} {key : α} {value : β} (present : key ∈ map.map (·.1)) :
    (set map key value).map (·.1) = map.map (·.1) := by
  induction map with
  | nil => simp at present
  | cons head rest ih =>
    obtain ⟨k, v⟩ := head
    by_cases at_key : k = key
    · simp [set, at_key]
    · have later : key ∈ rest.map (·.1) := by
        simpa [Ne.symm at_key] using present
      simp [set, at_key, ih later]

theorem set_of_not_mem {map : OrderedMap α β} {key : α} {value : β} (absent : key ∉ map.map (·.1)) :
    set map key value = map ++ [(key, value)] := by
  induction map with
  | nil => rfl
  | cons head rest ih =>
    obtain ⟨k, v⟩ := head
    simp only [List.map_cons, List.mem_cons, not_or] at absent
    simp [set, Ne.symm absent.1, ih absent.2]

theorem set_keys_nodup {map : OrderedMap α β} (keys : (map.map (·.1)).Nodup) (key : α) (value : β) :
    ((set map key value).map (·.1)).Nodup := by
  by_cases present : key ∈ map.map (·.1)
  · rwa [set_keys_of_mem present]
  · rw [set_of_not_mem present, List.map_append]
    refine List.nodup_append.mpr ⟨keys, by simp, ?_⟩
    rintro k member _ last rfl
    obtain rfl : k = key := by simpa using last
    exact present member

theorem erase_keys_nodup {map : OrderedMap α β} (keys : (map.map (·.1)).Nodup) (key : α) : ((erase map key).map (·.1)).Nodup :=
  keys.sublist (List.filter_sublist.map _)

theorem get?_erase_all (map : OrderedMap α β) (keys : List α) (key : α) :
    get? (keys.foldl erase map) key = if key ∈ keys then none else get? map key := by
  induction keys generalizing map with
  | nil => simp
  | cons other keys ih =>
    rw [List.foldl_cons, ih, get?_erase]
    by_cases own : other = key
    · simp [own]
    · simp [own, Ne.symm own]

theorem erase_all_keys_nodup {map : OrderedMap α β} (nodup : (map.map (·.1)).Nodup) (keys : List α) :
    ((keys.foldl erase map).map (·.1)).Nodup := by
  induction keys generalizing map with
  | nil => exact nodup
  | cons other keys ih => exact ih (erase_keys_nodup nodup other)

theorem erase_all_eq (map : OrderedMap α β) (keys : List α) : keys.foldl erase map = map.filter fun entry => entry.1 ∉ keys := by
  induction keys generalizing map with
  | nil => simp
  | cons other keys ih =>
    rw [List.foldl_cons, ih, erase, List.filter_filter]
    refine List.filter_congr fun entry _ => ?_
    simp [Bool.and_comm]

theorem get?_set_all (map : OrderedMap α β) (keys : List α) (value : β) (key : α) :
    get? (keys.foldl (fun map key => set map key value) map) key = if key ∈ keys then some value else get? map key := by
  induction keys generalizing map with
  | nil => simp
  | cons other keys ih =>
    rw [List.foldl_cons, ih, get?_set]
    by_cases own : other = key
    · simp [own]
    · simp [own, Ne.symm own]

end OrderedMap

end Moe
