import Mathlib.Data.Nat.Bitwise
import Mathlib.Data.Finset.Basic
import Moe.Pool.Field

namespace Moe

/-- Whether `key` goes right at the absolute bit `bit`, the most significant first. -/
def rightAt (key bit : Nat) : Bool := key.testBit (255 - bit)

/-- The first bit two keys differ at, 256 where none does. -/
def splitAt (a b : Nat) : Nat := ((List.range 256).find? fun bit => rightAt a bit != rightAt b bit).getD 256

/-- Keys that agree at every bit are one key. -/
theorem eq_of_splitAt {a b : Nat} (aBound : a < keyBound) (bBound : b < keyBound) (same : ¬splitAt a b < 256) :
    a = b := by
  have agree : ∀ bit < 256, rightAt a bit = rightAt b bit := by
    intro bit below
    by_contra differ
    obtain ⟨first, found⟩ : ∃ first, (List.range 256).find? (fun bit => rightAt a bit != rightAt b bit) = some first := by
      refine Option.isSome_iff_exists.mp (List.find?_isSome.mpr ⟨bit, by simpa using below, by simpa using differ⟩)
    have small : first < 256 := by simpa using List.mem_of_find?_eq_some found
    simp only [splitAt, found, Option.getD_some] at same
    exact same small
  refine Nat.eq_of_testBit_eq fun i => ?_
  by_cases low : i < 256
  · have at_bit := agree (255 - i) (by omega)
    simpa [rightAt, show 255 - (255 - i) = i by omega] using at_bit
  · have wide : 2 ^ 256 ≤ 2 ^ i := Nat.pow_le_pow_right (by decide) (by omega)
    rw [Nat.testBit_lt_two_pow (lt_of_lt_of_le aBound wide), Nat.testBit_lt_two_pow (lt_of_lt_of_le bBound wide)]

variable [Crypto]

def spentLeafHash (key : Nat) : Bytes := sha256 (tag "moe/pool/v3/spent/leaf" ++ toBytes 32 key)

def spentBranchHash (bit : Nat) (left right : Bytes) : Bytes :=
  sha256 (tag "moe/pool/v3/spent/node" ++ toBytes 2 bit ++ left ++ right)

def emptySpent : Bytes := sha256 (tag "moe/pool/v3/spent/empty")

/-- The compressed spent set: full-key leaves under first-differing-bit branches, each node with its
hash. A branch keeps the key of the node it split. -/
inductive SpentNode
  | leaf (key : Nat) (hash : Bytes)
  | branch (key : Nat) (bit : Fin 256) (left right : SpentNode) (hash : Bytes)

namespace SpentNode

def hash : SpentNode → Bytes
  | leaf _ hash => hash
  | branch _ _ _ _ hash => hash

def keys : SpentNode → List Nat
  | leaf key _ => [key]
  | branch _ _ left right _ => left.keys ++ right.keys

/-- The new leaf beside a node it first differs from at `bit`. -/
def split (node : SpentNode) (held key : Nat) (bit : Fin 256) : SpentNode :=
  let fresh := leaf key (spentLeafHash key)
  if rightAt key bit then branch held bit node fresh (spentBranchHash bit node.hash fresh.hash)
  else branch held bit fresh node (spentBranchHash bit fresh.hash node.hash)

/-- Insert along the key's path; every hash on it is taken again. -/
def insert (key : Nat) : SpentNode → Except Failure SpentNode
  | leaf held hash =>
    if below : splitAt held key < 256 then .ok ((leaf held hash).split held key ⟨splitAt held key, below⟩)
    else .error (.error "nullifier already in the spent set")
  | branch held at_ left right hash =>
    if splitAt held key < at_ then
      if below : splitAt held key < 256 then
        .ok ((branch held at_ left right hash).split held key ⟨splitAt held key, below⟩)
      else .error (.error "nullifier already in the spent set")
    else if rightAt key at_ then do
      let child ← right.insert key
      return branch held at_ left child (spentBranchHash at_ left.hash child.hash)
    else do
      let child ← left.insert key
      return branch held at_ child right (spentBranchHash at_ child.hash right.hash)

end SpentNode

/-- The spent set, empty before its first key. -/
abbrev SpentSet := Option SpentNode

namespace SpentSet

def root : SpentSet → Bytes
  | none => emptySpent
  | some node => node.hash

def keys : SpentSet → List Nat
  | none => []
  | some node => node.keys

def insert (set : SpentSet) (key : Nat) : Except Failure SpentSet := do
  require (key < keyBound) (.typeError "a stored key is a 256-bit value")
  match set with
  | none => return some (.leaf key (spentLeafHash key))
  | some node => return some (← node.insert key)

/-- Insert every key, in order. -/
def insertAll (set : SpentSet) (keys : List Nat) : Except Failure SpentSet :=
  keys.foldlM insert set

end SpentSet

theorem SpentNode.split_keys (node : SpentNode) (held key : Nat) (bit : Fin 256) (x : Nat) :
    x ∈ (node.split held key bit).keys ↔ x = key ∨ x ∈ node.keys := by
  by_cases right : rightAt key bit <;> simp [split, right, keys, or_comm]

theorem SpentNode.insert_keys {node result : SpentNode} {key : Nat} (inserted : node.insert key = .ok result) (x : Nat) :
    x ∈ result.keys ↔ x = key ∨ x ∈ node.keys := by
  induction node generalizing result with
  | leaf held hash =>
    simp only [insert] at inserted
    split at inserted <;> cases inserted
    exact split_keys _ _ _ _ _
  | branch held bit left right hash leftIh rightIh =>
    simp only [insert] at inserted
    split at inserted
    · split at inserted <;> cases inserted
      exact split_keys _ _ _ _ _
    · split at inserted
      · obtain ⟨child, run, done⟩ := bind_eq_ok.mp inserted
        cases done
        simp only [keys, List.mem_append, rightIh run]
        tauto
      · obtain ⟨child, run, done⟩ := bind_eq_ok.mp inserted
        cases done
        simp only [keys, List.mem_append, leftIh run]
        tauto

/-- Only a key the set holds is refused. -/
theorem SpentNode.insert_total {node : SpentNode} {key : Nat} (bound : key < keyBound)
    (held : ∀ x ∈ node.keys, x < keyBound) (fresh : key ∉ node.keys) : ∃ result, node.insert key = .ok result := by
  induction node with
  | leaf k hash =>
    by_cases below : splitAt k key < 256
    · exact ⟨_, by simp only [insert, dif_pos below]; rfl⟩
    · exact absurd (by simp [keys, eq_of_splitAt (held k (by simp [keys])) bound below]) fresh
  | branch k bit left right hash leftIh rightIh =>
    simp only [keys, List.mem_append, not_or] at held fresh
    obtain ⟨leftResult, leftRun⟩ := leftIh (fun x member => held x (.inl member)) fresh.1
    obtain ⟨rightResult, rightRun⟩ := rightIh (fun x member => held x (.inr member)) fresh.2
    by_cases before : splitAt k key < bit
    · have below : splitAt k key < 256 := before.trans bit.isLt
      exact ⟨_, by simp only [insert, if_pos before, dif_pos below]; rfl⟩
    · by_cases right : rightAt key bit
      · exact ⟨_, by simp only [insert, if_neg before, if_pos right, rightRun]; rfl⟩
      · exact ⟨_, by simp only [insert, if_neg before, if_neg right, leftRun]; rfl⟩

theorem SpentSet.insert_keys {set result : SpentSet} {key : Nat} (inserted : set.insert key = .ok result) (x : Nat) :
    x ∈ result.keys ↔ x = key ∨ x ∈ set.keys := by
  obtain ⟨-, run⟩ := bind_unit_eq_ok.mp inserted
  cases set with
  | none => cases run; simp [keys, SpentNode.keys]
  | some node =>
    obtain ⟨child, grown, done⟩ := bind_eq_ok.mp run
    cases done
    exact SpentNode.insert_keys grown x

theorem SpentSet.insert_bound {set result : SpentSet} {key : Nat} (inserted : set.insert key = .ok result) :
    key < keyBound := by
  obtain ⟨bound, -⟩ := bind_unit_eq_ok.mp inserted
  simpa using bound

theorem SpentSet.insert_total {set : SpentSet} {key : Nat} (bound : key < keyBound)
    (held : ∀ x ∈ set.keys, x < keyBound) (fresh : key ∉ set.keys) : ∃ result, set.insert key = .ok result := by
  cases set with
  | none => exact ⟨_, bind_unit_eq_ok.mpr ⟨by simpa using bound, rfl⟩⟩
  | some node =>
    obtain ⟨child, run⟩ := SpentNode.insert_total bound held fresh
    exact ⟨_, bind_unit_eq_ok.mpr ⟨by simpa using bound, bind_eq_ok.mpr ⟨child, run, rfl⟩⟩⟩

theorem SpentSet.insertAll_keys {set result : SpentSet} {keys : List Nat} (inserted : set.insertAll keys = .ok result)
    (x : Nat) : x ∈ result.keys ↔ x ∈ keys ∨ x ∈ set.keys := by
  induction keys generalizing set with
  | nil => cases inserted; simp
  | cons key rest ih =>
    obtain ⟨middle, first, run⟩ := bind_eq_ok.mp inserted
    rw [ih run, insert_keys first, List.mem_cons]
    tauto

/-- Distinct keys the set does not hold are all inserted. -/
theorem SpentSet.insertAll_total {set : SpentSet} {keys : List Nat} (bound : ∀ x ∈ keys, x < keyBound)
    (held : ∀ x ∈ set.keys, x < keyBound) (distinct : keys.Nodup) (fresh : ∀ x ∈ keys, x ∉ set.keys) :
    ∃ result, set.insertAll keys = .ok result := by
  induction keys generalizing set with
  | nil => exact ⟨set, rfl⟩
  | cons key rest ih =>
    obtain ⟨absent, distinct⟩ := List.nodup_cons.mp distinct
    obtain ⟨middle, first⟩ := insert_total (bound key (by simp)) held (fresh key (by simp))
    have grown : ∀ x, x ∈ middle.keys ↔ x = key ∨ x ∈ set.keys := insert_keys first
    obtain ⟨result, run⟩ := @ih middle (fun x member => bound x (by simp [member]))
      (fun x member => by rcases (grown x).mp member with rfl | old; exacts [bound x (by simp), held x old]) distinct
      (fun x member => by
        rw [grown, not_or]
        exact ⟨fun same => absent (same ▸ member), fresh x (by simp [member])⟩)
    exact ⟨result, bind_eq_ok.mpr ⟨middle, first, run⟩⟩

end Moe
