import Mathlib.Data.List.GetD
import Moe.Pool.EvidenceChain

namespace Moe

section

variable [Crypto]

namespace ChainProfile

open HashChain

variable (profile : ChainProfile)

def linkFrames (value : Bytes) (position : Nat) (entries : List Digests) : List Bytes :=
  (links sha256 profile.linkFrame value position entries).map profile.linkFrame

/-- The frames a segment's chain hashes: its seed's, then each link's. -/
def chainFrames (segment : Bytes) (entries : List Digests) : List Bytes :=
  (profile.contexts.seed ++ segment) :: profile.linkFrames (sha256 (profile.contexts.seed ++ segment)) 0 entries

/-- The frames an opening's check hashes after its snapshot's. -/
def openingFrames (opening : EvidenceOpening) : List Bytes :=
  profile.linkFrames opening.previous (opening.position - 1) (opening.target :: opening.suffix)

variable {profile} {value value' segment segment' expected : Bytes} {position : Nat} {entries entries' : List Digests}
  {snapshot : Snapshot} {opening : EvidenceOpening}

omit [Crypto] in
/-- Owned digests, written one after another, are told apart. -/
theorem owned_flatten_inj {names : List String} {entry entry' : Digests} {s t : Bytes} (owned : entry.Owned names)
    (owned' : entry'.Owned names) (same : entry.flatten ++ s = entry'.flatten ++ t) : entry = entry' ∧ s = t := by
  rw [← List.flatMap_id, ← List.flatMap_id] at same
  exact (Reader.times_inverts (Reader.raw_inverts 32) names.length).unique owned owned' same

omit [Crypto] in
/-- A link's frame is of one link. -/
theorem linkFrame_inj {x y : Link Bytes Digests} (wide : x.previous.length = 32) (wide' : y.previous.length = 32)
    (owned : x.entry.Owned profile.digests) (owned' : y.entry.Owned profile.digests) (bound : x.position < valueBound)
    (bound' : y.position < valueBound) (same : profile.linkFrame x = profile.linkFrame y) : x = y := by
  obtain ⟨previous, entry, position⟩ := x
  obtain ⟨previous', entry', position'⟩ := y
  simp only [linkFrame, List.append_assoc, List.append_cancel_left_eq] at same
  obtain ⟨rfl, rest⟩ := List.append_inj same (wide.trans wide'.symm)
  obtain ⟨rfl, last⟩ := owned_flatten_inj owned owned' rest
  rw [toBytes_inj bound bound' last]

/-- The links of a chain over owned entries, its positions values. -/
theorem links_owned (wide : value.length = 32) (owned : ∀ entry ∈ entries, entry.Owned profile.digests)
    (bound : position + entries.length < valueBound) : ∀ x ∈ links sha256 profile.linkFrame value position entries,
      x.previous.length = 32 ∧ x.entry.Owned profile.digests ∧ x.position < valueBound := by
  induction entries generalizing value position with
  | nil => simp [links]
  | cons entry rest ih =>
    obtain ⟨first, others⟩ := List.forall_mem_cons.mp owned
    rw [List.length_cons] at bound
    rw [links, List.forall_mem_cons]
    exact ⟨⟨wide, first, by simp only; omega⟩, ih (Crypto.sha256_length _) others (by omega)⟩

omit [Crypto] in
/-- No seed's frame is a link's. -/
theorem seedFrame_ne (profile : ChainProfile) (segment : Bytes) (x : Link Bytes Digests) :
    profile.contexts.seed ++ segment ≠ profile.linkFrame x := by
  intro same
  have seed : profile.contexts.seed <+: profile.linkFrame x := same ▸ List.prefix_append _ _
  have link : profile.contexts.link <+: profile.linkFrame x := by
    rw [linkFrame, List.append_assoc, List.append_assoc]
    exact List.prefix_append _ _
  exact (List.prefix_or_prefix_of_prefix seed link).elim profile.apart.1 profile.apart.2

/-- Links whose frames do not collide are told apart by their digests. -/
theorem links_apart {p p' : Nat} (wide : value.length = 32) (wide' : value'.length = 32) (owned : ∀ entry ∈ entries, entry.Owned profile.digests)
    (owned' : ∀ entry ∈ entries', entry.Owned profile.digests) (bound : p + entries.length < valueBound)
    (bound' : p' + entries'.length < valueBound)
    (apart : HashesApart (profile.linkFrames value p entries) (profile.linkFrames value' p' entries')) :
    ∀ x ∈ links sha256 profile.linkFrame value p entries, ∀ y ∈ links sha256 profile.linkFrame value' p' entries',
      sha256 (profile.linkFrame x) = sha256 (profile.linkFrame y) → x = y := by
  intro x inX y inY same
  obtain ⟨wideX, ownedX, boundX⟩ := links_owned wide owned bound x inX
  obtain ⟨wideY, ownedY, boundY⟩ := links_owned wide' owned' bound' y inY
  exact linkFrame_inj wideX wideY ownedX ownedY boundX boundY
    (apart _ (List.mem_map_of_mem inX) _ (List.mem_map_of_mem inY) same)

/-- An accepted opening is of the chain its snapshot's evidence hash ends: of its length, of the entry at its position and of the
entries after it. -/
theorem opening_authentic (accepted : profile.verifyEvidenceOpening expected snapshot opening = .ok true)
    (chain : profile.evidenceHash snapshot.segment entries = .ok snapshot.evidenceHash)
    (apart : HashesApart (profile.chainFrames snapshot.segment entries) (profile.openingFrames opening)) :
    opening.length = entries.length ∧ entries[opening.position - 1]? = some opening.target ∧
      entries.drop opening.position = opening.suffix := by
  obtain ⟨-, ⟨positive, below, bound, many, wide, owned⟩, -, reached⟩ := verifyEvidenceOpening_eq_true.mp accepted
  obtain ⟨⟨-, ownedChain, boundChain⟩, ended⟩ := evidenceHash_eq_ok.mp chain
  have boundOpening : opening.position - 1 + (opening.target :: opening.suffix).length < valueBound := by
    rw [List.length_cons]
    omega
  have some_ : entries ≠ [] := by
    rintro rfl
    obtain ⟨x, member, last⟩ := @extend_last _ _ _ sha256 profile.linkFrame opening.previous (opening.position - 1)
      (opening.target :: opening.suffix) (List.cons_ne_nil _ _)
    rw [reached, ← ended] at last
    exact seedFrame_ne profile _ x (apart _ List.mem_cons_self _ (List.mem_map_of_mem member) last)
  obtain ⟨front, rfl, placed, -⟩ := extend_binds some_ (List.cons_ne_nil opening.target opening.suffix) (Nat.zero_le (opening.position - 1))
    (links_apart (Crypto.sha256_length _) wide ownedChain owned (by omega) boundOpening fun x inX => apart x (List.mem_cons_of_mem _ inX))
    (ended.trans reached.symm)
  refine ⟨?_, ?_, ?_⟩
  · rw [List.length_append, List.length_cons]
    omega
  · rw [List.getElem?_append_right (by omega)]
    simp [placed]
  · have cut : opening.position = front.length + 1 := by omega
    rw [cut, List.drop_append, List.drop_eq_nil_of_le (Nat.le_succ _), Nat.add_sub_cancel_left]
    rfl

/-- A chain with a link does not end at a seed. -/
theorem chain_ne_seed {previous : Bytes} (some_ : entries ≠ [])
    (apart : ∀ y ∈ profile.linkFrames previous position entries, sha256 (profile.contexts.seed ++ segment) = sha256 y →
      profile.contexts.seed ++ segment = y) :
    extend sha256 profile.linkFrame previous position entries ≠ sha256 (profile.contexts.seed ++ segment) := by
  intro same
  obtain ⟨x, member, last⟩ := @extend_last _ _ _ sha256 profile.linkFrame previous position entries some_
  exact seedFrame_ne profile _ x (apart _ (List.mem_map_of_mem member) (same.symm.trans last))

/-- One evidence hash is of one segment and one list of entries. -/
theorem evidenceHash_unique (first : profile.evidenceHash segment entries = .ok value) (second : profile.evidenceHash segment' entries' = .ok value)
    (apart : HashesApart (profile.chainFrames segment entries) (profile.chainFrames segment' entries')) : segment = segment' ∧ entries = entries' := by
  obtain ⟨⟨-, owned, bound⟩, ended⟩ := evidenceHash_eq_ok.mp first
  obtain ⟨⟨-, owned', bound'⟩, ended'⟩ := evidenceHash_eq_ok.mp second
  have segments : sha256 (profile.contexts.seed ++ segment) = sha256 (profile.contexts.seed ++ segment') → segment = segment' :=
    fun same => List.append_cancel_left (apart _ List.mem_cons_self _ List.mem_cons_self same)
  by_cases some_ : entries = []
  · subst some_
    by_cases some' : entries' = []
    · subst some'
      exact ⟨segments (ended.trans ended'.symm), rfl⟩
    · refine absurd (ended'.trans ended.symm) (chain_ne_seed some' fun y inY => ?_)
      exact apart _ List.mem_cons_self _ (List.mem_cons_of_mem _ inY)
  · by_cases some' : entries' = []
    · subst some'
      refine absurd (ended.trans ended'.symm) (chain_ne_seed some_ fun y inY same => ?_)
      exact (apart _ (List.mem_cons_of_mem _ inY) _ List.mem_cons_self same.symm).symm
    · obtain ⟨front, whole, placed, seeds⟩ := extend_binds some_ some' (Nat.le_refl 0)
        (links_apart (Crypto.sha256_length _) (Crypto.sha256_length _) owned owned' (by omega) (by omega)
          fun x inX y inY => apart x (List.mem_cons_of_mem _ inX) y (List.mem_cons_of_mem _ inY)) (ended.trans ended'.symm)
      obtain rfl : front = [] := List.length_eq_zero_iff.mp (by omega)
      exact ⟨segments seeds.symm, whole⟩

/-- The opening of a chain's entry: the value before it, the entry and those after it. -/
def openingAt (profile : ChainProfile) (segment : Bytes) (entries : List Digests) (position : Nat) : EvidenceOpening where
  position := position
  length := entries.length
  previous := extend sha256 profile.linkFrame (sha256 (profile.contexts.seed ++ segment)) 0 (entries.take (position - 1))
  target := entries.getD (position - 1) []
  suffix := entries.drop position

theorem extend_wide (wide : value.length = 32) : (extend sha256 profile.linkFrame value position entries).length = 32 := by
  induction entries generalizing value position with
  | nil => exact wide
  | cons entry rest ih => exact ih (Crypto.sha256_length _)

/-- Every entry of a snapshot's chain has an opening that is accepted. -/
theorem openingAt_accepted (digest : profile.snapshotDigest snapshot = .ok expected)
    (chain : profile.evidenceHash snapshot.segment entries = .ok snapshot.evidenceHash) (positive : 0 < position)
    (inside : position ≤ entries.length) :
    profile.verifyEvidenceOpening expected snapshot (profile.openingAt snapshot.segment entries position) = .ok true := by
  obtain ⟨⟨-, owned, bound⟩, ended⟩ := evidenceHash_eq_ok.mp chain
  have split : entries = entries.take (position - 1) ++ entries.getD (position - 1) [] :: entries.drop position := by
    have whole := List.take_append_drop (position - 1) entries
    rw [List.drop_eq_getElem_cons (by omega : position - 1 < entries.length), Nat.sub_add_cancel positive] at whole
    rw [List.getD_eq_getElem _ _ (by omega : position - 1 < entries.length)]
    exact whole.symm
  refine verifyEvidenceOpening_eq_true.mpr ⟨digest, ⟨?_, inside, bound, ?_, ?_, ?_⟩, ?_, ?_⟩
  · exact Nat.ne_of_gt positive
  · exact (List.length_drop ..).symm
  · exact extend_wide (Crypto.sha256_length _)
  · intro entry member
    refine owned entry ?_
    rw [split]
    exact List.mem_append_right _ member
  · rintro rfl
    rfl
  · rw [← ended]
    have placed : 0 + (entries.take (position - 1)).length = position - 1 := by
      rw [Nat.zero_add, List.length_take]
      omega
    conv_rhs => rw [split, extend_append, placed]
    rfl

end ChainProfile

end

end Moe
