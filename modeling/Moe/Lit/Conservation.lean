import Moe.Lit.Construction
import Moe.Pool.MergeOrder

namespace Moe

namespace Lit

/-- What the digests of some notes are of, no two of them colliding: each commitment of one note, each nullifier of one
commitment. -/
structure NotePreimages where
  note : Nat → Opening
  spends : Nat → Nat

/-- The notes a statement names as its inputs. -/
def Body.inputs : Body → List Opening
  | .spend _ ins _ | .burn _ _ ins _ | .demand _ ins _ _ _ => ins
  | _ => []

section Worth

variable (notes : NotePreimages)

/-- What the notes of some commitments are worth of a backing. -/
def NotePreimages.worth (backing : Bytes) (cms : List Nat) : Nat := worthIn backing (cms.map fun cm => (notes.note cm).toOutput)

theorem worthIn_append (backing : Bytes) (a b : List Output) : worthIn backing (a ++ b) = worthIn backing a + worthIn backing b := by
  simp [worthIn, List.filter_append]

theorem worthIn_perm (backing : Bytes) {a b : List Output} (perm : a.Perm b) : worthIn backing a = worthIn backing b :=
  ((perm.filter _).map _).sum_eq

theorem NotePreimages.worth_append (backing : Bytes) (a b : List Nat) : notes.worth backing (a ++ b) = notes.worth backing a + notes.worth backing b := by
  rw [worth, List.map_append, worthIn_append]
  rfl

theorem NotePreimages.worth_perm (backing : Bytes) {a b : List Nat} (perm : a.Perm b) : notes.worth backing a = notes.worth backing b :=
  worthIn_perm backing (perm.map _)

end Worth

/-- What a statement moves of a backing's supply. -/
def suppliedBy (st : Stated) (backing : Bytes) : Totals :=
  match st.supply with
  | some supply => if supply.backing = backing then supply.totals else .zero
  | none => .zero

theorem suppliedBy_issued {st : Stated} {issued : Bytes} {quantity : Nat} (kind : st.kind = 1) (named : st.backing = some issued)
    (value : st.quantity = some quantity) (backing : Bytes) :
    suppliedBy st backing = if issued = backing then ⟨quantity, 0⟩ else .zero := by
  rw [suppliedBy, Stated.supply, if_pos kind, named, value]
  rfl

theorem suppliedBy_burned {st : Stated} {burned : Bytes} {quantity : Nat} (kind : st.kind = 3) (named : st.backing = some burned)
    (value : st.quantity = some quantity) (backing : Bytes) :
    suppliedBy st backing = if burned = backing then ⟨0, quantity⟩ else .zero := by
  rw [suppliedBy, Stated.supply, if_neg (by omega), if_pos kind, named, value]
  rfl

theorem suppliedBy_other {st : Stated} (issue : st.kind ≠ 1) (burn : st.kind ≠ 3) (backing : Bytes) : suppliedBy st backing = .zero := by
  rw [suppliedBy, Stated.supply, if_neg issue, if_neg burn]

section Notes

variable [Crypto]

/-- A commitment's nullifier, as the store keys both. -/
def nullifierOf (cm : Nat) : Nat := keyOf (noteNullifier (bytesOf cm))

variable (notes : NotePreimages)

/-- A note's digests are of it. -/
def NotePreimages.Tells (domain : Bytes) (o : Opening) : Prop :=
  notes.note (commitmentKey domain o) = o ∧ notes.spends (nullifierKey domain o) = commitmentKey domain o

/-- An output that is a note, worth a positive u64, with a nullifier of its own. -/
structure NotePreimages.Holds (cm : Nat) : Prop where
  note : ∃ domain, commitmentKey domain (notes.note cm) = cm
  spends : notes.spends (nullifierOf cm) = cm
  value : 0 < (notes.note cm).value ∧ (notes.note cm).value < valueBound

/-- A nullifier that spends an output some rows hold. -/
def NotePreimages.Spends (rows : Rows) (nf : Nat) : Prop := nullifierOf (notes.spends nf) = nf ∧ rows.hasOutput (notes.spends nf) = true

/-- A demand whose nullifiers spend outputs some rows hold, all of its backing and worth its quantity. -/
structure NotePreimages.Claims (rows : Rows) (demand : Demand) : Prop where
  nullifiers : ∀ nf ∈ demand.nullifiers.getD [], notes.Spends rows nf
  worth : ∀ backing, notes.worth backing ((demand.nullifiers.getD []).map notes.spends) = if demand.backing = backing then demand.quantity else 0
  quantity : 0 < demand.quantity ∧ demand.quantity < valueBound

theorem nullifierKey_eq (domain : Bytes) (o : Opening) : nullifierKey domain o = nullifierOf (commitmentKey domain o) := by
  have width : (noteCommitment domain o).length = 32 := Crypto.sha256_length _
  have same : bytesOf (commitmentKey domain o) = noteCommitment domain o := by
    have bytes := toBytes_ofBytes (noteCommitment domain o)
    rwa [width] at bytes
  rw [nullifierOf, same, nullifierKey]

variable {notes}

theorem NotePreimages.Tells.spends {domain : Bytes} {o : Opening} (tells : notes.Tells domain o) :
    notes.spends (nullifierOf (commitmentKey domain o)) = commitmentKey domain o := nullifierKey_eq domain o ▸ tells.2

theorem NotePreimages.worth_created {domain : Bytes} {os : List Opening} (tells : ∀ o ∈ os, notes.Tells domain o) (backing : Bytes) :
    notes.worth backing (os.map (commitmentKey domain)) = worthIn backing (os.map (·.toOutput)) := by
  rw [worth, List.map_map]
  refine congrArg _ (List.map_congr_left fun o member => ?_)
  exact congrArg _ (tells o member).1

theorem NotePreimages.worth_spent {domain : Bytes} {os : List Opening} (tells : ∀ o ∈ os, notes.Tells domain o) (backing : Bytes) :
    notes.worth backing ((os.map (nullifierKey domain)).map notes.spends) = worthIn backing (os.map (·.toOutput)) := by
  rw [← NotePreimages.worth_created tells, List.map_map]
  exact congrArg _ (List.map_congr_left fun o member => (tells o member).2)

theorem NotePreimages.Tells.holds {domain : Bytes} {o : Opening} (tells : notes.Tells domain o) (value : 0 < o.value ∧ o.value < valueBound) :
    notes.Holds (commitmentKey domain o) where
  note := ⟨domain, congrArg _ tells.1⟩
  spends := tells.spends
  value := by
    rw [tells.1]
    exact value

theorem NotePreimages.Tells.spendable {domain : Bytes} {o : Opening} (tells : notes.Tells domain o) {rows : Rows}
    (held : rows.hasOutput (commitmentKey domain o) = true) : notes.Spends rows (nullifierKey domain o) := by
  refine ⟨?_, ?_⟩
  · rw [tells.2, nullifierKey_eq]
  · rw [tells.2]
    exact held

end Notes

section Records

variable [Crypto] [PublicKeys] {notes : NotePreimages} {record : LitRecord} {demandOf : Bytes → Option Demand}

/-- What a statement's outputs say, a settlement's from the demand it ends. -/
def Body.creates (body : Body) (demand : Option Demand) : List Output :=
  match body with
  | .issue _ backing quantity owner _ => [⟨backing, quantity, owner⟩]
  | .spend _ _ outs | .burn _ _ _ outs => outs
  | .settle _ _ owner => (demand.bind fun stood => stood.nullifiers.map fun _ => ⟨stood.backing, stood.quantity, owner⟩).toList
  | _ => []

omit [PublicKeys] in
/-- A spend's or a burn's outputs are its output fields, each with its rho. -/
theorem zipIdx_spentOutput (nullifiers : List Bytes) (outs : List Output) :
    (outs.zipIdx.map (spentOutput nullifiers)).map (·.toOutput) = outs := by
  rw [List.map_map]
  exact List.zipIdx_map_fst 0 outs

/-- A record's outputs are what its statement says, each with its rho. -/
theorem litOutputs_creates (sound : record.statement.Sound) (demand : Option Demand) :
    ∃ outputs, litOutputs record demand = .ok outputs ∧ outputs.map (·.toOutput) = record.statement.body.creates demand := by
  have own : ownStatement record.statement = .ok record.statement := ownStatement_eq_ok.mpr ⟨sound, rfl⟩
  have nullifiers : ∀ segment ins outs quantity, record.statement.body = .spend segment ins outs ∨
      record.statement.body = .burn segment quantity ins outs → ∃ nfs, inputNullifiers record.statement = .ok nfs := by
    intro segment ins outs quantity body
    simp only [inputNullifiers, own]
    rcases body with body | body
    all_goals
      simp only [bind, Except.bind, body]
      exact ⟨_, rfl⟩
  have unsettled : (∀ segment named owner, record.statement.body ≠ .settle segment named owner) →
      litOutputs record demand = createdOutputs record.statement none := by
    intro other
    unfold litOutputs
    split
    · rename_i body _
      exact absurd body (other _ _ _)
    · rename_i body _
      exact absurd body (other _ _ _)
    · rfl
  cases body : record.statement.body with
  | issue segment backing quantity owner nonce =>
    rw [unsettled (by simp [body]), createdOutputs, own]
    simp only [bind, Except.bind, body]
    exact ⟨_, rfl, rfl⟩
  | spend segment ins outs =>
    obtain ⟨nfs, read⟩ := nullifiers segment ins outs 0 (.inl body)
    rw [unsettled (by simp [body]), createdOutputs, own]
    simp only [bind, Except.bind, body, read]
    exact ⟨_, rfl, zipIdx_spentOutput nfs outs⟩
  | burn segment quantity ins outs =>
    obtain ⟨nfs, read⟩ := nullifiers segment ins outs quantity (.inr body)
    rw [unsettled (by simp [body]), createdOutputs, own]
    simp only [bind, Except.bind, body, read]
    exact ⟨_, rfl, zipIdx_spentOutput nfs outs⟩
  | settle segment named owner =>
    unfold litOutputs
    rw [body]
    cases stood : demand.bind fun stood => stood.nullifiers.map fun nfs => (stood, nfs) with
    | none =>
      refine ⟨[], rfl, ?_⟩
      rw [Body.creates]
      cases demand with
      | none => rfl
      | some demand =>
        have none_ : demand.nullifiers = none := by simpa using stood
        simp [none_]
    | some found =>
      obtain ⟨value, nfs⟩ := found
      obtain ⟨demand, rfl, known_⟩ := Option.bind_eq_some_iff.mp stood
      obtain ⟨nfs', named_, same⟩ := Option.map_eq_some_iff.mp known_
      cases same
      simp only [createdOutputs, own, bind, Except.bind, body]
      refine ⟨_, rfl, ?_⟩
      simp [Body.creates, named_]
  | _ =>
    rw [unsettled (by simp [body]), createdOutputs, own]
    simp only [bind, Except.bind, body]
    exact ⟨[], rfl, rfl⟩

/-- The demand a record's view ends, as a state shows it. -/
def endedBy (record : LitRecord) (demandOf : Bytes → Option Demand) : Option Demand := (litView record demandOf).ended.bind demandOf

/-- A record whose statement says no outputs creates none. -/
theorem created_nil (sound : record.statement.Sound) {demand : Option Demand} (none_ : record.statement.body.creates demand = []) :
    created record demand = [] := by
  obtain ⟨outputs, run, creates⟩ := litOutputs_creates sound demand
  rw [none_, List.map_eq_nil_iff] at creates
  rw [created, run, creates]
  rfl

/-- A view's outputs are those of its record, a settlement's from the demand it ends. -/
theorem litView_outputs (sound : record.statement.Sound) (demandOf : Bytes → Option Demand) :
    (litView record demandOf).outputs = created record (endedBy record demandOf) := by
  have nothing := @created_nil _ _ record sound (endedBy record demandOf)
  obtain ⟨⟨domain, body⟩, authorization⟩ := record
  cases body with
  | settle segment named owner =>
    have ended : (litView ⟨⟨domain, .settle segment named owner⟩, authorization⟩ demandOf).ended = some named := by
      simp only [litView]
      split
      · rfl
      · split <;> rfl
    simp only [endedBy, ended, Option.bind_some] at nothing ⊢
    simp only [litView]
    split
    · rename_i read
      rw [read] at nothing ⊢
      exact (nothing rfl).symm
    · rename_i demand read
      rw [read] at nothing ⊢
      split
      · rename_i nullifiers
        simp only [Body.creates, Option.bind_some, nullifiers, Option.map_none, Option.toList_none, forall_const] at nothing
        exact nothing.symm
      · rfl
  | issue | spend | burn => rfl
  | demand | withdraw | request => exact (nothing rfl).symm

/-- A record that passed its checks in a state of some rows, its digests known. -/
structure Checked (notes : NotePreimages) (record : LitRecord) (demandOf : Bytes → Option Demand) (rows : Rows) : Prop where
  sound : record.Sound
  arithmetic : record.statement.body.inputs ≠ [] → arithmeticHolds record.statement = true
  inputs : ∀ o ∈ record.statement.body.inputs, rows.hasOutput (commitmentKey record.statement.domain o) = true
  named : ∀ o ∈ record.statement.body.inputs, notes.Tells record.statement.domain o
  outputs : ∀ outputs, litOutputs record (endedBy record demandOf) = .ok outputs → ∀ o ∈ outputs, notes.Tells record.statement.domain o
  claims : ∀ id demand, demandOf id = some demand → notes.Claims rows demand

variable {rows : Rows}

/-- The commitments a record creates are of the notes its statement says. -/
theorem Checked.created (checked : Checked notes record demandOf rows) : ∃ outputs : List Opening,
    (litView record demandOf).outputs = outputs.map (commitmentKey record.statement.domain) ∧
      outputs.map (·.toOutput) = record.statement.body.creates (endedBy record demandOf) ∧
        ∀ o ∈ outputs, notes.Tells record.statement.domain o := by
  obtain ⟨outputs, run, creates⟩ := litOutputs_creates checked.sound.1 (endedBy record demandOf)
  refine ⟨outputs, ?_, creates, checked.outputs outputs run⟩
  rw [litView_outputs checked.sound.1, Lit.created, run]

theorem Checked.worth (checked : Checked notes record demandOf rows) (backing : Bytes) :
    notes.worth backing (litView record demandOf).outputs = worthIn backing (record.statement.body.creates (endedBy record demandOf)) := by
  obtain ⟨outputs, made, creates, tells⟩ := checked.created
  rw [made, NotePreimages.worth_created tells, creates]

omit [Crypto] in
theorem inputs_ne_nil {body : Body} (sound : body.Sound) (kind : 2 ≤ body.kind) (kind' : body.kind ≤ 4) : body.inputs ≠ [] := by
  cases body with
  | spend => exact List.ne_nil_of_length_pos sound.2.1.1.1
  | burn => exact List.ne_nil_of_length_pos sound.2.2.1.1.1
  | demand => exact List.ne_nil_of_length_pos sound.2.1.1.1
  | _ => simp [Body.kind] at kind kind'

/-- A record of kinds 2 to 4 that passed its checks balances. -/
theorem Checked.balanced (checked : Checked notes record demandOf rows) (kind : 2 ≤ record.statement.body.kind)
    (kind' : record.statement.body.kind ≤ 4) : record.statement.body.Balanced :=
  (arithmeticHolds_iff checked.sound.1).mp (checked.arithmetic (inputs_ne_nil checked.sound.1.2 kind kind'))

/-- What a record that passed its checks creates and burns is what it spends and issues, backing by backing. -/
theorem Checked.balances (checked : Checked notes record demandOf rows) (backing : Bytes) :
    notes.worth backing (litView record demandOf).outputs + (suppliedBy (litView record demandOf).stated backing).burned =
      notes.worth backing ((litView record demandOf).nfs.map notes.spends) + (suppliedBy (litView record demandOf).stated backing).issued := by
  rw [checked.worth backing]
  have balanced := checked.balanced
  have named := checked.named
  have claims := checked.claims
  obtain ⟨⟨domain, body⟩, authorization⟩ := record
  cases body with
  | issue segment issued quantity owner nonce =>
    have made : worthIn backing [⟨issued, quantity, owner⟩] = if issued = backing then quantity else 0 := worthIn_single backing _
    rw [suppliedBy_issued rfl rfl rfl]
    change worthIn backing [⟨issued, quantity, owner⟩] + _ = 0 + _
    rw [made]
    split
    · exact Nat.add_comm ..
    · rfl
  | spend segment ins outs =>
    obtain ⟨-, balance⟩ := balanced (le_refl 2) (by decide : 2 ≤ 4)
    have spent := @NotePreimages.worth_spent _ notes domain ins named backing
    rw [suppliedBy_other (by decide : 2 ≠ 1) (by decide : 2 ≠ 3)]
    exact congrArg (· + 0) ((balance backing).symm.trans spent.symm)
  | burn segment quantity ins outs =>
    obtain ⟨-, burned, all, balance⟩ := balanced (by decide : 2 ≤ 3) (by decide : 3 ≤ 4)
    have spent := @NotePreimages.worth_spent _ notes domain ins named backing
    have some_ : ins ≠ [] := inputs_ne_nil checked.sound.1.2 (by decide : 2 ≤ 3) (by decide : 3 ≤ 4)
    have first : (ins.map (·.backing) ++ outs.map (·.backing)).eraseDups.head? = some burned := by
      obtain ⟨input, rest, rfl⟩ := List.exists_cons_of_ne_nil some_
      have own := all input.toOutput (List.mem_append_left _ (List.mem_map_of_mem List.mem_cons_self))
      rw [List.map_cons, List.cons_append, List.eraseDups_cons, List.head?_cons, own]
    obtain ⟨ins_, outs_⟩ := List.forall_mem_append.mp all
    rw [suppliedBy_burned rfl first rfl]
    change worthIn backing outs + _ = notes.worth backing ((ins.map (nullifierKey domain)).map notes.spends) + _
    rw [spent]
    by_cases own : burned = backing
    · subst own
      rw [if_pos rfl, balance]
      exact Nat.add_comm ..
    · rw [if_neg own, worthIn_other ins_ own, worthIn_other outs_ own]
      rfl
  | settle segment settled owner =>
    rw [suppliedBy_other (by rw [StatementView.stated, litView_kind]; exact (by decide : 6 ≠ 1)) (by rw [StatementView.stated, litView_kind]; exact (by decide : 6 ≠ 3))]
    cases read : demandOf settled with
    | none => simp [endedBy, litView, read, Body.creates, baseView, NotePreimages.worth, Totals.zero]
    | some demand =>
      have worth := (claims settled demand read).worth backing
      cases nullifiers : demand.nullifiers with
      | none => simp [endedBy, litView, read, nullifiers, Body.creates, baseView, NotePreimages.worth, Totals.zero]
      | some nfs =>
        rw [nullifiers, Option.getD_some] at worth
        simp [endedBy, litView, read, nullifiers, Body.creates, baseView, worthIn_single, Totals.zero, worth]
  | demand segment ins presenter instant deadline =>
    rw [suppliedBy_other (by decide : 4 ≠ 1) (by decide : 4 ≠ 3)]
    rfl
  | withdraw segment named =>
    rw [suppliedBy_other (by decide : 5 ≠ 1) (by decide : 5 ≠ 3)]
    rfl
  | request input refresh =>
    rw [suppliedBy_other (by decide : 7 ≠ 1) (by decide : 7 ≠ 3)]
    rfl

/-- A settlement ends the demand it names. -/
theorem endedBy_settle {segment settled owner : Bytes} (body : record.statement.body = .settle segment settled owner) :
    endedBy record demandOf = demandOf settled := by
  have ended : (litView record demandOf).ended = some settled := by
    simp only [litView, body]
    split
    · rfl
    · split <;> rfl
  rw [endedBy, ended, Option.bind_some]

/-- Each output of a record that passed its checks is a positive u64. -/
theorem Checked.values (checked : Checked notes record demandOf rows) {o : Output}
    (member : o ∈ record.statement.body.creates (endedBy record demandOf)) : 0 < o.value ∧ o.value < valueBound := by
  have sound := checked.sound.1.2
  cases body : record.statement.body with
  | issue segment backing quantity owner nonce =>
    rw [body] at member sound
    obtain rfl := List.mem_singleton.mp member
    exact sound.2.2.1
  | spend segment ins outs =>
    rw [body] at member sound
    exact (sound.2.2.2 o member).2.1
  | burn segment quantity ins outs =>
    rw [body] at member sound
    exact (sound.2.2.2.2 o member).2.1
  | settle segment settled owner =>
    rw [body, endedBy_settle body] at member
    obtain ⟨demand, read, found⟩ := Option.bind_eq_some_iff.mp (Option.mem_toList.mp member)
    obtain ⟨nfs, -, rfl⟩ := Option.map_eq_some_iff.mp found
    exact (checked.claims settled demand read).quantity
  | _ =>
    rw [body] at member
    cases member

/-- Each output of a record that passed its checks is a note. -/
theorem Checked.holds (checked : Checked notes record demandOf rows) {cm : Nat} (member : cm ∈ (litView record demandOf).outputs) :
    notes.Holds cm := by
  obtain ⟨outputs, made, creates, tells⟩ := checked.created
  rw [made] at member
  obtain ⟨o, inside, rfl⟩ := List.mem_map.mp member
  exact (tells o inside).holds (checked.values (creates ▸ List.mem_map_of_mem inside))

/-- Each nullifier of a record that passed its checks spends an output of the state. -/
theorem Checked.spends (checked : Checked notes record demandOf rows) {nf : Nat} (member : nf ∈ (litView record demandOf).nfs) :
    notes.Spends rows nf := by
  have own : ∀ ins : List Opening, record.statement.body.inputs = ins → nf ∈ ins.map (nullifierKey record.statement.domain) →
      notes.Spends rows nf := by
    rintro ins rfl listed
    obtain ⟨o, inside, rfl⟩ := List.mem_map.mp listed
    exact (checked.named o inside).spendable (checked.inputs o inside)
  cases body : record.statement.body with
  | spend segment ins outs =>
    simp only [litView, body] at member
    exact own ins (by rw [body]; rfl) member
  | burn segment quantity ins outs =>
    simp only [litView, body] at member
    exact own ins (by rw [body]; rfl) member
  | settle segment settled owner =>
    simp only [litView, body] at member
    cases read : demandOf settled with
    | none => simp [read, baseView] at member
    | some demand =>
      have nullifiers := (checked.claims settled demand read).nullifiers
      cases named : demand.nullifiers with
      | none => simp [read, named, baseView] at member
      | some nfs =>
        simp only [read, named] at member
        rw [named] at nullifiers
        exact nullifiers nf member
  | _ => simp [litView, body, baseView] at member

/-- A demand a record that passed its checks stands is of its own notes. -/
theorem Checked.stands (checked : Checked notes record demandOf rows) {id : Bytes} {demand : Demand}
    (stood : (litView record demandOf).demand = some (id, demand)) : notes.Claims rows demand := by
  cases body : record.statement.body with
  | demand segment ins presenter instant deadline =>
    have kind : record.statement.body.kind = 4 := by rw [body]; rfl
    have balanced := checked.balanced (by omega) (by omega)
    have inputs := checked.inputs
    have named := checked.named
    have sound := checked.sound.1.2
    have some_ := inputs_ne_nil sound (by omega) (by omega)
    rw [body] at balanced inputs named sound some_
    obtain ⟨-, demanded, all, within⟩ := balanced
    have sum : worthIn demanded (ins.map (·.toOutput)) = (ins.map (·.value)).sum := by
      rw [worthIn_all (by simpa using all), List.map_map]
      rfl
    have first : (ins.map (·.backing)).headD [] = demanded := by
      obtain ⟨input, rest, rfl⟩ := List.exists_cons_of_ne_nil some_
      exact all input List.mem_cons_self
    simp only [litView, body, Option.some.injEq, Prod.mk.injEq] at stood
    obtain ⟨-, rfl⟩ := stood
    refine ⟨fun nf member => ?_, fun backing => ?_, ?_, ?_⟩
    · obtain ⟨o, inside, rfl⟩ := List.mem_map.mp (show nf ∈ ins.map (nullifierKey record.statement.domain) from member)
      exact (named o inside).spendable (inputs o inside)
    · change notes.worth backing ((ins.map (nullifierKey record.statement.domain)).map notes.spends) =
        if (ins.map (·.backing)).headD [] = backing then (ins.map (·.value)).sum else 0
      have spent := @NotePreimages.worth_spent _ notes record.statement.domain ins named backing
      rw [spent, first, ← sum]
      by_cases own : demanded = backing
      · rw [own, if_pos rfl]
      · rw [if_neg own, worthIn_other (by simpa using all) own]
    · obtain ⟨input, rest, rfl⟩ := List.exists_cons_of_ne_nil some_
      have positive := (sound.2.1.2 input List.mem_cons_self).1.2.1.1
      change 0 < ((input :: rest).map (·.value)).sum
      rw [List.map_cons, List.sum_cons]
      omega
    · change (ins.map (·.value)).sum < valueBound
      rw [← sum]
      exact within
  | settle segment settled owner =>
    simp only [litView, body] at stood
    split at stood
    · cases stood
    · split at stood <;> cases stood
  | _ => simp [litView, body, baseView] at stood

end Records

end Lit

end Moe
