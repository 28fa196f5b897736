import Moe.Lit.Records

namespace Moe

namespace Lit

variable {s t : Bytes}

/-- A body at the widths and counts its bytes have. -/
def Body.Framed : Body → Prop
  | .issue segment backing quantity owner nonce => segment.length = 32 ∧ (Output.mk backing quantity owner).Framed ∧ nonce.length = 32
  | .spend segment ins outs =>
    segment.length = 32 ∧ ((1 ≤ ins.length ∧ ins.length ≤ maxInputs) ∧ ∀ i ∈ ins, i.Framed) ∧
      (1 ≤ outs.length ∧ outs.length ≤ maxOutputs) ∧ ∀ o ∈ outs, o.Framed
  | .burn segment quantity ins outs =>
    segment.length = 32 ∧ quantity < 2 ^ 64 ∧ ((1 ≤ ins.length ∧ ins.length ≤ maxInputs) ∧ ∀ i ∈ ins, i.Framed) ∧
      (0 ≤ outs.length ∧ outs.length ≤ 1) ∧ ∀ o ∈ outs, o.Framed
  | .demand segment ins presenter instant deadline =>
    segment.length = 32 ∧ ((1 ≤ ins.length ∧ ins.length ≤ maxInputs) ∧ ∀ i ∈ ins, i.Framed) ∧ presenter.length = 32 ∧
      instant < 2 ^ 64 ∧ deadline < 2 ^ 64
  | .withdraw segment named => segment.length = 32 ∧ named.length = 32
  | .settle segment named owner => segment.length = 32 ∧ named.length = 32 ∧ owner.length = 32
  | .request input refresh => input.Framed ∧ refresh < 2 ^ 64

/-- So many items, each as many bytes as its form has, after their count. -/
theorem counted_inverts {α : Type} {item : Reader α} {write : α → Bytes} {valid : α → Prop} (each : Inverts item write valid) {min max : Nat}
    (few : max < 2 ^ 8) :
    Inverts (do Reader.times item (← readCount min max)) (fun items => toBytes 1 items.length ++ items.flatMap write) fun items =>
      (min ≤ items.length ∧ items.length ≤ max) ∧ ∀ a ∈ items, valid a := by
  intro s items t
  simp only [readCount, read_bind_eq_ok, read_lift_eq_ok, read_pure_eq_ok, Reader.u8_inverts _ _ _, Reader.times_inverts each _ _ _ _,
    require_eq_ok, Bool.and_eq_true, decide_eq_true_eq]
  constructor
  · rintro ⟨_, _, ⟨count, _, ⟨_, rfl⟩, _, _, ⟨range, rfl⟩, rfl, rfl⟩, ⟨same, valid⟩, rfl⟩
    refine ⟨⟨?_, valid⟩, ?_⟩
    · rw [same]
      exact range
    · rw [same, List.append_assoc]
  · rintro ⟨⟨range, valid⟩, rfl⟩
    refine ⟨items.length, _, ⟨items.length, _, ⟨by omega, ?_⟩, (), _, ⟨range, rfl⟩, rfl, rfl⟩, ⟨rfl, valid⟩, rfl⟩
    rw [List.append_assoc]

theorem readInputs_inverts : Inverts readInputs (fun ins => toBytes 1 ins.length ++ ins.flatMap writeOpening) fun ins =>
    (1 ≤ ins.length ∧ ins.length ≤ maxInputs) ∧ ∀ i ∈ ins, i.Framed := counted_inverts readOpening_inverts (by decide)

theorem readOutputs_inverts {min max : Nat} (few : max < 2 ^ 8) :
    Inverts (readOutputs min max) (fun outs => toBytes 1 outs.length ++ outs.flatMap writeOutput) fun outs =>
      (min ≤ outs.length ∧ outs.length ≤ max) ∧ ∀ o ∈ outs, o.Framed := counted_inverts readOutput_inverts few

/-- A body of one kind at the widths and counts its bytes have. -/
def Body.FramedAs (kind : Nat) (b : Body) : Prop := b.kind = kind ∧ b.Framed

theorem readIssue_inverts : Inverts readIssue writeBody (Body.FramedAs 1) := by
  intro s b t
  simp only [readIssue, read_bind_eq_ok, read_pure_eq_ok, Reader.raw_inverts _ _ _ _, readOutput_inverts _ _ _]
  constructor
  · rintro ⟨_, _, ⟨segment, rfl⟩, o, _, ⟨output, rfl⟩, _, _, ⟨nonce, rfl⟩, rfl, rfl⟩
    refine ⟨⟨rfl, segment, output, nonce⟩, ?_⟩
    simp only [writeBody, id_eq, List.append_assoc]
  · rintro ⟨⟨kind, framed⟩, rfl⟩
    cases b with
    | issue segment backing quantity owner nonce =>
      obtain ⟨width, output, last⟩ := framed
      refine ⟨segment, _, ⟨width, ?_⟩, ⟨backing, quantity, owner⟩, _, ⟨output, rfl⟩, nonce, t, ⟨last, rfl⟩, rfl, rfl⟩
      simp only [writeBody, id_eq, List.append_assoc]
    | _ => cases kind

theorem readSpend_inverts : Inverts readSpend writeBody (Body.FramedAs 2) := by
  intro s b t
  simp only [readSpend, read_bind_eq_ok, read_pure_eq_ok, Reader.raw_inverts _ _ _ _, readInputs_inverts _ _ _,
    readOutputs_inverts (by decide : maxOutputs < 2 ^ 8) _ _ _]
  constructor
  · rintro ⟨_, _, ⟨segment, rfl⟩, _, _, ⟨ins, rfl⟩, _, _, ⟨outs, rfl⟩, rfl, rfl⟩
    refine ⟨⟨rfl, segment, ins, outs⟩, ?_⟩
    simp only [writeBody, id_eq, List.append_assoc]
  · rintro ⟨⟨kind, framed⟩, rfl⟩
    cases b with
    | spend segment ins outs =>
      obtain ⟨width, consumed, made⟩ := framed
      refine ⟨segment, _, ⟨width, ?_⟩, ins, _, ⟨consumed, rfl⟩, outs, t, ⟨made, rfl⟩, rfl, rfl⟩
      simp only [writeBody, id_eq, List.append_assoc]
    | _ => cases kind

theorem readBurn_inverts : Inverts readBurn writeBody (Body.FramedAs 3) := by
  intro s b t
  simp only [readBurn, read_bind_eq_ok, read_pure_eq_ok, Reader.raw_inverts _ _ _ _, Reader.u64_inverts _ _ _, readInputs_inverts _ _ _,
    readOutputs_inverts (by decide : 1 < 2 ^ 8) _ _ _]
  constructor
  · rintro ⟨_, _, ⟨segment, rfl⟩, _, _, ⟨quantity, rfl⟩, _, _, ⟨ins, rfl⟩, _, _, ⟨outs, rfl⟩, rfl, rfl⟩
    refine ⟨⟨rfl, segment, quantity, ins, outs⟩, ?_⟩
    simp only [writeBody, id_eq, List.append_assoc]
  · rintro ⟨⟨kind, framed⟩, rfl⟩
    cases b with
    | burn segment quantity ins outs =>
      obtain ⟨width, bound, consumed, made⟩ := framed
      refine ⟨segment, _, ⟨width, ?_⟩, quantity, _, ⟨bound, rfl⟩, ins, _, ⟨consumed, rfl⟩, outs, t, ⟨made, rfl⟩, rfl, rfl⟩
      simp only [writeBody, id_eq, List.append_assoc]
    | _ => cases kind

theorem readDemand_inverts : Inverts readDemand writeBody (Body.FramedAs 4) := by
  intro s b t
  simp only [readDemand, read_bind_eq_ok, read_pure_eq_ok, Reader.raw_inverts _ _ _ _, Reader.u64_inverts _ _ _, readInputs_inverts _ _ _]
  constructor
  · rintro ⟨_, _, ⟨segment, rfl⟩, _, _, ⟨ins, rfl⟩, _, _, ⟨presenter, rfl⟩, _, _, ⟨instant, rfl⟩, _, _, ⟨deadline, rfl⟩, rfl, rfl⟩
    refine ⟨⟨rfl, segment, ins, presenter, instant, deadline⟩, ?_⟩
    simp only [writeBody, id_eq, List.append_assoc]
  · rintro ⟨⟨kind, framed⟩, rfl⟩
    cases b with
    | demand segment ins presenter instant deadline =>
      obtain ⟨width, consumed, key, from_, until_⟩ := framed
      refine ⟨segment, _, ⟨width, ?_⟩, ins, _, ⟨consumed, rfl⟩, presenter, _, ⟨key, rfl⟩, instant, _, ⟨from_, rfl⟩, deadline, t,
        ⟨until_, rfl⟩, rfl, rfl⟩
      simp only [writeBody, id_eq, List.append_assoc]
    | _ => cases kind

theorem readWithdraw_inverts : Inverts readWithdraw writeBody (Body.FramedAs 5) := by
  intro s b t
  simp only [readWithdraw, read_bind_eq_ok, read_pure_eq_ok, Reader.raw_inverts _ _ _ _]
  constructor
  · rintro ⟨_, _, ⟨segment, rfl⟩, _, _, ⟨demand, rfl⟩, rfl, rfl⟩
    refine ⟨⟨rfl, segment, demand⟩, ?_⟩
    simp only [writeBody, id_eq, List.append_assoc]
  · rintro ⟨⟨kind, framed⟩, rfl⟩
    cases b with
    | withdraw segment demand =>
      obtain ⟨width, named⟩ := framed
      refine ⟨segment, _, ⟨width, ?_⟩, demand, t, ⟨named, rfl⟩, rfl, rfl⟩
      simp only [writeBody, id_eq, List.append_assoc]
    | _ => cases kind

theorem readSettle_inverts : Inverts readSettle writeBody (Body.FramedAs 6) := by
  intro s b t
  simp only [readSettle, read_bind_eq_ok, read_pure_eq_ok, Reader.raw_inverts _ _ _ _]
  constructor
  · rintro ⟨_, _, ⟨segment, rfl⟩, _, _, ⟨demand, rfl⟩, _, _, ⟨owner, rfl⟩, rfl, rfl⟩
    refine ⟨⟨rfl, segment, demand, owner⟩, ?_⟩
    simp only [writeBody, id_eq, List.append_assoc]
  · rintro ⟨⟨kind, framed⟩, rfl⟩
    cases b with
    | settle segment demand owner =>
      obtain ⟨width, named, key⟩ := framed
      refine ⟨segment, _, ⟨width, ?_⟩, demand, _, ⟨named, rfl⟩, owner, t, ⟨key, rfl⟩, rfl, rfl⟩
      simp only [writeBody, id_eq, List.append_assoc]
    | _ => cases kind

theorem readRequest_inverts : Inverts readRequest writeBody (Body.FramedAs 7) := by
  intro s b t
  simp only [readRequest, read_bind_eq_ok, read_pure_eq_ok, Reader.u64_inverts _ _ _, readOpening_inverts _ _ _]
  constructor
  · rintro ⟨_, _, ⟨input, rfl⟩, _, _, ⟨refresh, rfl⟩, rfl, rfl⟩
    refine ⟨⟨rfl, input, refresh⟩, ?_⟩
    simp only [writeBody, List.append_assoc]
  · rintro ⟨⟨kind, framed⟩, rfl⟩
    cases b with
    | request input refresh =>
      obtain ⟨opening, bound⟩ := framed
      refine ⟨input, _, ⟨opening, ?_⟩, refresh, t, ⟨bound, rfl⟩, rfl, rfl⟩
      simp only [writeBody, List.append_assoc]
    | _ => cases kind

/-- Each kind's reader takes back what its kind writes. -/
theorem readBody_inverts {kind : Nat} (known : 1 ≤ kind ∧ kind ≤ 7) : Inverts (readBody kind) writeBody (Body.FramedAs kind) := by
  obtain rfl | rfl | rfl | rfl | rfl | rfl | rfl : kind = 1 ∨ kind = 2 ∨ kind = 3 ∨ kind = 4 ∨ kind = 5 ∨ kind = 6 ∨ kind = 7 := by omega
  · exact readIssue_inverts
  · exact readSpend_inverts
  · exact readBurn_inverts
  · exact readDemand_inverts
  · exact readWithdraw_inverts
  · exact readSettle_inverts
  · exact readRequest_inverts

theorem Body.kind_range (b : Body) : 1 ≤ b.kind ∧ b.kind ≤ 7 := by
  cases b <;> simp [Body.kind]

theorem list_eq_ok {α : Type} {own : α → Except Failure α} {sound : α → Prop} (each : ∀ a b, own a = .ok b ↔ sound a ∧ b = a)
    {min max : Nat} {what : String} {items taken : List α} :
    list min max own what items = .ok taken ↔ ((min ≤ items.length ∧ items.length ≤ max) ∧ ∀ a ∈ items, sound a) ∧ taken = items := by
  simp only [list, bind_eq_ok, require_eq_ok, Bool.and_eq_true, decide_eq_true_eq, mapM_eq_ok, each]
  have same : List.Forall₂ (fun a b => sound a ∧ b = a) items taken ↔ (∀ a ∈ items, sound a) ∧ taken = items := by
    constructor
    · intro pairs
      induction pairs with
      | nil => simp
      | cons first _ ih =>
        obtain ⟨sounds, rfl⟩ := ih
        obtain ⟨sound, rfl⟩ := first
        exact ⟨List.forall_mem_cons.mpr ⟨sound, sounds⟩, rfl⟩
    · rintro ⟨sounds, rfl⟩
      exact List.forall₂_same.mpr fun a member => ⟨sounds a member, rfl⟩
  rw [same]
  constructor
  · rintro ⟨-, range, sounds, taken⟩
    exact ⟨⟨range, sounds⟩, taken⟩
  · rintro ⟨⟨range, sounds⟩, taken⟩
    exact ⟨(), range, sounds, taken⟩

theorem writeInputs_length {ins : List Opening} (framed : ∀ i ∈ ins, i.Framed) : (ins.flatMap writeOpening).length = 104 * ins.length :=
  flatMap_length fun i member => writeOpening_length (framed i member)

theorem writeOutputs_length {outs : List Output} (framed : ∀ o ∈ outs, o.Framed) : (outs.flatMap writeOutput).length = 72 * outs.length :=
  flatMap_length fun o member => writeOutput_length (framed o member)

/-- How long a body's own bytes are. -/
def Body.length : Body → Nat
  | .issue .. => 136
  | .spend _ ins outs => 34 + 104 * ins.length + 72 * outs.length
  | .burn _ _ ins outs => 42 + 104 * ins.length + 72 * outs.length
  | .demand _ ins _ _ _ => 81 + 104 * ins.length
  | .withdraw .. => 64
  | .settle .. => 96
  | .request .. => 112

theorem writeBody_length {b : Body} (framed : b.Framed) : (writeBody b).length = b.length := by
  cases b with
  | issue =>
    obtain ⟨segment, output, nonce⟩ := framed
    simp only [writeBody, List.length_append, segment, writeOutput_length output, nonce, Body.length]
  | spend =>
    obtain ⟨segment, ⟨-, ins⟩, -, outs⟩ := framed
    simp only [writeBody, List.length_append, segment, toBytes_length, writeInputs_length ins, writeOutputs_length outs, Body.length]
    omega
  | burn =>
    obtain ⟨segment, -, ⟨-, ins⟩, -, outs⟩ := framed
    simp only [writeBody, List.length_append, segment, toBytes_length, writeInputs_length ins, writeOutputs_length outs, Body.length]
    omega
  | demand =>
    obtain ⟨segment, ⟨-, ins⟩, presenter, -, -⟩ := framed
    simp only [writeBody, List.length_append, segment, toBytes_length, writeInputs_length ins, presenter, Body.length]
    omega
  | withdraw =>
    obtain ⟨segment, named⟩ := framed
    simp only [writeBody, List.length_append, segment, named, Body.length]
  | settle =>
    obtain ⟨segment, named, owner⟩ := framed
    simp only [writeBody, List.length_append, segment, named, owner, Body.length]
  | request =>
    obtain ⟨input, -⟩ := framed
    simp only [writeBody, List.length_append, writeOpening_length input, toBytes_length, Body.length]

theorem Body.length_le {b : Body} (framed : b.Framed) : b.length ≤ 600 := by
  have few : maxInputs = 2 ∧ maxOutputs = 4 := ⟨rfl, rfl⟩
  cases b with
  | spend =>
    obtain ⟨-, ⟨⟨-, ins⟩, -⟩, ⟨-, outs⟩, -⟩ := framed
    simp only [Body.length]
    omega
  | burn =>
    obtain ⟨-, -, ⟨⟨-, ins⟩, -⟩, ⟨-, outs⟩, -⟩ := framed
    simp only [Body.length]
    omega
  | demand =>
    obtain ⟨-, ⟨⟨-, ins⟩, -⟩, -⟩ := framed
    simp only [Body.length]
    omega
  | _ => simp [Body.length]

theorem splitRecord_eq_ok {bytes statement authorization : Bytes} :
    splitRecord bytes = .ok (statement, authorization) ↔
      (statement.length < 2 ^ 32 ∧ authorization.length < 2 ^ 32) ∧ bytes = lengthPrefixed statement ++ lengthPrefixed authorization := by
  simp only [splitRecord, Reader.run_eq_ok, readSplit, read_bind_eq_ok, read_pure_eq_ok, Reader.lengthPrefixed_inverts _ _ _ _,
    Reader.expectEnd_eq_ok]
  constructor
  · rintro ⟨_, _, _, ⟨⟨_, first⟩, rfl⟩, _, _, ⟨⟨_, second⟩, rfl⟩, _, _, ⟨rfl, rfl⟩, same, rfl⟩
    obtain ⟨rfl, rfl⟩ := Prod.mk.inj same
    exact ⟨⟨first, second⟩, by rw [List.append_nil]⟩
  · rintro ⟨⟨first, second⟩, rfl⟩
    exact ⟨[], _, _, ⟨⟨by omega, first⟩, rfl⟩, _, [], ⟨⟨by omega, second⟩, (List.append_nil _).symm⟩, (), [], ⟨rfl, rfl⟩, rfl, rfl⟩

section Keys

variable [PublicKeys]

/-- A body every codec takes. -/
def Body.Sound : Body → Prop
  | .issue segment backing quantity owner nonce =>
    segment.length = 32 ∧ backing.length = 32 ∧ (0 < quantity ∧ quantity < valueBound) ∧ (owner.length = 32 ∧ isValidPublicKey owner = true) ∧
      nonce.length = 32
  | .spend segment ins outs =>
    segment.length = 32 ∧ ((1 ≤ ins.length ∧ ins.length ≤ maxInputs) ∧ ∀ i ∈ ins, i.Sound) ∧
      (1 ≤ outs.length ∧ outs.length ≤ maxOutputs) ∧ ∀ o ∈ outs, o.Sound
  | .burn segment quantity ins outs =>
    segment.length = 32 ∧ (0 < quantity ∧ quantity < valueBound) ∧ ((1 ≤ ins.length ∧ ins.length ≤ maxInputs) ∧ ∀ i ∈ ins, i.Sound) ∧
      (0 ≤ outs.length ∧ outs.length ≤ 1) ∧ ∀ o ∈ outs, o.Sound
  | .demand segment ins presenter instant deadline =>
    segment.length = 32 ∧ ((1 ≤ ins.length ∧ ins.length ≤ maxInputs) ∧ ∀ i ∈ ins, i.Sound) ∧
      (presenter.length = 32 ∧ isValidPublicKey presenter = true) ∧ instant < valueBound ∧ deadline < valueBound
  | .withdraw segment named => segment.length = 32 ∧ named.length = 32
  | .settle segment named owner => segment.length = 32 ∧ named.length = 32 ∧ owner.length = 32 ∧ isValidPublicKey owner = true
  | .request input refresh => input.Sound ∧ refresh < valueBound

/-- A statement every codec takes. -/
def Statement.Sound (st : Statement) : Prop := st.domain.length = 32 ∧ st.body.Sound

theorem ownBody_eq_ok {b own : Body} : ownBody b = .ok own ↔ b.Sound ∧ own = b := by
  have inputs_eq_ok {items taken : List Opening} : inputs items = .ok taken ↔ _ := list_eq_ok fun _ _ => ownOpening_eq_ok
  have outputs_eq_ok {min max : Nat} {items taken : List Output} : list min max ownOutput "output" items = .ok taken ↔ _ :=
    list_eq_ok fun _ _ => ownOutput_eq_ok
  cases b <;> simp only [ownBody, bind_eq_ok, pure_eq_ok, field32_eq_ok, positive_eq_ok, u64_eq_ok, key32_eq_ok, ownOpening_eq_ok, inputs_eq_ok,
    outputs_eq_ok, Body.Sound]
  case issue =>
    constructor
    · rintro ⟨_, ⟨segment, rfl⟩, _, ⟨backing, rfl⟩, _, ⟨quantity, rfl⟩, _, ⟨owner, rfl⟩, _, ⟨nonce, rfl⟩, rfl⟩
      exact ⟨⟨segment, backing, quantity, owner, nonce⟩, rfl⟩
    · rintro ⟨⟨segment, backing, quantity, owner, nonce⟩, rfl⟩
      exact ⟨_, ⟨segment, rfl⟩, _, ⟨backing, rfl⟩, _, ⟨quantity, rfl⟩, _, ⟨owner, rfl⟩, _, ⟨nonce, rfl⟩, rfl⟩
  case spend =>
    constructor
    · rintro ⟨_, ⟨segment, rfl⟩, _, ⟨ins, rfl⟩, _, ⟨outs, rfl⟩, rfl⟩
      exact ⟨⟨segment, ins, outs⟩, rfl⟩
    · rintro ⟨⟨segment, ins, outs⟩, rfl⟩
      exact ⟨_, ⟨segment, rfl⟩, _, ⟨ins, rfl⟩, _, ⟨outs, rfl⟩, rfl⟩
  case burn =>
    constructor
    · rintro ⟨_, ⟨segment, rfl⟩, _, ⟨quantity, rfl⟩, _, ⟨ins, rfl⟩, _, ⟨outs, rfl⟩, rfl⟩
      exact ⟨⟨segment, quantity, ins, outs⟩, rfl⟩
    · rintro ⟨⟨segment, quantity, ins, outs⟩, rfl⟩
      exact ⟨_, ⟨segment, rfl⟩, _, ⟨quantity, rfl⟩, _, ⟨ins, rfl⟩, _, ⟨outs, rfl⟩, rfl⟩
  case demand =>
    constructor
    · rintro ⟨_, ⟨segment, rfl⟩, _, ⟨ins, rfl⟩, _, ⟨presenter, rfl⟩, _, ⟨instant, rfl⟩, _, ⟨deadline, rfl⟩, rfl⟩
      exact ⟨⟨segment, ins, presenter, instant, deadline⟩, rfl⟩
    · rintro ⟨⟨segment, ins, presenter, instant, deadline⟩, rfl⟩
      exact ⟨_, ⟨segment, rfl⟩, _, ⟨ins, rfl⟩, _, ⟨presenter, rfl⟩, _, ⟨instant, rfl⟩, _, ⟨deadline, rfl⟩, rfl⟩
  case withdraw =>
    constructor
    · rintro ⟨_, ⟨segment, rfl⟩, _, ⟨named, rfl⟩, rfl⟩
      exact ⟨⟨segment, named⟩, rfl⟩
    · rintro ⟨⟨segment, named⟩, rfl⟩
      exact ⟨_, ⟨segment, rfl⟩, _, ⟨named, rfl⟩, rfl⟩
  case settle =>
    constructor
    · rintro ⟨_, ⟨segment, rfl⟩, _, ⟨named, rfl⟩, _, ⟨owner, rfl⟩, rfl⟩
      exact ⟨⟨segment, named, owner⟩, rfl⟩
    · rintro ⟨⟨segment, named, owner⟩, rfl⟩
      exact ⟨_, ⟨segment, rfl⟩, _, ⟨named, rfl⟩, _, ⟨owner, rfl⟩, rfl⟩
  case request =>
    constructor
    · rintro ⟨_, ⟨input, rfl⟩, _, ⟨refresh, rfl⟩, rfl⟩
      exact ⟨⟨input, refresh⟩, rfl⟩
    · rintro ⟨⟨input, refresh⟩, rfl⟩
      exact ⟨_, ⟨input, rfl⟩, _, ⟨refresh, rfl⟩, rfl⟩

theorem ownStatement_eq_ok {st own : Statement} : ownStatement st = .ok own ↔ st.Sound ∧ own = st := by
  simp only [ownStatement, bind_eq_ok, pure_eq_ok, field32_eq_ok, ownBody_eq_ok]
  constructor
  · rintro ⟨_, ⟨domain, rfl⟩, _, ⟨body, rfl⟩, rfl⟩
    exact ⟨⟨domain, body⟩, rfl⟩
  · rintro ⟨⟨domain, body⟩, rfl⟩
    exact ⟨_, ⟨domain, rfl⟩, _, ⟨body, rfl⟩, rfl⟩

theorem Body.Sound.framed {b : Body} (sound : b.Sound) : b.Framed := by
  cases b with
  | issue =>
    obtain ⟨segment, backing, quantity, owner, nonce⟩ := sound
    exact ⟨segment, ⟨backing, quantity.2, owner.1⟩, nonce⟩
  | spend =>
    obtain ⟨segment, ⟨few, ins⟩, some_, outs⟩ := sound
    exact ⟨segment, ⟨few, fun i member => (ins i member).framed⟩, some_, fun o member => (outs o member).framed⟩
  | burn =>
    obtain ⟨segment, quantity, ⟨few, ins⟩, some_, outs⟩ := sound
    exact ⟨segment, quantity.2, ⟨few, fun i member => (ins i member).framed⟩, some_, fun o member => (outs o member).framed⟩
  | demand =>
    obtain ⟨segment, ⟨few, ins⟩, presenter, instant, deadline⟩ := sound
    exact ⟨segment, ⟨few, fun i member => (ins i member).framed⟩, presenter.1, instant, deadline⟩
  | withdraw => exact sound
  | settle => exact ⟨sound.1, sound.2.1, sound.2.2.1⟩
  | request => exact ⟨sound.1.framed, sound.2⟩

theorem readStatement_inverts : Inverts readStatement writeStatement Statement.Sound := by
  intro s st t
  simp only [readStatement, read_bind_eq_ok, read_lift_eq_ok, Reader.raw_inverts _ _ _ _, Reader.u8_inverts _ _ _, require_eq_ok,
    decide_eq_true_eq, Bool.and_eq_true, ownStatement_eq_ok]
  constructor
  · rintro ⟨_, _, ⟨_, rfl⟩, _, _, ⟨rfl, rfl⟩, domain, _, ⟨_, rfl⟩, kind, _, ⟨_, rfl⟩, _, _, ⟨known, rfl⟩, body, _, read, ⟨sound, rfl⟩, rfl⟩
    obtain ⟨⟨rfl, -⟩, rfl⟩ := (readBody_inverts known _ _ _).mp read
    refine ⟨sound, ?_⟩
    simp only [writeStatement, id_eq, List.append_assoc]
  · rintro ⟨sound, rfl⟩
    have known := st.body.kind_range
    refine ⟨statementContext, _, ⟨rfl, ?_⟩, (), _, ⟨rfl, rfl⟩, st.domain, _, ⟨sound.1, rfl⟩, st.body.kind, _, ⟨by omega, rfl⟩, (), _, ⟨known, rfl⟩,
      st.body, t, (readBody_inverts known _ _ _).mpr ⟨⟨rfl, sound.2.framed⟩, rfl⟩, ⟨sound, rfl⟩, rfl⟩
    simp only [writeStatement, id_eq, List.append_assoc]

theorem decodeStatement_eq_ok {bytes : Bytes} {st : Statement} : decodeStatement bytes = .ok st ↔ st.Sound ∧ bytes = writeStatement st := by
  simp only [decodeStatement, Reader.run_eq_ok, read_bind_eq_ok, read_pure_eq_ok, Reader.expectEnd_eq_ok, readStatement_inverts _ _ _]
  constructor
  · rintro ⟨_, _, _, ⟨sound, rfl⟩, _, _, ⟨rfl, rfl⟩, rfl, rfl⟩
    exact ⟨sound, List.append_nil _⟩
  · rintro ⟨sound, rfl⟩
    exact ⟨[], st, [], ⟨sound, (List.append_nil _).symm⟩, (), [], ⟨rfl, rfl⟩, rfl, rfl⟩

theorem statementBytes_eq_ok {bytes : Bytes} {st : Statement} : statementBytes st = .ok bytes ↔ st.Sound ∧ bytes = writeStatement st := by
  simp only [statementBytes, bind_eq_ok, pure_eq_ok, ownStatement_eq_ok]
  constructor
  · rintro ⟨_, ⟨sound, rfl⟩, rfl⟩
    exact ⟨sound, rfl⟩
  · rintro ⟨sound, rfl⟩
    exact ⟨st, ⟨sound, rfl⟩, rfl⟩

theorem writeStatement_length {st : Statement} (sound : st.Sound) : (writeStatement st).length = 53 + st.body.length := by
  have context : statementContext.length = 20 := by decide
  simp only [writeStatement, List.length_append, context, sound.1, toBytes_length, writeBody_length sound.2.framed]

theorem authorizationLength_le {st : Statement} (sound : st.Sound) : authorizationLength st ≤ 200 := by
  obtain ⟨domain, body⟩ := st
  have few : maxInputs = 2 := rfl
  have framed : body.Framed := sound.2.framed
  cases body with
  | spend =>
    obtain ⟨-, ⟨⟨-, ins⟩, -⟩, -⟩ := framed
    simp only [authorizationLength]
    omega
  | burn =>
    obtain ⟨-, -, ⟨⟨-, ins⟩, -⟩, -⟩ := framed
    simp only [authorizationLength]
    omega
  | demand =>
    obtain ⟨-, ⟨⟨-, ins⟩, -⟩, -⟩ := framed
    simp only [authorizationLength]
    omega
  | _ => simp [authorizationLength, settlementAuthorizationBytes]

/-- A record every codec takes. -/
def LitRecord.Sound (r : LitRecord) : Prop := r.statement.Sound ∧ r.authorization.length = authorizationLength r.statement

def writeRecord (r : LitRecord) : Bytes := lengthPrefixed (writeStatement r.statement) ++ lengthPrefixed r.authorization

theorem ownRecord_eq_ok {r own : LitRecord} : ownRecord r = .ok own ↔ r.Sound ∧ own = r := by
  simp only [ownRecord, bind_eq_ok, require_eq_ok, decide_eq_true_eq, pure_eq_ok, ownStatement_eq_ok]
  constructor
  · rintro ⟨_, ⟨sound, rfl⟩, _, width, rfl⟩
    exact ⟨⟨sound, width⟩, rfl⟩
  · rintro ⟨⟨sound, width⟩, rfl⟩
    exact ⟨_, ⟨sound, rfl⟩, (), width, rfl⟩

theorem encodeRecord_eq_ok {r : LitRecord} {bytes : Bytes} : encodeRecord r = .ok bytes ↔ r.Sound ∧ bytes = writeRecord r := by
  simp only [encodeRecord, bind_eq_ok, pure_eq_ok, ownRecord_eq_ok, statementBytes_eq_ok]
  constructor
  · rintro ⟨_, ⟨sound, rfl⟩, _, ⟨-, rfl⟩, rfl⟩
    exact ⟨sound, rfl⟩
  · rintro ⟨sound, rfl⟩
    exact ⟨_, ⟨sound, rfl⟩, _, ⟨sound.1, rfl⟩, rfl⟩

theorem LitRecord.Sound.split {r : LitRecord} (sound : r.Sound) :
    splitRecord (writeRecord r) = .ok (writeStatement r.statement, r.authorization) := by
  have statement := writeStatement_length sound.1
  have body := Body.length_le sound.1.2.framed
  have authorization := authorizationLength_le sound.1
  have width := sound.2
  exact splitRecord_eq_ok.mpr ⟨⟨by omega, by omega⟩, rfl⟩

theorem decodeRecord_eq_ok {r : LitRecord} {bytes : Bytes} : decodeRecord bytes = .ok r ↔ r.Sound ∧ bytes = writeRecord r := by
  simp only [decodeRecord, bind_eq_ok, ownRecord_eq_ok]
  constructor
  · rintro ⟨⟨statement, authorization⟩, split, _, decoded, sound, rfl⟩
    obtain ⟨-, rfl⟩ := splitRecord_eq_ok.mp split
    obtain ⟨-, rfl⟩ := decodeStatement_eq_ok.mp decoded
    exact ⟨sound, rfl⟩
  · rintro ⟨sound, rfl⟩
    exact ⟨_, sound.split, _, decodeStatement_eq_ok.mpr ⟨sound.1, rfl⟩, sound, rfl⟩

end Keys

end Lit

end Moe
