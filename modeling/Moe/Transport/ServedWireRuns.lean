import Moe.Transport.ServedWire

namespace Moe.Service

variable {σ τ : Type}

/-- A part as it crosses: a package, or a trail's bytes after a tip. -/
inductive ServedPart
  | package (bytes : Bytes)
  | trail (after : Option TrailTip) (bytes : Bytes)

namespace ServedPart

def head : ServedPart → PartHead
  | package bytes => .package bytes
  | trail after bytes => .trail after bytes.length

/-- What follows the head. -/
def body : ServedPart → Bytes
  | package _ => []
  | trail _ bytes => bytes

def frame (part : ServedPart) : Bytes := part.head.frame ++ part.body

def Fits (part : ServedPart) : Prop := part.head.Fits

variable {part other : ServedPart}

/-- A head says how long its body is. -/
theorem body_length (heads : part.head = other.head) : part.body.length = other.body.length := by
  cases part <;> cases other <;> simp_all [head, body]

theorem eq_of (heads : part.head = other.head) (bodies : part.body = other.body) : part = other := by
  cases part <;> cases other <;> simp_all [head, body]

end ServedPart

/-- The bytes after the first frame. -/
def partsFrame (parts : List ServedPart) : Bytes := parts.flatMap ServedPart.frame ++ [0]

/-- What a receiver makes of parts handed to it in their order: of each trail it is given pieces that are its first bytes, as many as it
asks for, up to all of them. -/
inductive Takes (t : Taker σ τ) : σ → List ServedPart → Taken σ → Prop
  | closed {s : σ} : t.goesOn s = true → Takes t s [] (.closed s)
  | early {s : σ} {parts : List ServedPart} : t.goesOn s = false → Takes t s parts (.early s)
  | packageThrew {s : σ} {bytes : Bytes} {failure : Failure} {parts : List ServedPart} : t.goesOn s = true →
      t.package s bytes = .error failure → Takes t s (.package bytes :: parts) (.threw failure)
  | package {s next : σ} {bytes : Bytes} {parts : List ServedPart} {taken : Taken σ} : t.goesOn s = true → t.package s bytes = .ok next →
      Takes t next parts taken → Takes t s (.package bytes :: parts) taken
  | trailThrew {s : σ} {after : Option TrailTip} {bytes : Bytes} {failure : Failure} {parts : List ServedPart} : t.goesOn s = true →
      t.trail s after bytes.length = .error failure → Takes t s (.trail after bytes :: parts) (.threw failure)
  | pieceThrew {s first later : σ} {after : Option TrailTip} {pieces : List Bytes} {bytes unread : Bytes} {failure : Failure}
      {parts : List ServedPart} : t.goesOn s = true → t.trail s after (pieces.flatten ++ bytes ++ unread).length = .ok first →
      ChunkCursor.Draws t.pulls t.piece first pieces later → t.pulls later = true → bytes ≠ [] → t.piece later bytes = .error failure →
      Takes t s (.trail after (pieces.flatten ++ bytes ++ unread) :: parts) (.threw failure)
  | trail {s first later : σ} {after : Option TrailTip} {pieces : List Bytes} {unread : Bytes} {parts : List ServedPart} {taken : Taken σ} :
      t.goesOn s = true → t.trail s after (pieces.flatten ++ unread).length = .ok first →
      ChunkCursor.Draws t.pulls t.piece first pieces later → (unread = [] ∨ t.pulls later = false) → Takes t later parts taken →
      Takes t s (.trail after (pieces.flatten ++ unread) :: parts) taken

variable {t : Taker σ τ} {s s' : σ} {c : ChunkCursor UInt8} {parts : List ServedPart} {steps : Nat}

theorem PartHead.frame_length (part : PartHead) : 0 < part.frame.length := by
  unfold PartHead.frame
  split <;> simp

/-- A part's head as it is read where a part lies ahead. -/
theorem readPart_ahead {part : PartHead} (fits : part.Fits) {rest : Bytes} (ahead : c.rest = part.frame ++ rest) :
    ∃ c', readPart takeServed c = .ok (part, c') ∧ c'.rest = rest := by
  have read := readPart_inverts.reads fits rest
  rw [← ahead] at read
  exact readPart_reads.exists_ok read

/-- Handed parts' bytes in any chunks, the reader hands its receiver those parts. -/
theorem readParts_takes (fits : ∀ part ∈ parts, part.Fits) (whole : c.rest = partsFrame parts) (enough : c.rest.length < steps) :
    Takes t s parts (readParts t steps s c) := by
  induction parts generalizing s c steps with
  | nil =>
    obtain ⟨c', read, left⟩ := @readPart_ahead c .closed trivial [] whole
    obtain ⟨steps, rfl⟩ := Nat.exists_eq_add_one_of_ne_zero (Nat.ne_zero_of_lt enough)
    rw [readParts]
    split
    · rename_i stopped
      exact .early stopped
    · rename_i on
      rw [read]
      have done_ : ChunkCursor.ended c'.held c'.source = true := ChunkCursor.ended_iff.mpr left
      simp only [done_, if_true]
      exact .closed (by simpa using on)
  | cons part parts ih =>
    obtain ⟨fit, others⟩ := List.forall_mem_cons.mp fits
    have ahead : c.rest = part.head.frame ++ (part.body ++ partsFrame parts) := by
      simp only [whole, partsFrame, List.flatMap_cons, ServedPart.frame, List.append_assoc]
    obtain ⟨c', read, left⟩ := readPart_ahead fit ahead
    have shorter := part.head.frame_length
    rw [ahead, ← left, List.length_append] at enough
    obtain ⟨steps, rfl⟩ := Nat.exists_eq_add_one_of_ne_zero (Nat.ne_zero_of_lt enough)
    rw [readParts]
    split
    · rename_i stopped
      exact .early stopped
    · rename_i on
      have on : t.goesOn s = true := by simpa using on
      rw [read]
      cases part with
      | package bytes =>
        cases took : t.package s bytes with
        | error failure =>
          simp only [ServedPart.head, took]
          exact .packageThrew on took
        | ok next =>
          simp only [ServedPart.head, took]
          exact .package on took (ih others left (by omega))
      | trail after bytes =>
        cases took : t.trail s after bytes.length with
        | error failure =>
          simp only [ServedPart.head, took]
          exact .trailThrew on took
        | ok first =>
          simp only [ServedPart.head, took]
          have drew := @ChunkCursor.draw_drew _ _ _ t.pulls t.piece first bytes.length c'.held c'.source
          have here : (ChunkCursor.mk c'.held c'.source).rest = bytes ++ partsFrame parts := left
          rw [here] at drew
          rcases drawn : ChunkCursor.draw t.pulls t.piece first bytes.length c'.held c'.source with (later | failure) | ⟨later, beyond, d⟩
          · rw [drawn] at drew
            obtain ⟨pieces, -, -, few, -⟩ := drew
            rw [List.length_append] at few
            omega
          · rw [drawn] at drew
            obtain ⟨pieces, later, piece, more, draws, same, fit, asked, some_, thrown⟩ := drew
            obtain ⟨unread, rfl⟩ : pieces.flatten ++ piece <+: bytes :=
              List.prefix_of_prefix_length_le ⟨more, same.symm⟩ (List.prefix_append _ _) fit
            exact .pieceThrew on took draws asked some_ thrown
          · rw [drawn] at drew
            obtain ⟨pieces, draws, same, counted, stopped⟩ := drew
            obtain ⟨unread, rfl⟩ : pieces.flatten <+: bytes :=
              List.prefix_of_prefix_length_le ⟨d.rest, same.symm⟩ (List.prefix_append _ _) (by omega)
            rw [List.length_append] at counted
            have remaining : d.rest = unread ++ partsFrame parts := by
              rw [List.append_assoc] at same
              exact (List.append_cancel_left same).symm
            have idle : unread = [] ∨ t.pulls later = false := stopped.imp_left fun none_ => List.length_eq_zero_iff.mp (by omega)
            simp only
            split
            · rename_i stops
              exact .trail on took draws idle (.early stops)
            · have skipped : takeOr truncatedServed beyond d.rest = .ok (unread, partsFrame parts) :=
                (takeOr_inverts _ _ _ _ _).mpr ⟨by omega, remaining⟩
              obtain ⟨d', skip, after_⟩ := (ChunkCursor.Reads.take truncatedServed beyond).exists_ok skipped
              have skip : takeServed beyond d = .ok (unread, d') := skip
              simp only [skip]
              refine .trail on took draws idle (ih others after_ ?_)
              have whole := congrArg List.length left
              rw [after_]
              simp only [ServedPart.body, List.length_append] at whole
              omega

/-- A read that comes to the end mark and the exact end of the stream handed its receiver the parts the stream is made of. -/
theorem readParts_closed (ran : readParts t steps s c = .closed s') :
    ∃ parts : List ServedPart, (∀ part ∈ parts, part.Fits) ∧ c.rest = partsFrame parts ∧ Takes t s parts (.closed s') := by
  induction steps generalizing s c with
  | zero => cases ran
  | succ steps ih =>
    rw [readParts] at ran
    split at ran
    · cases ran
    · rename_i on
      have on : t.goesOn s = true := by simpa using on
      split at ran
      · cases ran
      · rename_i c' read
        obtain ⟨-, ahead⟩ := (readPart_inverts _ _ _).mp (readPart_reads.ok read)
        split at ran
        · rename_i done_
          obtain rfl := Taken.closed.inj ran
          have none_ := ChunkCursor.ended_iff.mp done_
          exact ⟨[], by simp, by rw [ahead, none_]; rfl, .closed on⟩
        · cases ran
      · rename_i bytes c' read
        obtain ⟨fit, ahead⟩ := (readPart_inverts _ _ _).mp (readPart_reads.ok read)
        split at ran
        · cases ran
        · rename_i next took
          obtain ⟨parts, fits, rest, takes⟩ := ih ran
          refine ⟨.package bytes :: parts, List.forall_mem_cons.mpr ⟨fit, fits⟩, ?_, .package on took takes⟩
          simp [ahead, rest, partsFrame, ServedPart.frame, ServedPart.head, ServedPart.body]
      · rename_i after size c' read
        obtain ⟨fit, ahead⟩ := (readPart_inverts _ _ _).mp (readPart_reads.ok read)
        split at ran
        · cases ran
        · rename_i first took
          have drew := @ChunkCursor.draw_drew _ _ _ t.pulls t.piece first size c'.held c'.source
          split at ran
          · cases ran
          · cases ran
          · rename_i later beyond d drawn
            rw [drawn] at drew
            obtain ⟨pieces, draws, same, rfl, stopped⟩ := drew
            split at ran
            · cases ran
            · split at ran
              · cases ran
              · rename_i unread d' skip
                obtain ⟨length, skipped⟩ := (takeOr_inverts _ _ _ _ _).mp ((ChunkCursor.Reads.take truncatedServed beyond).ok skip)
                obtain ⟨parts, fits, rest, takes⟩ := ih ran
                have size : (pieces.flatten ++ unread).length = pieces.flatten.length + beyond := by rw [List.length_append, length]
                refine ⟨.trail after (pieces.flatten ++ unread) :: parts, List.forall_mem_cons.mpr ⟨?_, fits⟩, ?_, .trail on ?_ draws ?_ takes⟩
                · rw [ServedPart.Fits, ServedPart.head, size]
                  exact fit
                · have here : c'.rest = pieces.flatten ++ d.rest := same
                  simp [ahead, here, skipped, rest, partsFrame, ServedPart.frame, ServedPart.head, ServedPart.body, length]
                · rw [size]
                  exact took
                · exact stopped.imp_left fun none_ => List.length_eq_zero_iff.mp (length.trans none_)

/-- Parts are told apart by their frames, and no stream of them goes on from another's. -/
theorem partsFrame_unique {other : List ServedPart} {x y : Bytes} (fits : ∀ part ∈ parts, part.Fits) (fits' : ∀ part ∈ other, part.Fits)
    (same : partsFrame parts ++ x = partsFrame other ++ y) : parts = other ∧ x = y := by
  have opened : ∀ (parts : List ServedPart) (x : Bytes), (∀ part ∈ parts, part.Fits) → ∃ (head : PartHead) (rest : Bytes), head.Fits ∧
      partsFrame parts ++ x = head.frame ++ rest ∧ (parts = [] → head = .closed ∧ rest = x) ∧
        ∀ part others, parts = part :: others → head = part.head ∧ rest = part.body ++ (partsFrame others ++ x) := by
    intro parts x fits
    cases parts with
    | nil => exact ⟨.closed, x, trivial, rfl, fun _ => ⟨rfl, rfl⟩, fun _ _ some_ => by cases some_⟩
    | cons part others =>
      refine ⟨part.head, part.body ++ (partsFrame others ++ x), (List.forall_mem_cons.mp fits).1, ?_, fun none_ => (by cases none_), ?_⟩
      · simp [partsFrame, ServedPart.frame]
      · rintro part' others' same
        cases same
        exact ⟨rfl, rfl⟩
  induction parts generalizing other with
  | nil =>
    obtain ⟨head, rest, fit, framed, empty, -⟩ := opened [] x fits
    obtain ⟨head', rest', fit', framed', empty', more'⟩ := opened other y fits'
    obtain ⟨rfl, rfl⟩ := readPart_inverts.unique fit fit' (framed.symm.trans (same.trans framed'))
    obtain ⟨rfl, rfl⟩ := empty rfl
    cases other with
    | nil => exact ⟨rfl, (empty' rfl).2⟩
    | cons part others =>
      have kind := (more' part others rfl).1
      cases part <;> cases kind
  | cons part parts ih =>
    obtain ⟨head, rest, fit, framed, -, more⟩ := opened (part :: parts) x fits
    obtain ⟨head', rest', fit', framed', empty', more'⟩ := opened other y fits'
    obtain ⟨rfl, rfl⟩ := readPart_inverts.unique fit fit' (framed.symm.trans (same.trans framed'))
    obtain ⟨kind, after⟩ := more part parts rfl
    cases other with
    | nil =>
      have beyond := (empty' rfl).1
      rw [kind] at beyond
      cases part <;> cases beyond
    | cons part' others =>
      obtain ⟨kind', after'⟩ := more' part' others rfl
      have heads := kind.symm.trans kind'
      have bodies := after.symm.trans after'
      obtain ⟨own, left⟩ := List.append_inj bodies (ServedPart.body_length heads)
      obtain ⟨rfl, rfl⟩ := ih (List.forall_mem_cons.mp fits).2 (List.forall_mem_cons.mp fits').2 left
      rw [ServedPart.eq_of heads own]
      exact ⟨rfl, rfl⟩

/-- A part as its frames carry it. -/
def EvidencePart.part : EvidencePart → ServedPart
  | package bytes => .package bytes
  | trail after _ chunks => .trail after chunks.flatten

/-- Its integers are below 2^64, as their frames hold them. -/
def EvidencePart.Bounded : EvidencePart → Prop
  | package _ => True
  | trail after size _ => (∀ tip ∈ after, tip.position < 2 ^ 64) ∧ size < 2 ^ 64

theorem fixed_eq_ok {value own : Bytes} : fixed value = .ok own ↔ value.length = 32 ∧ value = own := by
  rw [fixed, bind_unit_eq_ok, require_eq_ok, pure_eq_ok, decide_eq_true_eq]

theorem partFrames_eq_ok {part : EvidencePart} {frames : List Bytes} (bounded : part.Bounded) (sent : partFrames part = .ok frames) :
    part.part.Fits ∧ frames.flatten = part.part.frame := by
  cases part with
  | package bytes =>
    simp only [partFrames, bind_unit_eq_ok, require_eq_ok, decide_eq_true_eq, pure_eq_ok] at sent
    obtain ⟨fits, rfl⟩ := sent
    exact ⟨fits, by simp [EvidencePart.part, ServedPart.frame, ServedPart.head, ServedPart.body, PartHead.frame, lengthPrefixed]⟩
  | trail after size chunks =>
    obtain ⟨tips, short⟩ := bounded
    simp only [partFrames, bind_eq_ok, require_eq_ok, decide_eq_true_eq, pure_eq_ok] at sent
    obtain ⟨head, made, -, counted, rfl⟩ := sent
    have length : chunks.flatten.length = size := by rw [List.length_flatten, counted]
    cases after with
    | none =>
      simp only [trailHead, pure_eq_ok] at made
      subst made
      refine ⟨⟨by simp, ?_⟩, ?_⟩
      · rw [length]
        exact short
      · simp [EvidencePart.part, ServedPart.frame, ServedPart.head, ServedPart.body, PartHead.frame, length]
    | some tip =>
      simp only [trailHead, bind_eq_ok, fixed_eq_ok, pure_eq_ok] at made
      obtain ⟨_, ⟨segment, rfl⟩, _, ⟨evidence, rfl⟩, rfl⟩ := made
      refine ⟨⟨?_, ?_⟩, ?_⟩
      · intro other member
        obtain rfl := Option.some.inj member
        exact ⟨segment, tips _ rfl, evidence⟩
      · rw [length]
        exact short
      · simp [EvidencePart.part, ServedPart.frame, ServedPart.head, ServedPart.body, PartHead.frame, TrailTip.frame, length]

theorem mapM_partFrames {parts : List EvidencePart} {frames : List (List Bytes)} (bounded : ∀ part ∈ parts, part.Bounded)
    (sent : parts.mapM partFrames = .ok frames) :
    (∀ part ∈ parts.map EvidencePart.part, part.Fits) ∧ frames.flatten.flatten = (parts.map EvidencePart.part).flatMap ServedPart.frame := by
  induction parts generalizing frames with
  | nil =>
    obtain rfl := Except.ok.inj sent
    simp
  | cons part parts ih =>
    obtain ⟨small, others⟩ := List.forall_mem_cons.mp bounded
    simp only [List.mapM_cons, bind_eq_ok, pure_eq_ok] at sent
    obtain ⟨first, framed, rest, ran, rfl⟩ := sent
    obtain ⟨fit, own⟩ := partFrames_eq_ok small framed
    obtain ⟨fits, same⟩ := ih others ran
    refine ⟨List.forall_mem_cons.mpr ⟨fit, fits⟩, ?_⟩
    rw [List.flatten_cons, List.flatten_append, own, same, List.map_cons, List.flatMap_cons]

theorem servedFrames_eq_ok {served : ServedEvidence} {chunks : List Bytes} (bounded : ∀ part ∈ served.parts, part.Bounded)
    (sent : servedFrames served = .ok chunks) : served.toServedPackage.Fits ∧ (∀ part ∈ served.parts.map EvidencePart.part, part.Fits) ∧
      chunks.flatten = served.toServedPackage.frame ++ partsFrame (served.parts.map EvidencePart.part) := by
  simp only [servedFrames, bind_eq_ok, require_eq_ok, decide_eq_true_eq, fixed_eq_ok, pure_eq_ok] at sent
  obtain ⟨-, ⟨positive, short⟩, -, fits, domain, ⟨domainWidth, rfl⟩, venue, ⟨venueWidth, rfl⟩, backing, ⟨backingWidth, rfl⟩, operator,
    ⟨operatorWidth, rfl⟩, root, ⟨rootWidth, rfl⟩, frames, ran, rfl⟩ := sent
  obtain ⟨partsFit, same⟩ := mapM_partFrames bounded ran
  refine ⟨⟨⟨domainWidth, venueWidth, backingWidth, operatorWidth, rootWidth, positive, short⟩, fits⟩, partsFit, ?_⟩
  simp [same, partsFrame, ServedPackage.frame, ServedSelection.frame, lengthPrefixed]

/-- The part sent in one chunk. -/
def ServedPart.whole : ServedPart → EvidencePart
  | package bytes => .package bytes
  | trail after bytes => .trail after bytes.length [bytes]

theorem ServedPart.partFrames_whole {part : ServedPart} (fits : part.Fits) :
    part.whole.Bounded ∧ part.whole.part = part ∧ ∃ frames, partFrames part.whole = .ok frames := by
  cases part with
  | package bytes =>
    refine ⟨trivial, rfl, ?_⟩
    simp only [whole, partFrames, bind_unit_eq_ok, require_eq_ok, decide_eq_true_eq, pure_eq_ok]
    exact ⟨_, fits, rfl⟩
  | trail after bytes =>
    obtain ⟨tips, short⟩ := fits
    refine ⟨⟨fun tip member => (tips tip member).2.1, short⟩, by simp [whole, EvidencePart.part], ?_⟩
    have counted : ([bytes].map List.length).sum = bytes.length := by simp
    cases after with
    | none =>
      simp only [whole, partFrames, trailHead, counted, bind_eq_ok, require_eq_ok, decide_eq_true_eq, pure_eq_ok]
      exact ⟨_, _, rfl, (), trivial, rfl⟩
    | some tip =>
      obtain ⟨segment, -, evidence⟩ := tips tip rfl
      simp only [whole, partFrames, trailHead, counted, bind_eq_ok, require_eq_ok, decide_eq_true_eq, pure_eq_ok, fixed_eq_ok]
      exact ⟨_, _, ⟨_, ⟨segment, rfl⟩, _, ⟨evidence, rfl⟩, rfl⟩, (), trivial, rfl⟩

/-- Every stream of parts that fit their frames is one that can be sent. -/
theorem exists_servedFrames {head : ServedPackage} {parts : List ServedPart} (fits : head.Fits) (partsFit : ∀ part ∈ parts, part.Fits) :
    ∃ served : ServedEvidence, served.toServedPackage = head ∧ served.parts.map EvidencePart.part = parts ∧
      (∀ part ∈ served.parts, part.Bounded) ∧ ∃ chunks, servedFrames served = .ok chunks := by
  have sent : ∃ frames, (parts.map ServedPart.whole).mapM partFrames = .ok frames := by
    induction parts with
    | nil => exact ⟨[], rfl⟩
    | cons part parts ih =>
      obtain ⟨fit, others⟩ := List.forall_mem_cons.mp partsFit
      obtain ⟨-, -, first, framed⟩ := ServedPart.partFrames_whole fit
      obtain ⟨rest, ran⟩ := ih others
      refine ⟨first :: rest, ?_⟩
      simp only [List.map_cons, List.mapM_cons, bind_eq_ok, pure_eq_ok]
      exact ⟨first, framed, rest, ran, rfl⟩
  obtain ⟨frames, ran⟩ := sent
  obtain ⟨⟨domain, venue, backing, operator, root, positive, short⟩, small⟩ := fits
  refine ⟨⟨head, parts.map ServedPart.whole⟩, rfl, ?_, ?_, ?_⟩
  · rw [List.map_map]
    exact (List.map_congr_left fun part member => (ServedPart.partFrames_whole (partsFit part member)).2.1).trans (List.map_id parts)
  · intro part member
    obtain ⟨own, among, rfl⟩ := List.mem_map.mp member
    exact (ServedPart.partFrames_whole (partsFit own among)).1
  · simp only [servedFrames, bind_eq_ok, require_eq_ok, decide_eq_true_eq, fixed_eq_ok, pure_eq_ok]
    exact ⟨_, (), ⟨positive, short⟩, (), small, _, ⟨domain, rfl⟩, _, ⟨venue, rfl⟩, _, ⟨backing, rfl⟩, _, ⟨operator, rfl⟩, _, ⟨root, rfl⟩, frames, ran, rfl⟩

/-- What is read of a stream that opens with a selection's frame. -/
theorem readServed_opened {head : ServedPackage} (fits : head.Fits) {source : List Bytes} {rest : Bytes}
    (opened : source.flatten = head.frame ++ rest) (t : Taker σ τ) : ∃ c : ChunkCursor UInt8, c.rest = rest ∧
      readServed t source = t.opens head >>= fun s => conclude t head (readParts t (c.rest.length + 1) s c) := by
  have read := readHead_inverts.reads fits rest
  have all : (ChunkCursor.mk [] source).rest = source.flatten := rfl
  rw [← opened, ← all] at read
  obtain ⟨c, ran, left⟩ := readHead_reads.exists_ok read
  exact ⟨c, left, by rw [readServed, ran]; rfl⟩

/-- A read that returns came to the end mark of a stream that can be sent, and its receiver took that stream's parts. -/
theorem readServed_eq_ok {source : List Bytes} {head : ServedPackage} {value : τ} (read : readServed t source = .ok (head, value)) :
    head.Fits ∧ ∃ (parts : List ServedPart) (s s' : σ), (∀ part ∈ parts, part.Fits) ∧ source.flatten = head.frame ++ partsFrame parts ∧
      t.opens head = .ok s ∧ Takes t s parts (.closed s') ∧ t.result s' = .ok value := by
  simp only [readServed, bind_eq_ok] at read
  obtain ⟨⟨first, c⟩, opened, s, begun, concluded⟩ := read
  obtain ⟨fits, whole⟩ := (readHead_inverts _ _ _).mp (readHead_reads.ok opened)
  rcases ran : readParts t (c.rest.length + 1) s c with s' | s' | ⟨s', failure⟩ | failure
  · simp only [ran, conclude, bind_eq_ok, pure_eq_ok] at concluded
    obtain ⟨own, result, same⟩ := concluded
    obtain ⟨rfl, rfl⟩ := Prod.mk.inj same
    obtain ⟨parts, partsFit, rest, takes⟩ := readParts_closed ran
    exact ⟨fits, parts, s, s', partsFit, by rw [← rest, ← whole]; rfl, begun, takes, result⟩
  · simp only [ran, conclude, bind_eq_ok] at concluded
    obtain ⟨-, -, thrown⟩ := concluded
    cases thrown
  · simp only [ran, conclude, bind_eq_ok] at concluded
    obtain ⟨-, -, thrown⟩ := concluded
    cases thrown
  · simp only [ran, conclude] at concluded
    cases concluded

/-- Served evidence survives its framing. Sent without error and cut into any chunks, it is read with the same selection and own package,
and its receiver is handed the same parts in their order: packages whole, and of each trail its tip and size and pieces that are its first
bytes, as many as the receiver asks for. No other stream that the sent bytes go on from, or that goes on from them, is read; and a stream
a read returns on is one that can be sent, read to its end mark by a receiver that asked for every part. -/
theorem served_survives :
    (∀ (served : ServedEvidence) (chunks : List Bytes), (∀ part ∈ served.parts, part.Bounded) → servedFrames served = .ok chunks →
      ∀ source : List Bytes,
        (source.flatten = chunks.flatten → ∀ t : Taker σ τ,
          (∀ failure, t.opens served.toServedPackage = .error failure → readServed t source = .error failure) ∧
          ∀ s, t.opens served.toServedPackage = .ok s → ∃ taken, Takes t s (served.parts.map EvidencePart.part) taken ∧
            readServed t source = conclude t served.toServedPackage taken) ∧
        (source.flatten <+: chunks.flatten ∨ chunks.flatten <+: source.flatten → source.flatten ≠ chunks.flatten →
          ∀ (t : Taker σ τ) result, readServed t source ≠ .ok result)) ∧
    ∀ (t : Taker σ τ) (source : List Bytes) (head : ServedPackage) (value : τ), readServed t source = .ok (head, value) →
      ∃ (served : ServedEvidence) (chunks : List Bytes) (s s' : σ), (∀ part ∈ served.parts, part.Bounded) ∧
        servedFrames served = .ok chunks ∧ chunks.flatten = source.flatten ∧ served.toServedPackage = head ∧ t.opens head = .ok s ∧
          Takes t s (served.parts.map EvidencePart.part) (.closed s') ∧ t.result s' = .ok value := by
  constructor
  · intro served chunks bounded sent source
    obtain ⟨fits, partsFit, whole⟩ := servedFrames_eq_ok bounded sent
    constructor
    · intro same t
      obtain ⟨c, left, read⟩ := readServed_opened fits (same.trans whole) t
      constructor
      · intro failure refused
        rw [read, refused]
        rfl
      · intro s begun
        rw [read, begun]
        exact ⟨_, readParts_takes partsFit left (Nat.lt_succ_self _), rfl⟩
    · rintro related apart t ⟨head, value⟩ read
      obtain ⟨headFits, parts, s, s', fits', whole', -, -, -⟩ := readServed_eq_ok read
      have unique : ∀ x y, source.flatten ++ x = chunks.flatten ++ y → source.flatten = chunks.flatten := by
        intro x y same
        rw [whole, whole', List.append_assoc, List.append_assoc] at same
        obtain ⟨heads, rest⟩ := readHead_inverts.unique headFits fits same
        obtain ⟨rfl, -⟩ := partsFrame_unique fits' partsFit rest
        rw [whole, whole', heads]
      rcases related with ⟨more, longer⟩ | ⟨more, longer⟩
      · exact apart (unique more [] (by rw [longer, List.append_nil]))
      · exact apart (unique [] more (by rw [longer, List.append_nil]))
  · intro t source head value read
    obtain ⟨fits, parts, s, s', partsFit, whole, begun, takes, result⟩ := readServed_eq_ok read
    obtain ⟨served, rfl, rfl, bounded, chunks, sent⟩ := exists_servedFrames fits partsFit
    obtain ⟨-, -, framed⟩ := servedFrames_eq_ok bounded sent
    exact ⟨served, chunks, s, s', bounded, sent, framed.trans whole.symm, rfl, begun, takes, result⟩

/-- Keeps every part it is handed, and asks for so many bytes of a trail at most. -/
def keeper (limit : Nat) : Taker (List ServedPart × Nat) (List ServedPart) where
  opens _ := .ok ([], 0)
  goesOn _ := true
  package s bytes := .ok (s.1 ++ [.package bytes], 0)
  trail s after _ := .ok (s.1 ++ [.trail after []], limit)
  pulls s := decide (0 < s.2)
  piece s bytes :=
    match s.1.getLast? with
    | some (.trail after kept) => .ok (s.1.dropLast ++ [.trail after (kept ++ bytes)], s.2 - bytes.length)
    | _ => .ok s
  result s := .ok s.1
  broken _ failure := .error failure

/-- A package, an empty trail and a trail in two chunks. -/
def sampleServed : ServedEvidence where
  selection := ⟨List.replicate 32 1, List.replicate 32 2, List.replicate 32 3, List.replicate 32 4, 7, List.replicate 32 5⟩
  package := [9, 9]
  parts := [.package [], .trail none 0 [], .trail (some ⟨List.replicate 32 6, 3, List.replicate 32 7⟩) 4 [[0], [1, 2, 3]]]

example : (do
      let chunks ← servedFrames sampleServed
      let (head, parts) ← readServed (keeper 2) (chunks.flatten.map fun byte => [byte])
      return (head.package, parts.length)) = .ok ([9, 9], 3) := by
  decide +kernel

end Moe.Service
