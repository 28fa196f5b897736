import Moe.Browser.Headers

namespace Moe

open JsString

/-- A part of a path as this system names it. -/
structure PathPart (part : JsString) : Prop where
  nonempty : part ≠ []
  whole : slash ∉ part
  notHere : part ≠ [0x2E]
  notUp : part ≠ [0x2E, 0x2E]

/-- The path of so many parts under the root. -/
def spelling (parts : List JsString) : JsString := if parts = [] then [slash] else parts.flatMap (slash :: ·)

/-- One part of an absolute path after those before it. -/
def walkPart (parts : List JsString) (part : JsString) : List JsString :=
  if part = [] ∨ part = [0x2E] then parts
  else if part = [0x2E, 0x2E] then (if parts ≠ [] ∧ parts.getLast? ≠ some [0x2E, 0x2E] then parts.dropLast else parts)
  else parts ++ [part]

/-- An absolute path's parts, the empty ones, `.` and `..` taken out. -/
def partsOf (path : JsString) : List JsString := (path.splitOn slash).foldl walkPart []

variable {parts p q : List JsString} {part : JsString} {path rest : JsString}

theorem not_mem_splitOn {s piece : JsString} (member : piece ∈ s.splitOn slash) : slash ∉ piece := by
  induction s generalizing piece with
  | nil =>
    rw [List.splitOn_nil, List.mem_singleton] at member
    simp [member]
  | cons c s ih =>
    rw [List.splitOn_cons_eq_if_modifyHead] at member
    split at member
    · obtain rfl | later := List.mem_cons.mp member
      · simp
      · exact ih later
    · rename_i other
      cases split : s.splitOn slash with
      | nil => exact absurd split (List.splitOn_ne_nil _ _)
      | cons first others =>
        rw [split, List.modifyHead_cons] at member
        rw [split] at ih
        obtain rfl | later := List.mem_cons.mp member
        · have kept := ih List.mem_cons_self
          simp only [List.mem_cons, not_or]
          exact ⟨fun same => other (by simp [same]), kept⟩
        · exact ih (List.mem_cons_of_mem _ later)

theorem splitOn_parts (clean : ∀ part ∈ parts, slash ∉ part) (whole : slash ∉ part) :
    (part ++ parts.flatMap (slash :: ·)).splitOn slash = part :: parts := by
  induction parts generalizing part with
  | nil => rw [List.flatMap_nil, List.append_nil, List.splitOn_eq_singleton whole]
  | cons next parts ih =>
    obtain ⟨first, others⟩ := List.forall_mem_cons.mp clean
    rw [List.flatMap_cons, List.cons_append, List.splitOn_append_cons_of_beq _ _ (by simp), List.splitOn_eq_singleton whole, ih others first]
    rfl

theorem splitOn_spelling (clean : ∀ part ∈ parts, slash ∉ part) (some_ : parts ≠ []) : (spelling parts).splitOn slash = [] :: parts := by
  rw [spelling, if_neg some_]
  exact @splitOn_parts parts [] clean (by simp)

theorem walkPart_clean (clean : PathPart part) (parts : List JsString) : walkPart parts part = parts ++ [part] := by
  rw [walkPart, if_neg (by simp [clean.nonempty, clean.notHere]), if_neg clean.notUp]

theorem foldl_walkPart (clean : ∀ part ∈ parts, PathPart part) (done : List JsString) : parts.foldl walkPart done = done ++ parts := by
  induction parts generalizing done with
  | nil => simp
  | cons part parts ih =>
    obtain ⟨first, others⟩ := List.forall_mem_cons.mp clean
    rw [List.foldl_cons, walkPart_clean first, ih others, List.append_assoc, List.singleton_append]

theorem partsOf_spelling (clean : ∀ part ∈ parts, PathPart part) : partsOf (spelling parts) = parts := by
  by_cases none_ : parts = []
  · subst none_
    decide
  · rw [partsOf, splitOn_spelling (fun part member => (clean part member).whole) none_, List.foldl_cons, walkPart, if_pos (.inl rfl),
      foldl_walkPart clean, List.nil_append]

theorem spelling_inj (clean : ∀ part ∈ p, PathPart part) (clean' : ∀ part ∈ q, PathPart part) (same : spelling p = spelling q) : p = q := by
  rw [← partsOf_spelling clean, same, partsOf_spelling clean']

theorem mem_walkPart (whole : slash ∉ part) (clean : ∀ part ∈ parts, PathPart part) : ∀ other ∈ walkPart parts part, PathPart other := by
  intro other member
  unfold walkPart at member
  split at member
  · exact clean other member
  · rename_i here
    push Not at here
    split at member
    · split at member
      · exact clean other ((List.dropLast_prefix parts).subset member)
      · exact clean other member
    · rename_i up
      obtain old | new := List.mem_append.mp member
      · exact clean other old
      · obtain rfl := List.mem_singleton.mp new
        exact ⟨here.1, whole, here.2, up⟩

theorem partsOf_clean (path : JsString) : ∀ part ∈ partsOf path, PathPart part := by
  have fold : ∀ pieces : List JsString, (∀ piece ∈ pieces, slash ∉ piece) → ∀ done : List JsString, (∀ part ∈ done, PathPart part) →
      ∀ part ∈ pieces.foldl walkPart done, PathPart part := by
    intro pieces
    induction pieces with
    | nil => exact fun _ _ clean => clean
    | cons piece pieces ih =>
      intro whole done clean
      obtain ⟨first, others⟩ := List.forall_mem_cons.mp whole
      exact ih others _ (mem_walkPart first clean)
  exact fold _ (fun part member => not_mem_splitOn member) [] (by simp)

theorem intercalate_eq (some_ : parts ≠ []) : slash :: [slash].intercalate parts = spelling parts := by
  rw [spelling, if_neg some_]
  induction parts with
  | nil => exact absurd rfl some_
  | cons part parts ih =>
    cases parts with
    | nil => simp [List.intercalate]
    | cons next parts =>
      rw [List.flatMap_cons, ← ih (List.cons_ne_nil _ _)]
      simp [List.intercalate]

theorem spelling_concat (parts : List JsString) (part : JsString) : spelling (parts ++ [part]) = parts.flatMap (slash :: ·) ++ slash :: part := by
  rw [spelling, if_neg (List.append_ne_nil_of_right_ne_nil _ (List.cons_ne_nil _ _)), List.flatMap_append]
  simp

theorem getLast?_spelling (clean : ∀ part ∈ parts, PathPart part) (some_ : parts ≠ []) : (spelling parts).getLast? ≠ some slash := by
  obtain ⟨init, last, rfl⟩ := (List.eq_nil_or_concat' parts).resolve_left some_
  have own := clean last (List.mem_append_right _ (List.mem_singleton.mpr rfl))
  obtain ⟨before, c, rfl⟩ := (List.eq_nil_or_concat' last).resolve_left own.nonempty
  rw [spelling_concat, ← List.cons_append, ← List.append_assoc, List.getLast?_concat]
  intro same
  exact own.whole (List.mem_append_right _ (List.mem_singleton.mpr (Option.some.inj same).symm))

/-- An absolute path as this system names it. -/
theorem normal_absolute (absolute : path.head? = some slash) : normal path = spelling (partsOf path) := by
  have clean := partsOf_clean path
  have folded : (path.splitOn slash).foldl (fun parts part =>
      if part = [] ∨ part = [0x2E] then parts
      else if part = [0x2E, 0x2E] then
        (if parts ≠ [] ∧ parts.getLast? ≠ some [0x2E, 0x2E] then parts.dropLast else if (path.head? == some slash) = true then parts
          else parts ++ [part])
      else parts ++ [part]) ([] : List JsString) = partsOf path := by
    simp only [absolute, beq_self_eq_true, if_true]
    rfl
  rw [normal, resolve, if_pos absolute, normalized, folded]
  simp only [absolute, beq_self_eq_true, if_true]
  by_cases none_ : partsOf path = []
  · rw [none_]
    rfl
  · have body := intercalate_eq none_
    have last := getLast?_spelling clean none_
    have positive : 0 < ([slash].intercalate (partsOf path)).length := by
      rw [List.length_pos_iff]
      intro empty
      rw [empty] at body
      rw [← body] at last
      exact last rfl
    by_cases trailing : partsOf path ≠ [] ∧ path.getLast? = some slash
    · rw [if_pos trailing, ← List.cons_append, body, if_pos ⟨by simp [← body], List.getLast?_concat ..⟩, List.dropLast_concat]
    · rw [if_neg trailing, List.append_nil, body, if_neg fun long => last long.2]

theorem normal_eq (path : JsString) : ∃ parts, (∀ part ∈ parts, PathPart part) ∧ normal path = spelling parts := by
  by_cases absolute : path.head? = some slash
  · exact ⟨_, partsOf_clean path, normal_absolute absolute⟩
  · have head : (slash :: path).head? = some slash := rfl
    have same : normal path = normal (slash :: path) := by simp only [normal, resolve, if_neg absolute, if_pos head]
    exact ⟨_, partsOf_clean (slash :: path), same.trans (normal_absolute rfl)⟩

theorem spelling_head (parts : List JsString) : (spelling parts).head? = some slash := by
  unfold spelling
  split
  · rfl
  · rename_i some_
    cases parts with
    | nil => exact absurd rfl some_
    | cons part parts => rfl

theorem normal_spelling (clean : ∀ part ∈ parts, PathPart part) : normal (spelling parts) = spelling parts := by
  rw [normal_absolute (spelling_head parts), partsOf_spelling clean]

theorem findIdx?_slash {piece : JsString} (whole : slash ∉ piece) (rest : JsString) :
    (piece ++ slash :: rest).findIdx? (· == slash) = some piece.length := by
  induction piece with
  | nil => simp [List.findIdx?_cons]
  | cons c piece ih =>
    simp only [List.mem_cons, not_or] at whole
    have other : (c == slash) = false := by simpa using Ne.symm whole.1
    rw [List.cons_append, List.findIdx?_cons, other, ih whole.2]
    rfl

/-- The directory of a path is the path without its last part. -/
theorem dirname_spelling (clean : ∀ part ∈ parts, PathPart part) : dirname (spelling parts) = spelling parts.dropLast := by
  by_cases none_ : parts = []
  · subst none_
    decide
  · have last := getLast?_spelling clean none_
    obtain ⟨init, own, rfl⟩ := (List.eq_nil_or_concat' parts).resolve_left none_
    have cleanOwn := clean own (List.mem_append_right _ (List.mem_singleton.mpr rfl))
    have positive := List.length_pos_of_ne_nil cleanOwn.nonempty
    have untrimmed : ((spelling (init ++ [own])).reverse.dropWhile (· == slash)).reverse = spelling (init ++ [own]) := by
      cases reversed : (spelling (init ++ [own])).reverse with
      | nil => exact (List.reverse_eq_nil_iff.mp reversed).symm
      | cons c others =>
        have tail : (spelling (init ++ [own])).getLast? = some c := by rw [← List.head?_reverse, reversed, List.head?_cons]
        have other : (c == slash) = false := by
          rw [tail] at last
          simpa using last
        rw [List.dropWhile_cons, other, ← reversed]
        simp
    have found : (spelling (init ++ [own])).reverse.findIdx? (· == slash) = some own.length := by
      rw [spelling_concat, List.reverse_append, List.reverse_cons, List.append_assoc, List.singleton_append, ← List.length_reverse]
      exact findIdx?_slash (by simpa using cleanOwn.whole) _
    have trimmed : (if 1 < (spelling (init ++ [own])).length then ((spelling (init ++ [own])).reverse.dropWhile (· == slash)).reverse
        else spelling (init ++ [own])) = spelling (init ++ [own]) := by
      rw [untrimmed, ite_self]
    rw [dirname, trimmed]
    simp only [found]
    rw [List.dropLast_concat, spelling_concat]
    by_cases lone : init = []
    · subst lone
      simp [spelling]
    · have more : init.flatMap (slash :: ·) ≠ [] := by
        cases init with
        | nil => exact absurd rfl lone
        | cons _ _ => simp
      have length := List.length_pos_of_ne_nil more
      rw [if_neg (by simp only [List.length_append, List.length_cons]; omega), spelling, if_neg lone]
      have at_ : (init.flatMap (slash :: ·) ++ slash :: own).length - 1 - own.length = (init.flatMap (slash :: ·)).length := by
        simp only [List.length_append, List.length_cons]
        omega
      rw [at_, List.take_left]

/-- A path and a slash, or the root's slash, as what lies below it begins. -/
def below (path : JsString) : JsString := if path = [slash] then [slash] else path ++ [slash]

theorem below_root : below (spelling []) = [slash] := rfl

theorem spelling_ne_root (clean : ∀ part ∈ parts, PathPart part) (some_ : parts ≠ []) : spelling parts ≠ [slash] := by
  intro same
  exact some_ (spelling_inj clean (by simp) (same.trans rfl))

theorem below_spelling (clean : ∀ part ∈ parts, PathPart part) (some_ : parts ≠ []) : below (spelling parts) = parts.flatMap (slash :: ·) ++ [slash] := by
  rw [below, if_neg (spelling_ne_root clean some_), spelling, if_neg some_]

/-- What lies below a path, and the part after it. -/
theorem below_isPrefixOf (clean : ∀ part ∈ p, PathPart part) (clean' : ∀ part ∈ q, PathPart part) (some_ : q ≠ []) :
    (below (spelling p)).isPrefixOf (spelling q) = true ↔ p <+: q ∧ p ≠ q := by
  rw [List.isPrefixOf_iff_prefix]
  by_cases root : p = []
  · subst root
    have start : [slash] <+: spelling q := by
      rw [spelling, if_neg some_]
      cases q with
      | nil => exact absurd rfl some_
      | cons part q => exact ⟨part ++ q.flatMap (slash :: ·), rfl⟩
    exact ⟨fun _ => ⟨List.nil_prefix, some_.symm⟩, fun _ => start⟩
  · rw [below_spelling clean root]
    constructor
    · rintro ⟨rest, same⟩
      have split := splitOn_spelling (fun part member => (clean' part member).whole) some_
      have parted : ((p.flatMap (slash :: ·)) ++ slash :: rest).splitOn slash = ([] :: p) ++ rest.splitOn slash := by
        have own := @splitOn_parts p [] (fun part member => (clean part member).whole) (by simp)
        rw [List.nil_append] at own
        rw [List.splitOn_append_cons_of_beq _ _ (by simp), own]
      rw [List.append_assoc, List.singleton_append] at same
      rw [← same, parted] at split
      have whole : p ++ rest.splitOn slash = q := List.cons.inj split |>.2
      refine ⟨⟨_, whole⟩, fun equal => List.splitOn_ne_nil slash rest ?_⟩
      rw [← equal] at whole
      exact List.append_right_eq_self.mp whole
    · rintro ⟨⟨rest, rfl⟩, apart⟩
      cases rest with
      | nil => exact absurd (List.append_nil p).symm apart
      | cons part rest =>
        rw [spelling, if_neg some_, List.flatMap_append, List.flatMap_cons]
        exact ⟨part ++ rest.flatMap (slash :: ·), by simp⟩

/-- The part after a path of a path below it. -/
theorem part_after (clean : ∀ other ∈ p ++ part :: q, PathPart other) :
    (((spelling (p ++ part :: q)).drop (below (spelling p)).length).splitOn slash).head? = some part := by
  have cleanP : ∀ other ∈ p, PathPart other := fun other member => clean other (List.mem_append_left _ member)
  have laid : spelling (p ++ part :: q) = below (spelling p) ++ (part ++ q.flatMap (slash :: ·)) := by
    by_cases root : p = []
    · subst root
      rw [below_root, List.nil_append, spelling, if_neg (List.cons_ne_nil _ _), List.flatMap_cons]
      rfl
    · rw [below_spelling cleanP root, spelling, if_neg (List.append_ne_nil_of_right_ne_nil _ (List.cons_ne_nil _ _)), List.flatMap_append,
        List.flatMap_cons]
      simp
  have first : slash ∉ part := (clean part (by simp)).whole
  have others : ∀ other ∈ q, slash ∉ other := fun other member => (clean other (by simp [member])).whole
  rw [laid, List.drop_left, splitOn_parts others first, List.head?_cons]

end Moe
