import ShaderBlocks.Proofs.TextScan
import ShaderBlocks.Source.DeclaredName

/-!
# Nested brackets and the parts between commas

Text is cut at its commas outside brackets by counting the brackets that are open, whatever their
kind. Proper nesting asks for more: each bracket is closed by one of its own kind, and groups do not
overlap. It is given by a grammar here, and decided with a stack of the brackets to come. In a
nested text the count is right: it is positive exactly inside a group, so a comma in a group is
never taken for one between parts, and nested parts with commas between them are cut at these commas
and nowhere else.
-/

namespace ShaderBlocks.Source

open ShaderBlocks.Text

/-- The bracket that closes what a bracket opens. -/
def closing? (c : Char) : Option Char :=
  if c = '(' then some ')'
  else if c = '[' then some ']'
  else if c = '{' then some '}'
  else none

/-- A bracket of any kind. -/
def isBracket (c : Char) : Bool :=
  c == '(' || c == ')' || c == '[' || c == ']' || c == '{' || c == '}'

/-- Every bracket is closed by one of its kind, and in the group in which it was opened. Commas may
stand outside all brackets only if `commas` says so. -/
inductive Nested : (commas : Bool) → List Char → Prop
  /-- Nothing. -/
  | nil {commas : Bool} : Nested commas []
  /-- A character that is no bracket. -/
  | char {commas : Bool} {c : Char} {rest : List Char} (plain : isBracket c = false)
      (allowed : c = ',' → commas = true) (further : Nested commas rest) : Nested commas (c :: rest)
  /-- A group with its brackets. -/
  | group {commas : Bool} {opening closing : Char} {inner rest : List Char}
      (pair : closing? opening = some closing) (inside : Nested true inner)
      (further : Nested commas rest) : Nested commas (opening :: (inner ++ closing :: rest))

/-- Text that is neither a bracket nor a comma is nested. -/
theorem Nested.of_plain {commas : Bool} {text : List Char}
    (plain : ∀ c ∈ text, isBracket c = false ∧ c ≠ ',') : Nested commas text := by
  induction text with
  | nil => exact .nil
  | cons c rest ih =>
    obtain ⟨⟨noBracket, noComma⟩, others⟩ := List.forall_mem_cons.mp plain
    exact .char noBracket (fun isComma => absurd isComma noComma) (ih others)

/-- Nested texts are nested one behind the other. -/
theorem Nested.append {commas : Bool} {first second : List Char} (nested : Nested commas first)
    (further : Nested commas second) : Nested commas (first ++ second) := by
  induction nested with
  | nil => exact further
  | char plain allowed _ ih => exact .char plain allowed (ih further)
  | @group _ opening closing inner rest pair inside _ _ ih =>
    rw [List.cons_append, List.append_assoc, List.cons_append]
    exact .group pair inside (ih further)

/-- The brackets of a pair are counted up and down. Neither is a comma, and the second opens no
other pair. -/
theorem step_of_pair {opening closing : Char} (pair : closing? opening = some closing) :
    (bracketStep opening = 1 ∧ opening ≠ ',') ∧
      (bracketStep closing = -1 ∧ closing ≠ ',') ∧
      closing? closing = none ∧ isBracket closing = true := by
  unfold closing? at pair
  split at pair
  · obtain rfl := Option.some.inj pair
    subst opening
    decide
  · split at pair
    · obtain rfl := Option.some.inj pair
      subst opening
      decide
    · split at pair
      · obtain rfl := Option.some.inj pair
        subst opening
        decide
      · contradiction

/-- A character that is no bracket is not counted and opens no pair. -/
theorem step_of_plain {c : Char} (plain : isBracket c = false) :
    bracketStep c = 0 ∧ closing? c = none := by
  simp only [isBracket, Bool.or_eq_false_iff, beq_eq_false_iff_ne] at plain
  simp [bracketStep, closing?, plain]

/-! ## Deciding whether brackets are nested -/

/-- The brackets that are to come after one more character, the next one first. Nothing is returned
if the character must not stand here. -/
def await (commas : Bool) (awaited : List Char) (c : Char) : Option (List Char) :=
  match closing? c with
  | some closing => some (closing :: awaited)
  | none =>
    if isBracket c then
      if awaited.head? = some c then some awaited.tail else none
    else if c == ',' && !commas && awaited.isEmpty then none
    else some awaited

/-- A character opens a group, closes the group that is open, or stands in it. -/
theorem await_cases {commas : Bool} {awaited next : List Char} {c : Char}
    (step : await commas awaited c = some next) :
    (∃ closing, closing? c = some closing ∧ next = closing :: awaited) ∨ awaited = c :: next ∨
      isBracket c = false ∧ next = awaited ∧ (awaited = [] → c = ',' → commas = true) := by
  rw [await] at step
  split at step
  · rename_i closing pair
    exact .inl ⟨closing, pair, (Option.some.inj step).symm⟩
  · split at step
    · split at step
      · rename_i closes
        obtain ⟨below, rfl⟩ := List.head?_eq_some_iff.mp closes
        exact .inr (.inl (congrArg (c :: ·) (Option.some.inj step)))
      · contradiction
    · rename_i plain
      split at step
      · contradiction
      · rename_i may
        refine .inr (.inr ⟨by simpa using plain, (Option.some.inj step).symm, ?_⟩)
        rintro rfl rfl
        simpa using may

/-- A nested text leaves the brackets that are to come as they were. -/
theorem Nested.foldlM_await {level : Bool} {text : List Char} (nested : Nested level text)
    {commas : Bool} {awaited : List Char} (allowed : level = true → commas = true ∨ awaited ≠ []) :
    text.foldlM (await commas) awaited = some awaited := by
  induction nested generalizing awaited with
  | nil => rfl
  | @char level c text plain comma _ ih =>
    have step : await commas awaited c = some awaited := by
      have may : ¬(c = ',' ∧ commas = false ∧ awaited = []) := by
        rintro ⟨isComma, none, rfl⟩
        rcases allowed (comma isComma) with allowing | some
        · rw [none] at allowing
          contradiction
        · exact some rfl
      rw [await, (step_of_plain plain).2]
      simp [plain, and_assoc, may]
    rw [List.foldlM_cons, step]
    exact ih allowed
  | @group level opening closing inner text pair _ _ insideIh furtherIh =>
    obtain ⟨-, -, noPair, isBracket⟩ := step_of_pair pair
    have opens : await commas awaited opening = some (closing :: awaited) := by
      rw [await, pair]
    have closes : await commas (closing :: awaited) closing = some awaited := by
      rw [await, noPair]
      simp [isBracket]
    have inside := @insideIh (closing :: awaited) fun _ => .inr (List.cons_ne_nil _ _)
    rw [List.foldlM_cons, opens]
    show (inner ++ closing :: text).foldlM (await commas) (closing :: awaited) = _
    rw [List.foldlM_append, inside]
    show (closing :: text).foldlM (await commas) (closing :: awaited) = _
    rw [List.foldlM_cons, closes]
    exact furtherIh allowed

/-- A text that brings all the brackets to come is nested up to the first of them, if there is one,
and brings the others behind it. -/
theorem nested_of_foldlM_await {commas : Bool} {awaited text : List Char}
    (brings : text.foldlM (await commas) awaited = some []) :
    match awaited with
    | [] => Nested commas text
    | closing :: below => ∃ inner rest, text = inner ++ closing :: rest ∧ Nested true inner ∧
        rest.foldlM (await commas) below = some [] := by
  -- A group that opens is read to its end first; what is behind it is a shorter text.
  induction length : text.length using Nat.strong_induction_on generalizing awaited text with
  | _ size ih =>
    cases text with
    | nil =>
      obtain rfl : awaited = [] := Option.some.inj brings
      exact .nil
    | cons c rest =>
      rw [List.length_cons] at length
      rw [List.foldlM_cons] at brings
      obtain ⟨next, step, later⟩ := Option.bind_eq_some_iff.mp brings
      rcases await_cases step with ⟨closing, pair, rfl⟩ | rfl | ⟨plain, rfl, may⟩
      · obtain ⟨inner, behind, rfl, inside, latest⟩ := ih rest.length (by omega) later rfl
        rw [List.length_append, List.length_cons] at length
        have further := ih behind.length (by omega) latest rfl
        cases awaited with
        | nil => exact .group pair inside further
        | cons outer below =>
          obtain ⟨more, last, rfl, nested, left⟩ := further
          refine ⟨c :: (inner ++ closing :: more), last, ?_, .group pair inside nested, left⟩
          simp
      · exact ⟨[], rest, rfl, .nil, later⟩
      · have further := ih rest.length (by omega) later rfl
        cases next with
        | nil => exact .char plain (may rfl) further
        | cons outer below =>
          obtain ⟨more, last, rfl, nested, left⟩ := further
          exact ⟨c :: more, last, rfl, .char plain (fun _ => rfl) nested, left⟩

/-- A text is nested exactly if every bracket that was to come has come in its turn. -/
theorem nested_iff_foldlM_await {commas : Bool} {text : List Char} :
    Nested commas text ↔ text.foldlM (await commas) [] = some [] := by
  constructor
  · intro nested
    exact nested.foldlM_await .inl
  · intro brings
    exact nested_of_foldlM_await brings

instance {commas : Bool} : DecidablePred (Nested commas) :=
  fun _ => decidable_of_iff _ nested_iff_foldlM_await.symm

/-! ## Parts between commas -/

/-- A character at which a text is not cut belongs to the first part. -/
theorem topLevelParts_cons {depth : Int} {c : Char} {rest part : List Char}
    {others : List (List Char)} (noCut : ¬(c = ',' ∧ depth = 0))
    (parts : topLevelParts (depth + bracketStep c) rest = part :: others) :
    topLevelParts depth (c :: rest) = (c :: part) :: others := by
  rw [topLevelParts, if_neg noCut, parts]

/-- A nested text belongs to the first part. It is not cut inside a group, and not outside if it
holds no comma there. -/
theorem Nested.topLevelParts_append {commas : Bool} {text : List Char} (nested : Nested commas text)
    {depth : Int} (deep : 0 ≤ depth) (inside : commas = true → 0 < depth)
    {rest part : List Char} {others : List (List Char)}
    (parts : topLevelParts depth rest = part :: others) :
    topLevelParts depth (text ++ rest) = (text ++ part) :: others := by
  induction nested generalizing depth rest part others with
  | nil => exact parts
  | @char commas c text plain allowed _ ih =>
    refine topLevelParts_cons ?_ ?_
    · rintro ⟨isComma, rfl⟩
      exact absurd (inside (allowed isComma)) (Int.lt_irrefl 0)
    · rw [(step_of_plain plain).1, Int.add_zero]
      exact ih deep inside parts
  | @group commas opening closing inner text pair _ _ insideIh furtherIh =>
    obtain ⟨⟨up, noComma⟩, ⟨down, noCommaEither⟩, -⟩ := step_of_pair pair
    -- The group is read one deeper, and its end leads back to where it began.
    have behind : topLevelParts (depth + 1) (closing :: (text ++ rest)) =
        (closing :: (text ++ part)) :: others := by
      refine topLevelParts_cons (fun cut => noCommaEither cut.1) ?_
      rw [down, Int.add_neg_cancel_right]
      exact furtherIh deep inside parts
    have within := @insideIh (depth + 1) (by omega) (fun _ => by omega) _ _ _ behind
    have whole : topLevelParts depth (opening :: (inner ++ closing :: (text ++ rest))) =
        (opening :: (inner ++ closing :: (text ++ part))) :: others := by
      refine topLevelParts_cons (fun cut => noComma cut.1) ?_
      rwa [up]
    simpa using whole

/-- Nested texts with commas between them are the parts of the whole. -/
theorem topLevelParts_intercalate {parts : List (List Char)} (some : parts ≠ [])
    (nested : ∀ part ∈ parts, Nested false part) :
    topLevelParts 0 ([','].intercalate parts) = parts := by
  induction parts with
  | nil => contradiction
  | cons part others ih =>
    obtain ⟨first, later⟩ := List.forall_mem_cons.mp nested
    cases others with
    | nil =>
      have single := first.topLevelParts_append (Int.le_refl 0) (by simp)
        (rfl : topLevelParts 0 [] = [[]])
      simpa using single
    | cons next others =>
      have cut : topLevelParts 0 (',' :: [','].intercalate (next :: others)) =
          [] :: next :: others := by
        rw [topLevelParts, if_pos ⟨rfl, rfl⟩, ih (List.cons_ne_nil _ _) later]
      have whole := first.topLevelParts_append (Int.le_refl 0) (by simp) cut
      rw [List.append_nil] at whole
      rw [List.intercalate_cons_cons, List.append_assoc, List.singleton_append]
      exact whole

/-- A text without commas is one part. -/
theorem topLevelParts_of_notMem {text : List Char} (noComma : ',' ∉ text) (depth : Int) :
    topLevelParts depth text = [text] := by
  induction text generalizing depth with
  | nil => rfl
  | cons c rest ih =>
    refine topLevelParts_cons (fun cut => ?_) (ih (List.not_mem_of_not_mem_cons noComma) _)
    exact List.ne_of_not_mem_cons noComma cut.1.symm

/-- An ending without commas belongs to the last part. -/
theorem topLevelParts_append_last {ending : List Char} (noComma : ',' ∉ ending) (depth : Int)
    (text : List Char) :
    ∃ initial last, topLevelParts depth text = initial ++ [last] ∧
      topLevelParts depth (text ++ ending) = initial ++ [last ++ ending] := by
  induction text generalizing depth with
  | nil => exact ⟨[], [], rfl, topLevelParts_of_notMem noComma depth⟩
  | cons c rest ih =>
    rw [List.cons_append, topLevelParts, topLevelParts]
    split
    · obtain ⟨initial, last, parts, longer⟩ := ih depth
      exact ⟨[] :: initial, last, by rw [parts]; rfl, by rw [longer]; rfl⟩
    · obtain ⟨initial, last, parts, longer⟩ := ih (depth + bracketStep c)
      rw [parts, longer]
      cases initial with
      | nil => exact ⟨[], c :: last, rfl, rfl⟩
      | cons part others => exact ⟨(c :: part) :: others, last, rfl, rfl⟩

end ShaderBlocks.Source
