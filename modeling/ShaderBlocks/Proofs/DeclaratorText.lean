import ShaderBlocks.Proofs.TopLevelParts

/-!
# Declarators as they are written

A declarator is a name that may have array bounds and an initial value. Its parts are records here
that say what each part may hold, so every value of them is a declarator that can be written. Bounds
and initial values may hold commas, equals signs and names in their brackets, and an initial value
also equals signs outside of them: none of this is taken for a name, and no comma in brackets is
taken for the end of a declarator. So the names that are found in a list of declarators are those
that were written.
-/

namespace ShaderBlocks.Source

open ShaderBlocks.Text

/-- Blanks, or nothing. -/
structure Gap where
  /-- The blanks. -/
  text : List Char
  /-- Nothing else stands there. -/
  blank : text.all isBlank = true := by decide

/-- The bounds of an array in their brackets. -/
structure WrittenBounds where
  /-- The blanks before the brackets. -/
  gap : Gap
  /-- What stands between the brackets. -/
  size : List Char
  /-- Brackets inside are closed inside. -/
  nested : Nested true size := by decide

/-- An initial value. -/
structure WrittenInitial where
  /-- The value, with the blanks around it. -/
  value : List Char
  /-- Brackets in the value are closed in it, and commas stand in brackets. -/
  nested : Nested false value := by decide
  /-- The value does not end the declaration. -/
  noEnd : ';' ∉ value := by decide

/-- A name with its array bounds and its initial value. -/
structure WrittenDeclarator where
  /-- The blanks before the name. -/
  lead : Gap
  /-- The name. -/
  name : String
  /-- The array bounds, one behind the other. -/
  bounds : List WrittenBounds
  /-- The blanks behind the bounds. -/
  gap : Gap
  /-- The initial value, if there is one. -/
  initial : Option WrittenInitial
  /-- The name is an identifier. -/
  identifier : isIdentifier name.toList = true := by decide
  /-- The name is not the spelling of a type. -/
  noType : ValueType.ofSpelling? name = none := by decide

/-- The text of the bounds of an array. -/
def WrittenBounds.text (bounds : WrittenBounds) : List Char :=
  bounds.gap.text ++ '[' :: (bounds.size ++ [']'])

/-- The text of an initial value. -/
def WrittenInitial.text (initial : WrittenInitial) : List Char :=
  '=' :: initial.value

namespace WrittenDeclarator

/-- What stands behind the name. -/
def tail (declarator : WrittenDeclarator) : List Char :=
  declarator.bounds.flatMap WrittenBounds.text ++
    (declarator.gap.text ++ declarator.initial.elim [] WrittenInitial.text)

/-- The text of a declarator. -/
def text (declarator : WrittenDeclarator) : List Char :=
  declarator.lead.text ++ (declarator.name.toList ++ declarator.tail)

/-- The text of some declarators, with commas between them. -/
def listed (declarators : List WrittenDeclarator) : List Char :=
  [','].intercalate (declarators.map text)

end WrittenDeclarator

/-! ## Text without marks -/

/-- The text holds words and blanks alone. -/
def Wordy (text : List Char) : Prop :=
  ∀ c ∈ text, isWordChar c = true ∨ isBlank c = true

/-- A gap holds blanks. -/
theorem Gap.isBlank_of_mem (gap : Gap) : ∀ c ∈ gap.text, isBlank c = true :=
  List.all_eq_true.mp gap.blank

namespace Wordy

variable {first second text : List Char}

/-- A gap holds no marks. -/
theorem of_gap (gap : Gap) : Wordy gap.text :=
  fun c member => .inr (gap.isBlank_of_mem c member)

/-- An identifier holds no marks. -/
theorem of_isIdentifier (identifier : isIdentifier text = true) : Wordy text :=
  fun c member => .inl ((isWord_of_isIdentifier identifier).2 c member)

/-- Texts without marks make up a text without marks. -/
theorem append (wordy : Wordy first) (further : Wordy second) : Wordy (first ++ second) :=
  fun c member => (List.mem_append.mp member).elim (wordy c) (further c)

/-- A mark does not stand in such a text. -/
theorem notMem (wordy : Wordy text) {mark : Char} (noLetter : isWordChar mark = false)
    (noBlank : isBlank mark = false) : mark ∉ text := by
  intro member
  rcases wordy mark member with letter | blank
  · exact ne_of_isWordChar letter noLetter rfl
  · rw [noBlank] at blank
    contradiction

/-- There is nothing to nest and nothing to cut in such a text. -/
theorem nested (wordy : Wordy text) {commas : Bool} : Nested commas text := by
  have noMark : ∀ mark ∈ ['(', ')', '[', ']', '{', '}', ','], mark ∉ text := by
    intro mark member
    simp only [List.mem_cons, List.not_mem_nil, or_false] at member
    rcases member with rfl | rfl | rfl | rfl | rfl | rfl | rfl <;>
      exact wordy.notMem (by decide) (by decide)
  refine .of_plain fun c member => ?_
  have other : ∀ mark ∈ ['(', ')', '[', ']', '{', '}', ','], c ≠ mark := by
    rintro mark isMark rfl
    exact noMark c isMark member
  simp only [List.forall_mem_cons] at other
  simp [isBracket, other]

end Wordy

/-! ## Properties of the whole from its parts -/

/-- A property of texts that holds of texts put together if it holds of each. -/
structure Cumulative (property : List Char → Prop) : Prop where
  /-- It holds of nothing. -/
  nil : property []
  /-- It holds of two texts, one behind the other. -/
  append : ∀ {first second : List Char}, property first → property second →
    property (first ++ second)

namespace Cumulative

variable {property : List Char → Prop}

/-- A cumulative property holds of a declarator if it holds of words, blanks, bounds and initial
values. -/
theorem text (cumulative : Cumulative property) (wordy : ∀ text, Wordy text → property text)
    (bounds : ∀ bounds : WrittenBounds, property bounds.text)
    (initial : ∀ initial : WrittenInitial, property initial.text)
    (declarator : WrittenDeclarator) : property declarator.text := by
  have allBounds : ∀ all : List WrittenBounds, property (all.flatMap WrittenBounds.text) := by
    intro all
    induction all with
    | nil => exact cumulative.nil
    | cons first others ih => exact cumulative.append (bounds first) ih
  have given : property (declarator.initial.elim [] WrittenInitial.text) := by
    cases declarator.initial with
    | none => exact cumulative.nil
    | some value => exact initial value
  have name := wordy _ (Wordy.of_isIdentifier declarator.identifier)
  exact cumulative.append (wordy _ (.of_gap _)) (cumulative.append name
    (cumulative.append (allBounds _) (cumulative.append (wordy _ (.of_gap _)) given)))

/-- A cumulative property holds of a list of declarators if it holds of each and of a comma. -/
theorem listed (cumulative : Cumulative property) (comma : property [','])
    {declarators : List WrittenDeclarator}
    (each : ∀ declarator ∈ declarators, property declarator.text) :
    property (WrittenDeclarator.listed declarators) := by
  induction declarators with
  | nil => exact cumulative.nil
  | cons first others ih =>
    obtain ⟨here, there⟩ := List.forall_mem_cons.mp each
    cases others with
    | nil => rwa [WrittenDeclarator.listed, List.map_singleton, List.intercalate_singleton]
    | cons next others =>
      rw [WrittenDeclarator.listed, List.map_cons, List.map_cons, List.intercalate_cons_cons]
      exact cumulative.append (cumulative.append here comma) (ih there)

end Cumulative

/-- The last character of two texts is the last character of one of them. -/
theorem getLast?_append_ne {first second : List Char} {c : Char} (ends : first.getLast? ≠ some c)
    (endsToo : second.getLast? ≠ some c) : (first ++ second).getLast? ≠ some c := by
  rw [List.getLast?_append]
  cases last : second.getLast? with
  | none => exact ends
  | some d =>
    rw [last] at endsToo
    exact endsToo

/-- It is cumulative not to end with a given character. -/
theorem cumulative_getLast?_ne (c : Char) :
    Cumulative fun text => text.getLast? ≠ some c where
  nil := by simp
  append := getLast?_append_ne

/-- Words and blanks do not end with a semicolon. -/
theorem Wordy.getLast?_ne {text : List Char} (wordy : Wordy text) : text.getLast? ≠ some ';' :=
  fun last => wordy.notMem (by decide) (by decide) (List.mem_of_getLast? last)

namespace WrittenDeclarator

/-- The brackets of a declarator are closed in it, and its commas stand in brackets. -/
theorem nested (declarator : WrittenDeclarator) : Nested false declarator.text := by
  have cumulative : Cumulative (Nested false) := ⟨.nil, .append⟩
  refine cumulative.text (fun _ wordy => wordy.nested) (fun bounds => ?_) (fun initial => ?_) _
  · exact (Wordy.of_gap bounds.gap).nested.append (.group rfl bounds.nested .nil)
  · exact .char (by decide) (by decide) initial.nested

/-- A declarator does not end with a semicolon. -/
theorem getLast?_text (declarator : WrittenDeclarator) : declarator.text.getLast? ≠ some ';' := by
  refine (cumulative_getLast?_ne ';').text (fun _ wordy => wordy.getLast?_ne) (fun bounds => ?_)
    (fun initial last => ?_) declarator
  · have closed : bounds.text = (bounds.gap.text ++ '[' :: bounds.size) ++ [']'] := by
      simp [WrittenBounds.text]
    rw [closed, List.getLast?_concat]
    decide
  · exact List.not_mem_cons_of_ne_of_not_mem (by decide) initial.noEnd (List.mem_of_getLast? last)

/-- Declarators do not end with a semicolon. -/
theorem getLast?_listed (declarators : List WrittenDeclarator) :
    (listed declarators).getLast? ≠ some ';' :=
  (cumulative_getLast?_ne ';').listed (by decide) fun declarator _ => declarator.getLast?_text

/-- What stands in no declarator and is no comma does not stand among them. -/
theorem notMem_listed {mark : Char} (noComma : mark ≠ ',') {declarators : List WrittenDeclarator}
    (absent : ∀ declarator ∈ declarators, mark ∉ declarator.text) : mark ∉ listed declarators := by
  have cumulative : Cumulative fun text => mark ∉ text :=
    ⟨List.not_mem_nil, fun here there member => (List.mem_append.mp member).elim here there⟩
  exact cumulative.listed (fun member => noComma (List.mem_singleton.mp member)) absent

end WrittenDeclarator

/-! ## Reading one declarator -/

/-- What stands in a part before any bounds and any initial value. -/
def subject (part : List Char) : List Char :=
  (part.takeWhile (· ≠ '=')).takeWhile (· ≠ '[')

/-- Only the words before the bounds and the initial value matter for the name of a part. -/
theorem declarator?_congr {first second : List Char}
    (same : words (subject first) = words (subject second)) :
    declarator? first = declarator? second := by
  rw [subject, subject] at same
  rw [declarator?, declarator?, same]

/-- The last word before the bounds and the initial value is the name, if it can be one. -/
theorem declarator?_eq_some {part : List Char} {name : String}
    (last : (words (subject part)).getLast? = some name.toList)
    (identifier : isIdentifier name.toList = true) (noType : ValueType.ofSpelling? name = none) :
    declarator? part = some name := by
  rw [subject] at last
  rw [declarator?, last]
  simp [identifier, noType]

/-- Words and blanks in front of bounds or an initial value are what stands before these. -/
theorem subject_append {front rest : List Char} (wordy : Wordy front)
    (stops : ∀ c ∈ rest.head?, c = '[' ∨ c = '=') : subject (front ++ rest) = front := by
  have noEquals : ∀ c ∈ front, decide (c ≠ '=') = true := by
    rintro c member
    refine decide_eq_true fun isEquals => ?_
    exact wordy.notMem (by decide) (by decide) (isEquals ▸ member)
  have noBracket : ∀ c ∈ front, decide (c ≠ '[') = true := by
    rintro c member
    refine decide_eq_true fun isBracket => ?_
    exact wordy.notMem (by decide) (by decide) (isBracket ▸ member)
  rw [subject]
  cases rest with
  | nil =>
    rw [List.append_nil, List.takeWhile_eq_self_iff.mpr noEquals,
      List.takeWhile_eq_self_iff.mpr noBracket]
  | cons c rest =>
    rcases stops c rfl with rfl | rfl
    · rw [List.takeWhile_append_of_pos noEquals, List.takeWhile_cons_of_pos (by decide),
        takeWhile_append_cons noBracket (by decide)]
    · rw [takeWhile_append_cons noEquals (by decide), List.takeWhile_eq_self_iff.mpr noBracket]

/-- What stands in a part before its bounds and its initial value may grow by blanks behind the
part. -/
theorem subject_append_blanks {blanks : List Char} (blank : ∀ c ∈ blanks, isBlank c = true)
    (part : List Char) :
    subject (part ++ blanks) = subject part ∨
      subject (part ++ blanks) = subject part ++ blanks := by
  have grows : ∀ mark : Char, isBlank mark = false → ∀ text : List Char,
      (text ++ blanks).takeWhile (· ≠ mark) = text.takeWhile (· ≠ mark) ∨
        (text ++ blanks).takeWhile (· ≠ mark) = text.takeWhile (· ≠ mark) ++ blanks := by
    intro mark noBlank text
    have kept : ∀ c ∈ blanks, decide (c ≠ mark) = true := by
      intro c member
      refine decide_eq_true ?_
      rintro rfl
      rw [blank c member] at noBlank
      contradiction
    rw [List.takeWhile_append]
    split
    · rename_i whole
      right
      rw [List.takeWhile_eq_self_iff.mpr kept,
        (List.takeWhile_prefix _).eq_of_length whole]
    · exact .inl rfl
  rw [subject, subject]
  rcases grows '=' (by decide) part with same | longer
  · exact .inl (by rw [same])
  · rw [longer]
    exact grows '[' (by decide) _

/-- Blanks behind a part do not change its name. -/
theorem declarator?_append_blanks {blanks : List Char} (blank : ∀ c ∈ blanks, isBlank c = true)
    (part : List Char) : declarator? (part ++ blanks) = declarator? part := by
  apply declarator?_congr
  rcases subject_append_blanks blank part with same | longer
  · rw [same]
  · rw [longer]
    exact runs_append_of_separators blank _

/-- A word behind blanks, or at the start, is the last word. -/
theorem getLast?_words_append {front word : List Char}
    (ends : ∀ c ∈ front.getLast?, isBlank c = true) (isWord : IsWord word) :
    (words (front ++ word)).getLast? = some word := by
  rcases List.eq_nil_or_concat' front with rfl | ⟨before, c, rfl⟩
  · rw [List.nil_append, isWord.words_eq]
    rfl
  · have blank : isBlank c = true := ends c List.getLast?_concat
    rw [List.append_assoc, List.singleton_append, words, runs_append_cons blank, ← words, ← words,
      isWord.words_eq, List.getLast?_concat]

namespace WrittenDeclarator

/-- Behind the name stand blanks, and then nothing, bounds or an initial value. -/
theorem exists_tail (declarator : WrittenDeclarator) :
    ∃ blanks rest, declarator.tail = blanks ++ rest ∧ (∀ c ∈ blanks, isBlank c = true) ∧
      ∀ c ∈ rest.head?, c = '[' ∨ c = '=' := by
  rw [tail]
  cases declarator.bounds with
  | nil =>
    refine ⟨declarator.gap.text, _, rfl, declarator.gap.isBlank_of_mem, fun c isFirst => ?_⟩
    cases declared : declarator.initial with
    | none =>
      rw [declared] at isFirst
      contradiction
    | some initial =>
      rw [declared] at isFirst
      exact .inr (Option.some.inj isFirst).symm
  | cons bounds others =>
    have opens : (bounds :: others).flatMap WrittenBounds.text = bounds.gap.text ++
        '[' :: (bounds.size ++ ']' :: others.flatMap WrittenBounds.text) := by
      simp [WrittenBounds.text]
    rw [opens, List.append_assoc]
    refine ⟨bounds.gap.text, _, rfl, bounds.gap.isBlank_of_mem, fun c isFirst => ?_⟩
    exact .inl (Option.some.inj isFirst).symm

/-- A declarator behind words and blanks introduces its name. -/
theorem declarator?_append (declarator : WrittenDeclarator) {front : List Char}
    (wordy : Wordy front) (ends : ∀ c ∈ front.getLast?, isBlank c = true) :
    declarator? (front ++ declarator.text) = some declarator.name := by
  obtain ⟨blanks, rest, isTail, blank, stops⟩ := declarator.exists_tail
  have isWord := isWord_of_isIdentifier declarator.identifier
  have before : Wordy (front ++ declarator.lead.text ++ declarator.name.toList ++ blanks) :=
    ((wordy.append (.of_gap _)).append (.of_isIdentifier declarator.identifier)).append
      fun c member => .inr (blank c member)
  have whole : front ++ declarator.text =
      front ++ declarator.lead.text ++ declarator.name.toList ++ blanks ++ rest := by
    simp [text, isTail]
  refine declarator?_eq_some ?_ declarator.identifier declarator.noType
  rw [whole, subject_append before stops, words, runs_append_of_separators blank]
  refine getLast?_words_append (fun c isLast => ?_) isWord
  rw [List.getLast?_append] at isLast
  cases lastOfLead : declarator.lead.text.getLast? with
  | none =>
    rw [lastOfLead] at isLast
    exact ends c isLast
  | some last =>
    rw [lastOfLead] at isLast
    obtain rfl := Option.some.inj isLast
    exact declarator.lead.isBlank_of_mem _ (List.mem_of_getLast? lastOfLead)

/-- Declarators behind words and blanks introduce their names. -/
theorem declarators_append {front : List Char} (wordy : Wordy front)
    (ends : ∀ c ∈ front.getLast?, isBlank c = true) {declarators : List WrittenDeclarator}
    (present : declarators ≠ []) :
    Source.declarators (front ++ listed declarators) = declarators.map name := by
  obtain ⟨first, others, rfl⟩ := List.exists_cons_of_ne_nil present
  -- What stands in front belongs to the first part.
  have joined : front ++ listed (first :: others) =
      [','].intercalate ((front ++ first.text) :: others.map text) := by
    cases others with
    | nil => simp [listed]
    | cons next others => simp [listed]
  have parts : ∀ part ∈ (front ++ first.text) :: others.map text, Nested false part := by
    refine List.forall_mem_cons.mpr ⟨wordy.nested.append first.nested, fun part member => ?_⟩
    obtain ⟨declarator, -, rfl⟩ := List.mem_map.mp member
    exact declarator.nested
  have alone : declarator? ∘ text = some ∘ name :=
    funext fun declarator => @declarator?_append declarator [] (by simp [Wordy]) (by simp)
  rw [Source.declarators, joined, topLevelParts_intercalate (List.cons_ne_nil _ _) parts,
    List.filterMap_cons_some (first.declarator?_append wordy ends), List.filterMap_map, alone,
    List.filterMap_eq_map, List.map_cons]

end WrittenDeclarator

/-- Blanks behind a declaration do not change what it introduces. -/
theorem declarators_trimEnd (text : List Char) :
    declarators (trimEnd text) = declarators text := by
  obtain ⟨blanks, blank, whole⟩ := exists_trimEnd_append text
  have noComma : ',' ∉ blanks := fun member => absurd (blank _ member) (by decide)
  obtain ⟨initial, last, parts, longer⟩ := topLevelParts_append_last noComma 0 (trimEnd text)
  rw [whole] at longer
  rw [declarators, parts, declarators, longer, List.filterMap_append, List.filterMap_append]
  simp only [List.filterMap_cons, List.filterMap_nil, declarator?_append_blanks blank]

end ShaderBlocks.Source
