import ShaderBlocks.Proofs.DeclaratorText

/-!
# The names that a written declaration introduces

A declaration is a type with its qualifiers and some declarators, or a structure with declarators
behind its group. As with declarators, a value of the records here is a declaration that can be
written. The names that are found in the text of a declaration are those that it was written with,
in their order, with the name of the structure first if there is one. What stands in the group of a
structure does not matter, nor do blanks anywhere between the parts.
-/

namespace ShaderBlocks.Source

open ShaderBlocks.Text

/-- A word with the blanks behind it. -/
structure WrittenWord where
  /-- The word. -/
  word : String
  /-- The blanks. -/
  gap : Gap
  /-- The word is an identifier. -/
  identifier : isIdentifier word.toList = true := by decide
  /-- The word is parted from what follows. -/
  apart : gap.text ≠ [] := by decide

/-- The text of a word and what parts it from the next. -/
def WrittenWord.text (word : WrittenWord) : List Char :=
  word.word.toList ++ word.gap.text

/-- A declaration that begins with qualifiers and a type. -/
structure TypedDeclaration where
  /-- The qualifiers. -/
  qualifiers : List WrittenWord
  /-- The type. -/
  type : WrittenWord
  /-- The declarators. -/
  declarators : List WrittenDeclarator
  /-- There is a declarator. -/
  present : declarators ≠ [] := by simp
  /-- The first word does not announce a precision. -/
  noPrecision : (qualifiers.head?.getD type).word ≠ "precision" := by decide
  /-- The first word does not announce a structure. -/
  noStructure : (qualifiers.head?.getD type).word ≠ "struct" := by decide

namespace TypedDeclaration

/-- The qualifiers and the type. -/
def specifiers (declaration : TypedDeclaration) : List Char :=
  (declaration.qualifiers ++ [declaration.type]).flatMap WrittenWord.text

/-- The declaration up to its semicolon. -/
def body (declaration : TypedDeclaration) : List Char :=
  declaration.specifiers ++ WrittenDeclarator.listed declaration.declarators

/-- The text of a declaration. -/
def text (declaration : TypedDeclaration) : List Char :=
  declaration.body ++ [';']

/-- The names of the declarators, in order. -/
def names (declaration : TypedDeclaration) : List String :=
  declaration.declarators.map WrittenDeclarator.name

end TypedDeclaration

/-- A structure, with declarators of variables of this structure behind it. -/
structure AggregateDeclaration where
  /-- The blanks behind the word that announces a structure. -/
  lead : Gap
  /-- The name of the structure. -/
  name : String
  /-- The blanks before the group. -/
  gap : Gap
  /-- What stands between the braces. -/
  body : List Char
  /-- The blanks behind the group. -/
  behind : Gap
  /-- The declarators. -/
  declarators : List WrittenDeclarator
  /-- The name is parted from the word before it. -/
  apart : lead.text ≠ [] := by decide
  /-- The name is an identifier. -/
  identifier : isIdentifier name.toList = true := by decide
  /-- The declarators hold no braces. -/
  noBrace : ∀ declarator ∈ declarators, '}' ∉ declarator.text := by decide

namespace AggregateDeclaration

/-- The word that announces a structure. -/
def keyword : List Char :=
  ['s', 't', 'r', 'u', 'c', 't']

/-- The declaration up to its closing brace. -/
def front (declaration : AggregateDeclaration) : List Char :=
  keyword ++ (declaration.lead.text ++ (declaration.name.toList ++
    (declaration.gap.text ++ '{' :: declaration.body)))

/-- What stands behind the closing brace, up to the semicolon. -/
def instances (declaration : AggregateDeclaration) : List Char :=
  declaration.behind.text ++ WrittenDeclarator.listed declaration.declarators

/-- The text of a declaration. -/
def text (declaration : AggregateDeclaration) : List Char :=
  declaration.front ++ '}' :: declaration.instances ++ [';']

/-- The name of the structure and the names of the declarators, in order. -/
def names (declaration : AggregateDeclaration) : List String :=
  declaration.name :: declaration.declarators.map WrittenDeclarator.name

end AggregateDeclaration

/-! ## The end of a declaration -/

/-- A declaration that does not end with a semicolon of its own is read without the one behind it,
and without blanks before that. -/
theorem withoutSemicolon_append {body : List Char} (starts : StartsSolid body)
    (last : body.getLast? ≠ some ';') : withoutSemicolon (body ++ [';']) = trimEnd body := by
  have dropped : dropEndWhile (· == ';') (body ++ [';']) = body := by
    rcases List.eq_nil_or_concat' body with rfl | ⟨front, c, rfl⟩
    · rfl
    · rw [List.getLast?_concat] at last
      have noSemicolon : (c == ';') = false :=
        beq_false_of_ne fun same => last (congrArg some same)
      exact @dropEndWhile_append (· == ';') c noSemicolon front [';']
        (List.forall_mem_singleton.mpr rfl)
  rw [withoutSemicolon, dropped, starts.trim]

/-! ## Whole declarations -/

section Runs

variable {mark : Char}

/-- Blanks behind a text do not change its runs between blanks and a mark. -/
theorem runs_trimEnd (text : List Char) :
    runs (fun c => isBlank c || c == mark) (trimEnd text) =
      runs (fun c => isBlank c || c == mark) text := by
  obtain ⟨ending, blank, whole⟩ := exists_trimEnd_append text
  have separators : ∀ c ∈ ending, (isBlank c || c == mark) = true := by
    intro c member
    rw [blank c member, Bool.true_or]
  have same := runs_append_of_separators separators (trimEnd text)
  rw [← same, whole]

/-- A word with blanks or the mark behind it is a run between blanks and the mark. -/
theorem runs_word (noLetter : isWordChar mark = false) {word gap : List Char} (isWord : IsWord word)
    (apart : gap ≠ []) (separators : ∀ c ∈ gap, isBlank c = true ∨ c = mark) (rest : List Char) :
    runs (fun c => isBlank c || c == mark) (word ++ (gap ++ rest)) =
      word :: runs (fun c => isBlank c || c == mark) rest := by
  refine runs_append_append isWord.1 (fun c member => ?_) apart (fun c member => ?_) rest
  · have letter := isWord.2 c member
    rw [isBlank_of_isWordChar letter, Bool.false_or, beq_eq_false_iff_ne]
    exact ne_of_isWordChar letter noLetter
  · rcases separators c member with blank | isMark
    · rw [blank, Bool.true_or]
    · rw [isMark, beq_self_eq_true, Bool.or_true]

end Runs

/-- A text that begins with a word begins with no blank. -/
theorem startsSolid_append {word : List Char} (isWord : IsWord word) (rest : List Char) :
    StartsSolid (word ++ rest) := by
  obtain ⟨c, letters, rfl⟩ := List.exists_cons_of_ne_nil isWord.1
  exact ⟨c, letters ++ rest, rfl, isBlank_of_isWordChar (isWord.2 c List.mem_cons_self)⟩

namespace TypedDeclaration

/-- The first word of a declaration. -/
def opening (declaration : TypedDeclaration) : WrittenWord :=
  declaration.qualifiers.head?.getD declaration.type

/-- A declaration begins with its first word and a gap. -/
theorem exists_body (declaration : TypedDeclaration) :
    ∃ rest, declaration.body =
      declaration.opening.word.toList ++ (declaration.opening.gap.text ++ rest) := by
  rw [body, specifiers, opening]
  cases declaration.qualifiers with
  | nil =>
    exact ⟨WrittenDeclarator.listed declaration.declarators, by simp [WrittenWord.text]⟩
  | cons first others =>
    exact ⟨(others ++ [declaration.type]).flatMap WrittenWord.text ++
      WrittenDeclarator.listed declaration.declarators, by simp [WrittenWord.text]⟩

/-- The first word of a declaration is found. -/
theorem firstWord?_body (declaration : TypedDeclaration) :
    firstWord? (trimEnd declaration.body) = some declaration.opening.word := by
  obtain ⟨rest, whole⟩ := declaration.exists_body
  have isWord := isWord_of_isIdentifier declaration.opening.identifier
  rw [firstWord?, runs_trimEnd, whole, runs_word (by decide) isWord declaration.opening.apart
    (fun c member => .inl (declaration.opening.gap.isBlank_of_mem c member)), List.head?_cons,
    Option.map_some, String.ofList_toList]

/-- The qualifiers and the type are words and blanks. -/
theorem wordy_specifiers (declaration : TypedDeclaration) : Wordy declaration.specifiers := by
  intro c member
  obtain ⟨word, -, inside⟩ := List.mem_flatMap.mp member
  exact (Wordy.of_isIdentifier word.identifier).append (.of_gap word.gap) c inside

/-- The type is parted from the first declarator. -/
theorem blank_of_specifiers (declaration : TypedDeclaration) :
    ∀ c ∈ declaration.specifiers.getLast?, isBlank c = true := by
  intro c isLast
  obtain ⟨front, last, isGap⟩ :=
    (List.eq_nil_or_concat' declaration.type.gap.text).resolve_left declaration.type.apart
  have ends : declaration.specifiers = declaration.qualifiers.flatMap WrittenWord.text ++
      declaration.type.word.toList ++ front ++ [last] := by
    simp [specifiers, WrittenWord.text, isGap]
  rw [ends, List.getLast?_concat] at isLast
  refine declaration.type.gap.isBlank_of_mem c ?_
  rw [← Option.some.inj isLast, isGap]
  simp

/-- The names of a declaration are found in its text. -/
theorem declaredNames_text (declaration : TypedDeclaration) :
    declaredNames declaration.text = declaration.names := by
  have starts : StartsSolid declaration.body := by
    obtain ⟨rest, whole⟩ := declaration.exists_body
    rw [whole]
    exact startsSolid_append (isWord_of_isIdentifier declaration.opening.identifier) _
  have last : declaration.body.getLast? ≠ some ';' :=
    getLast?_append_ne declaration.wordy_specifiers.getLast?_ne
      (WrittenDeclarator.getLast?_listed _)
  have noPrecision : some declaration.opening.word ≠ some "precision" :=
    fun same => declaration.noPrecision (Option.some.inj same)
  have noStructure : some declaration.opening.word ≠ some "struct" :=
    fun same => declaration.noStructure (Option.some.inj same)
  rw [declaredNames, text, withoutSemicolon_append starts last, declaration.firstWord?_body]
  simp only
  rw [if_neg noPrecision, if_neg noStructure, declarators_trimEnd, body]
  exact WrittenDeclarator.declarators_append declaration.wordy_specifiers
    declaration.blank_of_specifiers declaration.present

end TypedDeclaration

namespace AggregateDeclaration

/-- The word that announces a structure is a word. -/
theorem isWord_keyword : IsWord keyword := by
  decide

/-- The words of a structure up to its group. -/
theorem runs_front {mark : Char} (noLetter : isWordChar mark = false)
    (declaration : AggregateDeclaration) (rest : List Char) :
    runs (fun c => isBlank c || c == mark) (declaration.front ++ rest) =
      keyword :: runs (fun c => isBlank c || c == mark) (declaration.name.toList ++
        (declaration.gap.text ++ '{' :: (declaration.body ++ rest))) := by
  have whole : declaration.front ++ rest =
      keyword ++ (declaration.lead.text ++ (declaration.name.toList ++
        (declaration.gap.text ++ '{' :: (declaration.body ++ rest)))) := by
    simp [front]
  rw [whole, runs_word noLetter isWord_keyword declaration.apart
    (fun c member => .inl (declaration.lead.isBlank_of_mem c member))]

/-- The name of the structure is found. -/
theorem structureName?_front (declaration : AggregateDeclaration) (rest : List Char) :
    structureName? (declaration.front ++ rest) = some declaration.name := by
  have isWord := isWord_of_isIdentifier declaration.identifier
  have separators : ∀ c ∈ declaration.gap.text ++ ['{'], isBlank c = true ∨ c = '{' := by
    intro c member
    rcases List.mem_append.mp member with blank | brace
    · exact .inl (declaration.gap.isBlank_of_mem c blank)
    · exact .inr (List.mem_singleton.mp brace)
  have parted : declaration.gap.text ++ '{' :: (declaration.body ++ rest) =
      declaration.gap.text ++ ['{'] ++ (declaration.body ++ rest) := by simp
  rw [structureName?, declaration.runs_front (by decide), parted,
    runs_word (by decide) isWord (by simp) separators]
  simp [declaration.identifier]

/-- The declarators behind a structure hold no closing brace. -/
theorem notMem_instances (declaration : AggregateDeclaration) : '}' ∉ declaration.instances := by
  intro member
  rcases List.mem_append.mp member with inGap | inList
  · exact (Wordy.of_gap declaration.behind).notMem (by decide) (by decide) inGap
  · exact WrittenDeclarator.notMem_listed (by decide) declaration.noBrace inList

/-- What stands behind the group introduces the names of the declarators. -/
theorem declarators_instances (declaration : AggregateDeclaration) :
    Source.declarators declaration.instances =
      declaration.declarators.map WrittenDeclarator.name := by
  by_cases present : declaration.declarators = []
  · have noComma : ',' ∉ declaration.behind.text :=
      (Wordy.of_gap _).notMem (by decide) (by decide)
    have unnamed : declarator? declaration.behind.text = none :=
      declarator?_append_blanks declaration.behind.isBlank_of_mem []
    have alone : declaration.instances = declaration.behind.text := by
      rw [instances, present, WrittenDeclarator.listed, List.map_nil, List.intercalate_nil,
        List.append_nil]
    rw [alone, present, Source.declarators, topLevelParts_of_notMem noComma,
      List.filterMap_cons_none unnamed]
    rfl
  · exact WrittenDeclarator.declarators_append (.of_gap _)
      (fun c isLast => declaration.behind.isBlank_of_mem c (List.mem_of_getLast? isLast)) present

/-- The name of a structure and those of its declarators are found in its text. -/
theorem declaredNames_text (declaration : AggregateDeclaration) :
    declaredNames declaration.text = declaration.names := by
  have starts : StartsSolid (declaration.front ++ '}' :: declaration.instances) := by
    rw [front, List.append_assoc]
    exact startsSolid_append isWord_keyword _
  have last : (declaration.front ++ '}' :: declaration.instances).getLast? ≠ some ';' := by
    rw [List.append_cons]
    refine getLast?_append_ne ?_ (getLast?_append_ne (Wordy.of_gap _).getLast?_ne
      (WrittenDeclarator.getLast?_listed _))
    rw [List.getLast?_concat]
    decide
  have trimmed : trimEnd (declaration.front ++ '}' :: declaration.instances) =
      declaration.front ++ '}' :: trimEnd declaration.instances :=
    trimEnd_append_cons (by decide) _ _
  have first : firstWord? (declaration.front ++ '}' :: trimEnd declaration.instances) =
      some "struct" := by
    rw [firstWord?, declaration.runs_front (by decide)]
    rfl
  have cut : splitLast? '}' (declaration.front ++ '}' :: trimEnd declaration.instances) =
      some (declaration.front, trimEnd declaration.instances) := by
    refine splitLast?_eq_some.mpr ⟨rfl, fun member => declaration.notMem_instances ?_⟩
    exact (trimEnd_isPrefix _).subset member
  rw [declaredNames, text, withoutSemicolon_append starts last, trimmed, first, cut,
    declaration.structureName?_front]
  simp only
  rw [if_neg (by decide), if_pos trivial, declarators_trimEnd, declaration.declarators_instances]
  rfl

end AggregateDeclaration

/-- The names that are found in the text of a declaration are the names that it was written with, in
their order: those of its declarators and, before them, that of the structure if it declares one. -/
theorem declaredNames_written :
    (∀ declaration : TypedDeclaration, declaredNames declaration.text = declaration.names) ∧
      ∀ declaration : AggregateDeclaration, declaredNames declaration.text = declaration.names :=
  ⟨TypedDeclaration.declaredNames_text, AggregateDeclaration.declaredNames_text⟩

namespace Sample

/-- Nothing between two parts. -/
def joined : Gap where
  text := []

/-- A space between two parts. -/
def spaced : Gap where
  text := [' ']

/-- Constants whose values and bounds hold commas, equals signs and names in brackets. -/
def constants : TypedDeclaration where
  qualifiers := [{ word := "const", gap := spaced }]
  type := { word := "vec2", gap := spaced }
  declarators :=
    [{ lead := joined
       name := "K"
       bounds := []
       gap := spaced
       initial := some { value := " f(1, a[2]) == v".toList } },
     { lead := spaced
       name := "M"
       bounds := [{ gap := joined, size := "g(1, i)".toList }, { gap := spaced, size := [] }]
       gap := joined
       initial := some { value := "\x7bx, \x7by = z\x7d\x7d ".toList } }]

/-- A structure with a structure inside, and variables behind it. -/
def ray : AggregateDeclaration where
  lead := spaced
  name := "Ray"
  gap := joined
  body := "struct T \x7bint k;\x7d in, out;".toList
  behind := joined
  declarators :=
    [{ lead := spaced, name := "sun", bounds := [], gap := spaced, initial := none },
     { lead := joined
       name := "moon"
       bounds := [{ gap := joined, size := ['2'] }]
       gap := joined
       initial := some { value := "f(a, b)".toList } }]

end Sample

/-- Names in values, in bounds and in the group of a structure are not taken for declared ones. -/
theorem declaredNames_written_sample :
    declaredNames
        "const vec2 K = f(1, a[2]) == v, M[g(1, i)] []=\x7bx, \x7by = z\x7d\x7d ;".toList =
      ["K", "M"] ∧
    declaredNames
        "struct Ray\x7bstruct T \x7bint k;\x7d in, out;\x7d sun ,moon[2]=f(a, b);".toList =
      ["Ray", "sun", "moon"] := by
  have typed : Sample.constants.text =
      "const vec2 K = f(1, a[2]) == v, M[g(1, i)] []=\x7bx, \x7by = z\x7d\x7d ;".toList := by decide
  have aggregate : Sample.ray.text =
      "struct Ray\x7bstruct T \x7bint k;\x7d in, out;\x7d sun ,moon[2]=f(a, b);".toList := by decide
  obtain ⟨ofTyped, ofAggregate⟩ := declaredNames_written
  rw [← typed, ← aggregate]
  exact ⟨ofTyped Sample.constants, ofAggregate Sample.ray⟩

end ShaderBlocks.Source
