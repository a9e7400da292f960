import ShaderBlocks.Proofs.FragmentText

/-!
# The declaration of a uniform

A uniform is declared by a statement: the word that announces it, its type, its name and, if it has
one, its initial value behind an equals sign. The value is text of any kind that does not end the
statement and opens no comment. It may hold further equals signs, since the first one counts. Read
again, the statement is the same uniform, with its value letter by letter.
-/

namespace ShaderBlocks

open Text Source

namespace Uniform

/-- The word that announces a uniform. -/
def keyword : List Char :=
  ['u', 'n', 'i', 'f', 'o', 'r', 'm']

/-- The type and the name of a uniform, as they stand behind the word that announces it. -/
def subject (u : Uniform) : List Char :=
  ' ' :: (u.type.spelling.toList ++ ' ' :: u.name.toList)

/-- The declaration of a uniform up to its name. -/
def line (u : Uniform) : List Char :=
  keyword ++ u.subject

/-- What stands behind the name: the initial value, if there is one. -/
def initial (u : Uniform) : List Char :=
  match u.value with
  | some value => ' ' :: '=' :: ' ' :: value.toList
  | none => []

/-- An initial value that is read as it was written. -/
structure IsInitial (value : List Char) : Prop where
  /-- It is not empty. -/
  some : value ≠ []
  /-- No blank stands at its ends. -/
  trimmed : trim value = value
  /-- It does not end the declaration, and no line end in it is to be unified. -/
  plain : ∀ c ∈ value, c ∉ [';', '{', '}', '\r']
  /-- No line comment opens in it. -/
  noLine : ¬['/', '/'] <:+: value
  /-- No block comment opens in it. -/
  noBlock : ¬['/', '*'] <:+: value

/-- A uniform whose declaration can be read, with its initial value. -/
structure IsDeclarable (u : Uniform) : Prop where
  /-- Its type and its name can be read. -/
  plain : u.IsPlain
  /-- The initial value can be read, if there is one. -/
  value : ∀ value ∈ u.value, IsInitial value.toList

/-- An initial value can stand in a header. -/
theorem IsInitial.isHeader {value : List Char} (isInitial : IsInitial value) :
    IsHeader value where
  plain c member := by
    have other := isInitial.plain c member
    simp only [List.mem_cons, not_or] at other
    simp [endsHeader, other]
  free := commentFree_iff.mpr ⟨isInitial.noLine, isInitial.noBlock⟩

namespace IsDeclarable

variable {u : Uniform}

/-- The name is a word. -/
theorem isWord_name (declarable : u.IsDeclarable) : IsWord u.name.toList :=
  isWord_of_isIdentifier declarable.plain.name

/-- A character that stands in no word and is no space does not stand before the initial value. -/
theorem notMem_subject (declarable : u.IsDeclarable) {mark : Char}
    (noLetter : isWordChar mark = false) (noSpace : mark ≠ ' ') : mark ∉ u.subject := by
  have noType : mark ∉ u.type.spelling.toList := u.type.isWord_spelling.notMem noLetter
  have noName : mark ∉ u.name.toList := declarable.isWord_name.notMem noLetter
  simp [subject, noSpace, noType, noName]

/-- The words before the initial value are the type and the name. -/
theorem words_subject (declarable : u.IsDeclarable) :
    words u.subject = [u.type.spelling.toList, u.name.toList] := by
  rw [subject, words, runs_cons rfl, runs_append_cons rfl, ← words, ← words,
    u.type.isWord_spelling.words_eq, declarable.isWord_name.words_eq]
  rfl

/-- These words are read as the type and the name. -/
theorem readTypedName_words (declarable : u.IsDeclarable) (malformed : SourceError) :
    readTypedName malformed
      (([u.type.spelling.toList, u.name.toList].map String.ofList).filter (!isPrecision ·)) =
        .ok (u.type, u.name) := by
  have noPrecision : isPrecision u.type.spelling = false := by cases u.type <;> decide
  simp [readTypedName, readType, declarable.plain.name, noPrecision, declarable.plain.noPrecision,
    bind, Except.bind, pure, Except.pure]

/-- The declaration up to its semicolon can stand in a header. -/
theorem isHeader_text (declarable : u.IsDeclarable) : IsHeader (u.line ++ u.initial) := by
  have isHeader : IsHeader u.line := by
    refine (isHeader_of_isWord (by decide : IsWord keyword)).append_cons ?_ (by decide) (by decide)
      (by decide)
    exact (isHeader_of_isWord u.type.isWord_spelling).append_cons
      (isHeader_of_isWord declarable.isWord_name) (by decide) (by decide) (by decide)
  rw [initial]
  split
  · rename_i value isValue
    have isInitial := (declarable.value value isValue).isHeader
    have assigned : IsHeader ('=' :: ([] ++ ' ' :: value.toList)) :=
      isHeader_nil.append_cons (isHeader_nil.append_cons isInitial (by decide) (by decide)
        (by decide)) (by decide) (by decide) (by decide)
    exact isHeader.append_cons assigned (by decide) (by decide) (by decide)
  · rwa [List.append_nil]

/-- The declaration up to its semicolon ends with no blank. -/
theorem endsSolid_text (declarable : u.IsDeclarable) : EndsSolid (u.line ++ u.initial) := by
  rw [initial]
  split
  · rename_i value isValue
    have isInitial := declarable.value value isValue
    have ends := (solid_of_trim_eq isInitial.trimmed isInitial.some).2
    exact (ends.append [' ', '=', ' ']).append u.line
  · have parts : u.line =
        (keyword ++ ' ' :: (u.type.spelling.toList ++ [' '])) ++ u.name.toList := by
      simp [line, subject]
    rw [List.append_nil, parts]
    exact declarable.isWord_name.endsSolid.append _

/-- No line end in the declaration is to be unified. -/
theorem noReturn_text (declarable : u.IsDeclarable) : '\r' ∉ u.line ++ u.initial ++ [';'] := by
  have noKeyword : '\r' ∉ keyword := by decide
  have noSubject : '\r' ∉ u.subject := declarable.notMem_subject (by decide) (by decide)
  have noInitial : '\r' ∉ u.initial := by
    rw [initial]
    split
    · rename_i value isValue
      have noValue : '\r' ∉ value.toList :=
        fun member => (declarable.value value isValue).plain _ member (by decide)
      simp [noValue]
    · exact List.not_mem_nil
  simp [line, noKeyword, noSubject, noInitial]

/-- The declaration without its semicolon. -/
theorem withoutSemicolon_text (declarable : u.IsDeclarable) :
    withoutSemicolon (u.line ++ u.initial ++ [';']) = u.line ++ u.initial := by
  have starts : StartsSolid (u.line ++ u.initial) := ⟨'u', _, rfl, rfl⟩
  obtain ⟨front, c, parts, -⟩ := declarable.endsSolid_text
  have noSemicolon : (c == ';') = false := by
    have plain := declarable.isHeader_text.plain c (by simp [parts])
    simp only [endsHeader, Bool.or_eq_false_iff] at plain
    exact plain.1.1
  have dropped : dropEndWhile (· == ';') (u.line ++ u.initial ++ [';']) = u.line ++ u.initial := by
    rw [parts]
    refine dropEndWhile_append ?_ front (by simp)
    exact noSemicolon
  rw [withoutSemicolon, dropped, trim_eq_self starts declarable.endsSolid_text]

/-- The declaration says which uniform it is. -/
theorem readUniform_text (declarable : u.IsDeclarable) :
    readUniform (u.line ++ u.initial ++ [';']) = .ok u := by
  have stripped : stripStart? "uniform".toList (u.line ++ u.initial) =
      some (u.subject ++ u.initial) := by
    rw [line, List.append_assoc]
    exact stripStart?_append _ _
  have noEquals : '=' ∉ u.subject := declarable.notMem_subject (by decide) (by decide)
  simp only [readUniform, declarable.withoutSemicolon_text, stripped]
  cases isValue : u.value with
  | none =>
    have alone : u.subject ++ u.initial = u.subject := by rw [initial, isValue, List.append_nil]
    have same : ({ name := u.name, type := u.type, value := none } : Uniform) = u := by
      rw [← isValue]
    simp only [alone, splitOnce?_eq_none noEquals, declarable.words_subject,
      declarable.readTypedName_words, bind, Except.bind, Option.map_none, same]
    rfl
  | some value =>
    have isInitial := declarable.value value isValue
    have cut : splitOnce? '=' (u.subject ++ u.initial) =
        some (u.subject ++ [' '], ' ' :: value.toList) := by
      refine splitOnce?_eq_some.mpr ⟨by simp [initial, isValue], ?_⟩
      simp [noEquals]
    have trimmed : trim (' ' :: value.toList) = value.toList := isInitial.trimmed
    have spaced : words (u.subject ++ [' ']) = words u.subject := by
      rw [words, runs_append_cons rfl]
      exact List.append_nil _
    have same : ({ name := u.name, type := u.type, value := some value } : Uniform) = u := by
      rw [← isValue]
    have notEmpty : ¬some value.toList = some [] :=
      fun none => isInitial.some (Option.some.inj none)
    simp only [cut, trimmed, if_neg notEmpty, spaced, declarable.words_subject,
      declarable.readTypedName_words, bind, Except.bind, Option.map_some, String.ofList_toList,
      same]
    rfl

/-- The declaration is read as this uniform. -/
theorem written (declarable : u.IsDeclarable) :
    (Item.uniform u).Written (u.line ++ u.initial ++ [';']) := by
  have uniformWord : IsWord keyword := by decide
  have text : u.line ++ u.initial = keyword ++ (u.subject ++ u.initial) := List.append_assoc _ _ _
  have isStatement : IsStatement (u.line ++ u.initial ++ [';']) := by
    refine isStatement_append ?_ declarable.isHeader_text
    rw [text]
    exact begins_of_isWord uniformWord _
  have unified : unifyLineEnds (u.line ++ u.initial ++ [';']) = u.line ++ u.initial ++ [';'] :=
    unifyLineEnds_eq_self declarable.noReturn_text
  refine ⟨isStatement.free, ⟨'u', _, rfl, rfl⟩, ⟨_, ';', rfl, rfl⟩,
    .statement (u.line ++ u.initial ++ [';']), ?_, fun rest => ?_⟩
  · have announced : firstWord? (u.line ++ u.initial ++ [';']) = some "uniform" := by
      rw [text, List.append_assoc]
      exact firstWord?_of_isWord uniformWord _
    rw [Item.ofRaw, if_pos announced, declarable.readUniform_text]
    rfl
  · rw [unified]
    exact readItem_eq_ok.mpr (isStatement.reads ('\n' :: rest))

end IsDeclarable

/-- Declarations on lines of their own list the uniforms. -/
theorem listed {uniforms : List Uniform} (declarable : ∀ u ∈ uniforms, u.IsDeclarable) :
    Listed (uniforms.flatMap fun u => u.line ++ u.initial ++ [';'] ++ ['\n'])
      (uniforms.map .uniform) := by
  induction uniforms with
  | nil => exact .nil
  | cons u uniforms ih =>
    obtain ⟨first, others⟩ := List.forall_mem_cons.mp declarable
    rw [List.flatMap_cons, List.append_assoc, List.singleton_append]
    exact .item first.written (ih others)

end Uniform

end ShaderBlocks
