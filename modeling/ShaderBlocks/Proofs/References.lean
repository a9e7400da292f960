import ShaderBlocks.Proofs.Respelling

/-!
# What a text refers to

A text refers to the words in it that are neither numbers nor names of members. Marks other
than a point separate what stands before them from what stands behind, so what a text refers to
can be read off its parts. Renaming maps what a text refers to, one by one and in order, as long
as the new spellings are identifiers: it neither adds a word nor joins two.
-/

namespace ShaderBlocks.Text

namespace Token

/-- The names that some elements refer to, in order. `member` says that the element before the
first was a point. -/
def references : Bool → List Token → List String
  | _, [] => []
  | member, word letters :: rest =>
    if !member && isName letters then String.ofList letters :: references false rest
    else references false rest
  | _, mark c :: rest => references (c == '.') rest

/-- A mark keeps the names before it and behind it apart. -/
theorem references_append_cons (member : Bool) (front rest : List Token) (c : Char) :
    references member (front ++ mark c :: rest) =
      references member front ++ references (c == '.') rest := by
  induction front generalizing member with
  | nil => rfl
  | cons token front ih =>
    cases token with
    | word letters =>
      rw [List.cons_append, references, references, ih]
      split <;> rfl
    | mark d => rw [List.cons_append, references, references, ih]

/-- Whether an element is a word. -/
def isRun : Token → Bool
  | word _ => true
  | mark _ => false

/-- No two words stand next to each other. -/
def Apart (tokens : List Token) : Prop :=
  tokens.IsChain fun first second => ¬(first.isRun = true ∧ second.isRun = true)

/-- Words of a text do not stand next to each other. -/
theorem apart_ofText (text : List Char) : Apart (ofText text) := by
  induction text with
  | nil => exact .nil
  | cons c rest ih =>
    rw [ofText]
    unfold push
    split
    · split
      · rename_i letters tokens held
        rw [held] at ih
        -- A longer word has the same neighbour.
        cases tokens with
        | nil => exact .singleton _
        | cons next behind =>
          obtain ⟨apart, further⟩ := List.isChain_cons_cons.mp ih
          exact List.isChain_cons_cons.mpr ⟨apart, further⟩
      · rename_i noWord
        cases held : ofText rest with
        | nil => exact .singleton _
        | cons next behind =>
          rw [held] at ih
          refine List.isChain_cons_cons.mpr ⟨?_, ih⟩
          rintro ⟨-, isRun⟩
          cases next with
          | word letters => exact noWord letters behind held
          | mark d => contradiction
    · cases held : ofText rest with
      | nil => exact .singleton _
      | cons next behind =>
        rw [held] at ih
        refine List.isChain_cons_cons.mpr ⟨?_, ih⟩
        rintro ⟨isRun, -⟩
        contradiction

/-- A word in front of a mark, or at the end, is one element. -/
theorem ofText_append_of_isWord {letters text : List Char} (isWord : IsWord letters)
    (marked : ∀ c ∈ text.head?, isWordChar c = false) :
    ofText (letters ++ text) = word letters :: ofText text := by
  cases text with
  | nil => rw [List.append_nil, ofText_of_isWord isWord, ofText]
  | cons c rest =>
    have isMark : isWordChar c = false := marked c rfl
    have read : ofText (c :: rest) = mark c :: ofText rest := ofText_append_cons isMark [] rest
    rw [ofText_append_cons isMark, ofText_of_isWord isWord, read]
    rfl

/-- Behind a word stands nothing or a mark. -/
theorem Apart.behind_word {letters : List Char} {rest : List Token}
    (apart : Apart (word letters :: rest)) : rest = [] ∨ ∃ c behind, rest = mark c :: behind := by
  cases rest with
  | nil => exact .inl rfl
  | cons next behind =>
    cases next with
    | word others => exact absurd ⟨rfl, rfl⟩ (List.isChain_cons_cons.mp apart).1
    | mark c => exact .inr ⟨c, behind, rfl⟩

/-- What stands behind a word begins with a mark, renamed or not. -/
theorem Apart.marked {letters : List Char} {rest : List Token}
    (apart : Apart (word letters :: rest))
    (sound : ∀ token ∈ rest, token.IsSound) (spellings : Renaming) :
    ∀ c ∈ (spellings.renderTokens false rest).head?, isWordChar c = false := by
  intro c isFirst
  rcases apart.behind_word with rfl | ⟨d, behind, rfl⟩
  · contradiction
  · have same : d = c := Option.some.inj isFirst
    exact same ▸ sound (mark d) List.mem_cons_self

end Token

/-- The names that a text refers to, in order. -/
def references (text : List Char) : List String :=
  Token.references false (Token.ofText text)

/-- What a text refers to can be read off its parts, with a mark other than a point between
them. -/
theorem references_append_cons {c : Char} (isMark : isWordChar c = false) (noPoint : c ≠ '.')
    (front rest : List Char) :
    references (front ++ c :: rest) = references front ++ references rest := by
  rw [references, Token.ofText_append_cons isMark, Token.references_append_cons,
    beq_eq_false_iff_ne.mpr noPoint]
  rfl

/-- A mark other than a point in front of a text refers to nothing. -/
theorem references_cons {c : Char} (isMark : isWordChar c = false) (noPoint : c ≠ '.')
    (rest : List Char) : references (c :: rest) = references rest :=
  references_append_cons isMark noPoint [] rest

/-- What stands between the parts of a text separates what they refer to, if it does so for
two parts. -/
theorem references_intercalate {separator : List Char}
    (separates : ∀ front rest : List Char,
      references (front ++ separator ++ rest) = references front ++ references rest)
    (parts : List (List Char)) :
    references (separator.intercalate parts) = parts.flatMap references := by
  induction parts with
  | nil => rfl
  | cons part parts ih =>
    cases parts with
    | nil => rw [List.intercalate_singleton, List.flatMap_cons, List.flatMap_nil, List.append_nil]
    | cons next parts =>
      rw [List.intercalate_cons_cons, separates, ih]
      rfl

/-- A character that an identifier begins with is no digit. -/
theorem isDigit_of_isWordStart {c : Char} (starts : isWordStart c = true) :
    c.isDigit = false := by
  by_cases underscore : c = '_'
  · rw [underscore]
    rfl
  · delta isWordStart Char.isAlpha Char.isUpper Char.isLower at starts
    delta Char.isDigit
    grind

/-- An identifier is no number. -/
theorem isName_of_isIdentifier {letters : List Char} (identifier : isIdentifier letters = true) :
    isName letters = true := by
  cases letters with
  | nil => contradiction
  | cons c rest =>
    have starts : isWordStart c = true := (Bool.and_eq_true_iff.mp identifier).1
    rw [isName, isDigit_of_isWordStart starts]
    rfl

/-- An identifier refers to itself. -/
theorem references_of_isIdentifier {name : String}
    (identifier : isIdentifier name.toList = true) : references name.toList = [name] := by
  rw [references, Token.ofText_of_isWord (isWord_of_isIdentifier identifier), Token.references,
    isName_of_isIdentifier identifier, String.ofList_toList]
  rfl

namespace Renaming

variable {spellings : Renaming}

/-- New spellings of words are identifiers. -/
def Identifying (spellings : Renaming) : Prop :=
  ∀ word spelling, spellings word = some spelling → IsWord word.toList →
    isIdentifier spelling.toList = true

/-- A word that names something is spelled as such a word. -/
theorem Identifying.apply (identifying : spellings.Identifying) {letters : List Char}
    (isWord : IsWord letters) (named : isName letters = true) :
    IsWord (spellings.apply (String.ofList letters)).toList ∧
      isName (spellings.apply (String.ofList letters)).toList = true := by
  rw [Renaming.apply]
  cases found : spellings (String.ofList letters) with
  | none =>
    rw [Option.getD_none, String.toList_ofList]
    exact ⟨isWord, named⟩
  | some spelling =>
    have identifier := identifying _ _ found (by rwa [String.toList_ofList])
    exact ⟨isWord_of_isIdentifier identifier, isName_of_isIdentifier identifier⟩

/-- Some elements after renaming, with words and marks still apart. -/
def respellTokens (spellings : Renaming) : Bool → List Token → List Token
  | _, [] => []
  | member, .word letters :: rest =>
    .word (if !member && isName letters then (spellings.apply (String.ofList letters)).toList
      else letters) :: spellings.respellTokens false rest
  | _, .mark c :: rest => .mark c :: spellings.respellTokens (c == '.') rest

/-- The elements of a renamed text are the elements of the text, each renamed. -/
theorem Identifying.ofText_renderTokens (identifying : spellings.Identifying)
    {tokens : List Token} (sound : ∀ token ∈ tokens, token.IsSound) (apart : Token.Apart tokens)
    (member : Bool) :
    Token.ofText (spellings.renderTokens member tokens) =
      spellings.respellTokens member tokens := by
  induction tokens generalizing member with
  | nil => rfl
  | cons token rest ih =>
    obtain ⟨first, others⟩ := List.forall_mem_cons.mp sound
    cases token with
    | mark c =>
      have read : Token.ofText (c :: spellings.renderTokens (c == '.') rest) =
          .mark c :: Token.ofText (spellings.renderTokens (c == '.') rest) :=
        Token.ofText_append_cons first [] _
      rw [renderTokens, respellTokens, read, ih others apart.tail]
    | word letters =>
      have isWord : IsWord (if !member && isName letters then
          (spellings.apply (String.ofList letters)).toList else letters) := by
        split
        · rename_i refers
          exact (identifying.apply first (Bool.and_eq_true_iff.mp refers).2).1
        · exact first
      rw [renderTokens, respellTokens,
        Token.ofText_append_of_isWord isWord (apart.marked others spellings),
        ih others apart.tail]

/-- Renaming some elements maps what they refer to. -/
theorem Identifying.references_respellTokens (identifying : spellings.Identifying)
    {tokens : List Token} (sound : ∀ token ∈ tokens, token.IsSound) (member : Bool) :
    Token.references member (spellings.respellTokens member tokens) =
      (Token.references member tokens).map spellings.apply := by
  induction tokens generalizing member with
  | nil => rfl
  | cons token rest ih =>
    obtain ⟨first, others⟩ := List.forall_mem_cons.mp sound
    cases token with
    | mark c => rw [respellTokens, Token.references, Token.references, ih others]
    | word letters =>
      rw [respellTokens, Token.references, Token.references]
      by_cases refers : (!member && isName letters) = true
      · obtain ⟨outside, named⟩ := Bool.and_eq_true_iff.mp refers
        have still := (identifying.apply first named).2
        rw [if_pos refers, if_pos refers, if_pos (Bool.and_eq_true_iff.mpr ⟨outside, still⟩),
          String.ofList_toList, List.map_cons, ih others]
      · rw [if_neg refers, if_neg refers, if_neg refers, ih others]

/-- Renaming a text maps what it refers to. -/
theorem Identifying.references_respell (identifying : spellings.Identifying) (text : List Char) :
    references (spellings.respell text) = (references text).map spellings.apply := by
  have sound := Token.sound_ofText text
  rw [references, respell, identifying.ofText_renderTokens sound (Token.apart_ofText text),
    identifying.references_respellTokens sound, references]

end Renaming

end ShaderBlocks.Text
