import ShaderBlocks.Proofs.References

/-!
# Renaming as substitution

What renaming does is said here without words and marks, on the characters of a text. Read from
left to right, a text is at each place either at the start of a run that is replaced, or not. A run
is replaced if it is a whole word, begins with no digit, does not stand right behind a point and
has a new spelling. Its spelling is then written in its stead, and reading goes on behind it. At
any other place the character stays.

This determines the result, and renaming returns it, whatever the new spellings are. If they are
identifiers then two renamings, one after the other, are one renaming: a replaced word is still a
word, begins with no digit, and parts the words around it as it did before.
-/

namespace ShaderBlocks.Text

/-- A run is a whole word where it stands: no further letter stands before it or behind it. -/
structure IsWholeWord (before run after : List Char) : Prop where
  /-- The run is a word. -/
  isWord : IsWord run
  /-- The word begins here. -/
  begins : ∀ c ∈ before.getLast?, isWordChar c = false
  /-- The word ends here. -/
  ends : ∀ c ∈ after.head?, isWordChar c = false

/-- A whole word reaches up to the first character that stands in no word. -/
theorem IsWholeWord.takeWhile_eq {before run after : List Char}
    (whole : IsWholeWord before run after) : (run ++ after).takeWhile isWordChar = run := by
  cases after with
  | nil => rw [List.append_nil, List.takeWhile_eq_self_iff.mpr whole.isWord.2]
  | cons c rest => exact takeWhile_append_cons whole.isWord.2 (whole.ends c rfl)

/-- Only one whole word begins at a place. -/
theorem IsWholeWord.unique {before run after other behind : List Char}
    (whole : IsWholeWord before run after) (another : IsWholeWord before other behind)
    (same : run ++ after = other ++ behind) : run = other ∧ after = behind := by
  have sameRun : run = other := by
    rw [← whole.takeWhile_eq, same, another.takeWhile_eq]
  exact ⟨sameRun, List.append_cancel_left (sameRun ▸ same)⟩

namespace Renaming

/-- A run is replaced where it stands, by the given spelling. -/
structure Replaces (spellings : Renaming) (before run after spelling : List Char) : Prop where
  /-- The run is a whole word. -/
  whole : IsWholeWord before run after
  /-- It is no number. -/
  noNumber : ∀ c ∈ run.head?, c.isDigit = false
  /-- It is not the name of a member. -/
  noMember : before.getLast? ≠ some '.'
  /-- It has this new spelling. -/
  entry : spellings (String.ofList run) = some (String.ofList spelling)

/-- What is written for a text that stands behind `before`. -/
inductive Substituted (spellings : Renaming) : (before text result : List Char) → Prop
  /-- The end of the text. -/
  | nil {before : List Char} : Substituted spellings before [] []
  /-- A run that is replaced begins here. -/
  | spell {before run after spelling result : List Char}
      (replaces : spellings.Replaces before run after spelling)
      (further : Substituted spellings (before ++ run) after result) :
      Substituted spellings before (run ++ after) (spelling ++ result)
  /-- No run that is replaced begins here. -/
  | keep {before rest result : List Char} {c : Char}
      (idle : ∀ run after spelling, c :: rest = run ++ after →
        ¬spellings.Replaces before run after spelling)
      (further : Substituted spellings (before ++ [c]) rest result) :
      Substituted spellings before (c :: rest) (c :: result)

variable {spellings first : Renaming}

namespace Substituted

variable {before after text result : List Char}

/-- What is written for a text is determined by the text and what stands before it. -/
theorem unique (substituted : spellings.Substituted before text result) {same other : List Char}
    (another : spellings.Substituted before same other) (isSame : text = same) :
    result = other := by
  -- Both ways agree at each place on whether a replaced run begins there, and on its end.
  induction substituted generalizing same other with
  | nil =>
    cases another with
    | nil => rfl
    | spell replaces further =>
      exact absurd (List.append_eq_nil_iff.mp isSame.symm).1 replaces.whole.isWord.1
    | keep idle further => contradiction
  | @spell before run after spelling result replaces further ih =>
    cases another with
    | nil => exact absurd (List.append_eq_nil_iff.mp isSame).1 replaces.whole.isWord.1
    | spell replacesToo furtherToo =>
      obtain ⟨rfl, sameRest⟩ := replaces.whole.unique replacesToo.whole isSame
      have sameSpelling : String.ofList spelling = _ :=
        Option.some.inj (replaces.entry.symm.trans replacesToo.entry)
      rw [String.ofList_injective sameSpelling, ih furtherToo sameRest]
    | keep idle furtherToo => exact absurd replaces (idle _ _ _ isSame.symm)
  | @keep before rest result c idle further ih =>
    cases another with
    | nil => contradiction
    | spell replaces furtherToo => exact absurd replaces (idle _ _ _ isSame)
    | keep idleToo furtherToo =>
      obtain ⟨rfl, sameRest⟩ := List.cons.inj isSame
      rw [ih furtherToo sameRest]

/-- The letters behind a letter stay, since no word begins there. -/
theorem keep_letters {c : Char} {letters : List Char} (isLetter : isWordChar c = true)
    (areLetters : ∀ d ∈ letters, isWordChar d = true)
    (further : spellings.Substituted (before ++ c :: letters) after result) :
    spellings.Substituted (before ++ [c]) (letters ++ after) (letters ++ result) := by
  induction letters generalizing before c with
  | nil => exact further
  | cons d letters ih =>
    obtain ⟨first, others⟩ := List.forall_mem_cons.mp areLetters
    refine .keep (fun run rest spelling _ replaces => ?_) ?_
    · have begins := replaces.whole.begins c (by rw [List.getLast?_concat]; rfl)
      rw [isLetter] at begins
      contradiction
    · refine ih first others ?_
      rwa [List.append_assoc, List.singleton_append]

/-- A whole word that is not replaced stays. -/
theorem keep_word {letters : List Char} (whole : IsWholeWord before letters after)
    (idle : ∀ spelling, ¬spellings.Replaces before letters after spelling)
    (further : spellings.Substituted (before ++ letters) after result) :
    spellings.Substituted before (letters ++ after) (letters ++ result) := by
  obtain ⟨c, others, rfl⟩ := List.exists_cons_of_ne_nil whole.isWord.1
  obtain ⟨isLetter, areLetters⟩ := List.forall_mem_cons.mp whole.isWord.2
  refine .keep (fun run rest spelling same replaces => ?_)
    (keep_letters isLetter areLetters further)
  obtain ⟨rfl, rfl⟩ := whole.unique replaces.whole same
  exact idle spelling replaces

/-- A mark stays. -/
theorem keep_mark {c : Char} (isMark : isWordChar c = false)
    (further : spellings.Substituted (before ++ [c]) text result) :
    spellings.Substituted before (c :: text) (c :: result) := by
  refine .keep (fun run rest spelling same replaces => ?_) further
  obtain ⟨d, letters, rfl⟩ := List.exists_cons_of_ne_nil replaces.whole.isWord.1
  have isLetter := replaces.whole.isWord.2 d List.mem_cons_self
  rw [← (List.cons.inj same).1, isMark] at isLetter
  contradiction

/-- A whole word is replaced exactly if it refers to something that has a new spelling. -/
theorem of_word {letters : List Char} (whole : IsWholeWord before letters after)
    (further : spellings.Substituted (before ++ letters) after result) :
    spellings.Substituted before (letters ++ after)
      ((if !(before.getLast? == some '.') && isName letters then
        (spellings.apply (String.ofList letters)).toList else letters) ++ result) := by
  have named : isName letters = true ↔ ∀ c ∈ letters.head?, c.isDigit = false := by
    obtain ⟨c, others, rfl⟩ := List.exists_cons_of_ne_nil whole.isWord.1
    simp [isName]
  by_cases refers : (!(before.getLast? == some '.') && isName letters) = true
  · rw [if_pos refers, apply]
    rw [Bool.and_eq_true, Bool.not_eq_true', beq_eq_false_iff_ne] at refers
    cases found : spellings (String.ofList letters) with
    | none =>
      rw [Option.getD_none, String.toList_ofList]
      refine keep_word whole (fun spelling replaces => ?_) further
      rw [replaces.entry] at found
      contradiction
    | some spelling =>
      refine .spell ⟨whole, named.mp refers.2, refers.1, ?_⟩ further
      rw [found, Option.getD_some, String.ofList_toList]
  · rw [if_neg refers]
    refine keep_word whole (fun spelling replaces => refers ?_) further
    rw [Bool.and_eq_true, Bool.not_eq_true', beq_eq_false_iff_ne]
    exact ⟨replaces.noMember, named.mpr replaces.noNumber⟩

end Substituted

/-- What is written for some elements is what renaming returns for them. -/
theorem substituted_renderTokens (spellings : Renaming) {tokens : List Token}
    (sound : ∀ token ∈ tokens, token.IsSound) (apart : Token.Apart tokens) {before : List Char}
    (begins : ∀ token ∈ tokens.head?, token.isRun = true →
      ∀ c ∈ before.getLast?, isWordChar c = false) :
    spellings.Substituted before (tokens.flatMap Token.text)
      (spellings.renderTokens (before.getLast? == some '.') tokens) := by
  induction tokens generalizing before with
  | nil => exact .nil
  | cons token rest ih =>
    obtain ⟨isSound, others⟩ := List.forall_mem_cons.mp sound
    cases token with
    | mark c =>
      have isMark : isWordChar c = false := isSound
      have last : (before ++ [c]).getLast? = some c := List.getLast?_concat
      have further := @ih others apart.tail (before ++ [c]) fun _ _ _ d isLast => by
        rw [last] at isLast
        exact Option.some.inj isLast ▸ isMark
      rw [last] at further
      exact .keep_mark isMark further
    | word letters =>
      have isWord : IsWord letters := isSound
      -- A mark stands behind the word, or nothing, so no word begins there.
      have whole : IsWholeWord before letters (rest.flatMap Token.text) := by
        refine ⟨isWord, begins _ rfl rfl, fun c isFirst => ?_⟩
        rcases apart.behind_word with rfl | ⟨d, behind, rfl⟩
        · contradiction
        · exact Option.some.inj isFirst ▸ others (.mark d) List.mem_cons_self
      have further := @ih others apart.tail (before ++ letters) fun token isNext isRun => by
        rcases apart.behind_word with rfl | ⟨d, behind, rfl⟩
        · contradiction
        · rw [← Option.some.inj isNext] at isRun
          contradiction
      have noPoint : ((before ++ letters).getLast? == some '.') = false := by
        obtain ⟨front, c, rfl⟩ := (List.eq_nil_or_concat' letters).resolve_left isWord.1
        rw [← List.append_assoc, List.getLast?_concat]
        exact beq_false_of_ne fun same => ne_of_isWordChar (isWord.2 c (by simp)) (by decide)
          (Option.some.inj same)
      rw [noPoint] at further
      exact .of_word whole further

/-- Renaming returns what is written for the text, and nothing else is. -/
theorem respell_eq_iff (spellings : Renaming) (text result : List Char) :
    spellings.respell text = result ↔ spellings.Substituted [] text result := by
  have returned : spellings.Substituted [] ((Token.ofText text).flatMap Token.text)
      (spellings.respell text) := by
    refine spellings.substituted_renderTokens (Token.sound_ofText text) (Token.apart_ofText text) ?_
    intro token isFirst isRun c isLast
    contradiction
  rw [Token.flatMap_text_ofText] at returned
  constructor
  · rintro rfl
    exact returned
  · intro substituted
    exact returned.unique substituted rfl

/-- The renaming that does what `first` does and then what `second` does. -/
def after (second first : Renaming) : Renaming :=
  fun word =>
    match first word with
    | some spelling => some (second.apply spelling)
    | none => second word

/-- A word gets the second spelling of its first spelling. -/
theorem apply_after (second first : Renaming) (word : String) :
    (second.after first).apply word = second.apply (first.apply word) := by
  rw [apply, apply, after, apply]
  cases first word <;> rfl

/-- Elements that were renamed are renamed as the elements before are by both renamings. -/
theorem Identifying.renderTokens_respellTokens (identifying : first.Identifying)
    (second : Renaming) {tokens : List Token} (sound : ∀ token ∈ tokens, token.IsSound)
    (member : Bool) :
    second.renderTokens member (first.respellTokens member tokens) =
      (second.after first).renderTokens member tokens := by
  induction tokens generalizing member with
  | nil => rfl
  | cons token rest ih =>
    obtain ⟨isSound, others⟩ := List.forall_mem_cons.mp sound
    cases token with
    | mark c => rw [respellTokens, renderTokens, renderTokens, ih others]
    | word letters =>
      rw [respellTokens, renderTokens, renderTokens, ih others]
      by_cases refers : (!member && isName letters) = true
      · -- The first spelling is still a name, so it is renamed in its turn.
        obtain ⟨outside, named⟩ := Bool.and_eq_true_iff.mp refers
        have still := (identifying.apply isSound named).2
        rw [if_pos refers, if_pos refers, if_pos (Bool.and_eq_true_iff.mpr ⟨outside, still⟩),
          String.ofList_toList, apply_after]
      · rw [if_neg refers, if_neg refers, if_neg refers]

/-- Two renamings of a text, one after the other, are one. -/
theorem Identifying.respell_respell (identifying : first.Identifying) (second : Renaming)
    (text : List Char) :
    second.respell (first.respell text) = (second.after first).respell text := by
  have sound := Token.sound_ofText text
  rw [respell, respell, identifying.ofText_renderTokens sound (Token.apart_ofText text),
    identifying.renderTokens_respellTokens second sound, respell]

/-- Renaming substitutes new spellings for words and does nothing else. If the spellings of one
renaming are identifiers then another renaming after it does to every text what the renaming does
that sends a word to the second spelling of its first. -/
theorem rename_substitutes_and_composes (identifying : first.Identifying) (second : Renaming)
    (text : String) :
    second.rename (first.rename text) = (second.after first).rename text ∧
      ∀ (spellings : Renaming) (result : String),
        spellings.rename text = result ↔ spellings.Substituted [] text.toList result.toList := by
  constructor
  · rw [← String.toList_inj, toList_rename, toList_rename, toList_rename,
      identifying.respell_respell]
  · intro spellings result
    rw [← String.toList_inj, toList_rename, respell_eq_iff]

namespace Sample

/-- A word becomes a longer one. -/
def lengthened : Renaming :=
  fun word => if word = "x" then some "far" else none

/-- The longer word becomes a shorter one, and a word that was not renamed is now. -/
def shortened : Renaming :=
  fun word => if word = "far" then some "_" else if word = "v" then some "x" else none

end Sample

/-- Members, numbers and parts of words are left alone by both renamings, and a word that comes to
be spelled as one that was renamed is not renamed again. -/
theorem rename_substitutes_and_composes_sample :
    Sample.lengthened.Identifying ∧
      Sample.lengthened.rename "v.x+x*1x/xx" = "v.x+far*1x/xx" ∧
      Sample.shortened.rename "v.x+far*1x/xx" = "x.x+_*1x/xx" ∧
      (Sample.shortened.after Sample.lengthened).rename "v.x+x*1x/xx" = "x.x+_*1x/xx" ∧
      Sample.lengthened.Substituted [] "v.x+x*1x/xx".toList "v.x+far*1x/xx".toList := by
  have identifying : Sample.lengthened.Identifying := by
    intro word spelling isSpelling _
    rw [Sample.lengthened] at isSpelling
    split at isSpelling
    · obtain rfl := Option.some.inj isSpelling
      decide
    · contradiction
  have once : Sample.lengthened.rename "v.x+x*1x/xx" = "v.x+far*1x/xx" := by decide
  have twice : Sample.shortened.rename "v.x+far*1x/xx" = "x.x+_*1x/xx" := by decide
  obtain ⟨composes, substitutes⟩ :=
    rename_substitutes_and_composes identifying Sample.shortened "v.x+x*1x/xx"
  rw [once, twice] at composes
  exact ⟨identifying, once, twice, composes.symm, (substitutes _ _).mp once⟩

end Renaming

end ShaderBlocks.Text
