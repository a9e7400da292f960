import ShaderBlocks.Proofs.CommentFree
import ShaderBlocks.Text.Token

/-!
# What renaming leaves as it is

Renaming replaces words by words. All other characters stay, in their order, so a text may be
renamed part by part wherever a mark other than a point stands between the parts. No blank
comes to stand at an end of a text, and no comment opens.
-/

namespace ShaderBlocks.Text

namespace Token

/-- Words are words and marks stand in none. -/
def IsSound : Token → Prop
  | word letters => IsWord letters
  | mark c => isWordChar c = false

/-- The text of a sound element is not empty. -/
theorem IsSound.text_ne_nil {token : Token} (sound : token.IsSound) : token.text ≠ [] := by
  cases token with
  | word letters => exact sound.1
  | mark c => exact List.cons_ne_nil c []

/-- A character that is put in front of some elements stands in front of their text. -/
theorem flatMap_text_push (c : Char) (tokens : List Token) :
    (push c tokens).flatMap text = c :: tokens.flatMap text := by
  unfold push
  split
  · split <;> rfl
  · rfl

/-- A character can be put in front of sound elements. -/
theorem sound_push {c : Char} {tokens : List Token} (sound : ∀ token ∈ tokens, token.IsSound) :
    ∀ token ∈ push c tokens, token.IsSound := by
  unfold push
  split
  · rename_i isLetter
    split
    · rename_i letters rest
      obtain ⟨first, others⟩ := List.forall_mem_cons.mp sound
      exact List.forall_mem_cons.mpr ⟨⟨List.cons_ne_nil c letters,
        List.forall_mem_cons.mpr ⟨isLetter, first.2⟩⟩, others⟩
    · exact List.forall_mem_cons.mpr ⟨⟨List.cons_ne_nil c [], by simpa using isLetter⟩, sound⟩
  · rename_i isMark
    exact List.forall_mem_cons.mpr ⟨by simpa [IsSound] using isMark, sound⟩

/-- The elements of a text make up the text. -/
theorem flatMap_text_ofText (text : List Char) : (ofText text).flatMap Token.text = text := by
  induction text with
  | nil => rfl
  | cons c rest ih => rw [ofText, flatMap_text_push, ih]

/-- The elements of a text are sound. -/
theorem sound_ofText (text : List Char) : ∀ token ∈ ofText text, token.IsSound := by
  induction text with
  | nil => exact List.forall_mem_nil _
  | cons c rest ih => exact sound_push ih

/-- A mark keeps the elements before it and behind it apart. -/
theorem ofText_append_cons {c : Char} (isMark : isWordChar c = false) (front rest : List Char) :
    ofText (front ++ c :: rest) = ofText front ++ mark c :: ofText rest := by
  induction front with
  | nil => simp [ofText, push, isMark]
  | cons d front ih =>
    rw [List.cons_append, ofText, ofText, ih]
    unfold push
    split
    · cases ofText front with
      | nil => rfl
      | cons token tokens => cases token <;> rfl
    · rfl

/-- A word is one element. -/
theorem ofText_of_isWord {letters : List Char} (isWord : IsWord letters) :
    ofText letters = [word letters] := by
  induction letters with
  | nil => exact absurd rfl isWord.1
  | cons c rest ih =>
    obtain ⟨first, others⟩ := List.forall_mem_cons.mp isWord.2
    cases rest with
    | nil => simp [ofText, push, first]
    | cons d behind =>
      rw [ofText, ih ⟨List.cons_ne_nil d behind, others⟩, push, if_pos first]

end Token

namespace Renaming

variable {spellings : Renaming}

/-- New spellings of words are words, and none is the word `uniform`. -/
structure Regular (spellings : Renaming) : Prop where
  /-- A word becomes a word. -/
  isWord : ∀ {word spelling : String}, spellings word = some spelling → IsWord word.toList →
    IsWord spelling.toList
  /-- No uniform is announced. -/
  ne_uniform : ∀ word, spellings word ≠ some "uniform"

/-- The text after renaming. -/
def respell (spellings : Renaming) (text : List Char) : List Char :=
  spellings.renderTokens false (Token.ofText text)

/-- Renaming is on the characters of a text. -/
theorem toList_rename (spellings : Renaming) (text : String) :
    (spellings.rename text).toList = spellings.respell text.toList :=
  String.toList_ofList

/-- A mark may be renamed apart from what stands before it and behind it. -/
theorem renderTokens_append_cons (spellings : Renaming) (member : Bool) (front rest : List Token)
    (c : Char) :
    spellings.renderTokens member (front ++ .mark c :: rest) =
      spellings.renderTokens member front ++ c :: spellings.renderTokens (c == '.') rest := by
  induction front generalizing member with
  | nil => rfl
  | cons token front ih =>
    cases token with
    | word letters =>
      rw [List.cons_append, renderTokens, renderTokens, ih, List.append_assoc]
    | mark d => rw [List.cons_append, renderTokens, renderTokens, ih, List.cons_append]

/-- A text may be renamed part by part, with a mark other than a point between the parts. -/
theorem respell_append_cons {c : Char} (isMark : isWordChar c = false) (noPoint : c ≠ '.')
    (front rest : List Char) :
    spellings.respell (front ++ c :: rest) =
      spellings.respell front ++ c :: spellings.respell rest := by
  rw [respell, Token.ofText_append_cons isMark, renderTokens_append_cons,
    beq_eq_false_iff_ne.mpr noPoint]
  rfl

namespace Regular

/-- A word is spelled as a word. -/
theorem isWord_apply (regular : spellings.Regular) {word : String} (isWord : IsWord word.toList) :
    IsWord (spellings.apply word).toList := by
  rw [apply]
  cases found : spellings word with
  | none => exact isWord
  | some spelling => exact regular.isWord found isWord

/-- A word is written as a word, renamed or not. -/
theorem isWord_spelling (regular : spellings.Regular) (member : Bool) {letters : List Char}
    (isWord : IsWord letters) :
    IsWord (if !member && isName letters then (spellings.apply (String.ofList letters)).toList
      else letters) := by
  split
  · exact regular.isWord_apply (by rwa [String.toList_ofList])
  · exact isWord

/-- Characters that stand in no word stay, in their order. -/
theorem filter_renderTokens (regular : spellings.Regular) {keep : Char → Bool}
    (marks : ∀ c, keep c = true → isWordChar c = false) {tokens : List Token}
    (sound : ∀ token ∈ tokens, token.IsSound) (member : Bool) :
    (spellings.renderTokens member tokens).filter keep =
      (tokens.flatMap Token.text).filter keep := by
  have noneKept : ∀ {letters : List Char}, IsWord letters → letters.filter keep = [] := by
    intro letters isWord
    refine List.filter_eq_nil_iff.mpr fun c inWord kept => ?_
    exact ne_of_isWordChar (isWord.2 c inWord) (marks c kept) rfl
  induction tokens generalizing member with
  | nil => rfl
  | cons token rest ih =>
    obtain ⟨first, others⟩ := List.forall_mem_cons.mp sound
    cases token with
    | word letters =>
      rw [renderTokens, List.flatMap_cons, List.filter_append, List.filter_append,
        noneKept (regular.isWord_spelling member first), ih others]
      exact congrArg (· ++ _) (noneKept first).symm
    | mark c =>
      rw [renderTokens, List.flatMap_cons, Token.text, List.singleton_append, List.filter_cons,
        List.filter_cons, ih others]

/-- A text that ends with no blank ends with none after renaming. -/
theorem endsSolid_renderTokens (regular : spellings.Regular) {tokens : List Token}
    (sound : ∀ token ∈ tokens, token.IsSound) (member : Bool)
    (ends : EndsSolid (tokens.flatMap Token.text)) :
    EndsSolid (spellings.renderTokens member tokens) := by
  induction tokens generalizing member with
  | nil => exact ends
  | cons token rest ih =>
    obtain ⟨first, others⟩ := List.forall_mem_cons.mp sound
    cases rest with
    | nil =>
      cases token with
      | word letters =>
        rw [renderTokens, renderTokens, List.append_nil]
        exact (regular.isWord_spelling member first).endsSolid
      | mark c => exact ends
    | cons next behind =>
      -- What is behind the first element has a text of its own.
      have some : (next :: behind).flatMap Token.text ≠ [] := by
        rw [List.flatMap_cons]
        exact List.append_ne_nil_of_left_ne_nil (others next List.mem_cons_self).text_ne_nil _
      rw [List.flatMap_cons] at ends
      have endsBehind := ends.of_append some
      cases token with
      | word letters =>
        rw [renderTokens]
        exact (ih others false endsBehind).append _
      | mark c =>
        rw [renderTokens, ← List.singleton_append]
        exact (ih others (c == '.') endsBehind).append _

/-- Renaming opens no comment. -/
theorem commentFree_renderTokens (regular : spellings.Regular) {tokens : List Token}
    (sound : ∀ token ∈ tokens, token.IsSound) (member : Bool)
    (free : CommentFree (tokens.flatMap Token.text)) :
    CommentFree (spellings.renderTokens member tokens) := by
  induction tokens generalizing member with
  | nil => exact free
  | cons token rest ih =>
    obtain ⟨first, others⟩ := List.forall_mem_cons.mp sound
    rw [List.flatMap_cons] at free
    have restFree : CommentFree (rest.flatMap Token.text) :=
      free.part (List.suffix_append ..).isInfix
    cases token with
    | word letters =>
      have isWord := regular.isWord_spelling member first
      rw [renderTokens]
      refine List.isChain_append.mpr ⟨CommentFree.of_word isWord.2, ih others false restFree, ?_⟩
      intro last isLast next _
      exact apart_of_ne_slash next
        (ne_of_isWordChar (isWord.2 last (List.mem_of_getLast? isLast)) (by decide))
    | mark c =>
      rw [renderTokens]
      refine List.isChain_cons.mpr ⟨fun next isNext => ?_, ih others _ restFree⟩
      cases rest with
      | nil => simp [renderTokens] at isNext
      | cons token behind =>
        cases token with
        | word letters =>
          -- A word opens no comment behind a slash.
          have isWord := regular.isWord_spelling (c == '.') (others _ List.mem_cons_self)
          rw [renderTokens, List.head?_append_of_ne_nil _ isWord.1] at isNext
          have isLetter := isWord.2 next (List.mem_of_head? isNext)
          rintro ⟨-, rfl | rfl⟩ <;> exact absurd isLetter (by decide)
        | mark d =>
          rw [renderTokens, List.head?_cons, Option.mem_some_iff] at isNext
          rw [List.flatMap_cons] at free
          exact (List.isChain_cons.mp free).1 next (by simp [Token.text, isNext])

/-- Characters that stand in no word stay, in their order. -/
theorem filter_respell (regular : spellings.Regular) {keep : Char → Bool}
    (marks : ∀ c, keep c = true → isWordChar c = false) (text : List Char) :
    (spellings.respell text).filter keep = text.filter keep := by
  rw [respell, regular.filter_renderTokens marks (Token.sound_ofText text),
    Token.flatMap_text_ofText]

/-- A character that stands in no word is there after renaming exactly if it was before. -/
theorem mem_respell (regular : spellings.Regular) {c : Char} (isMark : isWordChar c = false)
    {text : List Char} : c ∈ spellings.respell text ↔ c ∈ text := by
  have same : (spellings.respell text).filter (· == c) = text.filter (· == c) := by
    refine regular.filter_respell (fun d isC => ?_) text
    exact (beq_iff_eq.mp isC) ▸ isMark
  have kept : ∀ letters : List Char, c ∈ letters ↔ c ∈ letters.filter (· == c) := by simp
  rw [kept, same, ← kept]

/-- A text that ends with no blank ends with none after renaming. -/
theorem endsSolid_respell (regular : spellings.Regular) {text : List Char}
    (ends : EndsSolid text) : EndsSolid (spellings.respell text) := by
  refine regular.endsSolid_renderTokens (Token.sound_ofText text) false ?_
  rwa [Token.flatMap_text_ofText]

/-- Renaming opens no comment. -/
theorem commentFree_respell (regular : spellings.Regular) {text : List Char}
    (free : CommentFree text) : CommentFree (spellings.respell text) := by
  refine regular.commentFree_renderTokens (Token.sound_ofText text) false ?_
  rwa [Token.flatMap_text_ofText]

/-- The first character of a text stays, or a word stands first before and after. -/
theorem respell_cons (regular : spellings.Regular) (c : Char) (rest : List Char) :
    ∃ d left, spellings.respell (c :: rest) = d :: left ∧
      (d = c ∨ isWordChar c = true ∧ isWordChar d = true) := by
  cases isLetter : isWordChar c with
  | false =>
    refine ⟨c, spellings.renderTokens (c == '.') (Token.ofText rest), ?_, .inl rfl⟩
    exact congrArg (spellings.renderTokens false)
      (Token.ofText_append_cons isLetter [] rest)
  | true =>
    obtain ⟨letters, tokens, isFirst⟩ :
        ∃ letters tokens, Token.ofText (c :: rest) = .word (c :: letters) :: tokens := by
      rw [Token.ofText]
      unfold Token.push
      rw [if_pos isLetter]
      split
      · exact ⟨_, _, rfl⟩
      · exact ⟨_, _, rfl⟩
    have sound := Token.sound_ofText (c :: rest) (.word (c :: letters))
      (isFirst ▸ List.mem_cons_self)
    have isWord := regular.isWord_spelling false sound
    obtain ⟨d, left, spelled⟩ := List.exists_cons_of_ne_nil isWord.1
    refine ⟨d, left ++ spellings.renderTokens false tokens, ?_, .inr ⟨rfl, ?_⟩⟩
    · rw [respell, isFirst, renderTokens, spelled, List.cons_append]
    · exact isWord.2 d (spelled ▸ List.mem_cons_self)

/-- The start of a text up to a mark is renamed apart. -/
theorem takeWhile_respell (regular : spellings.Regular) {stops : Char → Bool}
    (marks : ∀ c, stops c = true → isWordChar c = false ∧ c ≠ '.') (text : List Char) :
    (spellings.respell text).takeWhile (!stops ·) =
      spellings.respell (text.takeWhile (!stops ·)) := by
  have kept : ∀ {letters : List Char}, (∀ c ∈ letters, (!stops c) = true) →
      ∀ c ∈ spellings.respell letters, (!stops c) = true := by
    intro letters solid c member
    cases isStop : stops c with
    | false => rfl
    | true =>
      have before := solid c ((regular.mem_respell (marks c isStop).1).mp member)
      rwa [isStop] at before
  cases dropped : text.dropWhile (!stops ·) with
  | nil =>
    have solid := List.dropWhile_eq_nil_iff.mp dropped
    rw [List.takeWhile_eq_self_iff.mpr solid, List.takeWhile_eq_self_iff.mpr (kept solid)]
  | cons c rest =>
    have isStop : stops c = true := by simpa using stop_of_dropWhile dropped
    have solid : ∀ d ∈ text.takeWhile (!stops ·), (!stops d) = true :=
      fun d => List.mem_takeWhile_imp
    rw [eq_append_of_dropWhile dropped, respell_append_cons (marks c isStop).1 (marks c isStop).2,
      takeWhile_append_cons (kept solid) (by simp [isStop]),
      takeWhile_append_cons solid (by simp [isStop])]

/-- A text that becomes the word `uniform` was that word before. -/
theorem eq_uniform_of_respell (regular : spellings.Regular) {text : List Char}
    (same : spellings.respell text = "uniform".toList) : text = "uniform".toList := by
  have isWord : IsWord text := by
    refine ⟨?_, fun c member => ?_⟩
    · rintro rfl
      contradiction
    · cases isLetter : isWordChar c with
      | true => rfl
      | false =>
        have inside := (regular.mem_respell isLetter).mpr member
        rw [same] at inside
        have letters : ∀ c ∈ "uniform".toList, isWordChar c = true :=
          List.all_eq_true.mp (by decide)
        rw [letters c inside] at isLetter
        contradiction
  rw [respell, Token.ofText_of_isWord isWord, renderTokens, renderTokens, List.append_nil] at same
  split at same
  · rw [apply] at same
    cases found : spellings (String.ofList text) with
    | none => simpa [found] using same
    | some spelling =>
      rw [found, Option.getD_some, String.toList_inj] at same
      exact absurd (same ▸ found) (regular.ne_uniform _)
  · exact same

end Regular

end Renaming

end ShaderBlocks.Text
