import Mathlib.Data.List.Basic
import Mathlib.Data.List.Infix
import Mathlib.Data.List.TakeWhile
import ShaderBlocks.Text.Blank
import ShaderBlocks.Text.Identifier

/-!
# Scanning text

What trimming, cutting and dividing a text into words give back. A text is cut at the first
or the last separator exactly where one stands with none before or behind it. The runs of a
text are parts of it without separators, and a separator between two texts keeps their runs
apart.
-/

namespace ShaderBlocks.Text

/-- The first character is there and is no blank. -/
def StartsSolid (text : List Char) : Prop :=
  ∃ c rest, text = c :: rest ∧ isBlank c = false

/-- The last character is there and is no blank. -/
def EndsSolid (text : List Char) : Prop :=
  ∃ front c, text = front ++ [c] ∧ isBlank c = false

/-- The characters of a word are no blanks. -/
theorem isBlank_of_isWordChar {c : Char} (word : isWordChar c = true) : isBlank c = false := by
  delta isWordChar Char.isAlphanum Char.isAlpha Char.isUpper Char.isLower Char.isDigit at word
  simp only [Bool.or_eq_true, Bool.and_eq_true, decide_eq_true_eq, beq_iff_eq,
    UInt32.le_iff_toNat_le, ge_iff_le] at word
  change (((65 ≤ c.toNat ∧ c.toNat ≤ 90) ∨ (97 ≤ c.toNat ∧ c.toNat ≤ 122)) ∨
    (48 ≤ c.toNat ∧ c.toNat ≤ 57)) ∨ c = '_' at word
  rcases word with ascii | rfl
  · simp only [isBlank, Bool.or_eq_false_iff, Bool.and_eq_false_iff, decide_eq_false_iff_not,
      beq_eq_false_iff_ne]
    omega
  · rfl

/-- A character of a word is not one that stands in no word. -/
theorem ne_of_isWordChar {c mark : Char} (word : isWordChar c = true)
    (outside : isWordChar mark = false) : c ≠ mark := by
  rintro rfl
  rw [word] at outside
  contradiction

/-- A text that is one word. -/
def IsWord (text : List Char) : Prop :=
  text ≠ [] ∧ ∀ c ∈ text, isWordChar c = true

/-- A text ends as its second part does. -/
theorem EndsSolid.append {text : List Char} (ends : EndsSolid text) (front : List Char) :
    EndsSolid (front ++ text) := by
  obtain ⟨inner, c, rfl, solid⟩ := ends
  exact ⟨front ++ inner, c, (List.append_assoc ..).symm, solid⟩

/-- The second part of a text ends as the text does, unless it is empty. -/
theorem EndsSolid.of_append {front text : List Char} (ends : EndsSolid (front ++ text))
    (some : text ≠ []) : EndsSolid text := by
  obtain ⟨whole, c, same, solid⟩ := ends
  obtain ⟨inner, last, rfl⟩ := (List.eq_nil_or_concat' text).resolve_left some
  rw [← List.append_assoc] at same
  obtain ⟨-, rfl⟩ := List.append_singleton_inj.mp same
  exact ⟨inner, last, rfl, solid⟩

instance : DecidablePred IsWord :=
  fun text => decidable_of_iff (text ≠ [] ∧ text.all isWordChar = true)
    (by rw [IsWord, List.all_eq_true])

namespace IsWord

/-- A word ends with no blank. -/
theorem endsSolid {text : List Char} (word : IsWord text) : EndsSolid text := by
  obtain ⟨front, c, rfl⟩ := (List.eq_nil_or_concat' text).resolve_left word.1
  exact ⟨front, c, rfl, isBlank_of_isWordChar (word.2 c (by simp))⟩

/-- A character that stands in no word is not in the word. -/
theorem notMem {text : List Char} (word : IsWord text) {mark : Char}
    (outside : isWordChar mark = false) : mark ∉ text :=
  fun member => ne_of_isWordChar (word.2 mark member) outside rfl

/-- A word with more letters behind it is a word. -/
theorem append {first second : List Char} (word : IsWord first)
    (more : ∀ c ∈ second, isWordChar c = true) : IsWord (first ++ second) := by
  refine ⟨by simp [word.1], fun c member => ?_⟩
  exact (List.mem_append.mp member).elim (word.2 c) (more c)

end IsWord

/-- An identifier is a word. -/
theorem isWord_of_isIdentifier {text : List Char} (identifier : isIdentifier text = true) :
    IsWord text := by
  cases text with
  | nil => contradiction
  | cons c rest =>
    rw [isIdentifier, Bool.and_eq_true, List.all_eq_true] at identifier
    refine ⟨List.cons_ne_nil c rest, List.forall_mem_cons.mpr ⟨?_, identifier.2⟩⟩
    have start := identifier.1
    simp only [isWordStart, Bool.or_eq_true] at start
    simp only [isWordChar, Char.isAlphanum, Bool.or_eq_true]
    exact start.imp_left .inl

section Spans

variable {α : Type} {keep : α → Bool} {front rest : List α} {stop : α}

/-- Taking stops at the first character that is not kept. -/
theorem takeWhile_append_cons (kept : ∀ c ∈ front, keep c = true) (stops : keep stop = false) :
    (front ++ stop :: rest).takeWhile keep = front := by
  rw [List.takeWhile_append_of_pos kept, List.takeWhile_cons_of_neg (by simp [stops]),
    List.append_nil]

/-- Dropping stops at the first character that is not kept. -/
theorem dropWhile_append_cons (kept : ∀ c ∈ front, keep c = true) (stops : keep stop = false) :
    (front ++ stop :: rest).dropWhile keep = stop :: rest := by
  rw [List.dropWhile_append_of_pos kept, List.dropWhile_cons_of_neg (by simp [stops])]

/-- The character at which dropping stops is not kept. -/
theorem stop_of_dropWhile {text : List α} (dropped : text.dropWhile keep = stop :: rest) :
    keep stop = false := by
  have stops := List.head?_dropWhile_not keep text
  rwa [dropped] at stops

/-- A text is what is taken and what is not. -/
theorem eq_append_of_dropWhile {text : List α} (dropped : text.dropWhile keep = stop :: rest) :
    text = text.takeWhile keep ++ stop :: rest := by
  rw [← dropped, List.takeWhile_append_dropWhile]

end Spans

/-! ## Trimming -/

/-- A text that starts with no blank keeps its start. -/
theorem StartsSolid.trimStart {text : List Char} (starts : StartsSolid text) :
    trimStart text = text := by
  obtain ⟨c, rest, rfl, solid⟩ := starts
  exact List.dropWhile_cons_of_neg (by simp [solid])

/-- The end of a text is dropped up to the last character that is kept. -/
theorem dropEndWhile_append {drop : Char → Bool} {c : Char} (kept : drop c = false)
    (front : List Char) {ending : List Char} (dropped : ∀ d ∈ ending, drop d = true) :
    dropEndWhile drop (front ++ [c] ++ ending) = front ++ [c] := by
  have reversed : (front ++ [c] ++ ending).reverse = ending.reverse ++ c :: front.reverse := by simp
  rw [dropEndWhile, reversed,
    dropWhile_append_cons (fun d member => dropped d (List.mem_reverse.mp member)) kept]
  simp

/-- A text is what is left when its end is dropped, and what is dropped. -/
theorem dropEndWhile_append_takeWhile (drop : Char → Bool) (text : List Char) :
    dropEndWhile drop text ++ (text.reverse.takeWhile drop).reverse = text := by
  rw [dropEndWhile, ← List.reverse_append, List.takeWhile_append_dropWhile, List.reverse_reverse]

/-- A text that ends with no blank keeps its end. -/
theorem EndsSolid.trimEnd {text : List Char} (ends : EndsSolid text) : trimEnd text = text := by
  obtain ⟨front, c, rfl, solid⟩ := ends
  have kept := dropEndWhile_append solid front (List.forall_mem_nil _)
  rwa [List.append_nil] at kept

/-- A text that starts and ends with no blank is not trimmed. -/
theorem trim_eq_self {text : List Char} (starts : StartsSolid text) (ends : EndsSolid text) :
    trim text = text := by
  rw [trim, starts.trimStart, ends.trimEnd]

/-- Blanks behind a text that ends with none are dropped. -/
theorem EndsSolid.trimEnd_append {text blanks : List Char} (ends : EndsSolid text)
    (blank : ∀ c ∈ blanks, isBlank c = true) : Text.trimEnd (text ++ blanks) = text := by
  obtain ⟨front, c, rfl, solid⟩ := ends
  exact dropEndWhile_append solid front blank

/-- What is left when the end is trimmed is the start of the text. -/
theorem trimEnd_isPrefix (text : List Char) : trimEnd text <+: text := by
  rw [trimEnd, dropEndWhile, ← List.reverse_suffix, List.reverse_reverse]
  exact List.dropWhile_suffix _

/-- What is left when a text is trimmed is part of it. -/
theorem trim_isInfix (text : List Char) : trim text <:+: text :=
  (trimEnd_isPrefix _).isInfix.trans (List.dropWhile_suffix _).isInfix

/-- Trimming ends a text with no blank, unless nothing is left. -/
theorem endsSolid_trimEnd {text : List Char} (some : trimEnd text ≠ []) :
    EndsSolid (trimEnd text) := by
  rw [trimEnd, dropEndWhile, ne_eq, List.reverse_eq_nil_iff] at some
  obtain ⟨c, rest, dropped⟩ := List.exists_cons_of_ne_nil some
  refine ⟨rest.reverse, c, ?_, stop_of_dropWhile dropped⟩
  rw [trimEnd, dropEndWhile, dropped, List.reverse_cons]

/-- A text that trimming leaves as it is starts and ends with no blank, unless it is empty. -/
theorem solid_of_trim_eq {text : List Char} (trimmed : trim text = text) (some : text ≠ []) :
    StartsSolid text ∧ EndsSolid text := by
  have started : trimStart text = text := by
    refine (List.dropWhile_suffix isBlank).eq_of_length_le ?_
    calc text.length = (trim text).length := by rw [trimmed]
      _ ≤ (trimStart text).length := (trimEnd_isPrefix _).length_le
  rw [trim, started] at trimmed
  constructor
  · obtain ⟨c, rest, rfl⟩ := List.exists_cons_of_ne_nil some
    exact ⟨c, rest, rfl, stop_of_dropWhile started⟩
  · rw [← trimmed] at some ⊢
    exact endsSolid_trimEnd some

/-- Only the end of a text that starts with no blank is trimmed. -/
theorem StartsSolid.trim {text : List Char} (starts : StartsSolid text) :
    Text.trim text = trimEnd text := by
  rw [Text.trim, starts.trimStart]

/-- Only what stands behind a character that is no blank is trimmed at the end. -/
theorem trimEnd_append_cons {c : Char} (solid : isBlank c = false) (front rest : List Char) :
    trimEnd (front ++ c :: rest) = front ++ c :: trimEnd rest := by
  have stops : ∀ reversed : List Char, (reversed ++ c :: front.reverse).dropWhile isBlank =
      reversed.dropWhile isBlank ++ c :: front.reverse := by
    intro reversed
    induction reversed with
    | nil => exact List.dropWhile_cons_of_neg (by simp [solid])
    | cons d reversed ih =>
      rw [List.cons_append, List.dropWhile_cons, List.dropWhile_cons, ih]
      split <;> rfl
  have reversed : (front ++ c :: rest).reverse = rest.reverse ++ c :: front.reverse := by simp
  rw [trimEnd, dropEndWhile, reversed, stops]
  simp [trimEnd, dropEndWhile]

/-- What is trimmed from the end of a text is blanks. -/
theorem exists_trimEnd_append (text : List Char) :
    ∃ blanks, (∀ c ∈ blanks, isBlank c = true) ∧ trimEnd text ++ blanks = text :=
  ⟨_, fun _ member => List.mem_takeWhile_imp (List.mem_reverse.mp member),
    dropEndWhile_append_takeWhile isBlank text⟩

/-- A text that starts with no blank keeps its first character when its end is trimmed. -/
theorem trimEnd_cons {c : Char} (solid : isBlank c = false) (rest : List Char) :
    ∃ left, trimEnd (c :: rest) = c :: left :=
  ⟨trimEnd rest, trimEnd_append_cons solid [] rest⟩

/-! ## Cutting -/

/-- A text is cut at the first separator. -/
theorem splitOnce?_eq_some {separator : Char} {text before after : List Char} :
    splitOnce? separator text = some (before, after) ↔
      text = before ++ separator :: after ∧ separator ∉ before := by
  induction text generalizing before with
  | nil => simp [splitOnce?]
  | cons c rest ih =>
    rw [splitOnce?]
    split
    · rename_i isSeparator
      subst isSeparator
      constructor
      · rintro ⟨rfl⟩
        simp
      · rintro ⟨same, absent⟩
        cases before with
        | nil => simpa using same
        | cons d front => simp_all
    · rename_i other
      rw [Option.map_eq_some_iff]
      constructor
      · rintro ⟨⟨front, behind⟩, cut, ⟨rfl⟩⟩
        obtain ⟨rfl, absent⟩ := ih.mp cut
        exact ⟨rfl, by simp [Ne.symm other, absent]⟩
      · rintro ⟨same, absent⟩
        cases before with
        | nil =>
          injection same with isSeparator
          exact absurd isSeparator other
        | cons d front =>
          obtain ⟨rfl, rfl⟩ := List.cons.inj same
          exact ⟨(front, after), ih.mpr ⟨rfl, List.not_mem_of_not_mem_cons absent⟩, rfl⟩

/-- A text without a separator is not cut. -/
theorem splitOnce?_eq_none {separator : Char} {text : List Char} (absent : separator ∉ text) :
    splitOnce? separator text = none := by
  cases cut : splitOnce? separator text with
  | none => rfl
  | some parts =>
    obtain ⟨rfl, -⟩ := splitOnce?_eq_some.mp cut
    exact absurd (by simp) absent

/-- A text is cut at the last separator. -/
theorem splitLast?_eq_some {separator : Char} {text before after : List Char} :
    splitLast? separator text = some (before, after) ↔
      text = before ++ separator :: after ∧ separator ∉ after := by
  rw [splitLast?, Option.map_eq_some_iff]
  constructor
  · rintro ⟨⟨back, front⟩, cut, ⟨rfl⟩⟩
    obtain ⟨reversed, absent⟩ := splitOnce?_eq_some.mp cut
    refine ⟨?_, by simpa using absent⟩
    rw [← List.reverse_reverse text, reversed]
    simp
  · rintro ⟨rfl, absent⟩
    refine ⟨(after.reverse, before.reverse), ?_, by simp⟩
    exact splitOnce?_eq_some.mpr ⟨by simp, by simpa using absent⟩

/-- What follows a given start of a text. -/
theorem stripStart?_append (start text : List Char) :
    stripStart? start (start ++ text) = some text := by
  induction start with
  | nil => rfl
  | cons c start ih => rw [List.cons_append, stripStart?, if_pos rfl, ih]

/-- A text from which a start was taken begins with it. -/
theorem eq_append_of_stripStart? {start text rest : List Char}
    (stripped : stripStart? start text = some rest) : text = start ++ rest := by
  fun_induction stripStart? start text with
  | case1 text => exact Option.some.inj stripped
  | case2 => contradiction
  | case3 expected start text ih => rw [ih stripped, List.cons_append]
  | case4 => contradiction

/-- A text from which an ending was taken ends with it. -/
theorem eq_append_of_stripEnd? {ending text front : List Char}
    (stripped : stripEnd? ending text = some front) : text = front ++ ending := by
  obtain ⟨back, isBack, rfl⟩ := Option.map_eq_some_iff.mp stripped
  rw [← List.reverse_inj, eq_append_of_stripStart? isBack]
  simp

/-! ## Runs -/

section Runs

variable {separates : Char → Bool}

/-- The first piece reaches up to the first separator. -/
theorem pieces_eq (text : List Char) :
    pieces separates text = text.takeWhile (!separates ·) ::
      match text.dropWhile (!separates ·) with
      | [] => []
      | _ :: rest => pieces separates rest := by
  induction text with
  | nil => rfl
  | cons c rest ih =>
    rw [pieces]
    cases isSeparator : separates c with
    | true => simp [isSeparator]
    | false => rw [if_neg (by simp), ih]; simp [isSeparator]

/-- A text without separators is one piece. -/
theorem pieces_of_solid {text : List Char} (solid : ∀ c ∈ text, separates c = false) :
    pieces separates text = [text] := by
  have kept : ∀ c ∈ text, (!separates c) = true := fun c member => by simp [solid c member]
  rw [pieces_eq, List.takeWhile_eq_self_iff.mpr kept, List.dropWhile_eq_nil_iff.mpr kept]

/-- A separator keeps the pieces before it and behind it apart. -/
theorem pieces_append_cons {c : Char} (isSeparator : separates c = true)
    (front rest : List Char) :
    pieces separates (front ++ c :: rest) = pieces separates front ++ pieces separates rest := by
  induction front with
  | nil => simp [pieces, isSeparator]
  | cons d front ih =>
    rw [List.cons_append, pieces, pieces, ih]
    split
    · rfl
    · rw [pieces_eq front]
      rfl

/-- A piece is a part of the text without separators. -/
theorem of_mem_pieces {text piece : List Char} (member : piece ∈ pieces separates text) :
    piece <:+: text ∧ ∀ c ∈ piece, separates c = false := by
  induction length : text.length using Nat.strong_induction_on generalizing text with
  | _ size ih =>
    rw [pieces_eq, List.mem_cons] at member
    rcases member with rfl | behind
    · have start := List.takeWhile_prefix (l := text) (!separates ·)
      refine ⟨start.isInfix, fun c inFront => ?_⟩
      simpa using List.mem_takeWhile_imp inFront
    · cases dropped : text.dropWhile (!separates ·) with
      | nil => simp [dropped] at behind
      | cons c rest =>
        rw [dropped] at behind
        have suffix : rest <:+ text :=
          (List.suffix_cons c rest).trans (dropped ▸ List.dropWhile_suffix _)
        have shorter : rest.length < size := by
          have := (dropped ▸ List.dropWhile_suffix (l := text) _ :
            c :: rest <:+ text).length_le
          rw [List.length_cons, length] at this
          exact this
        obtain ⟨inRest, solid⟩ := ih _ shorter behind rfl
        exact ⟨inRest.trans suffix.isInfix, solid⟩

/-- A run is a part of the text that is not empty and has no separators. -/
theorem of_mem_runs {text run : List Char} (member : run ∈ runs separates text) :
    run <:+: text ∧ run ≠ [] ∧ ∀ c ∈ run, separates c = false := by
  obtain ⟨isPiece, some⟩ := List.mem_filter.mp member
  obtain ⟨part, solid⟩ := of_mem_pieces isPiece
  exact ⟨part, by simpa using some, solid⟩

/-- A separator keeps the runs before it and behind it apart. -/
theorem runs_append_cons {c : Char} (isSeparator : separates c = true) (front rest : List Char) :
    runs separates (front ++ c :: rest) = runs separates front ++ runs separates rest := by
  rw [runs, pieces_append_cons isSeparator, List.filter_append, runs, runs]

/-- Separators at the start belong to no run. -/
theorem runs_cons {c : Char} (isSeparator : separates c = true) (rest : List Char) :
    runs separates (c :: rest) = runs separates rest :=
  runs_append_cons isSeparator [] rest

/-- A text without separators is one run. -/
theorem runs_of_solid {text : List Char} (some : text ≠ [])
    (solid : ∀ c ∈ text, separates c = false) : runs separates text = [text] := by
  rw [runs, pieces_of_solid solid, List.filter_cons_of_pos (by simpa using some), List.filter_nil]

/-- Separators alone have no runs. -/
theorem runs_of_separators {text : List Char} (separators : ∀ c ∈ text, separates c = true) :
    runs separates text = [] := by
  induction text with
  | nil => rfl
  | cons c rest ih =>
    obtain ⟨first, others⟩ := List.forall_mem_cons.mp separators
    rw [runs_cons first, ih others]

/-- Separators at the end belong to no run. -/
theorem runs_append_of_separators {ending : List Char}
    (separators : ∀ c ∈ ending, separates c = true) (text : List Char) :
    runs separates (text ++ ending) = runs separates text := by
  cases ending with
  | nil => rw [List.append_nil]
  | cons c rest =>
    obtain ⟨first, others⟩ := List.forall_mem_cons.mp separators
    rw [runs_append_cons first, runs_of_separators others, List.append_nil]

/-- A run reaches up to the separators behind it. -/
theorem runs_append_append {run gap : List Char} (some : run ≠ [])
    (solid : ∀ c ∈ run, separates c = false) (apart : gap ≠ [])
    (separators : ∀ c ∈ gap, separates c = true) (rest : List Char) :
    runs separates (run ++ (gap ++ rest)) = run :: runs separates rest := by
  obtain ⟨front, c, rfl⟩ := (List.eq_nil_or_concat' gap).resolve_left apart
  have last : separates c = true := separators c (by simp)
  have before : ∀ d ∈ front, separates d = true :=
    fun d member => separators d (List.mem_append_left _ member)
  rw [← List.append_assoc, ← List.append_assoc, List.append_assoc, List.singleton_append,
    runs_append_cons last, runs_append_of_separators before, runs_of_solid some solid,
    List.singleton_append]

/-- A text that starts with no separator starts with a run. -/
theorem head?_runs {c : Char} {rest : List Char} (solid : separates c = false) :
    (runs separates (c :: rest)).head? = some ((c :: rest).takeWhile (!separates ·)) := by
  rw [runs, pieces_eq, List.filter_cons_of_pos, List.head?_cons]
  simp [solid]

end Runs

/-- A word is all the words of itself. -/
theorem IsWord.words_eq {text : List Char} (word : IsWord text) : words text = [text] :=
  runs_of_solid word.1 fun c member => isBlank_of_isWordChar (word.2 c member)

end ShaderBlocks.Text
