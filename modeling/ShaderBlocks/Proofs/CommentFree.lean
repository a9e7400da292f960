import Mathlib.Data.List.Chain
import ShaderBlocks.Proofs.TextScan
import ShaderBlocks.Text.Comment

/-!
# Text without comments

A text is free of comments when no slash stands before another slash or a star. Clearing a
text of comments leaves such a text, and clearing that again only unifies its line ends. To
unify the line ends of a text one may take it apart wherever no line end is cut through.
-/

namespace ShaderBlocks.Text

/-- Two characters that open no comment when they stand side by side. -/
def Apart (first second : Char) : Prop :=
  ¬(first = '/' ∧ (second = '/' ∨ second = '*'))

/-- No comment opens in the text. -/
def CommentFree (text : List Char) : Prop :=
  text.IsChain Apart

/-- A comment opens with a slash. -/
theorem apart_of_ne_slash {first : Char} (second : Char) (plain : first ≠ '/') :
    Apart first second :=
  fun opens => plain opens.1

/-- A text is free of comments if neither of the marks that open one stands in it. -/
theorem commentFree_iff {text : List Char} :
    CommentFree text ↔ ¬['/', '/'] <:+: text ∧ ¬['/', '*'] <:+: text := by
  rw [CommentFree, List.isChain_iff_forall_rel_of_append_cons_cons]
  constructor
  · intro apart
    constructor
    · rintro ⟨front, rest, rfl⟩
      exact apart (List.append_assoc front ['/', '/'] rest) ⟨rfl, .inl rfl⟩
    · rintro ⟨front, rest, rfl⟩
      exact apart (List.append_assoc front ['/', '*'] rest) ⟨rfl, .inr rfl⟩
  · rintro ⟨noLine, noBlock⟩ first second front rest rfl ⟨rfl, rfl | rfl⟩
    · exact noLine ⟨front, rest, List.append_assoc front ['/', '/'] rest⟩
    · exact noBlock ⟨front, rest, List.append_assoc front ['/', '*'] rest⟩

namespace CommentFree

/-- Nothing opens in an empty text. -/
theorem nil : CommentFree [] :=
  List.isChain_nil

/-- A part of a text without comments has none. -/
theorem part {text inner : List Char} (free : CommentFree text) (within : inner <:+: text) :
    CommentFree inner :=
  List.IsChain.infix free within

/-- A text without slashes is free of comments. -/
theorem of_notMem {text : List Char} (absent : '/' ∉ text) : CommentFree text := by
  induction text with
  | nil => exact nil
  | cons c rest ih =>
    rw [List.mem_cons, not_or] at absent
    exact List.isChain_cons.mpr ⟨fun next _ => apart_of_ne_slash next (Ne.symm absent.1),
      ih absent.2⟩

/-- A word is free of comments. -/
theorem of_word {text : List Char} (word : ∀ c ∈ text, isWordChar c = true) : CommentFree text :=
  of_notMem fun slash => absurd (word _ slash) (by decide)

/-- A character that is neither slash nor star keeps two texts apart. -/
theorem append_cons {front rest : List Char} {c : Char} (frontFree : CommentFree front)
    (restFree : CommentFree rest) (noSlash : c ≠ '/') (noStar : c ≠ '*') :
    CommentFree (front ++ c :: rest) := by
  refine List.isChain_append.mpr ⟨frontFree, List.isChain_cons.mpr ⟨?_, restFree⟩, ?_⟩
  · exact fun next _ => apart_of_ne_slash next noSlash
  · rintro last - next isNext ⟨-, opens⟩
    rw [List.head?_cons, Option.mem_some_iff] at isNext
    exact opens.elim (fun slash => noSlash (isNext.trans slash))
      (fun star => noStar (isNext.trans star))

/-- A character other than a slash may stand first. -/
theorem cons {rest : List Char} {c : Char} (noSlash : c ≠ '/') (restFree : CommentFree rest) :
    CommentFree (c :: rest) :=
  List.isChain_cons.mpr ⟨fun next _ => apart_of_ne_slash next noSlash, restFree⟩

/-- A text without slashes may stand before a text without comments. -/
theorem append_of_notMem {front rest : List Char} (absent : '/' ∉ front)
    (restFree : CommentFree rest) : CommentFree (front ++ rest) := by
  refine List.isChain_append.mpr ⟨of_notMem absent, restFree, fun last isLast next _ => ?_⟩
  refine apart_of_ne_slash next ?_
  rintro rfl
  exact absent (List.mem_of_getLast? isLast)

end CommentFree

attribute [local simp] dropComments unifyLineEnds

/-- A text without comments is left as it is. -/
theorem dropComments_eq_self {text : List Char} (free : CommentFree text) :
    dropComments .code text = text := by
  induction text with
  | nil => rfl
  | cons c rest ih =>
    obtain ⟨apart, restFree⟩ := List.isChain_cons.mp free
    rw [dropComments, ih restFree]
    · rintro behind rfl rfl
      exact apart '/' rfl ⟨rfl, .inl rfl⟩
    · rintro behind rfl rfl
      exact apart '*' rfl ⟨rfl, .inr rfl⟩

/-- Clearing a text of comments leaves none. -/
theorem commentFree_dropComments (state : CommentState) (text : List Char) :
    CommentFree (dropComments state text) := by
  fun_induction dropComments state text with
  | case1 rest ih => exact ih
  | case2 rest ih => exact ih
  | case3 c rest noLine noBlock ih =>
    refine List.isChain_cons.mpr ⟨fun next isNext => ?_, ih⟩
    rintro ⟨rfl, opens⟩
    -- What follows a slash that stays is the character behind it.
    cases rest with
    | nil => simp at isNext
    | cons d behind =>
      have noSlash : d ≠ '/' := fun slash => noLine behind rfl (slash ▸ rfl)
      have noStar : d ≠ '*' := fun star => noBlock behind rfl (star ▸ rfl)
      rw [dropComments, List.head?_cons, Option.mem_some_iff] at isNext
      · exact opens.elim (fun slash => noSlash (isNext.trans slash))
          (fun star => noStar (isNext.trans star))
      · exact fun _ slash _ => noSlash slash
      · exact fun _ slash _ => noSlash slash
  | case4 => exact .nil
  | case5 rest ih => exact ih.cons (by decide)
  | case6 c rest _ ih => exact ih
  | case7 => exact .nil
  | case8 rest ih => exact ih.cons (by decide)
  | case9 rest ih => exact ih.cons (by decide)
  | case10 c rest _ _ ih => exact ih
  | case11 => exact CommentFree.nil.cons (by decide)

/-- Clearing a text of comments adds nothing but spaces. -/
theorem mem_dropComments {state : CommentState} {text : List Char} {c : Char}
    (member : c ∈ dropComments state text) : c = ' ' ∨ c ∈ text := by
  fun_induction dropComments state text <;> grind

/-! ## Line ends -/

/-- Unifying line ends adds nothing. -/
theorem mem_of_mem_unifyLineEnds {text : List Char} {c : Char}
    (member : c ∈ unifyLineEnds text) : c ∈ text := by
  fun_induction unifyLineEnds text <;> grind

/-- Where no carriage return stands there is nothing to unify. -/
theorem unifyLineEnds_append {front : List Char} (absent : '\r' ∉ front) (rest : List Char) :
    unifyLineEnds (front ++ rest) = front ++ unifyLineEnds rest := by
  induction front with
  | nil => rfl
  | cons c front ih =>
    rw [List.mem_cons, not_or] at absent
    rw [List.cons_append, unifyLineEnds, ih absent.2, List.cons_append]
    exact fun _ isReturn _ => absent.1 isReturn.symm

/-- A text without carriage returns has its line ends unified. -/
theorem unifyLineEnds_eq_self {text : List Char} (absent : '\r' ∉ text) :
    unifyLineEnds text = text := by
  have unified := unifyLineEnds_append absent []
  rwa [List.append_nil, unifyLineEnds, List.append_nil] at unified

/-- A text of one line has no line ends to unify. -/
theorem unifyLineEnds_of_oneLine {text : List Char} (oneLine : '\n' ∉ text) :
    unifyLineEnds text = text := by
  fun_induction unifyLineEnds text with
  | case1 rest ih => exact absurd (by simp) oneLine
  | case2 c rest other ih => rw [ih (List.not_mem_of_not_mem_cons oneLine)]
  | case3 => rfl

/-- A text may be taken apart at a character that stands in no line end. -/
theorem unifyLineEnds_append_cons {c : Char} (noReturn : c ≠ '\r') (noFeed : c ≠ '\n')
    (front rest : List Char) :
    unifyLineEnds (front ++ c :: rest) = unifyLineEnds front ++ c :: unifyLineEnds rest := by
  fun_induction unifyLineEnds front with
  | case1 front ih => rw [List.cons_append, List.cons_append, unifyLineEnds, ih]; rfl
  | case2 d front other ih =>
    rw [List.cons_append, unifyLineEnds, ih, List.cons_append]
    rintro behind isReturn ends
    cases front with
    | nil => exact noFeed (List.cons.inj ends).1
    | cons e front =>
      obtain ⟨rfl, -⟩ := List.cons.inj ends
      exact other front isReturn rfl
  | case3 =>
    rw [List.nil_append, List.nil_append, unifyLineEnds]
    exact fun _ isReturn _ => noReturn isReturn

/-- A text may be taken apart at a character that is no blank. -/
theorem unifyLineEnds_append_solid {c : Char} (solid : isBlank c = false)
    (front rest : List Char) :
    unifyLineEnds (front ++ c :: rest) = unifyLineEnds front ++ c :: unifyLineEnds rest := by
  refine unifyLineEnds_append_cons ?_ ?_ front rest
  · rintro rfl
    contradiction
  · rintro rfl
    contradiction

/-- A text may be taken apart at a line feed with no carriage return before it. -/
theorem EndsSolid.unifyLineEnds_append {front : List Char} (ends : EndsSolid front)
    (rest : List Char) :
    unifyLineEnds (front ++ '\n' :: rest) = unifyLineEnds front ++ '\n' :: unifyLineEnds rest := by
  obtain ⟨front, c, rfl, solid⟩ := ends
  rw [List.append_assoc, List.singleton_append, unifyLineEnds_append_solid solid,
    unifyLineEnds_append_solid solid, List.append_assoc, List.cons_append]
  rfl

/-- The first character of a text with line ends unified. -/
theorem head?_unifyLineEnds {text : List Char} {c : Char}
    (isFirst : (unifyLineEnds text).head? = some c) : c = '\n' ∨ text.head? = some c := by
  fun_cases unifyLineEnds text with
  | case1 rest => exact .inl (by simpa using isFirst.symm)
  | case2 d rest other => exact .inr (by simpa using isFirst)
  | case3 => exact .inr isFirst

/-- What stands before the first line end stays. -/
theorem takeWhile_unifyLineEnds {stops : Char → Bool} (atReturn : stops '\r' = true)
    (atFeed : stops '\n' = true) (text : List Char) :
    (unifyLineEnds text).takeWhile (!stops ·) = text.takeWhile (!stops ·) := by
  fun_induction unifyLineEnds text with
  | case1 rest ih => simp [atReturn, atFeed]
  | case2 c rest other ih => rw [List.takeWhile_cons, List.takeWhile_cons, ih]
  | case3 => rfl

/-- Unifying line ends opens no comment. -/
theorem CommentFree.unifyLineEnds {text : List Char} (free : CommentFree text) :
    CommentFree (unifyLineEnds text) := by
  fun_induction Text.unifyLineEnds text with
  | case1 rest ih =>
    exact (ih (free.part ⟨['\r', '\n'], [], by simp⟩)).cons (by decide)
  | case2 c rest other ih =>
    obtain ⟨apart, restFree⟩ := List.isChain_cons.mp free
    refine List.isChain_cons.mpr ⟨fun next isNext => ?_, ih restFree⟩
    rcases head?_unifyLineEnds isNext with rfl | kept
    · exact fun opens => opens.2.elim (by decide) (by decide)
    · exact apart next kept
  | case3 => exact free

/-- Clearing a text of comments leaves none. -/
theorem commentFree_stripComments (text : List Char) : CommentFree (stripComments text) :=
  commentFree_dropComments .code _

/-- Where there are no comments, clearing only unifies the line ends. -/
theorem stripComments_eq_unifyLineEnds {text : List Char} (free : CommentFree text) :
    stripComments text = unifyLineEnds text :=
  dropComments_eq_self free.unifyLineEnds

/-- Clearing a text of comments adds nothing but spaces. -/
theorem mem_stripComments {text : List Char} {c : Char} (member : c ∈ stripComments text) :
    c = ' ' ∨ c ∈ text :=
  (mem_dropComments member).imp_right mem_of_mem_unifyLineEnds

end ShaderBlocks.Text
