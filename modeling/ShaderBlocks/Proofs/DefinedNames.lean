import ShaderBlocks.Proofs.References
import ShaderBlocks.Source.DeclaredName

/-!
# What an item defines is named in its text

The names that a directive or a statement defines are found by cutting its text into ever
smaller pieces. Every cut is made at a mark that no word holds, and no piece begins right behind
a point. So a name that is found is a whole word of the text, and the text refers to it.
-/

namespace ShaderBlocks.Text

/-- A piece of a text that begins and ends at marks or with the text. It does not begin behind
a point. -/
inductive IsCut (piece : List Char) : List Char → Prop
  | whole : IsCut piece piece
  | before {front rest : List Char} {c : Char} (isMark : isWordChar c = false) (noPoint : c ≠ '.')
      (cut : IsCut piece rest) : IsCut piece (front ++ c :: rest)
  | behind {front rest : List Char} {c : Char} (isMark : isWordChar c = false)
      (cut : IsCut piece front) : IsCut piece (front ++ c :: rest)

namespace IsCut

variable {piece middle text : List Char}

/-- A piece of a piece is a piece. -/
theorem trans (inner : IsCut piece middle) (outer : IsCut middle text) : IsCut piece text := by
  induction outer with
  | whole => exact inner
  | before isMark noPoint _ ih => exact .before isMark noPoint ih
  | behind isMark _ ih => exact .behind isMark ih

/-- A text refers to whatever a piece of it refers to. -/
theorem references_subset (cut : IsCut piece text) : references piece ⊆ references text := by
  induction cut with
  | whole => exact List.Subset.refl _
  | before isMark noPoint _ ih =>
    rw [references_append_cons isMark noPoint]
    exact List.subset_append_of_subset_right _ ih
  | @behind front rest c isMark _ ih =>
    have parts : references (front ++ c :: rest) =
        references front ++ Token.references (c == '.') (Token.ofText rest) := by
      rw [references, Token.ofText_append_cons isMark, Token.references_append_cons]
      rfl
    rw [parts]
    exact List.subset_append_of_subset_left _ ih

/-- A text refers to an identifier that is a piece of it. -/
theorem mem_references {name : String} (cut : IsCut name.toList text)
    (identifier : isIdentifier name.toList = true) : name ∈ references text := by
  apply cut.references_subset
  rw [references_of_isIdentifier identifier]
  exact List.mem_cons_self

end IsCut

/-- A blank is a mark, and no point. -/
theorem mark_of_isBlank {c : Char} (blank : isBlank c = true) :
    isWordChar c = false ∧ c ≠ '.' := by
  constructor
  · cases word : isWordChar c with
    | false => rfl
    | true =>
      rw [isBlank_of_isWordChar word] at blank
      contradiction
  · rintro rfl
    contradiction

/-- What stands before the first character that is not kept is a piece, if that character is a
mark. -/
theorem isCut_takeWhile {keep : Char → Bool} {text : List Char}
    (marks : ∀ c, keep c = false → isWordChar c = false) : IsCut (text.takeWhile keep) text := by
  cases dropped : text.dropWhile keep with
  | nil =>
    rw [List.takeWhile_eq_self_iff.mpr (List.dropWhile_eq_nil_iff.mp dropped)]
    exact .whole
  | cons c rest =>
    have cut : IsCut (text.takeWhile keep) (text.takeWhile keep ++ c :: rest) :=
      .behind (marks c (stop_of_dropWhile dropped)) .whole
    rwa [← eq_append_of_dropWhile dropped] at cut

/-- What is left when marks at the start are dropped is a piece. -/
theorem isCut_dropWhile {drop : Char → Bool} {text : List Char}
    (marks : ∀ c, drop c = true → isWordChar c = false ∧ c ≠ '.') :
    IsCut (text.dropWhile drop) text := by
  rcases List.eq_nil_or_concat' (text.takeWhile drop) with none | ⟨front, c, taken⟩
  · have same := List.takeWhile_append_dropWhile (p := drop) (l := text)
    rw [none, List.nil_append] at same
    rw [same]
    exact .whole
  · have isTaken : c ∈ text.takeWhile drop := by
      rw [taken]
      simp
    obtain ⟨isMark, noPoint⟩ := marks c (List.mem_takeWhile_imp isTaken)
    have cut : IsCut (text.dropWhile drop) (front ++ c :: text.dropWhile drop) :=
      .before isMark noPoint .whole
    have same := List.takeWhile_append_dropWhile (p := drop) (l := text)
    rw [taken, List.append_assoc, List.singleton_append] at same
    rwa [same] at cut

/-- What is left when marks at the end are dropped is a piece. -/
theorem isCut_dropEndWhile {drop : Char → Bool} {text : List Char}
    (marks : ∀ c, drop c = true → isWordChar c = false) : IsCut (dropEndWhile drop text) text := by
  have whole := dropEndWhile_append_takeWhile drop text
  cases ending : (text.reverse.takeWhile drop).reverse with
  | nil =>
    rw [ending, List.append_nil] at whole
    rw [whole]
    exact .whole
  | cons c rest =>
    have taken : c ∈ text.reverse.takeWhile drop := by
      rw [← List.mem_reverse, ending]
      exact List.mem_cons_self
    have cut : IsCut (dropEndWhile drop text) (dropEndWhile drop text ++ c :: rest) :=
      .behind (marks c (List.mem_takeWhile_imp taken)) .whole
    rwa [← ending, whole] at cut

/-- What is left when a text is trimmed is a piece. -/
theorem isCut_trim (text : List Char) : IsCut (trim text) text :=
  (isCut_dropEndWhile fun _ blank => (mark_of_isBlank blank).1).trans
    (isCut_dropWhile fun _ => mark_of_isBlank)

/-- The runs between separators are pieces, if separators are marks other than points. -/
theorem isCut_of_mem_runs {separates : Char → Bool} {text run : List Char}
    (marks : ∀ c, separates c = true → isWordChar c = false ∧ c ≠ '.')
    (member : run ∈ runs separates text) : IsCut run text := by
  have isPiece := (List.mem_filter.mp member).1
  clear member
  induction length : text.length using Nat.strong_induction_on generalizing text with
  | _ size ih =>
    have first : IsCut (text.takeWhile (!separates ·)) text :=
      isCut_takeWhile fun c stops => (marks c (by simpa using stops)).1
    rw [pieces_eq, List.mem_cons] at isPiece
    rcases isPiece with rfl | isLater
    · exact first
    · cases dropped : text.dropWhile (!separates ·) with
      | nil =>
        rw [dropped] at isLater
        contradiction
      | cons c rest =>
        rw [dropped] at isLater
        have whole := eq_append_of_dropWhile dropped
        have shorter : rest.length < size := by
          have lengths := congrArg List.length whole
          rw [List.length_append, List.length_cons] at lengths
          omega
        obtain ⟨isMark, noPoint⟩ := marks c (by simpa using stop_of_dropWhile dropped)
        rw [whole]
        exact .before isMark noPoint (ih rest.length shorter isLater rfl)

end ShaderBlocks.Text

namespace ShaderBlocks.Source

open Text

/-- The parts of a declaration are those before and behind its first comma outside brackets, if
there is one. -/
theorem topLevelParts_cases (depth : Int) (text : List Char) :
    topLevelParts depth text = [text] ∨
      ∃ part rest, text = part ++ ',' :: rest ∧
        topLevelParts depth text = part :: topLevelParts 0 rest := by
  induction text generalizing depth with
  | nil => exact .inl rfl
  | cons c text ih =>
    rw [topLevelParts]
    split
    · rename_i comma
      exact .inr ⟨[], text, by rw [comma.1]; rfl, by rw [comma.2]⟩
    · rcases ih (depth + bracketStep c) with single | ⟨part, rest, cut, parts⟩
      · rw [single]
        exact .inl rfl
      · rw [parts]
        exact .inr ⟨c :: part, rest, by rw [cut]; rfl, rfl⟩

/-- The parts of a declaration are pieces of it. -/
theorem isCut_of_mem_topLevelParts {depth : Int} {text part : List Char}
    (member : part ∈ topLevelParts depth text) : IsCut part text := by
  induction length : text.length using Nat.strong_induction_on generalizing depth text with
  | _ size ih =>
    rcases topLevelParts_cases depth text with single | ⟨first, rest, rfl, parts⟩
    · rw [single] at member
      rw [List.mem_singleton.mp member]
      exact .whole
    · rw [parts] at member
      rcases List.mem_cons.mp member with rfl | later
      · exact .behind (by decide) .whole
      · refine .before (by decide) (by decide) (ih rest.length ?_ later rfl)
        rw [List.length_append, List.length_cons] at length
        omega

/-- What a part of a declaration introduces is an identifier and a piece of it. -/
theorem isCut_of_declarator? {part : List Char} {name : String}
    (introduced : declarator? part = some name) :
    isIdentifier name.toList = true ∧ IsCut name.toList part := by
  rw [declarator?] at introduced
  split at introduced
  · contradiction
  · rename_i word last
    simp only at introduced
    split at introduced
    · rename_i fits
      obtain rfl := Option.some.inj introduced
      refine ⟨(Bool.and_eq_true_iff.mp fits).1, ?_⟩
      rw [String.toList_ofList]
      have inSubject := isCut_of_mem_runs (fun _ => mark_of_isBlank)
        (List.mem_of_getLast? last)
      have notKept : ∀ mark : Char, isWordChar mark = false →
          ∀ c : Char, decide (c ≠ mark) = false → isWordChar c = false := by
        intro mark isMark c stops
        rw [not_not.mp (of_decide_eq_false stops)]
        exact isMark
      exact (inSubject.trans (isCut_takeWhile (notKept '[' (by decide)))).trans
        (isCut_takeWhile (notKept '=' (by decide)))
    · contradiction

/-- What a declaration introduces is named in it. -/
theorem isCut_of_mem_declarators {declaration : List Char} {name : String}
    (introduced : name ∈ declarators declaration) :
    isIdentifier name.toList = true ∧ IsCut name.toList declaration := by
  obtain ⟨part, isPart, introduces⟩ := List.mem_filterMap.mp introduced
  obtain ⟨identifier, cut⟩ := isCut_of_declarator? introduces
  exact ⟨identifier, cut.trans (isCut_of_mem_topLevelParts isPart)⟩

/-- The name of a structure is named in its declaration. -/
theorem isCut_of_structureName? {declaration : List Char} {name : String}
    (introduced : structureName? declaration = some name) :
    isIdentifier name.toList = true ∧ IsCut name.toList declaration := by
  rw [structureName?] at introduced
  split at introduced
  · rename_i first second others isSecond
    split at introduced
    · rename_i identifier
      obtain rfl := Option.some.inj introduced
      rw [String.toList_ofList]
      have isRun : second ∈ runs (fun c => isBlank c || c == '{') declaration := by
        rw [isSecond]
        simp
      refine ⟨identifier, isCut_of_mem_runs (fun c separates => ?_) isRun⟩
      rcases Bool.or_eq_true_iff.mp separates with blank | brace
      · exact mark_of_isBlank blank
      · rw [beq_iff_eq.mp brace]
        decide
    · contradiction
  · contradiction

/-- A statement refers to the names that it introduces. -/
theorem mem_references_of_mem_declaredNames {statement : List Char} {name : String}
    (introduced : name ∈ declaredNames statement) : name ∈ references statement := by
  have declaration : IsCut (withoutSemicolon statement) statement := by
    refine (isCut_trim _).trans (isCut_dropEndWhile fun c semicolon => ?_)
    rw [beq_iff_eq.mp semicolon]
    decide
  suffices isIdentifier name.toList = true ∧ IsCut name.toList (withoutSemicolon statement) from
    (this.2.trans declaration).mem_references this.1
  unfold declaredNames at introduced
  simp only at introduced
  split at introduced
  · contradiction
  · split at introduced
    · rcases List.mem_append.mp introduced with isStructure | isInstance
      · exact isCut_of_structureName? (Option.mem_toList.mp isStructure)
      · split at isInstance
        · rename_i front after cut
          obtain ⟨identifier, inAfter⟩ := isCut_of_mem_declarators isInstance
          rw [(splitLast?_eq_some.mp cut).1]
          exact ⟨identifier, .before (by decide) (by decide) inAfter⟩
        · contradiction
    · exact isCut_of_mem_declarators introduced

/-- A directive refers to the macro that it defines. -/
theorem mem_references_of_definedMacro? {directive : List Char} {name : String}
    (defined : definedMacro? directive = some name) : name ∈ references directive := by
  obtain ⟨afterHash, isAfterHash, defined⟩ := Option.bind_eq_some_iff.mp defined
  obtain ⟨afterDefine, isAfterDefine, defined⟩ := Option.bind_eq_some_iff.mp defined
  obtain ⟨blank, isFirst, defined⟩ := Option.bind_eq_some_iff.mp defined
  split at defined
  · rename_i isBlank
    simp only at defined
    split at defined
    · rename_i identifier
      obtain rfl := Option.some.inj defined
      have letters : IsCut ((trimStart afterDefine).takeWhile isWordChar) (trimStart afterDefine) :=
        isCut_takeWhile fun _ => id
      -- The blank that must follow the keyword keeps it and the macro apart.
      obtain ⟨behind, rfl⟩ : ∃ behind, afterDefine = blank :: behind :=
        List.head?_eq_some_iff.mp isFirst
      have trimmed : trimStart (blank :: behind) = trimStart behind :=
        List.dropWhile_cons_of_pos isBlank
      have inBehind : IsCut (trimStart (blank :: behind)) behind := by
        rw [trimmed]
        exact isCut_dropWhile fun _ => mark_of_isBlank
      obtain ⟨isMark, noPoint⟩ := mark_of_isBlank isBlank
      have inKeyword : IsCut behind (trimStart afterHash) := by
        rw [eq_append_of_stripStart? isAfterDefine]
        exact .before isMark noPoint .whole
      have inHash : IsCut (trimStart afterHash) directive := by
        have afterMark : IsCut afterHash directive := by
          rw [eq_append_of_stripStart? isAfterHash]
          show IsCut afterHash ([] ++ '#' :: afterHash)
          exact .before (by decide) (by decide) .whole
        exact (isCut_dropWhile fun _ => mark_of_isBlank).trans afterMark
      refine IsCut.mem_references ?_ (by rwa [String.toList_ofList])
      rw [String.toList_ofList]
      exact ((letters.trans inBehind).trans inKeyword).trans inHash
    · contradiction
  · contradiction

end ShaderBlocks.Source
