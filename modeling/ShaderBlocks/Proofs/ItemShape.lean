import ShaderBlocks.Proofs.ItemGrammar
import ShaderBlocks.Proofs.Respelling
import ShaderBlocks.Source.Declaration

/-!
# The shape of items

Which texts are those of directives, statements, brace groups and headers, said of the text
alone. Renaming and unifying line ends change such texts, but leave each what it is: they keep
the marks at which items are taken apart, and let no blank, no hash and no comment come to
stand where none was.
-/

namespace ShaderBlocks

open Text Source

namespace Source

/-- The marks at which items are taken apart. -/
def isJoint (c : Char) : Bool :=
  endsHeader c || c == '(' || c == ')'

/-- A joint is a mark that stands in no word and in no line end. -/
theorem of_isJoint {c : Char} (joint : isJoint c = true) :
    isWordChar c = false ∧ c ≠ '.' ∧ c ≠ '\r' ∧ c ≠ '\n' := by
  simp only [isJoint, endsHeader, Bool.or_eq_true, beq_iff_eq] at joint
  rcases joint with (((rfl | rfl) | rfl) | rfl) | rfl <;> decide

/-- The first word of a text that starts with one. -/
theorem firstWord?_cons {c : Char} (rest : List Char) (solid : isBlank c = false)
    (other : c ≠ ';') :
    firstWord? (c :: rest) =
      some (String.ofList ((c :: rest).takeWhile fun d => !(isBlank d || d == ';'))) := by
  rw [firstWord?, head?_runs (by simp [solid, other])]
  rfl

/-- A change of text that leaves items what they are. -/
structure Faithful (change : List Char → List Char) : Prop where
  /-- Nothing comes from nothing. -/
  nil : change [] = []
  /-- Text is changed apart on both sides of a joint. -/
  append_cons : ∀ {c : Char}, isJoint c = true → ∀ front rest : List Char,
    change (front ++ c :: rest) = change front ++ c :: change rest
  /-- The joints stay, in their order. -/
  joints : ∀ text, (change text).filter isJoint = text.filter isJoint
  /-- A text that starts with no blank goes on to do so, and with a hash if it did before. -/
  cons : ∀ (c : Char) (rest : List Char), isBlank c = false →
    ∃ d left, change (c :: rest) = d :: left ∧ isBlank d = false ∧ (d = '#' ↔ c = '#')
  /-- A text that ends with no blank goes on to do so. -/
  ends : ∀ {text}, EndsSolid text → EndsSolid (change text)
  /-- No comment opens. -/
  free : ∀ {text}, CommentFree text → CommentFree (change text)
  /-- A line stays a line. -/
  oneLine : ∀ {text}, '\n' ∉ text → '\n' ∉ change text
  /-- No uniform is announced. -/
  uniform : ∀ {c : Char} {rest : List Char}, isBlank c = false → c ≠ ';' →
    firstWord? (change (c :: rest)) = some "uniform" → firstWord? (c :: rest) = some "uniform"

/-- To unify line ends is faithful. -/
theorem faithful_unifyLineEnds : Faithful unifyLineEnds where
  nil := rfl
  append_cons joint front rest :=
    unifyLineEnds_append_cons (of_isJoint joint).2.2.1 (of_isJoint joint).2.2.2 front rest
  joints text := by
    fun_induction unifyLineEnds text with
    | case1 rest ih =>
      rw [List.filter_cons, List.filter_cons, List.filter_cons, ih]
      rfl
    | case2 c rest other ih => rw [List.filter_cons, List.filter_cons, ih]
    | case3 => rfl
  cons c rest solid :=
    ⟨c, unifyLineEnds rest, unifyLineEnds_append_solid solid [] rest, solid, Iff.rfl⟩
  ends ends := by
    obtain ⟨front, c, rfl, solid⟩ := ends
    exact ⟨unifyLineEnds front, c, unifyLineEnds_append_solid solid front [], solid⟩
  free := CommentFree.unifyLineEnds
  oneLine absent member := absent (mem_of_mem_unifyLineEnds member)
  uniform {c rest} solid other first := by
    have kept : unifyLineEnds (c :: rest) = c :: unifyLineEnds rest :=
      unifyLineEnds_append_solid solid [] rest
    rw [kept, firstWord?_cons _ solid other, ← kept,
      takeWhile_unifyLineEnds (by decide) (by decide), ← firstWord?_cons _ solid other] at first
    exact first

/-- A text that starts with no blank does so with its line ends unified. -/
theorem startsSolid_unifyLineEnds {text : List Char} (starts : StartsSolid text) :
    StartsSolid (unifyLineEnds text) := by
  obtain ⟨c, rest, rfl, solid⟩ := starts
  obtain ⟨d, left, unified, unifiedSolid, -⟩ := faithful_unifyLineEnds.cons c rest solid
  exact ⟨d, left, unified, unifiedSolid⟩

/-- To rename words regularly is faithful. -/
theorem faithful_respell {spellings : Renaming} (regular : spellings.Regular) :
    Faithful spellings.respell where
  nil := rfl
  append_cons joint front rest :=
    Renaming.respell_append_cons (of_isJoint joint).1 (of_isJoint joint).2.1 front rest
  joints := regular.filter_respell fun _ joint => (of_isJoint joint).1
  cons c rest solid := by
    obtain ⟨d, left, spelled, rfl | ⟨letter, newLetter⟩⟩ := regular.respell_cons c rest
    · exact ⟨d, left, spelled, solid, Iff.rfl⟩
    · refine ⟨d, left, spelled, isBlank_of_isWordChar newLetter, ?_⟩
      constructor
      · exact fun hash => absurd hash (ne_of_isWordChar newLetter (by decide))
      · exact fun hash => absurd hash (ne_of_isWordChar letter (by decide))
  ends := regular.endsSolid_respell
  free := regular.commentFree_respell
  oneLine absent member := absent ((regular.mem_respell (by decide)).mp member)
  uniform {c rest} solid other first := by
    have marks : ∀ d, (isBlank d || d == ';') = true → isWordChar d = false ∧ d ≠ '.' := by
      intro d stops
      constructor
      · cases letter : isWordChar d with
        | false => rfl
        | true =>
          rw [isBlank_of_isWordChar letter, Bool.false_or, beq_iff_eq] at stops
          exact absurd stops (ne_of_isWordChar letter (by decide))
      · rintro rfl
        contradiction
    obtain ⟨d, left, spelled, same⟩ := regular.respell_cons c rest
    have newSolid : isBlank d = false ∧ d ≠ ';' := by
      rcases same with rfl | ⟨-, letter⟩
      · exact ⟨solid, other⟩
      · exact ⟨isBlank_of_isWordChar letter, ne_of_isWordChar letter (by decide)⟩
    rw [spelled, firstWord?_cons _ newSolid.1 newSolid.2, ← spelled,
      regular.takeWhile_respell marks, Option.some.injEq, ← String.toList_inj,
      String.toList_ofList] at first
    rw [firstWord?_cons _ solid other, regular.eq_uniform_of_respell first]
    rfl

/-- The start of a text that is no directive. -/
def Begins (text : List Char) : Prop :=
  ∃ c rest, text = c :: rest ∧ isBlank c = false ∧ c ≠ '#'

/-- A directive on a line. -/
structure IsDirective (text : List Char) : Prop where
  /-- It starts with a hash. -/
  hash : text.head? = some '#'
  /-- It ends with no blank. -/
  ends : EndsSolid text
  /-- It does not reach beyond its line. -/
  oneLine : '\n' ∉ text
  /-- No comment opens in it. -/
  free : CommentFree text

/-- The shapes of a statement up to its semicolon. -/
inductive StatementShape : List Char → Prop
  /-- A header with a semicolon. -/
  | simple {header : List Char} (plain : ∀ c ∈ header, endsHeader c = false) :
      StatementShape (header ++ [';'])
  /-- A header without a parenthesis, a brace group and a semicolon. -/
  | aggregate {header group tail : List Char} (plain : ∀ c ∈ header, endsHeader c = false)
      (noParameters : '(' ∉ header) (balanced : Balanced group) (noSemicolon : ';' ∉ tail) :
      StatementShape (header ++ '{' :: (group ++ '}' :: (tail ++ [';'])))

/-- A statement. -/
structure IsStatement (text : List Char) : Prop where
  /-- It starts with no blank and is no directive. -/
  begins : Begins text
  /-- It ends with its semicolon. -/
  shape : StatementShape text
  /-- No comment opens in it. -/
  free : CommentFree text

/-- A brace group. -/
structure IsGroup (text : List Char) : Prop where
  /-- It lies between two braces. -/
  braces : ∃ inner, text = '{' :: (inner ++ ['}']) ∧ Balanced inner
  /-- No comment opens in it. -/
  free : CommentFree text

/-- A text that can stand in a header. -/
structure IsHeader (text : List Char) : Prop where
  /-- It does not end the header. -/
  plain : ∀ c ∈ text, endsHeader c = false
  /-- No comment opens in it. -/
  free : CommentFree text

/-- A statement ends with its semicolon. -/
theorem StatementShape.endsSolid {text : List Char} (shape : StatementShape text) :
    EndsSolid text := by
  cases shape with
  | @simple header plain => exact ⟨header, ';', rfl, rfl⟩
  | @aggregate header group tail plain noParameters balanced noSemicolon =>
    exact ⟨header ++ '{' :: (group ++ '}' :: tail), ';', by simp, rfl⟩

/-- A statement that starts with its semicolon is nothing else. -/
theorem StatementShape.eq_semicolon {text : List Char} (shape : StatementShape text)
    (first : text.head? = some ';') : text = [';'] := by
  cases shape with
  | @simple header plain =>
    cases header with
    | nil => rfl
    | cons c header =>
      obtain rfl := Option.some.inj first
      exact absurd (plain ';' List.mem_cons_self) (by decide)
  | @aggregate header group tail plain noParameters balanced noSemicolon =>
    cases header with
    | nil => exact absurd (Option.some.inj first) (by decide)
    | cons c header =>
      obtain rfl := Option.some.inj first
      exact absurd (plain ';' List.mem_cons_self) (by decide)

namespace Faithful

variable {change : List Char → List Char}

/-- A joint that stands first stays there. -/
theorem joint_cons (faithful : Faithful change) {c : Char} (joint : isJoint c = true)
    (rest : List Char) : change (c :: rest) = c :: change rest := by
  have apart := faithful.append_cons joint [] rest
  rwa [faithful.nil] at apart

/-- A joint is there after the change exactly if it was before. -/
theorem mem_joint (faithful : Faithful change) {c : Char} (joint : isJoint c = true)
    {text : List Char} : c ∈ change text ↔ c ∈ text := by
  have kept : ∀ letters : List Char, c ∈ letters ↔ c ∈ letters.filter isJoint := by simp [joint]
  rw [kept, faithful.joints, ← kept]

/-- What can stand in a header still can. -/
theorem plain (faithful : Faithful change) {text : List Char}
    (plain : ∀ c ∈ text, endsHeader c = false) : ∀ c ∈ change text, endsHeader c = false := by
  intro c member
  cases ends : endsHeader c with
  | false => rfl
  | true =>
    have before := plain c ((faithful.mem_joint (by simp [isJoint, ends])).mp member)
    rwa [ends] at before

/-- Balanced braces stay balanced. -/
theorem balanced (faithful : Faithful change) {text : List Char} (balanced : Balanced text) :
    Balanced (change text) := by
  have braces : ∀ letters : List Char,
      (letters.filter isJoint).filter isBrace = letters.filter isBrace := by
    intro letters
    rw [List.filter_filter]
    refine List.filter_congr fun c _ => ?_
    cases brace : isBrace c with
    | false => rfl
    | true =>
      simp only [isBrace, Bool.or_eq_true, beq_iff_eq] at brace
      rcases brace with rfl | rfl <;> rfl
  refine (balanced_congr ?_).mpr balanced
  rw [← braces, faithful.joints, braces]

/-- A text that starts no directive starts none after the change. -/
theorem begins (faithful : Faithful change) {text : List Char} (begins : Begins text) :
    Begins (change text) := by
  obtain ⟨c, rest, rfl, solid, noHash⟩ := begins
  obtain ⟨d, left, changed, newSolid, hash⟩ := faithful.cons c rest solid
  exact ⟨d, left, changed, newSolid, fun isHash => noHash (hash.mp isHash)⟩

/-- A directive stays a directive. -/
theorem isDirective (faithful : Faithful change) {text : List Char}
    (isDirective : IsDirective text) : IsDirective (change text) where
  hash := by
    obtain ⟨rest, rfl⟩ := List.head?_eq_some_iff.mp isDirective.hash
    obtain ⟨d, left, changed, -, hash⟩ := faithful.cons '#' rest rfl
    rw [changed, hash.mpr rfl, List.head?_cons]
  ends := faithful.ends isDirective.ends
  oneLine := faithful.oneLine isDirective.oneLine
  free := faithful.free isDirective.free

/-- A statement stays a statement. -/
theorem isStatement (faithful : Faithful change) {text : List Char}
    (isStatement : IsStatement text) : IsStatement (change text) where
  begins := faithful.begins isStatement.begins
  shape := by
    cases isStatement.shape with
    | simple plain =>
      rw [faithful.append_cons (by decide), faithful.nil]
      exact .simple (faithful.plain plain)
    | aggregate plain noParameters balanced noSemicolon =>
      rw [faithful.append_cons (by decide), faithful.append_cons (by decide),
        faithful.append_cons (by decide), faithful.nil]
      exact .aggregate (faithful.plain plain)
        (fun member => noParameters ((faithful.mem_joint (by decide)).mp member))
        (faithful.balanced balanced)
        (fun member => noSemicolon ((faithful.mem_joint (by decide)).mp member))
  free := faithful.free isStatement.free

/-- A statement that announces no uniform announces none after the change. -/
theorem firstWord? (faithful : Faithful change) {text : List Char}
    (isStatement : IsStatement text) (noUniform : firstWord? text ≠ some "uniform") :
    firstWord? (change text) ≠ some "uniform" := by
  obtain ⟨c, rest, rfl, solid, -⟩ := isStatement.begins
  by_cases semicolon : c = ';'
  · -- Then the statement is empty.
    subst semicolon
    rw [isStatement.shape.eq_semicolon rfl, faithful.joint_cons (by decide), faithful.nil]
    decide
  · exact fun uniform => noUniform (faithful.uniform solid semicolon uniform)

/-- A brace group stays a brace group. -/
theorem isGroup (faithful : Faithful change) {text : List Char} (isGroup : IsGroup text) :
    IsGroup (change text) where
  braces := by
    obtain ⟨inner, rfl, balanced⟩ := isGroup.braces
    refine ⟨change inner, ?_, faithful.balanced balanced⟩
    rw [faithful.joint_cons (by decide), faithful.append_cons (by decide), faithful.nil]
  free := faithful.free isGroup.free

/-- A text in a header stays one. -/
theorem isHeader (faithful : Faithful change) {text : List Char} (isHeader : IsHeader text) :
    IsHeader (change text) :=
  ⟨faithful.plain isHeader.plain, faithful.free isHeader.free⟩

end Faithful

/-- A word can stand in a header. -/
theorem isHeader_of_isWord {text : List Char} (isWord : IsWord text) : IsHeader text := by
  refine ⟨fun c member => ?_, .of_word isWord.2⟩
  have letter := isWord.2 c member
  simp only [endsHeader, Bool.or_eq_false_iff, beq_eq_false_iff_ne]
  exact ⟨⟨ne_of_isWordChar letter (by decide), ne_of_isWordChar letter (by decide)⟩,
    ne_of_isWordChar letter (by decide)⟩

/-- Two texts of a header with a mark between them, that does not end it, stand in a header. -/
theorem IsHeader.append_cons {front rest : List Char} {c : Char} (first : IsHeader front)
    (second : IsHeader rest) (plain : endsHeader c = false) (noSlash : c ≠ '/')
    (noStar : c ≠ '*') : IsHeader (front ++ c :: rest) where
  plain d member := by
    rcases List.mem_append.mp member with inFront | behind
    · exact first.plain d inFront
    · rcases List.mem_cons.mp behind with rfl | inRest
      · exact plain
      · exact second.plain d inRest
  free := first.free.append_cons second.free noSlash noStar

/-- Nothing can stand in a header. -/
theorem isHeader_nil : IsHeader [] :=
  ⟨List.forall_mem_nil _, .nil⟩

/-- A text in which nothing opens or closes and no line end is to be unified. -/
def IsInert (text : List Char) : Prop :=
  ∀ c ∈ text, c ∉ ['{', '}', '/', '\r']

instance : DecidablePred IsInert :=
  fun text => List.decidableBAll (fun c => c ∉ ['{', '}', '/', '\r']) text

/-- Two texts together are inert if both are. -/
theorem isInert_append {front rest : List Char} :
    IsInert (front ++ rest) ↔ IsInert front ∧ IsInert rest :=
  List.forall_mem_append

/-- A word is inert. -/
theorem isInert_of_isWord {text : List Char} (isWord : IsWord text) : IsInert text := by
  intro c member isMark
  simp only [List.mem_cons, List.not_mem_nil, or_false] at isMark
  rcases isMark with rfl | rfl | rfl | rfl <;> exact isWord.notMem (by decide) member

/-- The texts of a list are inert if each of them is. -/
theorem isInert_join {α : Type} {render : α → String} {list : List α}
    (inert : ∀ one ∈ list, IsInert (render one).toList) :
    IsInert (String.join (list.map render)).toList := by
  intro c member
  rw [String.toList_join, List.mem_flatMap] at member
  obtain ⟨text, isText, inText⟩ := member
  obtain ⟨one, isOne, rfl⟩ := List.mem_map.mp isText
  exact inert one isOne c inText

/-- An inert text can be put into a brace group. -/
theorem IsGroup.insert {added inner : List Char} (isGroup : IsGroup ('{' :: inner))
    (inert : IsInert added) : IsGroup ('{' :: (added ++ inner)) where
  braces := by
    obtain ⟨group, braces, balanced⟩ := isGroup.braces
    have noBraces : added.filter isBrace = [] := by
      refine List.filter_eq_nil_iff.mpr fun c member brace => inert c member ?_
      rw [isBrace, Bool.or_eq_true, beq_iff_eq, beq_iff_eq] at brace
      rcases brace with rfl | rfl <;> decide
    refine ⟨added ++ group, by simp [(List.cons.inj braces).2], (balanced_congr ?_).mpr balanced⟩
    rw [List.filter_append, noBraces, List.nil_append]
  free := by
    have noSlash : '/' ∉ added := fun member => inert '/' member (by decide)
    have free := isGroup.free.part (List.suffix_cons '{' inner).isInfix
    exact (CommentFree.append_of_notMem noSlash free).cons (by decide)

/-- A header with a semicolon behind it is a statement. -/
theorem isStatement_append {header : List Char} (begins : Begins header)
    (isHeader : IsHeader header) : IsStatement (header ++ [';']) where
  begins := by
    obtain ⟨c, rest, rfl, solid, noHash⟩ := begins
    exact ⟨c, rest ++ [';'], rfl, solid, noHash⟩
  shape := .simple isHeader.plain
  free := isHeader.free.append_cons .nil (by decide) (by decide)

/-- A text that starts with a word starts no directive. -/
theorem begins_of_isWord {word : List Char} (isWord : IsWord word) (rest : List Char) :
    Begins (word ++ rest) := by
  obtain ⟨c, behind, rfl⟩ := List.exists_cons_of_ne_nil isWord.1
  have letter := isWord.2 c List.mem_cons_self
  exact ⟨c, behind ++ rest, rfl, isBlank_of_isWordChar letter, ne_of_isWordChar letter (by decide)⟩

/-- The first word of a text that starts with a word and a space. -/
theorem firstWord?_of_isWord {word : List Char} (isWord : IsWord word) (rest : List Char) :
    firstWord? (word ++ ' ' :: rest) = some (String.ofList word) := by
  have kept : ∀ d ∈ word, (!(isBlank d || d == ';')) = true := by
    intro d member
    have letter := isWord.2 d member
    have noSemicolon : d ≠ ';' := ne_of_isWordChar letter (by decide)
    simp [isBlank_of_isWordChar letter, noSemicolon]
  have taken : (word ++ ' ' :: rest).takeWhile (fun d => !(isBlank d || d == ';')) = word :=
    takeWhile_append_cons kept (by decide)
  obtain ⟨c, behind, rfl⟩ := List.exists_cons_of_ne_nil isWord.1
  have letter := isWord.2 c List.mem_cons_self
  rw [List.cons_append] at taken ⊢
  rw [firstWord?_cons _ (isBlank_of_isWordChar letter) (ne_of_isWordChar letter (by decide)), taken]

/-- A statement is read off a text that starts with it. -/
theorem IsStatement.reads {text : List Char} (isStatement : IsStatement text) (rest : List Char) :
    Reads (text ++ rest) (.statement text) rest := by
  obtain ⟨c, behind, starts, solid, noHash⟩ := isStatement.begins
  have trimmed : trim text = text :=
    trim_eq_self ⟨c, behind, starts, solid⟩ isStatement.shape.endsSolid
  have headed : ∀ {header left : List Char} {stop : Char}, text = header ++ stop :: left →
      header.head? ≠ some '#' := by
    rintro header left stop rfl
    cases header with
    | nil => simp
    | cons d header =>
      obtain ⟨rfl, -⟩ := List.cons.inj starts
      simpa using noHash
  cases shape : isStatement.shape with
  | @simple header plain =>
    have reads : Reads (header ++ ';' :: rest) _ rest := .statement (headed rfl) plain
    rwa [trimmed, ← List.singleton_append, ← List.append_assoc] at reads
  | @aggregate header group tail plain noParameters balanced noSemicolon =>
    have reads : Reads (header ++ '{' :: (group ++ '}' :: (tail ++ ';' :: rest))) _ rest :=
      .aggregate (headed rfl) plain noParameters balanced noSemicolon
    simp only [List.append_assoc, List.cons_append, List.nil_append] at reads trimmed ⊢
    rwa [trimmed] at reads

end Source

end ShaderBlocks
