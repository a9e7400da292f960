import ShaderBlocks.Proofs.CommentFree

/-!
# Code and comments

A text is made of code and of comments. A line comment opens with two slashes and reaches up to the
end of its line. A block comment opens with a slash and a star, and reaches up to the first closing
mark behind them, or to the end of the text if there is none; the star of the opening mark closes
nothing. A run of code reaches up to the next comment. A text can be divided like this in one way
only, since where a stretch ends is fixed by what follows its start.

Clearing a text of comments keeps its code, drops its line comments, and leaves the line feeds of a
block comment and one space. So the lines of the text keep their numbers, and no mark that opens a
comment is left or comes together.
-/

namespace ShaderBlocks.Text

/-- A comment opens at the start of the text. -/
inductive OpensComment : List Char → Prop
  | line (rest : List Char) : OpensComment ('/' :: '/' :: rest)
  | block (rest : List Char) : OpensComment ('/' :: '*' :: rest)

/-- A part of a text that is code or one comment. -/
inductive Stretch
  /-- Characters outside any comment. -/
  | code (run : List Char)
  /-- A line comment, by what stands behind its slashes. -/
  | line (inner : List Char)
  /-- A block comment, by what stands between its marks. -/
  | block (inner : List Char)
  /-- A block comment that is not closed, by what stands behind its mark. -/
  | unclosed (inner : List Char)
  deriving DecidableEq, Repr

namespace Stretch

/-- The characters of a stretch. -/
def text : Stretch → List Char
  | code run => run
  | line inner => '/' :: '/' :: inner
  | block inner => '/' :: '*' :: (inner ++ ['*', '/'])
  | unclosed inner => '/' :: '*' :: inner

/-- What is left of a stretch when comments are cleared. -/
def cleared : Stretch → List Char
  | code run => run
  | line _ => []
  | block inner => inner.filter (· == '\n') ++ [' ']
  | unclosed inner => inner.filter (· == '\n') ++ [' ']

/-- The stretch ends where it does if `rest` follows it. -/
def Fits : Stretch → List Char → Prop
  | code run, rest =>
    run ≠ [] ∧ (∀ behind, behind <:+ run → behind ≠ [] → ¬OpensComment (behind ++ rest)) ∧
      (rest = [] ∨ OpensComment rest)
  | line inner, rest => '\n' ∉ inner ∧ ∀ c ∈ rest.head?, c = '\n'
  | block inner, _ => ¬['*', '/'] <:+: inner
  | unclosed inner, rest => ¬['*', '/'] <:+: inner ∧ rest = []

end Stretch

/-- A text is divided into stretches, each as long as it must be. -/
inductive Divided : List Char → List Stretch → Prop
  /-- Nothing is to be divided. -/
  | nil : Divided [] []
  /-- A stretch and what follows it. -/
  | cons {stretch : Stretch} {rest : List Char} {stretches : List Stretch}
      (fits : stretch.Fits rest) (divided : Divided rest stretches) :
      Divided (stretch.text ++ rest) (stretch :: stretches)

/-! ## What is left of a stretch -/

/-- A character at which no comment opens stays. -/
theorem dropComments_cons {c : Char} {rest : List Char} (quiet : ¬OpensComment (c :: rest)) :
    dropComments .code (c :: rest) = c :: dropComments .code rest := by
  rw [dropComments]
  · rintro behind rfl rfl
    exact quiet (.line behind)
  · rintro behind rfl rfl
    exact quiet (.block behind)

/-- Code in which no comment opens stays. -/
theorem dropComments_code {run rest : List Char}
    (quiet : ∀ behind, behind <:+ run → behind ≠ [] → ¬OpensComment (behind ++ rest)) :
    dropComments .code (run ++ rest) = run ++ dropComments .code rest := by
  induction run with
  | nil => rfl
  | cons c run ih =>
    have first : ¬OpensComment (c :: (run ++ rest)) :=
      quiet (c :: run) (List.suffix_refl _) (List.cons_ne_nil c run)
    have later := ih fun behind within => quiet behind (within.trans (List.suffix_cons c run))
    rw [List.cons_append, dropComments_cons first, later, List.cons_append]

/-- A line comment is dropped up to the end of its line. -/
theorem dropComments_line {inner rest : List Char} (oneLine : '\n' ∉ inner)
    (stops : ∀ c ∈ rest.head?, c = '\n') :
    dropComments .line (inner ++ rest) = dropComments .code rest := by
  induction inner with
  | nil =>
    cases rest with
    | nil => rfl
    | cons c rest =>
      obtain rfl := stops c rfl
      have stays : dropComments .code ('\n' :: rest) = '\n' :: dropComments .code rest :=
        dropComments_cons (by rintro ⟨⟩)
      rw [stays]
      rfl
  | cons c inner ih =>
    rw [List.mem_cons, not_or] at oneLine
    rw [List.cons_append, dropComments, ih oneLine.2]
    exact Ne.symm oneLine.1

/-- A block comment leaves its line feeds up to where it is closed. -/
theorem dropComments_block {inner rest : List Char} (notClosed : ¬['*', '/'] <:+: inner)
    (apart : rest.head? ≠ some '/') :
    dropComments .block (inner ++ rest) =
      inner.filter (· == '\n') ++ dropComments .block rest := by
  induction inner with
  | nil => rfl
  | cons c inner ih =>
    have later := ih fun within => notClosed (within.trans (List.suffix_cons c inner).isInfix)
    have goesOn : ∀ behind, c = '*' → inner ++ rest = '/' :: behind → False := by
      rintro behind rfl follows
      cases inner with
      | nil => exact apart (by simp [show rest = '/' :: behind from follows])
      | cons d inner =>
        obtain ⟨rfl, -⟩ := List.cons.inj follows
        exact notClosed ⟨[], inner, rfl⟩
    by_cases lineFeed : c = '\n'
    · subst lineFeed
      rw [List.cons_append, dropComments, later]
      rfl
    · rw [List.cons_append, dropComments, later, List.filter_cons_of_neg (by simpa using lineFeed)]
      · exact goesOn
      · exact lineFeed

namespace Stretch

/-- What is left of a stretch does not depend on what follows. -/
theorem Fits.dropComments_append {stretch : Stretch} {rest : List Char}
    (fits : stretch.Fits rest) :
    dropComments .code (stretch.text ++ rest) = stretch.cleared ++ dropComments .code rest := by
  cases stretch with
  | code run => exact dropComments_code fits.2.1
  | line inner => exact dropComments_line fits.1 fits.2
  | block inner =>
    have closed : dropComments .block (inner ++ '*' :: '/' :: rest) = _ :=
      dropComments_block fits (by simp)
    simp only [text, cleared, List.cons_append, List.append_assoc, List.nil_append, dropComments]
    rw [closed, dropComments]
  | unclosed inner =>
    obtain ⟨notClosed, rfl⟩ := fits
    have left : dropComments .block (inner ++ []) = _ := dropComments_block notClosed (by simp)
    simp only [text, cleared, List.cons_append, dropComments]
    rw [left, dropComments, List.append_nil]

/-- What is left of a stretch has its line feeds. -/
theorem Fits.count_cleared {stretch : Stretch} {rest : List Char} (fits : stretch.Fits rest) :
    stretch.cleared.count '\n' = stretch.text.count '\n' := by
  cases stretch with
  | code run => rfl
  | line inner => simp [cleared, text, List.count_eq_zero.mpr fits.1]
  | block inner => simp [cleared, text, List.count_filter]
  | unclosed inner => simp [cleared, text, List.count_filter]

/-- Code does not start like a comment. -/
theorem Fits.quiet {run rest : List Char} (fits : (code run).Fits rest) :
    ¬OpensComment (run ++ rest) :=
  fits.2.1 run (List.suffix_refl run) fits.1

/-- Where two stretches of code start together, the second is not longer than the first. -/
theorem Fits.code_isPrefix {run other rest otherRest : List Char} (fits : (code run).Fits rest)
    (otherFits : (code other).Fits otherRest) (same : run ++ rest = other ++ otherRest) :
    other <+: run := by
  rcases List.append_eq_append_iff.mp same with ⟨gap, longer, behind⟩ | ⟨gap, longer, -⟩
  · cases gap with
    | nil => exact ⟨[], by simpa using longer⟩
    | cons c gap =>
      -- The second run would go on with the comment that ends the first.
      have opens : OpensComment rest := fits.2.2.resolve_left (by simp [behind])
      rw [behind] at opens
      exact absurd opens (otherFits.2.1 (c :: gap) ⟨run, longer.symm⟩ (List.cons_ne_nil c gap))
  · exact ⟨gap, longer.symm⟩

/-- Where two line comments start together, both end with their line. -/
theorem Fits.line_unique {inner other rest otherRest : List Char}
    (fits : (line inner).Fits rest) (otherFits : (line other).Fits otherRest)
    (same : inner ++ rest = other ++ otherRest) : inner = other := by
  have upToLineEnd : ∀ {inner rest : List Char}, (line inner).Fits rest →
      (inner ++ rest).takeWhile (· ≠ '\n') = inner := by
    rintro inner rest ⟨oneLine, stops⟩
    have kept : ∀ c ∈ inner, decide (c ≠ '\n') = true := by
      intro c member
      rw [decide_eq_true_eq]
      rintro rfl
      exact oneLine member
    cases rest with
    | nil => rw [List.append_nil, List.takeWhile_eq_self_iff.mpr kept]
    | cons c rest =>
      obtain rfl := stops c rfl
      exact takeWhile_append_cons kept (by simp)
  rw [← upToLineEnd fits, same, upToLineEnd otherFits]

/-- Where two block comments start together, the second is not longer than the first. -/
theorem block_isPrefix {inner other rest otherRest : List Char} (apart : otherRest.head? ≠ some '/')
    (notClosed : ¬['*', '/'] <:+: other)
    (same : inner ++ '*' :: '/' :: rest = other ++ otherRest) : other <+: inner := by
  rcases List.append_eq_append_iff.mp same with ⟨gap, longer, behind⟩ | ⟨gap, longer, -⟩
  · -- The second comment would hold the mark that closes the first.
    cases gap with
    | nil => exact ⟨[], by simpa using longer⟩
    | cons c gap =>
      obtain ⟨rfl, further⟩ := List.cons.inj behind
      cases gap with
      | nil =>
        obtain rfl : '/' :: rest = otherRest := further
        contradiction
      | cons d gap =>
        obtain ⟨rfl, -⟩ := List.cons.inj further
        exact absurd ⟨inner, gap, by simp [longer]⟩ notClosed
  · exact ⟨gap, longer.symm⟩

/-- Where a stretch ends is fixed by what follows its start. -/
theorem Fits.unique {stretch other : Stretch} {rest otherRest : List Char}
    (fits : stretch.Fits rest) (otherFits : other.Fits otherRest)
    (same : stretch.text ++ rest = other.text ++ otherRest) : stretch = other := by
  have antisymm : ∀ {first second : List Char}, first <+: second → second <+: first →
      first = second :=
    fun longer shorter => longer.eq_of_length (Nat.le_antisymm longer.length_le shorter.length_le)
  have closedWithin : ∀ {inner rest other : List Char}, ¬['*', '/'] <:+: other →
      inner ++ '*' :: '/' :: rest ≠ other :=
    fun notClosed parts => notClosed ⟨_, _, by simpa using parts⟩
  cases stretch with
  | code run =>
    cases other with
    | code otherRun =>
      rw [antisymm (otherFits.code_isPrefix fits same.symm) (fits.code_isPrefix otherFits same)]
    | line inner => exact absurd (same ▸ .line _) fits.quiet
    | block inner => exact absurd (same ▸ .block _) fits.quiet
    | unclosed inner => exact absurd (same ▸ .block _) fits.quiet
  | line inner =>
    cases other with
    | code run => exact absurd (same ▸ .line _) otherFits.quiet
    | line otherInner => rw [fits.line_unique otherFits (by simpa [text] using same)]
    | block otherInner => simp [text] at same
    | unclosed otherInner => simp [text] at same
  | block inner =>
    cases other with
    | code run => exact absurd (same ▸ .block _) otherFits.quiet
    | line otherInner => simp [text] at same
    | block otherInner =>
      have parts : inner ++ '*' :: '/' :: rest = otherInner ++ '*' :: '/' :: otherRest := by
        simpa [text] using same
      rw [antisymm (block_isPrefix (by simp) fits parts.symm)
        (block_isPrefix (by simp) otherFits parts)]
    | unclosed otherInner =>
      obtain ⟨notClosed, rfl⟩ := otherFits
      exact absurd (by simpa [text] using same) (closedWithin notClosed)
  | unclosed inner =>
    obtain ⟨notClosed, rfl⟩ := fits
    cases other with
    | code run => exact absurd (same ▸ .block _) otherFits.quiet
    | line otherInner => simp [text] at same
    | block otherInner => exact absurd (by simpa [text] using same.symm) (closedWithin notClosed)
    | unclosed otherInner =>
      obtain ⟨-, rfl⟩ := otherFits
      rw [show inner = otherInner by simpa [text] using same]

/-- No stretch is empty. -/
theorem Fits.text_ne_nil {stretch : Stretch} {rest : List Char} (fits : stretch.Fits rest) :
    stretch.text ≠ [] := by
  cases stretch with
  | code run => exact fits.1
  | line inner => exact List.cons_ne_nil _ _
  | block inner => exact List.cons_ne_nil _ _
  | unclosed inner => exact List.cons_ne_nil _ _

end Stretch

namespace Divided

/-- A text can be divided in one way only. -/
theorem unique {text : List Char} {stretches others : List Stretch}
    (divided : Divided text stretches) (another : Divided text others) : stretches = others := by
  induction divided generalizing others with
  | nil =>
    generalize nothing : ([] : List Char) = text at another
    cases another with
    | nil => rfl
    | cons fits => exact absurd (List.append_eq_nil_iff.mp nothing.symm).1 fits.text_ne_nil
  | @cons stretch rest stretches fits divided ih =>
    generalize same : stretch.text ++ rest = text at another
    cases another with
    | nil => exact absurd (List.append_eq_nil_iff.mp same).1 fits.text_ne_nil
    | cons otherFits another =>
      obtain rfl := fits.unique otherFits same
      obtain rfl := List.append_cancel_left same
      rw [ih another]

/-- Clearing a divided text of comments leaves what is left of its stretches. -/
theorem dropComments_eq {text : List Char} {stretches : List Stretch}
    (divided : Divided text stretches) :
    dropComments .code text = stretches.flatMap Stretch.cleared := by
  induction divided with
  | nil => rfl
  | cons fits divided ih => rw [fits.dropComments_append, ih, List.flatMap_cons]

/-- What is left of the stretches of a text has the line feeds of the text. -/
theorem count_cleared {text : List Char} {stretches : List Stretch}
    (divided : Divided text stretches) :
    (stretches.flatMap Stretch.cleared).count '\n' = text.count '\n' := by
  induction divided with
  | nil => rfl
  | cons fits divided ih =>
    rw [List.flatMap_cons, List.count_append, List.count_append, fits.count_cleared, ih]

/-- A character at which no comment opens can be put before a divided text. -/
theorem exists_cons {c : Char} {rest : List Char} {stretches : List Stretch}
    (divided : Divided rest stretches) (quiet : ¬OpensComment (c :: rest)) :
    ∃ others, Divided (c :: rest) others := by
  have alone : rest = [] ∨ OpensComment rest → (Stretch.code [c]).Fits rest := by
    refine fun ends => ⟨List.cons_ne_nil c [], fun behind within some => ?_, ends⟩
    rcases List.suffix_cons_iff.mp within with rfl | none
    · exact quiet
    · exact absurd (List.suffix_nil.mp none) some
  cases divided with
  | nil => exact ⟨_, .cons (alone (.inl rfl)) .nil⟩
  | @cons stretch rest stretches fits divided =>
    cases stretch with
    | code run =>
      have longer : (Stretch.code (c :: run)).Fits rest := by
        refine ⟨List.cons_ne_nil c run, fun behind within some => ?_, fits.2.2⟩
        rcases List.suffix_cons_iff.mp within with rfl | further
        · exact quiet
        · exact fits.2.1 behind further some
      exact ⟨_, .cons longer divided⟩
    | line inner => exact ⟨_, .cons (alone (.inr (.line _))) (.cons fits divided)⟩
    | block inner => exact ⟨_, .cons (alone (.inr (.block _))) (.cons fits divided)⟩
    | unclosed inner => exact ⟨_, .cons (alone (.inr (.block _))) (.cons fits divided)⟩

/-- A line comment at the start of a divided text can be made longer within its line. -/
theorem exists_line_cons {c : Char} {rest : List Char} {stretches : List Stretch}
    (divided : Divided ('/' :: '/' :: rest) stretches) (oneLine : c ≠ '\n') :
    ∃ others, Divided ('/' :: '/' :: c :: rest) others := by
  generalize same : '/' :: '/' :: rest = text at divided
  cases divided with
  | nil => contradiction
  | @cons stretch behind stretches fits divided =>
    cases stretch with
    | code run => exact absurd (same ▸ .line rest) fits.quiet
    | line inner =>
      obtain rfl : rest = inner ++ behind := by simpa [Stretch.text] using same
      have longer : (Stretch.line (c :: inner)).Fits behind :=
        ⟨by simp [Ne.symm oneLine, fits.1], fits.2⟩
      exact ⟨_, .cons longer divided⟩
    | block inner => simp [Stretch.text] at same
    | unclosed inner => simp [Stretch.text] at same

/-- A block comment at the start of a divided text can be made longer by a character that closes
nothing. -/
theorem exists_block_cons {c : Char} {rest : List Char} {stretches : List Stretch}
    (divided : Divided ('/' :: '*' :: rest) stretches)
    (goesOn : ∀ behind, c = '*' → rest = '/' :: behind → False) :
    ∃ others, Divided ('/' :: '*' :: c :: rest) others := by
  generalize same : '/' :: '*' :: rest = text at divided
  have notClosed : ∀ {inner behind : List Char}, ¬['*', '/'] <:+: inner →
      rest = inner ++ behind → ¬['*', '/'] <:+: c :: inner := by
    rintro inner behind notClosed rfl within
    rcases List.infix_cons_iff.mp within with start | later
    · obtain ⟨left, starts⟩ := start
      obtain ⟨rfl, rfl⟩ := List.cons.inj starts
      exact goesOn _ rfl rfl
    · exact notClosed later
  cases divided with
  | nil => contradiction
  | @cons stretch behind stretches fits divided =>
    cases stretch with
    | code run => exact absurd (same ▸ .block rest) fits.quiet
    | line inner => simp [Stretch.text] at same
    | block inner =>
      have parts : rest = inner ++ '*' :: '/' :: behind := by simpa [Stretch.text] using same
      have longer : (Stretch.block (c :: inner)).Fits behind := notClosed fits parts
      have text : '/' :: '*' :: c :: rest = (Stretch.block (c :: inner)).text ++ behind := by
        simp [Stretch.text, parts]
      rw [text]
      exact ⟨_, .cons longer divided⟩
    | unclosed inner =>
      have parts : rest = inner ++ behind := by simpa [Stretch.text] using same
      have longer : (Stretch.unclosed (c :: inner)).Fits behind := ⟨notClosed fits.1 parts, fits.2⟩
      rw [parts]
      exact ⟨_, .cons longer divided⟩

end Divided

/-- The mark that has opened the comment in which a text goes on. -/
def CommentState.opening : CommentState → List Char
  | code => []
  | line => ['/', '/']
  | block => ['/', '*']

/-- Every text can be divided, with the mark before it if it goes on in a comment. -/
theorem exists_divided (state : CommentState) (text : List Char) :
    ∃ stretches, Divided (state.opening ++ text) stretches := by
  fun_induction dropComments state text with
  | case1 rest ih => exact ih
  | case2 rest ih => exact ih
  | case3 c rest noLine noBlock ih =>
    obtain ⟨stretches, divided⟩ := ih
    refine divided.exists_cons ?_
    rintro ⟨⟩
    · exact noLine _ rfl rfl
    · exact noBlock _ rfl rfl
  | case4 => exact ⟨[], .nil⟩
  | case5 rest ih =>
    obtain ⟨stretches, divided⟩ := ih
    obtain ⟨others, behind⟩ : ∃ others, Divided ('\n' :: rest) others :=
      divided.exists_cons (by rintro ⟨⟩)
    have fits : (Stretch.line []).Fits ('\n' :: rest) := ⟨by simp, by simp⟩
    exact ⟨_, .cons fits behind⟩
  | case6 c rest noLineFeed ih =>
    obtain ⟨stretches, divided⟩ := ih
    exact divided.exists_line_cons noLineFeed
  | case7 =>
    have fits : (Stretch.line []).Fits [] := ⟨by simp, by simp⟩
    exact ⟨_, .cons fits .nil⟩
  | case8 rest ih =>
    obtain ⟨stretches, divided⟩ := ih
    have fits : (Stretch.block []).Fits rest := by simp [Stretch.Fits]
    exact ⟨_, .cons fits divided⟩
  | case9 rest ih =>
    obtain ⟨stretches, divided⟩ := ih
    exact divided.exists_block_cons (by simp)
  | case10 c rest notClosed noLineFeed ih =>
    obtain ⟨stretches, divided⟩ := ih
    exact divided.exists_block_cons notClosed
  | case11 =>
    have fits : (Stretch.unclosed []).Fits [] := by simp [Stretch.Fits]
    exact ⟨_, .cons fits .nil⟩

/-- Unifying line ends keeps every line feed. -/
theorem count_unifyLineEnds (text : List Char) :
    (unifyLineEnds text).count '\n' = text.count '\n' := by
  fun_induction unifyLineEnds text with
  | case1 rest ih => simp [ih]
  | case2 c rest other ih => rw [List.count_cons, List.count_cons, ih]
  | case3 => rfl

/-- Clearing a text of comments removes the comments and nothing else. With its line ends unified
the text is divided into code and comments in one way. What is left is its code, and of each block
comment the line feeds and a space. Neither of the marks that open a comment is in it, and it has as
many line feeds as the text. -/
theorem stripComments_exact (text : List Char) :
    (∃! stretches, Divided (unifyLineEnds text) stretches) ∧
      (∀ stretches, Divided (unifyLineEnds text) stretches →
        stripComments text = stretches.flatMap Stretch.cleared) ∧
      ¬['/', '/'] <:+: stripComments text ∧ ¬['/', '*'] <:+: stripComments text ∧
      (stripComments text).count '\n' = text.count '\n' := by
  obtain ⟨stretches, divided⟩ : ∃ stretches, Divided (unifyLineEnds text) stretches :=
    exists_divided .code (unifyLineEnds text)
  obtain ⟨noLine, noBlock⟩ := commentFree_iff.mp (commentFree_stripComments text)
  refine ⟨⟨stretches, divided, fun others another => another.unique divided⟩,
    fun others another => another.dropComments_eq, noLine, noBlock, ?_⟩
  rw [stripComments, divided.dropComments_eq, divided.count_cleared]
  exact count_unifyLineEnds text

example : stripComments "a/*/b\n*/c//d/*\r\n/**/e/*\n".toList = "a\n c\n e\n ".toList := by
  decide

end ShaderBlocks.Text
