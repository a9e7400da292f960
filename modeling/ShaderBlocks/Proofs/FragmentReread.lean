import ShaderBlocks.Proofs.ProgramText

/-!
# The text of a fragment is a fragment

A fragment whose entry is its last function, written for a call and read again, is a fragment of the
name of the call. It has no uniforms. Its parameters are those of the fragment and, behind them, one
input for each uniform that the call replaces. Three things come together here: items are read
again one by one, the last of them without a line end behind it; of the functions that are read
the entry is the last and none is a main function; and a list of parameters is read as it was
written, since no parameter has the name of a qualifier.
-/

namespace ShaderBlocks

open Text Source

namespace Source

/-- What follows the first part of a text with a line end is a text with a line end. -/
theorem eq_append_of_line {front rest text : List Char} (same : front ++ rest = text ++ ['\n'])
    (some : rest ≠ []) : ∃ left, rest = left ++ ['\n'] ∧ text = front ++ left := by
  obtain ⟨left, c, rfl⟩ := (List.eq_nil_or_concat' rest).resolve_left some
  rw [← List.append_assoc] at same
  obtain ⟨isText, isEnd⟩ := List.append_inj' same rfl
  exact ⟨left, by rw [isEnd], isText.symm⟩

/-- A line end behind a text is still there when an item was read off the text. -/
theorem Reads.of_line {text rest : List Char} {item : RawItem}
    (reads : Reads (text ++ ['\n']) item rest) :
    ∃ left, rest = left ++ ['\n'] ∧ Reads text item left ∧ left.length < text.length := by
  generalize same : text ++ ['\n'] = whole at reads
  -- An item ends with a character that is no line end, so something is left.
  have behind : ∀ (front : List Char) (stop : Char), stop ≠ '\n' →
      (front ++ [stop]) ++ rest = text ++ ['\n'] →
      ∃ left, rest = left ++ ['\n'] ∧ text = (front ++ [stop]) ++ left := by
    intro front stop noEnd parts
    refine eq_append_of_line parts fun none => noEnd ?_
    rw [none, List.append_nil] at parts
    simpa using (List.append_inj' parts rfl).2
  cases reads with
  | @directive line _ hash oneLine stops =>
    have some : rest ≠ [] := by
      rintro rfl
      rw [List.append_nil] at same
      exact oneLine (by simp [← same])
    obtain ⟨left, rfl, rfl⟩ := eq_append_of_line same.symm some
    have nonempty : line ≠ [] := by
      rintro rfl
      contradiction
    refine ⟨left, rfl, .directive hash oneLine fun c isFirst => stops c ?_, ?_⟩
    · rw [List.head?_append, Option.mem_def.mp isFirst, Option.some_or]
      rfl
    · have positive := List.length_pos_of_ne_nil nonempty
      rw [List.length_append]
      omega
  | @statement header _ noHash plain =>
    obtain ⟨left, rfl, rfl⟩ := behind header ';' (by decide) (by simpa using same.symm)
    refine ⟨left, rfl, ?_, ?_⟩
    · rw [List.append_assoc]
      exact .statement noHash plain
    · simp only [List.length_append, List.length_cons, List.length_nil]
      omega
  | @function header group _ noHash plain parameters balanced =>
    obtain ⟨left, rfl, rfl⟩ := behind (header ++ '{' :: group) '}' (by decide)
      (by simpa using same.symm)
    refine ⟨left, rfl, ?_, ?_⟩
    · have whole : Reads (header ++ '{' :: (group ++ '}' :: left)) _ left :=
        .function noHash plain parameters balanced
      simpa using whole
    · simp only [List.length_append, List.length_cons, List.length_nil]
      omega
  | @aggregate header group tail _ noHash plain noParameters balanced noSemicolon =>
    obtain ⟨left, rfl, rfl⟩ := behind (header ++ '{' :: (group ++ '}' :: tail)) ';'
      (by decide) (by simpa using same.symm)
    refine ⟨left, rfl, ?_, ?_⟩
    · have whole : Reads (header ++ '{' :: (group ++ '}' :: (tail ++ ';' :: left))) _ left :=
        .aggregate noHash plain noParameters balanced noSemicolon
      simpa using whole
    · simp only [List.length_append, List.length_cons, List.length_nil]
      omega

/-- Items are read in the same way without a line end behind the last. -/
theorem readItems_of_line {limit most : Nat} {text : List Char} {raw : List RawItem}
    (read : readItems limit (text ++ ['\n']) = .ok raw) (enough : text.length < limit)
    (fits : text.length ≤ most) : readItems most text = .ok raw := by
  induction limit generalizing most text raw with
  | zero => omega
  | succ limit ih =>
    rw [readItems, List.dropWhile_append] at read
    cases dropped : text.dropWhile isSpace with
    | nil =>
      rw [dropped] at read
      obtain rfl := Except.ok.inj read
      cases most with
      | zero => rfl
      | succ most => rw [readItems, dropped]
    | cons c behind =>
      have shorter : (c :: behind).length ≤ text.length := by
        rw [← dropped]
        exact (List.dropWhile_suffix _).length_le
      obtain ⟨most, rfl⟩ : ∃ less, most = less + 1 := by
        rw [List.length_cons] at shorter
        exact ⟨most - 1, by omega⟩
      rw [dropped] at read
      obtain ⟨⟨item, rest⟩, isItem, further⟩ := bind_eq_ok.mp read
      obtain ⟨others, areOthers, joined⟩ := bind_eq_ok.mp further
      obtain ⟨left, rfl, reads, less⟩ := (reads_of_readItem isItem).of_line
      rw [readItems, dropped]
      refine bind_eq_ok.mpr ⟨(item, left), reads.readItem, bind_eq_ok.mpr ⟨others, ?_, joined⟩⟩
      exact ih areOthers (by omega) (by omega)

end Source

/-- A list of items is read as these items without a line end behind the last. -/
theorem Listed.readAll_of_line {text : List Char} {items : List Item}
    (listed : Listed (text ++ ['\n']) items) (ends : EndsSolid text) :
    Item.readAll text = .ok items := by
  have free : CommentFree text := listed.commentFree.part (List.prefix_append ..).isInfix
  obtain ⟨raw, divided, meant⟩ := bind_eq_ok.mp listed.readAll
  rw [stripComments_eq_unifyLineEnds listed.commentFree, ends.unifyLineEnds_append, splitItems]
    at divided
  have unified : unifyLineEnds [] = [] := rfl
  rw [unified] at divided
  refine bind_eq_ok.mpr ⟨raw, ?_, meant⟩
  rw [stripComments_eq_unifyLineEnds free, splitItems]
  exact readItems_of_line divided (by simp) (Nat.le_refl _)

/-! ## Parameters -/

namespace Source

/-- A word that is no type or name in a parameter: a qualifier that says something, one that is
passed over, or one that is refused. -/
def isQualifier (word : String) : Bool :=
  word == "in" || word == "out" || word == "const" || isPrecision word ||
    isUnsupportedQualifier word

/-- The words of a parameter that are kept are no qualifiers. -/
theorem isQualifier_of_sort {text : String} {words : List String} {sofar sorted : ParameterWords}
    (sorts : sortParameterWords text sofar words = .ok sorted)
    (kept : ∀ word ∈ sofar.others, isQualifier word = false) :
    ∀ word ∈ sorted.others, isQualifier word = false := by
  induction words generalizing sofar with
  | nil =>
    obtain rfl := Except.ok.inj sorts
    exact kept
  | cons word rest ih =>
    rw [sortParameterWords] at sorts
    split at sorts
    · exact ih sorts kept
    · rename_i noIn
      split at sorts
      · exact ih sorts kept
      · rename_i noOut
        split at sorts
        · exact ih sorts kept
        · rename_i notPassed
          split at sorts
          · contradiction
          · rename_i notRefused
            refine ih sorts fun other member => ?_
            rcases List.mem_append.mp member with before | isLast
            · exact kept other before
            · simp only [Bool.or_eq_true, decide_eq_true_eq, not_or] at notPassed
              rw [List.mem_singleton.mp isLast]
              simp [isQualifier, noIn, noOut, notPassed, notRefused]

/-- A qualifier that says a direction, a type and a name are sorted. -/
theorem sortParameterWords_eq_ok {text spelling name : String} (direction : Direction)
    (isType : isQualifier spelling = false) (isName : isQualifier name = false) :
    sortParameterWords text ⟨.input, []⟩ [direction.qualifier, spelling, name] =
      .ok ⟨direction, [spelling, name]⟩ := by
  have later : ∀ sofar, sortParameterWords text sofar [spelling, name] =
      .ok ⟨sofar.direction, sofar.others ++ [spelling, name]⟩ := by
    intro sofar
    simp only [isQualifier, Bool.or_eq_false_iff, beq_eq_false_iff_ne] at isType isName
    simp [sortParameterWords, isType, isName]
  cases direction with
  | input =>
    rw [sortParameterWords, if_pos (by decide), later]
    rfl
  | output =>
    rw [sortParameterWords, if_neg (by decide), if_pos (by decide), later]
    rfl

end Source

/-- A parameter whose declaration can be read. -/
structure Parameter.IsPlain (parameter : Parameter) : Prop where
  /-- The name is an identifier. -/
  name : isIdentifier parameter.name.toList = true
  /-- The name is no qualifier. -/
  noQualifier : isQualifier parameter.name = false

/-- Parameters that were read are plain. -/
theorem Parameter.isPlain_of_read {text : String} {parameters : List Parameter}
    (read : readParameters text = .ok parameters) :
    ∀ parameter ∈ parameters, parameter.IsPlain := by
  intro parameter member
  obtain ⟨whole, words, sorted, sorts, kept, identifier⟩ := of_mem_readParameters read member
  exact ⟨identifier, isQualifier_of_sort sorts (List.forall_mem_nil _) _ kept⟩

namespace Parameter

/-- The declaration starts with no blank. -/
theorem startsSolid_line (parameter : Parameter) : StartsSolid parameter.line := by
  rw [line]
  cases parameter.direction with
  | input => exact ⟨'i', _, rfl, rfl⟩
  | output => exact ⟨'o', _, rfl, rfl⟩

namespace IsPlain

variable {parameter : Parameter}

/-- The name is a word. -/
theorem isWord (plain : parameter.IsPlain) : IsWord parameter.name.toList :=
  isWord_of_isIdentifier plain.name

/-- A character that stands in no word and is no space is not in the declaration. -/
theorem notMem_line (plain : parameter.IsPlain) {mark : Char} (noLetter : isWordChar mark = false)
    (noSpace : mark ≠ ' ') : mark ∉ parameter.line := by
  simp only [line, List.mem_append, List.mem_cons, not_or]
  exact ⟨parameter.direction.isWord_qualifier.notMem noLetter, noSpace,
    parameter.type.isWord_spelling.notMem noLetter, noSpace, plain.isWord.notMem noLetter⟩

/-- The declaration ends with no blank. -/
theorem endsSolid_line (plain : parameter.IsPlain) : EndsSolid parameter.line := by
  have divided : parameter.line = (parameter.direction.qualifier.toList ++
      ' ' :: (parameter.type.spelling.toList ++ [' '])) ++ parameter.name.toList := by
    simp [line]
  rw [divided]
  exact plain.isWord.endsSolid.append _

/-- The declaration says which parameter it is, also with a space before it. -/
theorem readParameter_line (plain : parameter.IsPlain) :
    readParameter parameter.line = .ok parameter ∧
      readParameter (' ' :: parameter.line) = .ok parameter := by
  have trimmed : trim parameter.line = parameter.line :=
    trim_eq_self parameter.startsSolid_line plain.endsSolid_line
  have spaced : trim (' ' :: parameter.line) = trim parameter.line := rfl
  have divided : words parameter.line = [parameter.direction.qualifier.toList,
      parameter.type.spelling.toList, parameter.name.toList] := by
    rw [line, words, runs_append_cons rfl, runs_append_cons rfl, ← words, ← words, ← words,
      parameter.direction.isWord_qualifier.words_eq, parameter.type.isWord_spelling.words_eq,
      plain.isWord.words_eq]
    rfl
  have isType : isQualifier parameter.type.spelling = false := by
    cases parameter.type <;> decide
  have read : readParameter parameter.line = .ok parameter := by
    simp only [readParameter, trimmed, divided, List.map_cons, List.map_nil, String.ofList_toList,
      sortParameterWords_eq_ok parameter.direction isType plain.noQualifier, bind, Except.bind]
    simp [readTypedName, readType, plain.name, bind, Except.bind, pure, Except.pure]
  refine ⟨read, ?_⟩
  rw [readParameter, spaced]
  exact read

end IsPlain

end Parameter

namespace Source

/-- A text without commas is one piece. -/
theorem pieces_of_notMem {text : List Char} (noComma : ',' ∉ text) :
    pieces (· == ',') text = [text] := by
  refine pieces_of_solid fun c member => beq_eq_false_iff_ne.mpr ?_
  rintro rfl
  exact noComma member

/-- The pieces between the commas of joined texts are these texts, the first as it is and the others
with a space before them. -/
theorem pieces_intercalate {first : List Char} {others : List (List Char)}
    (noComma : ∀ text ∈ first :: others, ',' ∉ text) :
    pieces (· == ',') ([',', ' '].intercalate (first :: others)) =
      first :: others.map (' ' :: ·) := by
  induction others generalizing first with
  | nil =>
    rw [List.intercalate_singleton, List.map_nil]
    exact pieces_of_notMem (noComma first List.mem_cons_self)
  | cons next others ih =>
    obtain ⟨firstSolid, othersSolid⟩ := List.forall_mem_cons.mp noComma
    have joined : [',', ' '].intercalate (first :: next :: others) =
        first ++ ',' :: (' ' :: [',', ' '].intercalate (next :: others)) := by
      rw [List.intercalate_cons_cons]
      simp
    have spaced : pieces (· == ',') (' ' :: [',', ' '].intercalate (next :: others)) =
        (' ' :: next) :: others.map (' ' :: ·) := by
      rw [pieces, if_neg (by decide), ih othersSolid]
    rw [joined, pieces_append_cons rfl, pieces_of_notMem firstSolid, spaced]
    rfl

/-- Parameters are read from their declarations, the others with a space before them. -/
theorem mapM_readParameter {parameters : List Parameter}
    (plain : ∀ parameter ∈ parameters, parameter.IsPlain) :
    (parameters.map fun parameter => ' ' :: parameter.line).mapM readParameter =
      .ok parameters := by
  induction parameters with
  | nil => rfl
  | cons parameter parameters ih =>
    obtain ⟨first, others⟩ := List.forall_mem_cons.mp plain
    rw [List.map_cons, List.mapM_cons, first.readParameter_line.2, ih others]
    rfl

/-- Joined declarations of parameters. -/
def parameterLines (parameters : List Parameter) : List Char :=
  [',', ' '].intercalate (parameters.map Parameter.line)

/-- Declarations of parameters are written with commas between them. -/
theorem toList_parameters (parameters : List Parameter) :
    (", ".intercalate (parameters.map Fragment.renderParameter)).toList =
      parameterLines parameters := by
  rw [String.toList_intercalate, List.map_map, parameterLines]
  exact congrArg _ (List.map_congr_left fun parameter _ => parameter.toList_render)

/-- No line end in joined declarations of parameters is to be unified. -/
theorem noReturn_parameterLines {parameters : List Parameter}
    (plain : ∀ parameter ∈ parameters, parameter.IsPlain) : '\r' ∉ parameterLines parameters := by
  intro member
  rcases mem_intercalate member with isSeparator | ⟨line, isLine, inLine⟩
  · exact absurd isSeparator (by decide)
  · obtain ⟨parameter, isParameter, rfl⟩ := List.mem_map.mp isLine
    exact (plain parameter isParameter).notMem_line (by decide) (by decide) inLine

/-- Joined declarations of parameters start and end with no blank, if there are any. -/
theorem trim_parameterLines {parameters : List Parameter}
    (plain : ∀ parameter ∈ parameters, parameter.IsPlain) :
    trim (parameterLines parameters) = parameterLines parameters := by
  cases parameters with
  | nil => rfl
  | cons first others =>
    refine trim_eq_self ?_ (endsSolid_intercalate (by simp) fun text member => ?_)
    · obtain ⟨c, rest, starts, solid⟩ := first.startsSolid_line
      rw [parameterLines, List.map_cons]
      cases others with
      | nil => exact ⟨c, rest, by rw [List.map_nil, List.intercalate_singleton, starts], solid⟩
      | cons next others =>
        refine ⟨c, rest ++ [',', ' '] ++
          [',', ' '].intercalate ((next :: others).map Parameter.line), ?_, solid⟩
        rw [List.map_cons, List.intercalate_cons_cons, starts]
        simp
    · obtain ⟨parameter, isParameter, rfl⟩ := List.mem_map.mp member
      exact (plain parameter isParameter).endsSolid_line

/-- A list of parameters is read as it was written. -/
theorem readParameters_lines {parameters : List Parameter}
    (plain : ∀ parameter ∈ parameters, parameter.IsPlain) :
    readParameters (String.ofList (parameterLines parameters)) = .ok parameters := by
  rw [readParameters, String.toList_ofList, trim_parameterLines plain]
  cases parameters with
  | nil => rfl
  | cons first others =>
    obtain ⟨firstPlain, othersPlain⟩ := List.forall_mem_cons.mp plain
    -- A declaration has spaces inside, so the text is neither empty nor one word.
    have spaced : ' ' ∈ parameterLines (first :: others) := by
      have inside : ' ' ∈ first.line := by simp [Parameter.line]
      cases others with
      | nil => simpa [parameterLines] using inside
      | cons next others =>
        rw [parameterLines, List.map_cons, List.map_cons, List.intercalate_cons_cons]
        simp [inside]
    have notAlone : ¬ (parameterLines (first :: others) = [] ∨
        parameterLines (first :: others) = "void".toList) := by
      rintro (none | isVoid)
      · rw [none] at spaced
        contradiction
      · rw [isVoid] at spaced
        exact absurd spaced (by decide)
    have noComma : ∀ text ∈ first.line :: others.map Parameter.line, ',' ∉ text := by
      intro text member
      obtain ⟨parameter, isParameter, rfl⟩ := List.mem_map.mp
        (show text ∈ (first :: others).map Parameter.line from member)
      exact (plain parameter isParameter).notMem_line (by decide) (by decide)
    rw [if_neg notAlone, parameterLines, List.map_cons, pieces_intercalate noComma, List.map_map,
      List.mapM_cons, firstPlain.readParameter_line.1]
    have further := mapM_readParameter othersPlain
    simp only [bind, Except.bind, Function.comp_def, further]
    rfl

end Source

/-! ## The fragment that is read again -/

namespace Item

/-- Items without a wanted function are not cut. -/
theorem cutAtFunction?_eq_none {wanted : Function → Bool} {items : List Item}
    (passed : ∀ f, .function f ∈ items → wanted f = false) :
    cutAtFunction? wanted items = none := by
  induction items with
  | nil => rfl
  | cons item items ih =>
    have later := ih fun g member => passed g (List.mem_cons_of_mem _ member)
    cases item with
    | function g => simp [cutAtFunction?, passed g List.mem_cons_self, later]
    | directive | global | uniform => simp [cutAtFunction?, later]

/-- Items without a main function are cut at the last function. -/
theorem cutAtEntry?_append {before after : List Item} {f : Function}
    (noMain : ∀ g, .function g ∈ before ++ .function f :: after → g.name ≠ "main")
    (last : ∀ g, .function g ∉ after) :
    cutAtEntry? (before ++ .function f :: after) = some (before, f, after) := by
  have noCut : cutAtFunction? (·.name == "main") (before ++ .function f :: after) = none :=
    cutAtFunction?_eq_none fun g member => beq_eq_false_iff_ne.mpr (noMain g member)
  have turned : (before ++ .function f :: after).reverse =
      after.reverse ++ .function f :: before.reverse := by simp
  have cut : cutAtFunction? (fun _ => true) (after.reverse ++ .function f :: before.reverse) =
      some (after.reverse, f, before.reverse) :=
    cutAtFunction?_append (fun g member => absurd (List.mem_reverse.mp member) (last g)) rfl _
  unfold cutAtEntry?
  rw [noCut, Option.none_or, cutAtLastFunction?, turned, cut]
  simp

end Item

/-- A generated name is fit to stand in an identifier. -/
theorem IsGenerated.sanitize_eq {name : String} (generated : IsGenerated name) :
    sanitize name = name := by
  obtain ⟨some, letters⟩ := generated.isWord
  have kept : name.toList.map (fun c => if isWordChar c then c else '_') = name.toList := by
    conv_rhs => rw [← List.map_id name.toList]
    exact List.map_congr_left fun c member => if_pos (letters c member)
  rw [sanitize]
  split
  · contradiction
  · rw [kept, String.ofList_toList]

/-- A generated name is no qualifier. -/
theorem IsGenerated.isQualifier_eq_false {name : String} (generated : IsGenerated name) :
    isQualifier name = false := by
  have noSmooth : name ≠ "smooth" := by
    rintro rfl
    obtain ⟨rest, isName, -⟩ := generated
    exact absurd (congrArg (·.drop 1) isName) (by simp)
  simp only [isQualifier, isPrecision, isUnsupportedQualifier, Bool.or_eq_false_iff,
    beq_eq_false_iff_ne]
  refine ⟨⟨⟨⟨?_, ?_⟩, ?_⟩, ⟨?_, ?_⟩, ?_⟩, ⟨⟨⟨?_, ?_⟩, noSmooth⟩, ?_⟩, ?_⟩ <;>
    exact generated.ne (by decide)

namespace Fragment

variable {fragment : Fragment} {call : String}

/-- The parameters of a fragment were read from a text. -/
theorem readParameters_of_read {name : Option String} {source : String}
    (read : Fragment.read name source = .ok fragment) :
    ∃ text, readParameters text = .ok fragment.parameters := by
  obtain ⟨raw, -, itemsRead⟩ := bind_eq_ok.mp read
  obtain ⟨items, -, read⟩ := bind_eq_ok.mp itemsRead
  split at read
  · contradiction
  · obtain ⟨parameters, parametersRead, read⟩ := bind_eq_ok.mp read
    obtain rfl := Except.ok.inj read
    exact ⟨_, parametersRead⟩

/-- The parameters of the entry as it is written for a call are plain. -/
theorem isPlain_calledParameters (plain : fragment.IsPlain) (generated : IsGenerated call)
    (own : ∀ parameter ∈ fragment.parameters, parameter.IsPlain) (replaced : List String) :
    ∀ parameter ∈ fragment.calledParameters call replaced, parameter.IsPlain := by
  intro parameter member
  rcases List.mem_append.mp member with isOwn | isFeed
  · exact own parameter isOwn
  · obtain ⟨u, isReplaced, rfl⟩ := List.mem_map.mp isFeed
    have feed := isGenerated_feedName generated (plain.isWord_replaced isReplaced)
    exact ⟨feed.isIdentifier, feed.isQualifier_eq_false⟩

/-- The parameters of the entry are read again from its text. -/
theorem readParameters_reread {replaced : List String}
    (plain : ∀ parameter ∈ fragment.calledParameters call replaced, parameter.IsPlain) :
    readParameters ((fragment.entryAt call replaced).changed unifyLineEnds call).reread.parameters =
      .ok (fragment.calledParameters call replaced) := by
  have text : (fragment.entryAt call replaced).parameters.toList =
      parameterLines (fragment.calledParameters call replaced) :=
    toList_parameters _
  rw [Function.reread, Function.changed, String.toList_ofList, text,
    unifyLineEnds_eq_self (noReturn_parameterLines plain), trim_parameterLines plain]
  exact readParameters_lines plain

/-- A text that is read as inner items and an entry behind which no function stands is the source of
a fragment of the name of the entry without uniforms. -/
theorem read_of_readAll {text : String} {before after : List Item} {f : Function}
    {parameters : List Parameter}
    (listed : Item.readAll text.toList = .ok (before ++ .function f :: after))
    (innerBefore : ∀ item ∈ before, item.IsInner) (innerAfter : ∀ item ∈ after, item.IsInner)
    (last : ∀ g, .function g ∉ after) (generated : IsGenerated f.name)
    (read : readParameters f.parameters = .ok parameters) :
    ∃ again, Fragment.read none text = .ok again ∧ again.name = f.name ∧ again.uniforms = [] ∧
      again.parameters = parameters := by
  obtain ⟨raw, divided, meant⟩ := bind_eq_ok.mp listed
  have noMain : ∀ g, .function g ∈ before ++ .function f :: after → g.name ≠ "main" := by
    intro g member
    rcases List.mem_append.mp member with isBefore | behind
    · exact innerBefore _ isBefore
    · rcases List.mem_cons.mp behind with isEntry | isAfter
      · obtain rfl := Item.function.inj isEntry
        exact generated.ne (by decide)
      · exact innerAfter _ isAfter
  have cut := Item.cutAtEntry?_append noMain last
  refine ⟨⟨f.name, before, ⟨f.returnType, f.name, parameters, f.body⟩, after⟩, ?_, rfl, ?_, rfl⟩
  · simp only [Fragment.read, divided, meant, bind, Except.bind, cut, read, Option.getD_none,
      generated.sanitize_eq]
    rfl
  · refine List.filterMap_eq_nil_iff.mpr fun item member => Item.IsInner.uniform?_eq_none ?_
    exact (List.mem_append.mp member).elim (innerBefore item) (innerAfter item)

/-- The text of a fragment for a call is the source of a fragment. Where the entry is the last
function, the fragment that is read again has the name of the call and no uniforms, and its
parameters are those of the fragment and an input for each uniform that the call replaces. -/
theorem read_render {name : Option String} {source : String}
    (read : Fragment.read name source = .ok fragment) (blanks : PlainBlanks source.toList)
    (last : ∀ f, .function f ∉ fragment.after) (phase : Phase) (owner : BlockIndex)
    (replaced : List String) :
    let call := callName phase fragment.name owner
    ∃ again, Fragment.read none (fragment.render call replaced) = .ok again ∧
      again.name = call ∧ again.uniforms = [] ∧
      again.parameters = fragment.parameters ++
        (fragment.uniforms.filter (·.name ∈ replaced)).map fun u =>
          ⟨call ++ "_" ++ u.name ++ "_in", u.type, .input⟩ := by
  intro call
  have plain := isPlain_of_read read blanks
  have generated : IsGenerated call := isGenerated_callName phase plain.name.2 owner
  obtain ⟨text, parametersRead⟩ := readParameters_of_read read
  have parameters := isPlain_calledParameters plain generated
    (Parameter.isPlain_of_read parametersRead) replaced
  obtain ⟨ends, before, after, listed, innerBefore, innerAfter, functions⟩ :=
    listed_render plain generated replaced
  have noLater : ∀ g, .function g ∉ after := by
    intro g member
    obtain ⟨f, isAfter⟩ := functions _ member rfl
    exact last f isAfter
  exact read_of_readAll (listed.readAll_of_line ends) innerBefore innerAfter noLater generated
    (readParameters_reread parameters)

end Fragment

/-- The source of a fragment with two uniforms, a helper function and a parameter of each
direction. -/
def Sample.gained : String :=
  "uniform float gain;uniform float k;float h()\x7breturn gain;\x7d" ++
    "void f(in vec2 uv,out float v)\x7bv=h()*k;\x7d"

/-- One of two uniforms is fed by an argument, so the function that is read again has an input more
and no uniforms. -/
theorem Fragment.read_render_sample :
    ∃ fragment, Fragment.read none Sample.gained = .ok fragment ∧
      PlainBlanks Sample.gained.toList ∧ (∀ f, .function f ∉ fragment.after) ∧
      ∃ again, Fragment.read none
          (fragment.render (callName .fragment fragment.name 7) ["gain"]) = .ok again ∧
        again.name = "sg_fragment_f_7" ∧ again.uniforms = [] ∧
        again.parameters = [⟨"uv", .vec2, .input⟩, ⟨"v", .float, .output⟩,
          ⟨"sg_fragment_f_7_gain_in", .float, .input⟩] := by
  have read : Fragment.read none Sample.gained = .ok
      ⟨"f", [.uniform ⟨"gain", .float, none⟩, .uniform ⟨"k", .float, none⟩,
          .function ⟨"float", "h", "", "\x7breturn gain;\x7d"⟩],
        ⟨"void", "f", [⟨"uv", .vec2, .input⟩, ⟨"v", .float, .output⟩], "\x7bv=h()*k;\x7d"⟩,
        []⟩ := rfl
  have blanks : PlainBlanks Sample.gained.toList := by decide
  have last : ∀ f, Item.function f ∉ ([] : List Item) := fun f => List.not_mem_nil
  obtain ⟨again, readAgain, name, uniforms, parameters⟩ :=
    read_render read blanks last .fragment 7 ["gain"]
  exact ⟨_, read, blanks, last, again, readAgain, name, uniforms, parameters⟩

end ShaderBlocks
