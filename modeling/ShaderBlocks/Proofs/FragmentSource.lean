import ShaderBlocks.Proofs.ItemText
import ShaderBlocks.Proofs.Outcome

/-!
# What reading a source guarantees

The white space of a plain source is that which may stand between items. Of a fragment that
is read from such a source much is known: its items have the texts of directives, statements
and functions, no comment opens in them, and the names that make up its interface are
identifiers.
-/

namespace ShaderBlocks

open Text Source

/-- The white space of a text may stand between items. -/
def PlainBlanks (text : List Char) : Prop :=
  ∀ c ∈ text, isBlank c = true → isSpace c = true

instance : DecidablePred PlainBlanks :=
  fun text => List.decidableBAll (fun c => isBlank c = true → isSpace c = true) text

/-- What is made of all elements of a list is made of each. -/
theorem of_mem_mapM {ε α β : Type} {make : α → Except ε β} {list : List α} {results : List β}
    (made : list.mapM make = .ok results) {result : β} (member : result ∈ results) :
    ∃ value ∈ list, make value = .ok result := by
  induction list generalizing results with
  | nil =>
    obtain rfl := Except.ok.inj made
    contradiction
  | cons value list ih =>
    rw [List.mapM_cons] at made
    obtain ⟨first, isFirst, made⟩ := bind_eq_ok.mp made
    obtain ⟨others, areOthers, made⟩ := bind_eq_ok.mp made
    obtain rfl := Except.ok.inj made
    rcases List.mem_cons.mp member with rfl | behind
    · exact ⟨value, List.mem_cons_self, isFirst⟩
    · obtain ⟨other, inList, isMade⟩ := ih areOthers behind
      exact ⟨other, List.mem_cons_of_mem _ inList, isMade⟩

/-- Clearing a plain text of comments leaves it plain. -/
theorem PlainBlanks.stripComments {text : List Char} (plain : PlainBlanks text) :
    PlainBlanks (stripComments text) := by
  intro c member blank
  rcases mem_stripComments member with rfl | inText
  · rfl
  · exact plain c inText blank

namespace Source

/-- The text of an item as it was divided off has the shape of the item. -/
def RawItem.IsPlain : RawItem → Prop
  | directive text => IsDirective text
  | statement text => IsStatement text
  | function header body => Begins header ∧ IsHeader header ∧ IsGroup body

/-- What is not read of a text is its end. -/
theorem Reads.isSuffix {text rest : List Char} {item : RawItem} (reads : Reads text item rest) :
    rest <:+ text := by
  cases reads with
  | @directive line _ => exact List.suffix_append line rest
  | @statement header _ => exact ⟨header ++ [';'], by simp⟩
  | @function header group _ => exact ⟨header ++ '{' :: (group ++ ['}']), by simp⟩
  | @aggregate header group tail _ =>
    exact ⟨header ++ '{' :: (group ++ '}' :: (tail ++ [';'])), by simp⟩

/-- The start of a text that starts with no blank, if the text is no directive. -/
theorem begins_append {header rest : List Char} {stop : Char} (noHash : header.head? ≠ some '#')
    (starts : StartsSolid (header ++ stop :: rest)) (other : stop ≠ '#') (behind : List Char) :
    Begins (header ++ stop :: behind) := by
  obtain ⟨c, left, same, solid⟩ := starts
  cases header with
  | nil =>
    obtain ⟨rfl, -⟩ := List.cons.inj same
    exact ⟨stop, behind, rfl, solid, other⟩
  | cons d header =>
    obtain ⟨rfl, -⟩ := List.cons.inj same
    exact ⟨d, header ++ stop :: behind, rfl, solid, fun hash => noHash (hash ▸ rfl)⟩

/-- A text that begins a statement and ends with its semicolon is not trimmed. -/
theorem trim_of_begins {text : List Char} (begins : Begins text) (ends : EndsSolid text) :
    trim text = text := by
  obtain ⟨c, rest, starts, solid, -⟩ := begins
  exact trim_eq_self ⟨c, rest, starts, solid⟩ ends

/-- An item that is read off a text without comments is plain. -/
theorem Reads.isPlain {text rest : List Char} {item : RawItem} (reads : Reads text item rest)
    (free : CommentFree text) (starts : StartsSolid text) : item.IsPlain := by
  cases reads with
  | @directive line _ hash oneLine stops =>
    obtain ⟨behind, rfl⟩ := List.head?_eq_some_iff.mp hash
    obtain ⟨left, trimmed⟩ := trimEnd_cons (c := '#') rfl behind
    have start := trimEnd_isPrefix ('#' :: behind)
    refine ⟨by rw [trimmed, List.head?_cons], endsSolid_trimEnd (by simp [trimmed]), ?_, ?_⟩
    · exact fun member => oneLine (start.subset member)
    · exact free.part (start.isInfix.trans (List.prefix_append _ rest).isInfix)
  | @statement header _ noHash plain =>
    have begins := begins_append noHash starts (by decide) []
    rw [trim_of_begins begins ⟨header, ';', rfl, rfl⟩]
    exact ⟨begins, .simple plain, free.part ⟨[], rest, by simp⟩⟩
  | @function header group _ noHash plain parameters balanced =>
    obtain ⟨c, behind, same, solid⟩ := starts
    obtain ⟨d, left, rfl⟩ := List.exists_cons_of_ne_nil (List.ne_nil_of_mem parameters)
    obtain ⟨rfl, -⟩ := List.cons.inj same
    obtain ⟨kept, trimmed⟩ := trimEnd_cons solid left
    have start := trimEnd_isPrefix (d :: left)
    have whole : trim (d :: left) = trimEnd (d :: left) := StartsSolid.trim ⟨d, left, rfl, solid⟩
    rw [RawItem.IsPlain, whole]
    refine ⟨⟨d, kept, trimmed, solid, fun hash => noHash (hash ▸ rfl)⟩, ⟨?_, ?_⟩,
      ⟨group, rfl, balanced⟩, ?_⟩
    · exact fun e member => plain e (start.subset member)
    · exact free.part (start.isInfix.trans (List.prefix_append ..).isInfix)
    · exact free.part ⟨d :: left, rest, by simp⟩
  | @aggregate header group tail _ noHash plain noParameters balanced noSemicolon =>
    have begins := begins_append noHash starts (by decide) (group ++ '}' :: (tail ++ [';']))
    have shape : StatementShape (header ++ '{' :: (group ++ '}' :: (tail ++ [';']))) :=
      .aggregate plain noParameters balanced noSemicolon
    have same : header ++ '{' :: (group ++ ['}']) ++ tail ++ [';'] =
        header ++ '{' :: (group ++ '}' :: (tail ++ [';'])) := by simp
    rw [same, trim_of_begins begins shape.endsSolid]
    exact ⟨begins, shape, free.part ⟨[], rest, by simp⟩⟩

/-- All items of a plain text without comments are plain. -/
theorem isPlain_of_readItems {limit : Nat} {text : List Char} {items : List RawItem}
    (read : readItems limit text = .ok items) (free : CommentFree text)
    (blanks : PlainBlanks text) : ∀ item ∈ items, item.IsPlain := by
  induction limit generalizing text items with
  | zero =>
    obtain rfl := Except.ok.inj read
    exact List.forall_mem_nil _
  | succ limit ih =>
    rw [readItems] at read
    have within : text.dropWhile isSpace <:+ text := List.dropWhile_suffix _
    cases left : text.dropWhile isSpace with
    | nil =>
      rw [left] at read
      obtain rfl := Except.ok.inj read
      exact List.forall_mem_nil _
    | cons c behind =>
      rw [left] at read within
      obtain ⟨⟨item, rest⟩, isItem, read⟩ := bind_eq_ok.mp read
      obtain ⟨others, areOthers, read⟩ := bind_eq_ok.mp read
      obtain rfl := Except.ok.inj read
      have reads := reads_of_readItem isItem
      have solid : isBlank c = false := by
        cases blank : isBlank c with
        | false => rfl
        | true =>
          have space := blanks c (within.subset List.mem_cons_self) blank
          rw [stop_of_dropWhile left] at space
          contradiction
      have restWithin : rest <:+ text := reads.isSuffix.trans within
      refine List.forall_mem_cons.mpr ⟨?_, ?_⟩
      · exact reads.isPlain (free.part within.isInfix) ⟨c, behind, rfl, solid⟩
      · exact ih areOthers (free.part restWithin.isInfix)
          fun d member => blanks d (restWithin.subset member)

/-- A type and a name are read from two words, the second of which is an identifier. -/
theorem of_readTypedName {malformed : SourceError} {words : List String} {type : ValueType}
    {name : String} (read : readTypedName malformed words = .ok (type, name)) :
    name ∈ words ∧ isIdentifier name.toList = true := by
  unfold readTypedName at read
  split at read
  · rename_i spelling word
    split at read
    · rename_i identifier
      obtain ⟨found, -, read⟩ := bind_eq_ok.mp read
      obtain ⟨-, rfl⟩ := Prod.mk.inj (Except.ok.inj read)
      exact ⟨by simp, identifier⟩
    · contradiction
  · contradiction

/-- What stands between words that can stand in a header, if it joins them. -/
theorem isHeader_intercalate {separator : List Char}
    (joins : ∀ {front rest : List Char}, IsHeader front → IsHeader rest →
      IsHeader (front ++ separator ++ rest))
    {parts : List (List Char)} (headers : ∀ part ∈ parts, IsHeader part) :
    IsHeader (separator.intercalate parts) := by
  induction parts with
  | nil => exact isHeader_nil
  | cons part parts ih =>
    obtain ⟨first, others⟩ := List.forall_mem_cons.mp headers
    cases parts with
    | nil => rwa [List.intercalate_singleton]
    | cons next parts =>
      rw [List.intercalate_cons_cons]
      exact joins first (ih others)

/-- The characters of joined parts. -/
theorem mem_intercalate {separator : List Char} {parts : List (List Char)} {c : Char}
    (member : c ∈ separator.intercalate parts) : c ∈ separator ∨ ∃ part ∈ parts, c ∈ part := by
  induction parts with
  | nil => contradiction
  | cons part parts ih =>
    cases parts with
    | nil =>
      rw [List.intercalate_singleton] at member
      exact .inr ⟨part, List.mem_cons_self, member⟩
    | cons next parts =>
      rw [List.intercalate_cons_cons, List.append_assoc, List.mem_append, List.mem_append] at member
      rcases member with inPart | inSeparator | behind
      · exact .inr ⟨part, List.mem_cons_self, inPart⟩
      · exact .inl inSeparator
      · obtain inSeparator | ⟨other, isOther, inOther⟩ := ih behind
        · exact .inl inSeparator
        · exact .inr ⟨other, List.mem_cons_of_mem _ isOther, inOther⟩

/-- Part of a text that can stand in a header can. -/
theorem IsHeader.part {text inner : List Char} (isHeader : IsHeader text)
    (within : inner <:+: text) : IsHeader inner :=
  ⟨fun c member => isHeader.plain c (within.subset member), isHeader.free.part within⟩

end Source

/-- A uniform whose declaration can be read. -/
structure Uniform.IsPlain (u : Uniform) : Prop where
  /-- The name is an identifier. -/
  name : isIdentifier u.name.toList = true
  /-- The name states no precision. -/
  noPrecision : isPrecision u.name = false

/-- A uniform that was read is plain. -/
theorem Uniform.isPlain_of_read {statement : List Char} {u : Uniform}
    (read : readUniform statement = .ok u) : u.IsPlain := by
  have typed : ∀ {malformed : SourceError} {words : List String} {value : Option (List Char)},
      (do
        let typed ← readTypedName malformed (words.filter (!isPrecision ·))
        return Uniform.mk typed.2 typed.1 (value.map String.ofList)) = .ok u → u.IsPlain := by
    intro malformed words value read
    obtain ⟨⟨type, name⟩, typed, read⟩ := bind_eq_ok.mp read
    obtain rfl := Except.ok.inj read
    obtain ⟨member, identifier⟩ := of_readTypedName typed
    exact ⟨identifier, by simpa using (List.mem_filter.mp member).2⟩
  simp only [readUniform] at read
  split at read
  · contradiction
  · split at read <;> split at read
    · contradiction
    · exact typed read
    · contradiction
    · exact typed read

/-- Words before the last one of a header, joined by spaces, make up a return type. -/
theorem returnType_of_words {head name : List Char} {parts : List (List Char)}
    (ordered : words head = parts ++ [name]) (some : parts ≠ []) (begins : Begins head)
    (isHeader : IsHeader head) (noParameters : '(' ∉ head) :
    Begins ([' '].intercalate parts) ∧ IsHeader ([' '].intercalate parts) ∧
      '(' ∉ [' '].intercalate parts ∧ '\r' ∉ [' '].intercalate parts := by
  have isRun : ∀ part ∈ parts, part <:+: head ∧ part ≠ [] ∧ ∀ c ∈ part, isBlank c = false := by
    intro part member
    have isWord : part ∈ words head := by simp [ordered, member]
    exact of_mem_runs isWord
  obtain ⟨c, left, rfl, solid, noHash⟩ := begins
  obtain ⟨part, others, rfl⟩ := List.exists_cons_of_ne_nil some
  refine ⟨?_, ?_, ?_, ?_⟩
  · -- The first word starts where the header does.
    have first : (words (c :: left)).head? = _ := head?_runs solid
    rw [ordered, List.cons_append, List.head?_cons, Option.some.injEq,
      List.takeWhile_cons_of_pos (by simp [solid])] at first
    cases others with
    | nil => exact ⟨c, _, by rw [List.intercalate_singleton, first], solid, noHash⟩
    | cons next others =>
      exact ⟨c, _, by rw [List.intercalate_cons_cons, first, List.cons_append, List.cons_append],
        solid, noHash⟩
  · refine isHeader_intercalate (fun first second => ?_)
      fun part member => isHeader.part (isRun part member).1
    rw [List.append_assoc]
    exact first.append_cons second (by decide) (by decide) (by decide)
  · intro member
    rcases mem_intercalate member with isSpace | ⟨part, isPart, inPart⟩
    · exact absurd isSpace (by decide)
    · exact noParameters ((isRun part isPart).1.subset inPart)
  · intro member
    rcases mem_intercalate member with isSpace | ⟨part, isPart, inPart⟩
    · exact absurd isSpace (by decide)
    · exact absurd ((isRun part isPart).2.2 _ inPart) (by decide)

/-- A function is read from a header that has a return type, a name and parentheses. -/
theorem of_readFunction {header body : List Char} {f : Function}
    (read : readFunction header body = .ok f) :
    ∃ head parameters behind name parts,
      header = head ++ '(' :: (parameters ++ ')' :: behind) ∧ '(' ∉ head ∧
      words head = parts ++ [name] ∧ parts ≠ [] ∧ isIdentifier name = true ∧
      f = {
        returnType := " ".intercalate (parts.map String.ofList)
        name := String.ofList name
        parameters := String.ofList (trim parameters)
        body := String.ofList body } := by
  simp only [readFunction] at read
  split at read
  · contradiction
  · rename_i head rest cut
    obtain ⟨rfl, noParameters⟩ := splitOnce?_eq_some.mp cut
    split at read
    · contradiction
    · rename_i parameters behind closed
      obtain ⟨rfl, -⟩ := splitLast?_eq_some.mp closed
      split at read
      · rename_i name first others reversed
        split at read
        · rename_i identifier
          have ordered : words head = (first :: others).reverse ++ [name] := by
            rw [← List.reverse_reverse (words head), reversed, List.reverse_cons]
          exact ⟨head, parameters, behind, name, (first :: others).reverse, rfl, noParameters,
            ordered, by simp, identifier, (Except.ok.inj read).symm⟩
        · contradiction
      · contradiction

/-- A function that was read from a plain item is plain. -/
theorem Function.isPlain_of_read {header body : List Char} {f : Function}
    (read : readFunction header body = .ok f) (begins : Begins header) (isHeader : IsHeader header)
    (isGroup : IsGroup body) : f.IsPlain := by
  obtain ⟨head, parameters, behind, name, parts, rfl, noParameters, ordered, some, identifier,
    rfl⟩ := of_readFunction read
  have headBegins : Begins head := by
    obtain ⟨c, left, same, solid, noHash⟩ := begins
    cases head with
    | nil => simp [words, runs, pieces] at ordered
    | cons d head =>
      obtain ⟨rfl, -⟩ := List.cons.inj same
      exact ⟨d, head, rfl, solid, noHash⟩
  obtain ⟨returnBegins, returnHeader, noOpening, noReturn⟩ :=
    returnType_of_words ordered some headBegins
      (isHeader.part (List.prefix_append ..).isInfix) noParameters
  have returnText : (" ".intercalate (parts.map String.ofList)).toList =
      [' '].intercalate parts := by
    rw [String.toList_intercalate, List.map_map, List.map_congr_left (g := id), List.map_id]
    · rfl
    · exact fun part _ => String.toList_ofList
  constructor
  · exact returnText ▸ returnBegins
  · exact returnText ▸ returnHeader
  · exact returnText ▸ noOpening
  · exact returnText ▸ noReturn
  · rwa [String.toList_ofList]
  · rw [String.toList_ofList]
    exact isHeader.part ((trim_isInfix parameters).trans ⟨head ++ ['('], ')' :: behind, by simp⟩)
  · rwa [String.toList_ofList]

/-- What reading guarantees of an item. -/
def Item.IsPlain : Item → Prop
  | directive text => IsDirective text.toList
  | global text => IsStatement text.toList ∧ firstWord? text.toList ≠ some "uniform"
  | uniform u => u.IsPlain
  | function f => f.IsPlain

/-- An item that is read from a plain text is plain. -/
theorem Item.isPlain_of_ofRaw {raw : RawItem} {item : Item} (read : Item.ofRaw raw = .ok item)
    (plain : raw.IsPlain) : item.IsPlain := by
  cases raw with
  | directive text =>
    obtain rfl := Except.ok.inj read
    rwa [IsPlain, String.toList_ofList]
  | statement text =>
    rw [ofRaw] at read
    split at read
    · obtain ⟨u, isUniform, read⟩ := bind_eq_ok.mp read
      obtain rfl := Except.ok.inj read
      exact Uniform.isPlain_of_read isUniform
    · rename_i noUniform
      obtain rfl := Except.ok.inj read
      rw [IsPlain, String.toList_ofList]
      exact ⟨plain, noUniform⟩
  | function header body =>
    obtain ⟨f, isFunction, read⟩ := bind_eq_ok.mp read
    obtain rfl := Except.ok.inj read
    exact Function.isPlain_of_read isFunction plain.1 plain.2.1 plain.2.2

/-- Cutting a list of items leaves nothing out. -/
theorem Item.eq_append_of_function {wanted : Function → Bool} {items before after : List Item}
    {f : Function} (cut : cutAtFunction? wanted items = some (before, f, after)) :
    items = before ++ .function f :: after := by
  induction items generalizing before with
  | nil => contradiction
  | cons item rest ih =>
    have further : (cutAtFunction? wanted rest).map (fun cut => (item :: cut.1, cut.2)) =
        some (before, f, after) → item :: rest = before ++ .function f :: after := by
      intro cutLater
      obtain ⟨⟨front, found, behind⟩, cutRest, ⟨rfl⟩⟩ := Option.map_eq_some_iff.mp cutLater
      rw [ih cutRest, List.cons_append]
    cases item with
    | function g =>
      rw [cutAtFunction?] at cut
      split at cut
      · obtain ⟨rfl, same⟩ := Prod.mk.inj (Option.some.inj cut)
        obtain ⟨rfl, rfl⟩ := Prod.mk.inj same
        rfl
      · exact further cut
    | directive text => exact further cut
    | global text => exact further cut
    | uniform u => exact further cut

/-- Cutting a list of items at its entry leaves nothing out. -/
theorem Item.eq_append_of_entry {items before after : List Item} {f : Function}
    (cut : cutAtEntry? items = some (before, f, after)) :
    items = before ++ .function f :: after := by
  unfold cutAtEntry? at cut
  rw [Option.or_eq_some_iff] at cut
  rcases cut with cutMain | ⟨-, cutLast⟩
  · exact eq_append_of_function cutMain
  · obtain ⟨⟨back, found, front⟩, cutReverse, ⟨rfl⟩⟩ := Option.map_eq_some_iff.mp cutLast
    rw [← List.reverse_reverse items, eq_append_of_function cutReverse]
    simp

/-- Each parameter that was read was made of words that were sorted. -/
theorem of_mem_readParameters {text : String} {parameters : List Parameter}
    (read : readParameters text = .ok parameters) {parameter : Parameter}
    (member : parameter ∈ parameters) :
    ∃ (whole : String) (words : List String) (sorted : ParameterWords),
      sortParameterWords whole ⟨.input, []⟩ words = .ok sorted ∧
        parameter.name ∈ sorted.others ∧ isIdentifier parameter.name.toList = true := by
  rw [readParameters] at read
  split at read
  · obtain rfl := Except.ok.inj read
    contradiction
  · obtain ⟨piece, -, readOne⟩ := of_mem_mapM read member
    obtain ⟨sorted, sorts, typedRead⟩ := bind_eq_ok.mp readOne
    obtain ⟨⟨type, name⟩, typed, isParameter⟩ := bind_eq_ok.mp typedRead
    obtain rfl := Except.ok.inj isParameter
    exact ⟨_, _, sorted, sorts, of_readTypedName typed⟩

/-- The names of parameters that were read are identifiers. -/
theorem isIdentifier_of_readParameters {text : String} {parameters : List Parameter}
    (read : readParameters text = .ok parameters) :
    ∀ parameter ∈ parameters, isIdentifier parameter.name.toList = true := by
  intro parameter member
  obtain ⟨whole, words, sorted, -, -, identifier⟩ := of_mem_readParameters read member
  exact identifier

/-- The entry function without its parameters. -/
def Entry.shell (entry : Entry) : Function where
  returnType := entry.returnType
  name := entry.name
  parameters := ""
  body := entry.body

/-- What reading guarantees of a fragment. -/
structure Fragment.IsPlain (fragment : Fragment) : Prop where
  /-- The name is a word. -/
  name : IsWord fragment.name.toList
  /-- All items but the entry are plain. -/
  items : ∀ item ∈ fragment.others, item.IsPlain
  /-- The entry is plain. -/
  entry : fragment.entry.shell.IsPlain
  /-- The names of the parameters are identifiers. -/
  parameters : ∀ parameter ∈ fragment.parameters, isIdentifier parameter.name.toList = true

/-- A name that is made fit to stand in an identifier is a word. -/
theorem isWord_sanitize (name : String) : IsWord (sanitize name).toList := by
  unfold sanitize
  split
  · decide
  · rename_i text some
    rw [String.toList_ofList]
    refine ⟨by simpa using some, fun c member => ?_⟩
    obtain ⟨d, -, rfl⟩ := List.mem_map.mp member
    split
    · assumption
    · rfl

/-- A fragment that is read from a plain source is plain. -/
theorem Fragment.isPlain_of_read {name : Option String} {source : String} {fragment : Fragment}
    (read : Fragment.read name source = .ok fragment) (blanks : PlainBlanks source.toList) :
    fragment.IsPlain := by
  obtain ⟨raw, divided, read⟩ := bind_eq_ok.mp read
  obtain ⟨items, itemsRead, read⟩ := bind_eq_ok.mp read
  have plain : ∀ item ∈ items, item.IsPlain := by
    intro item member
    obtain ⟨one, isRaw, readOne⟩ := of_mem_mapM itemsRead member
    exact Item.isPlain_of_ofRaw readOne (isPlain_of_readItems divided
      (commentFree_stripComments _) blanks.stripComments one isRaw)
  split at read
  · contradiction
  · rename_i before f after cut
    obtain ⟨parameters, parametersRead, read⟩ := bind_eq_ok.mp read
    obtain rfl := Except.ok.inj read
    have whole := Item.eq_append_of_entry cut
    have entry : f.IsPlain := plain (.function f) (by simp [whole])
    refine ⟨isWord_sanitize _, fun item member => plain item ?_, ?_, ?_⟩
    · rcases List.mem_append.mp member with inBefore | inAfter
      · simp [whole, inBefore]
      · simp [whole, inAfter]
    · exact ⟨entry.begins, entry.returnType, entry.noParameters, entry.noReturn, entry.name,
        isHeader_nil, entry.body⟩
    · exact isIdentifier_of_readParameters parametersRead

end ShaderBlocks
