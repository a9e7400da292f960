import ShaderBlocks.Proofs.ItemGrammar
import ShaderBlocks.Proofs.Outcome

/-!
# Texts as sequences of items

A text can be split into top-level items exactly if it is a sequence of them: items as they are
written, with nothing but spaces before, between and behind them. The parts of such a sequence are
determined by the text, so what splitting returns is the one sequence that there is, with blanks
trimmed from the ends of its items. Nothing is lost but blanks, and nothing is repeated.

The grammar says of each item which of its parts may hold what. It does not say how to find the
end of an item in a text: that an item cannot be cut short or run on is a theorem here.
-/

namespace ShaderBlocks.Source

open ShaderBlocks.Text

/-- A top-level item as it is written, in its parts. -/
inductive WrittenItem
  /-- A line that starts with a hash. -/
  | directive (line : List Char)
  /-- A header and a semicolon. -/
  | statement (header : List Char)
  /-- A header and a brace group. -/
  | function (header group : List Char)
  /-- A header, a brace group and what follows it up to a semicolon. -/
  | aggregate (header group tail : List Char)
  deriving DecidableEq, Repr

/-- A text can be the header of an item: it holds no semicolon and no brace, and does not start as a
directive does. -/
structure OpensItem (header : List Char) : Prop where
  /-- Nothing in it ends a header. -/
  plain : ∀ c ∈ header, c ≠ ';' ∧ c ≠ '{' ∧ c ≠ '}'
  /-- It does not start with a hash. -/
  noHash : header.head? ≠ some '#'

namespace WrittenItem

/-- The text of an item. -/
def text : WrittenItem → List Char
  | directive line => line
  | statement header => header ++ [';']
  | function header group => header ++ '{' :: (group ++ ['}'])
  | aggregate header group tail => header ++ '{' :: (group ++ '}' :: (tail ++ [';']))

/-- The parts of an item hold what they may. -/
def IsFormed : WrittenItem → Prop
  | directive line => line.head? = some '#' ∧ '\n' ∉ line
  | statement header => OpensItem header
  | function header group => OpensItem header ∧ '(' ∈ header ∧ Balanced group
  | aggregate header group tail =>
    OpensItem header ∧ '(' ∉ header ∧ Balanced group ∧ ';' ∉ tail

/-- The item may stand before a text: a directive reaches up to the end of its line. -/
def MayPrecede : WrittenItem → List Char → Prop
  | directive _, rest => ∀ c ∈ rest.head?, c = '\n'
  | _, _ => True

/-- The item as it is returned: trimmed, and in two parts if it is a function. -/
def raw : WrittenItem → RawItem
  | directive line => .directive (trim line)
  | statement header => .statement (trim (statement header).text)
  | function header group => .function (trim header) ('{' :: (group ++ ['}']))
  | aggregate header group tail => .statement (trim (aggregate header group tail).text)

end WrittenItem

/-- A text is a sequence of items with spaces around them. -/
inductive Sequence : List Char → List WrittenItem → Prop
  /-- Spaces alone. -/
  | nil {gap : List Char} (spaces : ∀ c ∈ gap, isSpace c = true) : Sequence gap []
  /-- Spaces, an item that does not start with one, and a sequence. -/
  | cons {gap rest : List Char} {item : WrittenItem} {items : List WrittenItem}
      (spaces : ∀ c ∈ gap, isSpace c = true) (starts : ∀ c ∈ item.text.head?, isSpace c = false)
      (formed : item.IsFormed) (precedes : item.MayPrecede rest) (later : Sequence rest items) :
      Sequence (gap ++ (item.text ++ rest)) (item :: items)

/-- No character of a header ends it. -/
theorem OpensItem.endsHeader {header : List Char} (opens : OpensItem header) :
    ∀ c ∈ header, endsHeader c = false := by
  intro c member
  obtain ⟨noSemicolon, noOpening, noClosing⟩ := opens.plain c member
  simp [Source.endsHeader, noSemicolon, noOpening, noClosing]

/-- What nothing ends, and does not start with a hash, is a header. -/
theorem opensItem_of_endsHeader {header : List Char} (noHash : header.head? ≠ some '#')
    (plain : ∀ c ∈ header, endsHeader c = false) : OpensItem header where
  plain c member := by simpa [endsHeader, and_assoc] using plain c member
  noHash := noHash

/-- A line that starts with a hash has no blanks to trim there. -/
theorem trim_of_hash {line : List Char} (hash : line.head? = some '#') :
    trim line = trimEnd line := by
  obtain ⟨behind, rfl⟩ := List.head?_eq_some_iff.mp hash
  have starts : StartsSolid ('#' :: behind) := ⟨'#', behind, rfl, rfl⟩
  exact starts.trim

namespace WrittenItem

/-- An item has a first character. -/
theorem IsFormed.exists_cons {item : WrittenItem} (formed : item.IsFormed) :
    ∃ c more, item.text = c :: more := by
  refine List.exists_cons_of_ne_nil fun empty => ?_
  cases item with
  | directive line =>
    obtain rfl : line = [] := empty
    exact absurd formed.1 (by simp)
  | statement header => simp [text] at empty
  | function header group => simp [text] at empty
  | aggregate header group tail => simp [text] at empty

/-- An item that does not start with a space starts with a character that is none. -/
theorem IsFormed.exists_solid {item : WrittenItem} (formed : item.IsFormed)
    (starts : ∀ c ∈ item.text.head?, isSpace c = false) :
    ∃ c more, item.text = c :: more ∧ isSpace c = false := by
  obtain ⟨c, more, first⟩ := formed.exists_cons
  refine ⟨c, more, first, starts c ?_⟩
  rw [first, List.head?_cons]
  rfl

/-- A well-formed item is read where it stands. -/
theorem IsFormed.reads {item : WrittenItem} {rest : List Char} (formed : item.IsFormed)
    (precedes : item.MayPrecede rest) : Reads (item.text ++ rest) item.raw rest := by
  cases item with
  | directive line =>
    obtain ⟨hash, oneLine⟩ := formed
    rw [raw, trim_of_hash hash]
    exact .directive hash oneLine precedes
  | statement header =>
    rw [raw, text, List.append_assoc]
    exact .statement formed.noHash formed.endsHeader
  | function header group =>
    obtain ⟨opens, parameters, balanced⟩ := formed
    have whole : (function header group).text ++ rest =
        header ++ '{' :: (group ++ '}' :: rest) := by simp [text]
    rw [raw, whole]
    exact .function opens.noHash opens.endsHeader parameters balanced
  | aggregate header group tail =>
    obtain ⟨opens, noParameters, balanced, noSemicolon⟩ := formed
    have whole : (aggregate header group tail).text ++ rest =
        header ++ '{' :: (group ++ '}' :: (tail ++ ';' :: rest)) := by simp [text]
    have parts : (aggregate header group tail).text =
        header ++ '{' :: (group ++ ['}']) ++ tail ++ [';'] := by simp [text]
    rw [raw, whole, parts]
    exact .aggregate opens.noHash opens.endsHeader noParameters balanced noSemicolon

end WrittenItem

/-- What is read is the text of a well-formed item. -/
theorem Reads.written {text rest : List Char} {read : RawItem} (reads : Reads text read rest) :
    ∃ item : WrittenItem, item.IsFormed ∧ item.MayPrecede rest ∧ item.raw = read ∧
      text = item.text ++ rest := by
  cases reads with
  | @directive line _ hash oneLine stops =>
    refine ⟨.directive line, ⟨hash, oneLine⟩, stops, ?_, rfl⟩
    rw [WrittenItem.raw, trim_of_hash hash]
  | @statement header _ noHash plain =>
    refine ⟨.statement header, opensItem_of_endsHeader noHash plain, trivial, rfl, ?_⟩
    simp [WrittenItem.text]
  | @function header group _ noHash plain parameters balanced =>
    refine ⟨.function header group,
      ⟨opensItem_of_endsHeader noHash plain, parameters, balanced⟩, trivial, rfl, ?_⟩
    simp [WrittenItem.text]
  | @aggregate header group tail _ noHash plain noParameters balanced noSemicolon =>
    refine ⟨.aggregate header group tail,
      ⟨opensItem_of_endsHeader noHash plain, noParameters, balanced, noSemicolon⟩, trivial, ?_, ?_⟩
    · simp [WrittenItem.raw, WrittenItem.text]
    · simp [WrittenItem.text]

/-- After some spaces, one item is read and then the others. -/
theorem readItems_succ_eq_ok {limit : Nat} {gap behind : List Char} {c : Char}
    {all : List RawItem} (spaces : ∀ d ∈ gap, isSpace d = true) (solid : isSpace c = false) :
    readItems (limit + 1) (gap ++ c :: behind) = .ok all ↔
      ∃ first rest others, readItem (c :: behind) = .ok (first, rest) ∧
        readItems limit rest = .ok others ∧ all = first :: others := by
  rw [readItems, dropWhile_append_cons spaces solid]
  dsimp only
  rw [bind_eq_ok]
  constructor
  · rintro ⟨⟨first, rest⟩, one, done⟩
    obtain ⟨others, more, done⟩ := bind_eq_ok.mp done
    exact ⟨first, rest, others, one, more, (Except.ok.inj done).symm⟩
  · rintro ⟨first, rest, others, one, more, rfl⟩
    exact ⟨(first, rest), one, bind_eq_ok.mpr ⟨others, more, rfl⟩⟩

/-- What is split is a sequence of items. -/
theorem sequence_of_readItems {limit : Nat} {text : List Char} {all : List RawItem}
    (read : readItems limit text = .ok all) (enough : text.length ≤ limit) :
    ∃ items, Sequence text items ∧ items.map WrittenItem.raw = all := by
  induction limit generalizing text all with
  | zero =>
    obtain rfl := Except.ok.inj read
    obtain rfl := List.eq_nil_of_length_eq_zero (Nat.le_zero.mp enough)
    exact ⟨[], .nil (List.forall_mem_nil _), rfl⟩
  | succ limit ih =>
    cases left : text.dropWhile isSpace with
    | nil =>
      rw [readItems, left] at read
      obtain rfl := Except.ok.inj read
      exact ⟨[], .nil (List.dropWhile_eq_nil_iff.mp left), rfl⟩
    | cons c behind =>
      have solid : isSpace c = false := stop_of_dropWhile left
      have spaces : ∀ d ∈ text.takeWhile isSpace, isSpace d = true :=
        fun d member => List.mem_takeWhile_imp member
      rw [eq_append_of_dropWhile left] at read enough ⊢
      obtain ⟨first, rest, others, one, more, rfl⟩ := (readItems_succ_eq_ok spaces solid).mp read
      obtain ⟨item, formed, precedes, rfl, cut⟩ := (reads_of_readItem one).written
      obtain ⟨d, inside, first⟩ := formed.exists_cons
      rw [first, List.cons_append] at cut
      obtain ⟨rfl, rfl⟩ := List.cons.inj cut
      -- The item takes at least one character, so that what follows it is shorter.
      have fits : rest.length ≤ limit := by
        simp only [List.length_append, List.length_cons] at enough
        omega
      obtain ⟨items, sequence, rfl⟩ := ih more fits
      refine ⟨item :: items, ?_, rfl⟩
      have starts : ∀ e ∈ item.text.head?, isSpace e = false := by
        rw [first]
        rintro e ⟨rfl⟩
        exact solid
      rw [← List.cons_append, ← first]
      exact .cons spaces starts formed precedes sequence

namespace Sequence

/-- A sequence of items is split into them. -/
theorem readItems {text : List Char} {items : List WrittenItem} (sequence : Sequence text items)
    {limit : Nat} (enough : text.length ≤ limit) :
    Source.readItems limit text = .ok (items.map WrittenItem.raw) := by
  induction sequence generalizing limit with
  | nil spaces =>
    cases limit with
    | zero => rfl
    | succ limit => rw [Source.readItems, List.dropWhile_eq_nil_iff.mpr spaces, List.map_nil]
  | @cons gap rest item items spaces starts formed precedes later ih =>
    have one := (formed.reads precedes).readItem
    obtain ⟨c, inside, first, solid⟩ := formed.exists_solid starts
    rw [first, List.cons_append] at one enough ⊢
    cases limit with
    | zero => simp at enough
    | succ limit =>
      have fits : rest.length ≤ limit := by
        simp only [List.length_append, List.length_cons] at enough
        omega
      exact (readItems_succ_eq_ok spaces solid).mpr ⟨_, _, _, one, ih fits, List.map_cons⟩

end Sequence

/-- A text can be split exactly if it is a sequence of items, which are then returned. -/
theorem splitItems_eq_ok {text : List Char} {all : List RawItem} :
    splitItems text = .ok all ↔
      ∃ items, Sequence text items ∧ items.map WrittenItem.raw = all := by
  constructor
  · exact fun split => sequence_of_readItems split (Nat.le_refl _)
  · rintro ⟨items, sequence, rfl⟩
    exact sequence.readItems (Nat.le_refl _)

namespace WrittenItem

/-- The group of an aggregate ends at its matching brace, wherever else braces stand. -/
theorem group_unique {group tail other otherTail : List Char} (balanced : Balanced group)
    (otherBalanced : Balanced other)
    (same : group ++ '}' :: tail = other ++ '}' :: otherTail) :
    group = other ∧ tail = otherTail := by
  have closed := closeGroup?_append balanced tail
  rw [same, closeGroup?_append otherBalanced otherTail] at closed
  obtain ⟨sameGroup, sameTail⟩ := Prod.mk.inj (Option.some.inj closed)
  exact ⟨(List.append_cancel_right sameGroup).symm, sameTail.symm⟩

/-- A header ends at the first brace or semicolon. -/
theorem header_unique {header rest other otherRest : List Char} (opens : OpensItem header)
    (otherOpens : OpensItem other) (same : header ++ '{' :: rest = other ++ '{' :: otherRest) :
    header = other ∧ rest = otherRest := by
  have kept : ∀ {text : List Char}, OpensItem text → ∀ c ∈ text, (!endsHeader c) = true :=
    fun opens c member => by simp [opens.endsHeader c member]
  have sameHeader := congrArg (List.takeWhile (!endsHeader ·)) same
  rw [takeWhile_append_cons (kept opens) rfl,
    takeWhile_append_cons (kept otherOpens) rfl] at sameHeader
  subst sameHeader
  exact ⟨rfl, (List.cons.inj (List.append_cancel_left same)).2⟩

/-- No statement has the text of an aggregate: it holds no brace. -/
theorem text_statement_ne {header other group tail : List Char} (opens : OpensItem header) :
    (statement header).text ≠ (aggregate other group tail).text := by
  intro same
  have opening : '{' ∈ (statement header).text := by
    rw [same]
    simp [text]
  rcases List.mem_append.mp opening with inHeader | isLast
  · exact (opens.plain _ inHeader).2.1 rfl
  · contradiction

/-- Items of one text that are returned alike have the same parts. -/
theorem eq_of_text_eq {item other : WrittenItem} (formed : item.IsFormed)
    (otherFormed : other.IsFormed) (sameText : item.text = other.text)
    (sameRaw : item.raw = other.raw) : item = other := by
  cases item with
  | directive line =>
    cases other with
    | directive otherLine => exact congrArg directive sameText
    | _ => contradiction
  | statement header =>
    cases other with
    | statement otherHeader => exact congrArg statement (List.append_cancel_right sameText)
    | aggregate otherHeader group tail => exact absurd sameText (text_statement_ne formed)
    | _ => contradiction
  | function header group =>
    cases other with
    | function otherHeader otherGroup =>
      obtain ⟨-, sameBody⟩ := RawItem.function.inj sameRaw
      obtain rfl := List.append_cancel_right (List.cons.inj sameBody).2
      exact congrArg (function · group) (List.append_cancel_right sameText)
    | _ => contradiction
  | aggregate header group tail =>
    cases other with
    | aggregate otherHeader otherGroup otherTail =>
      obtain ⟨rfl, sameRest⟩ := header_unique formed.1 otherFormed.1 sameText
      obtain ⟨rfl, sameTail⟩ := group_unique formed.2.2.1 otherFormed.2.2.1 sameRest
      exact congrArg (aggregate header group) (List.append_cancel_right sameTail)
    | statement otherHeader => exact absurd sameText.symm (text_statement_ne otherFormed)
    | _ => contradiction

/-- No text starts with two different items. -/
theorem eq_of_append_eq {item other : WrittenItem} {rest otherRest : List Char}
    (formed : item.IsFormed) (precedes : item.MayPrecede rest) (otherFormed : other.IsFormed)
    (otherPrecedes : other.MayPrecede otherRest)
    (same : item.text ++ rest = other.text ++ otherRest) : item = other ∧ rest = otherRest := by
  have read := (formed.reads precedes).readItem
  rw [same, (otherFormed.reads otherPrecedes).readItem] at read
  obtain ⟨sameRaw, rfl⟩ := Prod.mk.inj (Except.ok.inj read)
  exact ⟨eq_of_text_eq formed otherFormed (List.append_cancel_right same) sameRaw.symm, rfl⟩

end WrittenItem

namespace Sequence

/-- The spaces before an item end where it starts. -/
theorem dropWhile_append {gap : List Char} {item : WrittenItem} (rest : List Char)
    (spaces : ∀ c ∈ gap, isSpace c = true) (starts : ∀ c ∈ item.text.head?, isSpace c = false)
    (formed : item.IsFormed) :
    (gap ++ (item.text ++ rest)).dropWhile isSpace = item.text ++ rest := by
  obtain ⟨c, inside, first, solid⟩ := formed.exists_solid starts
  rw [first, List.cons_append, dropWhile_append_cons spaces solid]

/-- A text with an item in it is not made of spaces. -/
theorem ne_of_spaces {gap rest spaced : List Char} {item : WrittenItem}
    (spaces : ∀ c ∈ gap, isSpace c = true) (starts : ∀ c ∈ item.text.head?, isSpace c = false)
    (formed : item.IsFormed) (allSpaces : ∀ c ∈ spaced, isSpace c = true) :
    gap ++ (item.text ++ rest) ≠ spaced := by
  intro same
  have dropped := dropWhile_append rest spaces starts formed
  rw [same, List.dropWhile_eq_nil_iff.mpr allSpaces] at dropped
  obtain ⟨c, inside, first⟩ := formed.exists_cons
  rw [first] at dropped
  contradiction

/-- A text is a sequence of items in one way at most. -/
theorem unique {text other : List Char} {items others : List WrittenItem}
    (sequence : Sequence text items) (another : Sequence other others) (same : text = other) :
    items = others := by
  induction sequence generalizing other others with
  | nil allSpaces =>
    cases another with
    | nil => rfl
    | cons spaces starts formed precedes later =>
      exact absurd same.symm (ne_of_spaces spaces starts formed allSpaces)
  | @cons gap rest item items spaces starts formed precedes later ih =>
    cases another with
    | nil allSpaces => exact absurd same (ne_of_spaces spaces starts formed allSpaces)
    | cons otherSpaces otherStarts otherFormed otherPrecedes otherLater =>
      have sameItems := congrArg (List.dropWhile isSpace) same
      rw [dropWhile_append _ spaces starts formed,
        dropWhile_append _ otherSpaces otherStarts otherFormed] at sameItems
      obtain ⟨rfl, sameRest⟩ :=
        WrittenItem.eq_of_append_eq formed precedes otherFormed otherPrecedes sameItems
      rw [ih otherLater sameRest]

end Sequence

/-- A text without its blanks. -/
def solid (text : List Char) : List Char :=
  text.filter (!isBlank ·)

/-- The parts of a text lose their blanks one by one. -/
theorem solid_append (first second : List Char) :
    solid (first ++ second) = solid first ++ solid second :=
  List.filter_append ..

/-- Nothing is left of blanks. -/
theorem solid_eq_nil {text : List Char} (blank : ∀ c ∈ text, isBlank c = true) : solid text = [] :=
  List.filter_eq_nil_iff.mpr fun c member => by simp [blank c member]

/-- Blanks at the start do not count. -/
theorem solid_trimStart (text : List Char) : solid (trimStart text) = solid text := by
  have start : solid (text.takeWhile isBlank) = [] :=
    solid_eq_nil fun c member => List.mem_takeWhile_imp member
  have parts : solid (text.takeWhile isBlank ++ text.dropWhile isBlank) =
      solid (trimStart text) := by
    rw [solid_append, start, List.nil_append, trimStart]
  rw [← parts, List.takeWhile_append_dropWhile]

/-- Blanks at the end do not count. -/
theorem solid_trimEnd (text : List Char) : solid (trimEnd text) = solid text := by
  have reversed := solid_trimStart text.reverse
  rw [solid, solid, List.filter_reverse] at reversed
  rw [solid, solid, trimEnd, dropEndWhile, List.filter_reverse]
  exact List.reverse_eq_iff.mpr reversed

/-- Trimming takes away nothing but blanks. -/
theorem solid_trim (text : List Char) : solid (trim text) = solid text := by
  rw [trim, solid_trimEnd, solid_trimStart]

/-- The text of an item that was returned. -/
def RawItem.text : RawItem → List Char
  | directive text => text
  | statement text => text
  | function header body => header ++ body

/-- What is returned of an item is all of it but blanks. -/
theorem WrittenItem.solid_raw (item : WrittenItem) : solid item.raw.text = solid item.text := by
  cases item with
  | directive line => exact solid_trim line
  | statement header => exact solid_trim _
  | function header group =>
    rw [raw, RawItem.text, solid_append, solid_trim, ← solid_append]
    rfl
  | aggregate header group tail => exact solid_trim _

/-- The items of a sequence are all of the text but blanks. -/
theorem Sequence.solid_flatMap {text : List Char} {items : List WrittenItem}
    (sequence : Sequence text items) :
    solid ((items.map WrittenItem.raw).flatMap RawItem.text) = solid text := by
  induction sequence with
  | nil spaces => exact (solid_eq_nil fun c member => isBlank_of_isSpace (spaces c member)).symm
  | @cons gap rest item items spaces starts formed precedes later ih =>
    have noGap : solid gap = [] :=
      solid_eq_nil fun c member => isBlank_of_isSpace (spaces c member)
    rw [List.map_cons, List.flatMap_cons, solid_append, item.solid_raw, ih, solid_append, noGap,
      List.nil_append, solid_append]

/-- Splitting a text succeeds exactly if the text is a sequence of items with spaces around them.
It is one in one way only, splitting returns the items in their order, and together they hold every
character of the text that is no blank, in its place. -/
theorem splitItems_exact (text : List Char) :
    (∀ all, splitItems text = .ok all ↔
      ∃ items, Sequence text items ∧ items.map WrittenItem.raw = all) ∧
      (∀ items others, Sequence text items → Sequence text others → items = others) ∧
      ∀ all, splitItems text = .ok all → solid (all.flatMap RawItem.text) = solid text := by
  refine ⟨fun all => splitItems_eq_ok, ?_, ?_⟩
  · intro items others sequence another
    exact sequence.unique another rfl
  · intro all split
    obtain ⟨items, sequence, rfl⟩ := splitItems_eq_ok.mp split
    exact sequence.solid_flatMap

/-- A text with an item of each kind, one of them with a group in its group. -/
theorem splitItems_exact_sample :
    let text := "#v 1 \n struct A {int a;} b ;void f( ) {{}}int x\t;\n".toList
    let all : List RawItem := [.directive "#v 1".toList, .statement "struct A {int a;} b ;".toList,
      .function "void f( )".toList "{{}}".toList, .statement "int x\t;".toList]
    splitItems text = .ok all ∧
      (∃ items, Sequence text items ∧ items.map WrittenItem.raw = all) ∧
      solid (all.flatMap RawItem.text) = solid text := by
  intro text all
  have split : splitItems text = .ok all := by decide +kernel
  obtain ⟨exactly, -, whole⟩ := splitItems_exact text
  exact ⟨split, (exactly all).mp split, whole all split⟩

end ShaderBlocks.Source
