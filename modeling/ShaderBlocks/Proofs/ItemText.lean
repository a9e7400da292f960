import ShaderBlocks.Fragment.Basic
import ShaderBlocks.Proofs.ItemShape

/-!
# The text of items

Functions are written with a space after what they return and before their body. A directive,
a statement or a function that is written with a line end behind it is read again, up to that
line end, as what it is with its line ends unified. A text that lists items in this way, each
on lines of its own, is read as the list of these items.
-/

namespace ShaderBlocks

open Text Source

namespace Function

/-- The text of a function. -/
def text (f : Function) : List Char :=
  f.returnType.toList ++ ' ' ::
    (f.name.toList ++ '(' :: (f.parameters.toList ++ ')' :: ' ' :: f.body.toList))

/-- The text of a function up to its parameters. -/
def header (f : Function) : List Char :=
  f.returnType.toList ++ ' ' :: (f.name.toList ++ '(' :: (f.parameters.toList ++ [')']))

/-- The text of a function can be read. -/
structure IsPlain (f : Function) : Prop where
  /-- It starts with no blank and is no directive. -/
  begins : Begins f.returnType.toList
  /-- What stands before the name can stand in a header. -/
  returnType : IsHeader f.returnType.toList
  /-- The parameters have not begun before the name. -/
  noParameters : '(' ∉ f.returnType.toList
  /-- What stands before the name is not divided by line ends. -/
  noReturn : '\r' ∉ f.returnType.toList
  /-- The name is an identifier. -/
  name : isIdentifier f.name.toList = true
  /-- The parameters can stand in a header. -/
  parameters : IsHeader f.parameters.toList
  /-- The body is a brace group. -/
  body : IsGroup f.body.toList

/-- A function under another name, with its parameters and its body changed. -/
def changed (f : Function) (change : List Char → List Char) (name : String) : Function where
  returnType := f.returnType
  name := name
  parameters := String.ofList (change f.parameters.toList)
  body := String.ofList (change f.body.toList)

/-- The function that is read from the text of a function. -/
def reread (f : Function) : Function where
  returnType := " ".intercalate ((words f.returnType.toList).map String.ofList)
  name := f.name
  parameters := String.ofList (trim f.parameters.toList)
  body := f.body

namespace IsPlain

variable {f : Function}

/-- A faithful change and another name leave a function plain. -/
theorem changed (plain : f.IsPlain) {change : List Char → List Char} (faithful : Faithful change)
    {name : String} (identifier : isIdentifier name.toList = true) :
    (f.changed change name).IsPlain where
  begins := plain.begins
  returnType := plain.returnType
  noParameters := plain.noParameters
  noReturn := plain.noReturn
  name := identifier
  parameters := by
    rw [Function.changed, String.toList_ofList]
    exact faithful.isHeader plain.parameters
  body := by
    rw [Function.changed, String.toList_ofList]
    exact faithful.isGroup plain.body

/-- The name is a word. -/
theorem isWord_name (plain : f.IsPlain) : IsWord f.name.toList :=
  isWord_of_isIdentifier plain.name

/-- The text up to the parameters can stand in a header. -/
theorem isHeader_header (plain : f.IsPlain) : IsHeader f.header := by
  have last : IsHeader (f.parameters.toList ++ ')' :: []) :=
    plain.parameters.append_cons isHeader_nil (by decide) (by decide) (by decide)
  refine plain.returnType.append_cons ?_ (by decide) (by decide) (by decide)
  exact (isHeader_of_isWord plain.isWord_name).append_cons last (by decide) (by decide) (by decide)

/-- No comment opens in the text of a function. -/
theorem commentFree (plain : f.IsPlain) : CommentFree f.text := by
  have behind : CommentFree (f.parameters.toList ++ ')' :: ' ' :: f.body.toList) :=
    plain.parameters.free.append_cons (plain.body.free.cons (by decide)) (by decide) (by decide)
  refine plain.returnType.free.append_cons ?_ (by decide) (by decide)
  exact (CommentFree.of_word plain.isWord_name.2).append_cons behind (by decide) (by decide)

/-- The text of a function starts with no blank. -/
theorem startsSolid (plain : f.IsPlain) : StartsSolid f.text := by
  obtain ⟨c, rest, starts, solid, -⟩ := plain.begins
  exact ⟨c, _, by rw [text, starts, List.cons_append], solid⟩

/-- The text of a function ends with a brace. -/
theorem endsSolid (plain : f.IsPlain) : EndsSolid f.text := by
  obtain ⟨inner, body, -⟩ := plain.body.braces
  have bodyEnds : EndsSolid f.body.toList := ⟨'{' :: inner, '}', body, rfl⟩
  have whole : f.text = (f.header ++ [' ']) ++ f.body.toList := by simp [text, header]
  rw [whole]
  exact bodyEnds.append _

/-- A function is read off a text that starts with it. -/
theorem reads (plain : f.IsPlain) (rest : List Char) :
    Reads (f.text ++ rest) (.function f.header f.body.toList) rest := by
  obtain ⟨inner, body, balanced⟩ := plain.body.braces
  obtain ⟨c, left, starts, solid, noHash⟩ := plain.begins
  have whole : f.text ++ rest = (f.header ++ [' ']) ++ '{' :: (inner ++ '}' :: rest) := by
    simp [text, header, body]
  have first : f.header ++ [' '] = c :: (left ++ ' ' :: (f.name.toList ++ '(' ::
      (f.parameters.toList ++ [')', ' ']))) := by
    simp [header, starts]
  have ends : EndsSolid f.header :=
    ⟨f.returnType.toList ++ ' ' :: (f.name.toList ++ '(' :: f.parameters.toList), ')',
      by simp [header], rfl⟩
  have trimmed : trim (f.header ++ [' ']) = f.header := by
    rw [trim, StartsSolid.trimStart ⟨c, _, first, solid⟩,
      ends.trimEnd_append (List.all_eq_true.mp rfl)]
  have isHeader : IsHeader (f.header ++ ' ' :: []) :=
    plain.isHeader_header.append_cons isHeader_nil (by decide) (by decide) (by decide)
  have reads : Reads ((f.header ++ [' ']) ++ '{' :: (inner ++ '}' :: rest)) _ rest :=
    .function (by simpa [first] using noHash) isHeader.plain (by simp [header]) balanced
  rw [whole, body]
  rwa [trimmed] at reads

/-- The header of a function says what the function is. -/
theorem readFunction_header (plain : f.IsPlain) :
    readFunction f.header f.body.toList = .ok f.reread := by
  have isWord := plain.isWord_name
  obtain ⟨c, left, starts, solid, -⟩ := plain.begins
  have cut : splitOnce? '(' f.header =
      some (f.returnType.toList ++ ' ' :: f.name.toList, f.parameters.toList ++ [')']) := by
    refine splitOnce?_eq_some.mpr ⟨by simp [header], ?_⟩
    have noOpening : '(' ∉ f.name.toList := isWord.notMem (by decide)
    simp [plain.noParameters, noOpening]
  have closed : splitLast? ')' (f.parameters.toList ++ [')']) = some (f.parameters.toList, []) :=
    splitLast?_eq_some.mpr ⟨rfl, by simp⟩
  have divided : (words (f.returnType.toList ++ ' ' :: f.name.toList)).reverse =
      f.name.toList :: (words f.returnType.toList).reverse := by
    rw [words, runs_append_cons rfl, ← words, ← words, isWord.words_eq, List.reverse_append]
    rfl
  obtain ⟨first, others, reversed⟩ :
      ∃ first others, (words f.returnType.toList).reverse = first :: others := by
    refine List.exists_cons_of_ne_nil fun none => ?_
    have some : (words (c :: left)).head? = _ := head?_runs solid
    rw [List.reverse_eq_nil_iff, starts] at none
    rw [none] at some
    contradiction
  have ordered : (first :: others).reverse = words f.returnType.toList := by
    rw [← reversed, List.reverse_reverse]
  simp only [readFunction, cut, closed, divided, reversed, plain.name, if_true, ordered]
  simp [reread, String.ofList_toList]

/-- Unifying line ends in the text of a function unifies those of its parameters and of its
body. -/
theorem unifyLineEnds_text (plain : f.IsPlain) :
    unifyLineEnds f.text = (f.changed unifyLineEnds f.name).text := by
  have noReturn : '\r' ∉ f.returnType.toList ++ ' ' :: f.name.toList := by
    have noReturn : '\r' ∉ f.name.toList := plain.isWord_name.notMem (by decide)
    simp [plain.noReturn, noReturn]
  have divided : f.text = (f.returnType.toList ++ ' ' :: f.name.toList) ++
      '(' :: (f.parameters.toList ++ ')' :: ([' '] ++ f.body.toList)) := by
    simp [text]
  rw [divided, unifyLineEnds_append noReturn, faithful_unifyLineEnds.joint_cons (by decide),
    faithful_unifyLineEnds.append_cons (by decide), unifyLineEnds_append (by decide)]
  simp [text, Function.changed]

end IsPlain

end Function

namespace Item

/-- A text, with line ends unified and a line end behind it, is read as an item. -/
structure Written (item : Item) (text : List Char) : Prop where
  /-- No comment opens in it. -/
  free : CommentFree text
  /-- It starts with no blank. -/
  starts : StartsSolid text
  /-- It ends with no blank. -/
  ends : EndsSolid text
  /-- It is read up to the line end. -/
  read : ∃ raw, Item.ofRaw raw = .ok item ∧
    ∀ rest, readItem (unifyLineEnds text ++ '\n' :: rest) = .ok (raw, '\n' :: rest)

/-- A directive is read as it is. -/
theorem written_directive {text : List Char} (isDirective : IsDirective text) :
    (directive (String.ofList text)).Written text where
  free := isDirective.free
  starts := by
    obtain ⟨rest, rfl⟩ := List.head?_eq_some_iff.mp isDirective.hash
    exact ⟨'#', rest, rfl, rfl⟩
  ends := isDirective.ends
  read := by
    refine ⟨.directive text, rfl, fun rest => readItem_eq_ok.mpr ?_⟩
    rw [unifyLineEnds_of_oneLine isDirective.oneLine]
    have reads : Reads (text ++ '\n' :: rest) _ ('\n' :: rest) :=
      .directive isDirective.hash isDirective.oneLine (by simp)
    rwa [isDirective.ends.trimEnd] at reads

/-- A statement that announces no uniform is read with its line ends unified. -/
theorem written_global {text : List Char} (isStatement : IsStatement text)
    (noUniform : firstWord? text ≠ some "uniform") :
    (global (String.ofList (unifyLineEnds text))).Written text where
  free := isStatement.free
  starts := by
    obtain ⟨c, rest, starts, solid, -⟩ := isStatement.begins
    exact ⟨c, rest, starts, solid⟩
  ends := isStatement.shape.endsSolid
  read := by
    refine ⟨.statement (unifyLineEnds text), ?_, fun rest => readItem_eq_ok.mpr ?_⟩
    · rw [ofRaw, if_neg (faithful_unifyLineEnds.firstWord? isStatement noUniform)]
    · exact (faithful_unifyLineEnds.isStatement isStatement).reads ('\n' :: rest)

/-- A function is read with the line ends of its parameters and its body unified. -/
theorem written_function {f : Function} (plain : f.IsPlain) :
    (function (f.changed unifyLineEnds f.name).reread).Written f.text where
  free := plain.commentFree
  starts := plain.startsSolid
  ends := plain.endsSolid
  read := by
    have unified := plain.changed faithful_unifyLineEnds plain.name
    refine ⟨.function (f.changed unifyLineEnds f.name).header
      (f.changed unifyLineEnds f.name).body.toList, ?_, fun rest => readItem_eq_ok.mpr ?_⟩
    · rw [ofRaw, unified.readFunction_header]
      rfl
    · rw [plain.unifyLineEnds_text]
      exact unified.reads ('\n' :: rest)

end Item

/-- The items of a source. -/
def Item.readAll (source : List Char) : Except SourceError (List Item) := do
  let raw ← splitItems (stripComments source)
  raw.mapM Item.ofRaw

/-- A text lists some items, each on lines of its own. -/
inductive Listed : List Char → List Item → Prop
  /-- Nothing is listed. -/
  | nil : Listed [] []
  /-- An empty line. -/
  | gap {text : List Char} {items : List Item} (listed : Listed text items) :
      Listed ('\n' :: text) items
  /-- An item with a line end behind it. -/
  | item {first rest : List Char} {item : Item} {items : List Item}
      (written : item.Written first) (listed : Listed rest items) :
      Listed (first ++ '\n' :: rest) (item :: items)

namespace Listed

/-- Lists may follow each other. -/
theorem append {first second : List Char} {items others : List Item}
    (listed : Listed first items) (more : Listed second others) :
    Listed (first ++ second) (items ++ others) := by
  induction listed with
  | nil => exact more
  | gap listed ih => exact .gap ih
  | @item text rest item items written listed ih =>
    rw [List.append_assoc, List.cons_append, List.cons_append]
    exact .item written ih

/-- No comment opens in a list of items. -/
theorem commentFree {text : List Char} {items : List Item} (listed : Listed text items) :
    CommentFree text := by
  induction listed with
  | nil => exact .nil
  | gap listed ih => exact ih.cons (by decide)
  | item written listed ih => exact written.free.append_cons ih (by decide) (by decide)

/-- Spaces before the items do not matter. -/
theorem readItems_cons {c : Char} (space : isSpace c = true) (limit : Nat) (text : List Char) :
    readItems limit (c :: text) = readItems limit text := by
  cases limit with
  | zero => rfl
  | succ limit => rw [readItems, readItems, List.dropWhile_cons_of_pos space]

/-- An item is read before those behind it. -/
theorem readItems_append {first rest : List Char} {one : RawItem} {raw : List RawItem}
    (starts : StartsSolid first)
    (oneRead : readItem (first ++ '\n' :: rest) = .ok (one, '\n' :: rest))
    (read : ∀ limit, rest.length ≤ limit → readItems limit ('\n' :: rest) = .ok raw)
    {limit : Nat} (enough : (first ++ '\n' :: rest).length ≤ limit) :
    readItems limit (first ++ '\n' :: rest) = .ok (one :: raw) := by
  obtain ⟨c, behind, rfl, solid⟩ := starts
  have noSpace : isSpace c = false := by
    cases space : isSpace c with
    | false => rfl
    | true =>
      rw [isBlank_of_isSpace space] at solid
      contradiction
  rw [List.cons_append] at oneRead enough ⊢
  cases limit with
  | zero => contradiction
  | succ limit =>
    have fits : rest.length ≤ limit := by
      simp only [List.length_cons, List.length_append] at enough
      omega
    rw [readItems, List.dropWhile_cons_of_neg (by simp [noSpace])]
    simp only [oneRead, bind, Except.bind, read limit fits]
    rfl

/-- A list of items is read as these items. -/
theorem readAll {text : List Char} {items : List Item} (listed : Listed text items) :
    Item.readAll text = .ok items := by
  have unified : ∃ raw, raw.mapM Item.ofRaw = .ok items ∧
      ∀ limit, (unifyLineEnds text).length ≤ limit →
        readItems limit (unifyLineEnds text) = .ok raw := by
    induction listed with
    | nil =>
      refine ⟨[], rfl, fun limit _ => ?_⟩
      cases limit <;> rfl
    | @gap text items listed ih =>
      obtain ⟨raw, meant, read⟩ := ih
      refine ⟨raw, meant, fun limit enough => ?_⟩
      have whole : unifyLineEnds ('\n' :: text) = '\n' :: unifyLineEnds text :=
        unifyLineEnds_append (by decide : '\r' ∉ ['\n']) text
      rw [whole] at enough ⊢
      rw [readItems_cons rfl]
      exact read limit (Nat.le_of_succ_le enough)
    | @item first rest item items written listed ih =>
      obtain ⟨raw, meant, read⟩ := ih
      obtain ⟨one, oneMeant, oneRead⟩ := written.read
      refine ⟨one :: raw, ?_, fun limit enough => ?_⟩
      · rw [List.mapM_cons, oneMeant, meant]
        rfl
      · rw [written.ends.unifyLineEnds_append] at enough ⊢
        have starts := startsSolid_unifyLineEnds written.starts
        refine readItems_append starts (oneRead _) (fun left fits => ?_) enough
        rw [readItems_cons rfl]
        exact read left fits
  obtain ⟨raw, meant, read⟩ := unified
  have divided : splitItems (stripComments text) = .ok raw := by
    rw [stripComments_eq_unifyLineEnds listed.commentFree]
    exact read _ (Nat.le_refl _)
  rw [Item.readAll, divided]
  exact meant

end Listed

end ShaderBlocks
