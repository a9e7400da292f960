import ShaderBlocks.Proofs.CallTyping
import ShaderBlocks.Proofs.FragmentSource

/-!
# The text of a fragment can be read again

The names that belong to a call begin with a fixed start, which no word of the source language
has. To give them to what a plain fragment defines leaves every item what it is. So the text of
the fragment at a call lists its items, each on lines of its own: the entry under the name of
the call, and besides it neither a uniform nor a main function.
-/

namespace ShaderBlocks

open Text Source

/-- A name made for a call. -/
def IsGenerated (name : String) : Prop :=
  ∃ rest, name.toList = 's' :: 'g' :: '_' :: rest ∧ ∀ c ∈ rest, isWordChar c = true

namespace IsGenerated

variable {name : String}

/-- A generated name is an identifier. -/
theorem isIdentifier (generated : IsGenerated name) : isIdentifier name.toList = true := by
  obtain ⟨rest, isName, letters⟩ := generated
  rw [isName]
  simpa [Text.isIdentifier, isWordStart, isWordChar] using letters

/-- A generated name is a word. -/
theorem isWord (generated : IsGenerated name) : IsWord name.toList :=
  isWord_of_isIdentifier generated.isIdentifier

/-- A word that starts otherwise is not generated. -/
theorem ne (generated : IsGenerated name) {other : String} (start : other.toList.head? ≠ some 's') :
    name ≠ other := by
  rintro rfl
  obtain ⟨rest, isName, -⟩ := generated
  rw [isName] at start
  contradiction

/-- A generated name with more letters behind it is generated. -/
theorem append (generated : IsGenerated name) {more : String}
    (letters : ∀ c ∈ more.toList, isWordChar c = true) : IsGenerated (name ++ more) := by
  obtain ⟨rest, isName, restLetters⟩ := generated
  refine ⟨rest ++ more.toList, by simp [isName], fun c member => ?_⟩
  exact (List.mem_append.mp member).elim (restLetters c) (letters c)

/-- What a fragment defines has a generated name inside a call. -/
theorem localName (generated : IsGenerated name) {inner : String}
    (letters : ∀ c ∈ inner.toList, isWordChar c = true) :
    IsGenerated (Fragment.localName name inner) :=
  (generated.append (List.all_eq_true.mp (by decide))).append letters

end IsGenerated

/-- The digits of a number are letters of words. -/
theorem isWordChar_of_mem_toString {number : Nat} {c : Char}
    (member : c ∈ (toString number).toList) : isWordChar c = true := by
  rw [Nat.toString_eq_repr, Nat.toList_repr] at member
  have digit := Nat.isDigit_of_mem_toDigits (by decide) (by decide) member
  simp [isWordChar, Char.isAlphanum, digit]

/-- The name of a call is generated. -/
theorem isGenerated_callName (phase : Phase) {fragment : String}
    (letters : ∀ c ∈ fragment.toList, isWordChar c = true) (owner : BlockIndex) :
    IsGenerated (callName phase fragment owner) := by
  have start : IsGenerated "sg_" := ⟨[], by decide, List.forall_mem_nil _⟩
  have phaseLetters : ∀ c ∈ phase.name.toList, isWordChar c = true := by
    cases phase <;> exact List.all_eq_true.mp (by decide)
  have mark : ∀ c ∈ "_".toList, isWordChar c = true := List.all_eq_true.mp (by decide)
  exact ((((start.append phaseLetters).append mark).append letters).append mark).append
    fun _ => isWordChar_of_mem_toString

namespace Fragment

variable {fragment : Fragment} {call : String} {replaced : List String}

/-- A name of the fragment becomes the name of the call or a name inside the call. -/
theorem of_spellings {word spelling : String}
    (spelled : fragment.spellings call replaced word = some spelling) :
    spelling = call ∨ spelling = localName call word := by
  unfold spellings at spelled
  split at spelled
  · exact .inl (Option.some.inj spelled).symm
  · split at spelled
    · exact .inr (Option.some.inj spelled).symm
    · contradiction

/-- The new spellings for a call are regular. -/
theorem regular_spellings (fragment : Fragment) (replaced : List String)
    (generated : IsGenerated call) : (fragment.spellings call replaced).Regular where
  isWord spelled isWord := by
    rcases of_spellings spelled with rfl | rfl
    · exact generated.isWord
    · exact (generated.localName isWord.2).isWord
  ne_uniform word spelled := by
    obtain isCall | isLocal := of_spellings spelled
    · exact generated.ne (by decide) isCall.symm
    · obtain ⟨rest, isName, -⟩ := generated
      have letters := congrArg String.toList isLocal
      rw [localName, String.toList_append, String.toList_append, isName] at letters
      exact absurd (congrArg List.head? letters) (by simp)

/-- A function of the fragment gets a generated name. -/
theorem isGenerated_apply (generated : IsGenerated call) (replaced : List String) {f : Function}
    (member : .function f ∈ fragment.others) (identifier : isIdentifier f.name.toList = true) :
    IsGenerated ((fragment.spellings call replaced).apply f.name) := by
  have defined : f.name ∈ fragment.localNames replaced :=
    List.mem_append_left _ (List.mem_flatMap.mpr ⟨_, member, List.mem_cons_self⟩)
  rw [Renaming.apply, spellings]
  split
  · exact generated
  · exact generated.localName (isWord_of_isIdentifier identifier).2

end Fragment

/-- The spelling of a type is a word. -/
theorem ValueType.isWord_spelling (type : ValueType) : IsWord type.spelling.toList := by
  cases type <;> decide

/-- The qualifier of a direction is a word. -/
theorem Direction.isWord_qualifier (direction : Direction) : IsWord direction.qualifier.toList := by
  cases direction <;> decide

/-- The declaration of a parameter. -/
def Parameter.line (parameter : Parameter) : List Char :=
  parameter.direction.qualifier.toList ++
    ' ' :: (parameter.type.spelling.toList ++ ' ' :: parameter.name.toList)

/-- The declaration of a parameter is written. -/
theorem Parameter.toList_render (parameter : Parameter) :
    (Fragment.renderParameter parameter).toList = parameter.line := by
  simp [Fragment.renderParameter, line]

/-- An item that is neither a uniform nor a main function. -/
def Item.IsInner : Item → Prop
  | directive _ => True
  | global _ => True
  | uniform _ => False
  | function f => f.name ≠ "main"

/-- An inner item declares no uniform. -/
theorem Item.IsInner.uniform?_eq_none {item : Item} (inner : item.IsInner) :
    item.uniform? = none := by
  cases item with
  | uniform => contradiction
  | directive | global | function => rfl

/-- The item is a function. -/
def Item.isFunction : Item → Bool
  | function _ => true
  | _ => false

/-- A declaration of a type and a name is a statement that announces no uniform. -/
theorem written_declaration (type : ValueType) {name : String} (isWord : IsWord name.toList) :
    ∃ text, (Item.global text).Written (type.spelling ++ " " ++ name ++ ";").toList := by
  have typeWord := type.isWord_spelling
  have isHeader : IsHeader (type.spelling.toList ++ ' ' :: name.toList) :=
    (isHeader_of_isWord typeWord).append_cons (isHeader_of_isWord isWord) (by decide) (by decide)
      (by decide)
  have text : (type.spelling ++ " " ++ name ++ ";").toList =
      (type.spelling.toList ++ ' ' :: name.toList) ++ [';'] := by
    simp
  have noUniform : firstWord? ((type.spelling.toList ++ ' ' :: name.toList) ++ [';']) ≠
      some "uniform" := by
    rw [List.append_assoc, List.cons_append, firstWord?_of_isWord typeWord, String.ofList_toList]
    cases type <;> decide
  rw [text]
  have isStatement := isStatement_append (begins_of_isWord typeWord _) isHeader
  exact ⟨_, Item.written_global isStatement noUniform⟩

namespace Fragment

variable {fragment : Fragment} {call : String} {replaced : List String}

/-- Every item of a plain fragment, as it is written for a call, can be read again, and as a
function exactly if it is one. -/
theorem written_renderItem (plain : fragment.IsPlain) (generated : IsGenerated call) {item : Item}
    (member : item ∈ fragment.others) {text : String}
    (rendered : renderItem call replaced (fragment.spellings call replaced) item = some text) :
    ∃ inner : Item, inner.Written text.toList ∧ inner.IsInner ∧
      inner.isFunction = item.isFunction := by
  have faithful := faithful_respell (fragment.regular_spellings replaced generated)
  have itemPlain := plain.items item member
  cases item with
  | directive source =>
    obtain rfl := Option.some.inj rendered
    rw [Renaming.toList_rename]
    exact ⟨_, Item.written_directive (faithful.isDirective itemPlain), trivial, rfl⟩
  | global source =>
    obtain rfl := Option.some.inj rendered
    rw [Renaming.toList_rename]
    exact ⟨_, Item.written_global (faithful.isStatement itemPlain.1)
      (faithful.firstWord? itemPlain.1 itemPlain.2), trivial, rfl⟩
  | uniform u =>
    rw [renderItem] at rendered
    split at rendered
    · obtain rfl := Option.some.inj rendered
      obtain ⟨declaration, written⟩ := written_declaration u.type
        (generated.localName (isWord_of_isIdentifier itemPlain.name).2).isWord
      exact ⟨_, written, trivial, rfl⟩
    · contradiction
  | function f =>
    obtain rfl := Option.some.inj rendered
    have named := isGenerated_apply generated replaced member itemPlain.name
    have text : (f.returnType ++ " " ++ (fragment.spellings call replaced).apply f.name ++ "(" ++
        (fragment.spellings call replaced).rename f.parameters ++ ") " ++
          (fragment.spellings call replaced).rename f.body).toList =
        (f.changed (fragment.spellings call replaced).respell
          ((fragment.spellings call replaced).apply f.name)).text := by
      simp [Function.text, Function.changed, Renaming.toList_rename]
    rw [text]
    exact ⟨_, Item.written_function (itemPlain.changed faithful named.isIdentifier),
      named.ne (by decide), rfl⟩

/-- The uniforms of a fragment are declared by its items. -/
theorem mem_uniforms {u : Uniform} : u ∈ fragment.uniforms ↔ .uniform u ∈ fragment.others := by
  rw [uniforms, List.mem_filterMap]
  constructor
  · rintro ⟨item, member, declares⟩
    cases item with
    | uniform other => exact Option.some.inj declares ▸ member
    | directive | global | function => contradiction
  · exact fun member => ⟨_, member, rfl⟩

/-- The names of replaced uniforms are words. -/
theorem IsPlain.isWord_replaced (plain : fragment.IsPlain) {u : Uniform}
    (member : u ∈ fragment.replacedUniforms replaced) : IsWord u.name.toList :=
  isWord_of_isIdentifier (plain.items _ (mem_uniforms.mp (List.mem_filter.mp member).1)).name

/-- The entry function of a fragment as it is written for a call. -/
def entryAt (fragment : Fragment) (call : String) (replaced : List String) : Function where
  returnType := fragment.entry.returnType
  name := call
  parameters := ", ".intercalate ((fragment.calledParameters call replaced).map renderParameter)
  body := fillUniforms call (fragment.replacedUniforms replaced)
    ((fragment.spellings call replaced).rename fragment.entry.body)

/-- The text of the entry is that of a function. -/
theorem toList_renderEntry (fragment : Fragment) (call : String) (replaced : List String) :
    (fragment.renderEntry call replaced).toList = (fragment.entryAt call replaced).text := by
  rw [renderEntry_eq]
  simp [Function.text, entryAt]

/-- The declaration of a parameter can stand in a header. -/
theorem isHeader_renderParameter {parameter : Parameter} (isWord : IsWord parameter.name.toList) :
    IsHeader (renderParameter parameter).toList := by
  rw [parameter.toList_render, Parameter.line]
  refine (isHeader_of_isWord parameter.direction.isWord_qualifier).append_cons ?_ (by decide)
    (by decide) (by decide)
  exact (isHeader_of_isWord parameter.type.isWord_spelling).append_cons (isHeader_of_isWord isWord)
    (by decide) (by decide) (by decide)

/-- Declarations of parameters with commas between them can stand in a header. -/
theorem isHeader_parameters {parameters : List Parameter}
    (words : ∀ parameter ∈ parameters, IsWord parameter.name.toList) :
    IsHeader (", ".intercalate (parameters.map renderParameter)).toList := by
  rw [String.toList_intercalate]
  refine isHeader_intercalate (fun {front rest} first second => ?_) fun part member => ?_
  · have joined : front ++ ", ".toList ++ rest = front ++ ',' :: ([] ++ ' ' :: rest) := by simp
    rw [joined]
    exact first.append_cons (isHeader_nil.append_cons second (by decide) (by decide) (by decide))
      (by decide) (by decide) (by decide)
  · obtain ⟨text, isText, rfl⟩ := List.mem_map.mp member
    obtain ⟨parameter, isParameter, rfl⟩ := List.mem_map.mp isText
    exact isHeader_renderParameter (words parameter isParameter)

/-- The parameter that feeds a replaced uniform has a generated name. -/
theorem isGenerated_feedName (generated : IsGenerated call) {u : Uniform}
    (isWord : IsWord u.name.toList) : IsGenerated (feedName call u) :=
  (generated.localName isWord.2).append (List.all_eq_true.mp (by decide))

/-- The assignment to a replaced uniform is inert. -/
theorem isInert_renderCopy (generated : IsGenerated call) {u : Uniform}
    (isWord : IsWord u.name.toList) : IsInert (renderCopy call u).toList := by
  have name := isInert_of_isWord (generated.localName isWord.2).isWord
  have feed := isInert_of_isWord (isGenerated_feedName generated isWord).isWord
  simp only [renderCopy, String.toList_append, isInert_append]
  exact ⟨⟨⟨⟨by decide, name⟩, by decide⟩, feed⟩, by decide⟩

/-- The body of the entry is a brace group with the assignments in front. -/
theorem isGroup_fillUniforms (generated : IsGenerated call) {fed : List Uniform}
    (words : ∀ u ∈ fed, IsWord u.name.toList) {body : String} (isGroup : IsGroup body.toList) :
    IsGroup (fillUniforms call fed body).toList := by
  rw [fillUniforms]
  split
  · exact isGroup
  · obtain ⟨inner, braces, -⟩ := isGroup.braces
    have stripped : stripStart? ['{'] body.toList = some (inner ++ ['}']) := by
      rw [braces]
      exact stripStart?_append ['{'] _
    have text : ("\x7b" ++ String.join (fed.map (renderCopy call)) ++
        String.ofList ((stripStart? ['{'] body.toList).getD body.toList)).toList =
        '{' :: ((String.join (fed.map (renderCopy call))).toList ++ (inner ++ ['}'])) := by
      simp [stripped]
    simp only [text]
    exact IsGroup.insert (braces ▸ isGroup)
      (isInert_join fun u isFed => isInert_renderCopy generated (words u isFed))

/-- The entry of a plain fragment is plain as it is written for a call. -/
theorem isPlain_entryAt (plain : fragment.IsPlain) (generated : IsGenerated call)
    (replaced : List String) : (fragment.entryAt call replaced).IsPlain where
  begins := plain.entry.begins
  returnType := plain.entry.returnType
  noParameters := plain.entry.noParameters
  noReturn := plain.entry.noReturn
  name := generated.isIdentifier
  parameters := by
    refine isHeader_parameters fun parameter isParameter => ?_
    rcases List.mem_append.mp isParameter with own | isFeed
    · exact isWord_of_isIdentifier (plain.parameters parameter own)
    · obtain ⟨u, isReplaced, rfl⟩ := List.mem_map.mp isFeed
      exact (isGenerated_feedName generated (plain.isWord_replaced isReplaced)).isWord
  body := by
    have faithful := faithful_respell (fragment.regular_spellings replaced generated)
    refine isGroup_fillUniforms generated (fun u => plain.isWord_replaced) ?_
    rw [Renaming.toList_rename]
    exact faithful.isGroup plain.entry.body

end Fragment

/-- Texts on lines of their own, without and with a line end behind the last. -/
theorem intercalate_lines {texts : List (List Char)} (some : texts ≠ []) :
    ['\n'].intercalate texts ++ ['\n'] = texts.flatMap (· ++ ['\n']) := by
  induction texts with
  | nil => contradiction
  | cons text texts ih =>
    cases texts with
    | nil => simp
    | cons next texts =>
      rw [List.intercalate_cons_cons, List.append_assoc, ih (List.cons_ne_nil next texts)]
      rfl

/-- Joined texts end as the last one does. -/
theorem endsSolid_intercalate {separator : List Char} {texts : List (List Char)}
    (some : texts ≠ []) (ends : ∀ text ∈ texts, EndsSolid text) :
    EndsSolid (separator.intercalate texts) := by
  induction texts with
  | nil => contradiction
  | cons text texts ih =>
    obtain ⟨first, others⟩ := List.forall_mem_cons.mp ends
    cases texts with
    | nil => rwa [List.intercalate_singleton]
    | cons next texts =>
      rw [List.intercalate_cons_cons]
      exact (ih (List.cons_ne_nil next texts) others).append _

/-- The texts of items of some kind, on lines of their own, list items of that kind. -/
theorem listed_lines {kind : Item → Prop} {texts : List (List Char)}
    (written : ∀ text ∈ texts, ∃ item : Item, item.Written text ∧ kind item) :
    ∃ items, Listed (texts.flatMap (· ++ ['\n'])) items ∧ ∀ item ∈ items, kind item := by
  induction texts with
  | nil => exact ⟨[], .nil, List.forall_mem_nil _⟩
  | cons text texts ih =>
    obtain ⟨⟨item, isText, isKind⟩, others⟩ := List.forall_mem_cons.mp written
    obtain ⟨items, listed, areKind⟩ := ih others
    refine ⟨item :: items, ?_, List.forall_mem_cons.mpr ⟨isKind, areKind⟩⟩
    rw [List.flatMap_cons, List.append_assoc]
    exact .item isText listed

namespace Fragment

variable {fragment : Fragment} {call : String}

/-- Some items of a plain fragment, as they are written for a call. There is a function only if
there was one. -/
theorem written_filterMap (plain : fragment.IsPlain) (generated : IsGenerated call)
    (replaced : List String) {items : List Item} (within : items ⊆ fragment.others) :
    ∀ text ∈ (items.filterMap (renderItem call replaced (fragment.spellings call replaced))).map
        String.toList, ∃ item : Item, item.Written text ∧ item.IsInner ∧
          (item.isFunction = true → ∃ f, .function f ∈ items) := by
  intro text member
  obtain ⟨rendered, isRendered, rfl⟩ := List.mem_map.mp member
  obtain ⟨item, isItem, renders⟩ := List.mem_filterMap.mp isRendered
  obtain ⟨inner, written, isInner, same⟩ :=
    written_renderItem plain generated (within isItem) renders
  refine ⟨inner, written, isInner, fun isFunction => ?_⟩
  cases item with
  | function f => exact ⟨f, isItem⟩
  | directive | global | uniform =>
    rw [same] at isFunction
    contradiction

/-- The text of a fragment for a call has its items on lines of their own. -/
theorem toList_render (fragment : Fragment) (call : String) (replaced : List String) :
    (fragment.render call replaced).toList = ['\n'].intercalate
      ((fragment.before.filterMap
          (renderItem call replaced (fragment.spellings call replaced))).map String.toList ++
        (fragment.entryAt call replaced).text :: (fragment.after.filterMap
          (renderItem call replaced (fragment.spellings call replaced))).map String.toList) := by
  rw [render, String.toList_intercalate, List.map_append, List.map_cons, toList_renderEntry]
  rfl

/-- The text of a plain fragment for a call lists the entry, with inner items before it and
behind it, and ends with no blank. A function stands behind the entry only if one did in the
source. -/
theorem listed_render (plain : fragment.IsPlain) (generated : IsGenerated call)
    (replaced : List String) :
    EndsSolid (fragment.render call replaced).toList ∧
      ∃ before after, Listed ((fragment.render call replaced).toList ++ ['\n'])
          (before ++ .function
            ((fragment.entryAt call replaced).changed unifyLineEnds call).reread :: after) ∧
        (∀ item ∈ before, item.IsInner) ∧ (∀ item ∈ after, item.IsInner) ∧
        ∀ item ∈ after, item.isFunction = true → ∃ f, .function f ∈ fragment.after := by
  have entry := Item.written_function (isPlain_entryAt plain generated replaced)
  have writtenBefore := written_filterMap plain generated replaced
    (List.subset_append_left fragment.before fragment.after)
  have writtenAfter := written_filterMap plain generated replaced
    (List.subset_append_right fragment.before fragment.after)
  rw [toList_render]
  constructor
  · refine endsSolid_intercalate (by simp) fun part member => ?_
    rcases List.mem_append.mp member with isBefore | behind
    · obtain ⟨item, written, -⟩ := writtenBefore part isBefore
      exact written.ends
    · rcases List.mem_cons.mp behind with rfl | isAfter
      · exact entry.ends
      · obtain ⟨item, written, -⟩ := writtenAfter part isAfter
        exact written.ends
  · obtain ⟨before, listedBefore, innerBefore⟩ := listed_lines writtenBefore
    obtain ⟨after, listedAfter, innerAfter⟩ := listed_lines writtenAfter
    refine ⟨before, after, ?_, fun item member => (innerBefore item member).1,
      fun item member => (innerAfter item member).1, fun item member => (innerAfter item member).2⟩
    rw [intercalate_lines (by simp), List.flatMap_append, List.flatMap_cons, List.append_assoc]
    exact listedBefore.append (.item entry listedAfter)

end Fragment

end ShaderBlocks
