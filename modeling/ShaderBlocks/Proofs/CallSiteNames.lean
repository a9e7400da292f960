import ShaderBlocks.Proofs.FragmentText
import ShaderBlocks.Proofs.References

/-!
# Names at a call

Every call has its own copy of a fragment, in which all that the fragment defines is renamed
after the call. Here is listed, name by name, what such a copy refers to. Two things come of
the list.

A copy still refers to something that the fragment defines, under the name in the source,
exactly where a return type does: return types are copied as they are, while directives,
globals, the parameters of other functions and all bodies are renamed.

The parameters of the entry keep their names, but its body is renamed with no regard to them.
So a use of a parameter in the body stays a use of the parameter exactly when the fragment
defines nothing else under that name.
-/

namespace ShaderBlocks

open Text Source

/-- A function refers to what its return type, its parameters and its body refer to, and to
its own name. -/
theorem Function.references_text (f : Function) (identifier : isIdentifier f.name.toList = true) :
    references f.text = references f.returnType.toList ++
      f.name :: (references f.parameters.toList ++ references f.body.toList) := by
  rw [Function.text, references_append_cons (by decide) (by decide),
    references_append_cons (by decide) (by decide), references_append_cons (by decide) (by decide),
    references_cons (by decide) (by decide), references_of_isIdentifier identifier]
  rfl

/-- The spelling of a type is an identifier. -/
theorem ValueType.isIdentifier_spelling (type : ValueType) :
    isIdentifier type.spelling.toList = true := by
  cases type <;> decide

/-- The return type of a function, as it stands in the source. -/
def Item.returnType? : Item → Option String
  | function f => some f.returnType
  | _ => none

/-- A function or a uniform is named by an identifier. -/
def Item.IsNamed : Item → Prop
  | directive _ => True
  | global _ => True
  | uniform u => isIdentifier u.name.toList = true
  | function f => isIdentifier f.name.toList = true

/-- An item that is read is named by an identifier. -/
theorem Item.isNamed_of_ofRaw {raw : RawItem} {item : Item} (read : Item.ofRaw raw = .ok item) :
    item.IsNamed := by
  cases raw with
  | directive text =>
    obtain rfl := Except.ok.inj read
    trivial
  | statement text =>
    rw [ofRaw] at read
    split at read
    · obtain ⟨u, isUniform, read⟩ := bind_eq_ok.mp read
      obtain rfl := Except.ok.inj read
      exact (Uniform.isPlain_of_read isUniform).name
    · obtain rfl := Except.ok.inj read
      trivial
  | function header body =>
    obtain ⟨f, isFunction, read⟩ := bind_eq_ok.mp read
    obtain rfl := Except.ok.inj read
    obtain ⟨head, parameters, behind, name, parts, -, -, -, -, identifier, rfl⟩ :=
      of_readFunction isFunction
    rwa [IsNamed, String.toList_ofList]

namespace Fragment

/-- All that a fragment declares is named by identifiers. -/
structure IsNamed (fragment : Fragment) : Prop where
  /-- The items other than the entry. -/
  items : ∀ item ∈ fragment.others, item.IsNamed
  /-- The parameters of the entry. -/
  parameters : ∀ parameter ∈ fragment.parameters, isIdentifier parameter.name.toList = true

/-- Whatever is read is named by identifiers. -/
theorem isNamed_of_isRead {fragment : Fragment} (isRead : fragment.IsRead) : fragment.IsNamed := by
  obtain ⟨name, source, read⟩ := isRead
  obtain ⟨raw, divided, read⟩ := bind_eq_ok.mp read
  obtain ⟨items, itemsRead, read⟩ := bind_eq_ok.mp read
  split at read
  · contradiction
  · rename_i before entry after cut
    obtain ⟨parameters, parametersRead, read⟩ := bind_eq_ok.mp read
    obtain rfl := Except.ok.inj read
    refine ⟨fun item member => ?_, isIdentifier_of_readParameters parametersRead⟩
    have inItems : item ∈ items := by
      rw [Item.eq_append_of_entry cut]
      rcases List.mem_append.mp member with inBefore | inAfter
      · exact List.mem_append_left _ inBefore
      · exact List.mem_append_right _ (List.mem_cons_of_mem _ inAfter)
    obtain ⟨one, -, readOne⟩ := of_mem_mapM itemsRead inItems
    exact Item.isNamed_of_ofRaw readOne

variable {fragment : Fragment} {call : String} {replaced : List String}

/-- The names of replaced uniforms are identifiers. -/
theorem IsNamed.isIdentifier_replaced (named : fragment.IsNamed) {u : Uniform}
    (member : u ∈ fragment.replacedUniforms replaced) : isIdentifier u.name.toList = true :=
  named.items (.uniform u) (mem_uniforms.mp (List.mem_filter.mp member).1)

/-- The new spellings for a call are identifiers. -/
theorem identifying_spellings (fragment : Fragment) (replaced : List String)
    (generated : IsGenerated call) : (fragment.spellings call replaced).Identifying := by
  intro word spelling spelled isWord
  rcases of_spellings spelled with rfl | rfl
  · exact generated.isIdentifier
  · exact (generated.localName isWord.2).isIdentifier

/-- What a renamed text of the fragment refers to. -/
theorem references_rename (generated : IsGenerated call) (text : String) :
    references ((fragment.spellings call replaced).rename text).toList =
      (references text.toList).map (fragment.spellings call replaced).apply := by
  rw [Renaming.toList_rename]
  exact (fragment.identifying_spellings replaced generated).references_respell text.toList

/-- What the assignments that fill replaced uniforms refer to. -/
def copyReferences (call : String) (fed : List Uniform) : List String :=
  fed.flatMap fun u => [localName call u.name, feedName call u]

/-- What the assignments that fill replaced uniforms refer to, in front of a text. -/
theorem references_renderCopy (generated : IsGenerated call) {fed : List Uniform}
    (named : ∀ u ∈ fed, isIdentifier u.name.toList = true) (rest : List Char) :
    references ((String.join (fed.map (renderCopy call))).toList ++ rest) =
      copyReferences call fed ++ references rest := by
  induction fed with
  | nil => rfl
  | cons u fed ih =>
    obtain ⟨first, others⟩ := List.forall_mem_cons.mp named
    have isWord := isWord_of_isIdentifier first
    have text : (String.join ((u :: fed).map (renderCopy call))).toList ++ rest =
        '\n' :: ' ' :: ' ' :: ' ' :: ' ' :: ((localName call u.name).toList ++ ' ' :: '=' :: ' ' ::
          ((feedName call u).toList ++
            ';' :: ((String.join (fed.map (renderCopy call))).toList ++ rest))) := by
      simp [String.toList_join, renderCopy]
    have blanks : ∀ text : List Char,
        references ('\n' :: ' ' :: ' ' :: ' ' :: ' ' :: text) = references text := by
      intro text
      repeat rw [references_cons (by decide) (by decide)]
    rw [text, blanks, references_append_cons (by decide) (by decide),
      references_cons (by decide) (by decide), references_cons (by decide) (by decide),
      references_append_cons (by decide) (by decide), ih others,
      references_of_isIdentifier (generated.localName isWord.2).isIdentifier,
      references_of_isIdentifier (isGenerated_feedName generated isWord).isIdentifier]
    rfl

/-- The body of the entry refers to what the assignments in front refer to, and then to what
it referred to before. -/
theorem references_fillUniforms (generated : IsGenerated call) {fed : List Uniform}
    (named : ∀ u ∈ fed, isIdentifier u.name.toList = true) (body : String) :
    references (fillUniforms call fed body).toList =
      copyReferences call fed ++ references body.toList := by
  have brace : ∀ text : List Char, references ('{' :: text) = references text :=
    references_cons (by decide) (by decide)
  have stripped : ∀ text : List Char,
      references ((stripStart? ['{'] text).getD text) = references text := by
    intro text
    cases text with
    | nil => rfl
    | cons c rest =>
      by_cases same : '{' = c
      · subst same
        rw [brace]
        rfl
      · rw [stripStart?, if_neg same]
        rfl
  rw [fillUniforms]
  split
  · rename_i none
    rw [List.isEmpty_iff.mp none]
    rfl
  · have text : ("\x7b" ++ String.join (fed.map (renderCopy call)) ++
        String.ofList ((stripStart? ['{'] body.toList).getD body.toList)).toList =
        '{' :: ((String.join (fed.map (renderCopy call))).toList ++
          (stripStart? ['{'] body.toList).getD body.toList) := by
      simp
    simp only [text]
    rw [brace, references_renderCopy generated named, stripped]

/-- What the declaration of a parameter refers to. -/
theorem references_renderParameter {parameter : Parameter}
    (identifier : isIdentifier parameter.name.toList = true) :
    references (renderParameter parameter).toList =
      [parameter.direction.qualifier, parameter.type.spelling, parameter.name] := by
  have text : (renderParameter parameter).toList = parameter.direction.qualifier.toList ++
      ' ' :: (parameter.type.spelling.toList ++ ' ' :: parameter.name.toList) := by
    simp [renderParameter]
  have qualifier : isIdentifier parameter.direction.qualifier.toList = true := by
    cases parameter.direction <;> decide
  rw [text, references_append_cons (by decide) (by decide),
    references_append_cons (by decide) (by decide), references_of_isIdentifier qualifier,
    references_of_isIdentifier parameter.type.isIdentifier_spelling,
    references_of_isIdentifier identifier]
  rfl

/-- What the parameters of the entry, as they are written for a call, refer to. -/
def parameterReferences (fragment : Fragment) (call : String) (replaced : List String) :
    List String :=
  (fragment.calledParameters call replaced).flatMap fun parameter =>
    [parameter.direction.qualifier, parameter.type.spelling, parameter.name]

/-- What the body of the entry, as it is written for a call, refers to. -/
def bodyReferences (fragment : Fragment) (call : String) (replaced : List String) :
    List String :=
  copyReferences call (fragment.replacedUniforms replaced) ++
    (references fragment.entry.body.toList).map (fragment.spellings call replaced).apply

/-- The names in the parameter list of the entry. -/
theorem references_parameters (named : fragment.IsNamed) (generated : IsGenerated call) :
    references (fragment.entryAt call replaced).parameters.toList =
      fragment.parameterReferences call replaced := by
  have separates : ∀ front rest : List Char,
      references (front ++ ", ".toList ++ rest) = references front ++ references rest := by
    intro front rest
    have text : front ++ ", ".toList ++ rest = front ++ ',' :: ' ' :: rest := by simp
    rw [text, references_append_cons (by decide) (by decide),
      references_cons (by decide) (by decide)]
  rw [entryAt, String.toList_intercalate, references_intercalate separates, List.map_map,
    List.flatMap_map, parameterReferences]
  apply List.flatMap_congr
  intro parameter member
  apply references_renderParameter
  rcases List.mem_append.mp member with own | isFeed
  · exact named.parameters parameter own
  · obtain ⟨u, isReplaced, rfl⟩ := List.mem_map.mp isFeed
    have isWord := isWord_of_isIdentifier (named.isIdentifier_replaced isReplaced)
    exact (isGenerated_feedName generated isWord).isIdentifier

/-- The names in the body of the entry. -/
theorem references_body (named : fragment.IsNamed) (generated : IsGenerated call) :
    references (fragment.entryAt call replaced).body.toList =
      fragment.bodyReferences call replaced := by
  rw [entryAt, references_fillUniforms generated fun u => named.isIdentifier_replaced,
    references_rename generated]
  rfl

/-- What the entry, as it is written for a call, refers to. -/
def entryReferences (fragment : Fragment) (call : String) (replaced : List String) :
    List String :=
  references fragment.entry.returnType.toList ++
    call :: (fragment.parameterReferences call replaced ++ fragment.bodyReferences call replaced)

/-- What an item other than the entry, as it is written for a call, refers to. -/
def itemReferences (call : String) (replaced : List String) (spellings : Renaming) :
    Item → List String
  | .directive text => (references text.toList).map spellings.apply
  | .global text => (references text.toList).map spellings.apply
  | .uniform u =>
    if replaced.contains u.name then [u.type.spelling, localName call u.name] else []
  | .function f =>
    references f.returnType.toList ++ spellings.apply f.name ::
      (references f.parameters.toList ++ references f.body.toList).map spellings.apply

/-- What the copy of a fragment for a call refers to, in order. -/
def copiedReferences (fragment : Fragment) (call : String) (replaced : List String) :
    List String :=
  fragment.before.flatMap (itemReferences call replaced (fragment.spellings call replaced)) ++
    (fragment.entryReferences call replaced ++
      fragment.after.flatMap (itemReferences call replaced (fragment.spellings call replaced)))

/-- What an item other than the entry refers to, if it is written at all. -/
theorem references_renderItem (named : fragment.IsNamed) (generated : IsGenerated call)
    {item : Item} (member : item ∈ fragment.others) :
    (renderItem call replaced (fragment.spellings call replaced) item).elim []
        (fun text => references text.toList) =
      itemReferences call replaced (fragment.spellings call replaced) item := by
  have itemNamed := named.items item member
  cases item with
  | directive text => rw [renderItem, Option.elim_some, references_rename generated, itemReferences]
  | global text => rw [renderItem, Option.elim_some, references_rename generated, itemReferences]
  | uniform u =>
    have isWord : IsWord u.name.toList := isWord_of_isIdentifier itemNamed
    rw [renderItem, itemReferences]
    by_cases isReplaced : u.name ∈ replaced
    · have text : (u.type.spelling ++ " " ++ localName call u.name ++ ";").toList =
          u.type.spelling.toList ++ ' ' :: ((localName call u.name).toList ++ [';']) := by
        simp
      rw [if_pos isReplaced, if_pos (List.contains_iff_mem.mpr isReplaced), Option.elim_some, text,
        references_append_cons (by decide) (by decide),
        references_append_cons (by decide) (by decide),
        references_of_isIdentifier u.type.isIdentifier_spelling,
        references_of_isIdentifier (generated.localName isWord.2).isIdentifier]
      rfl
    · rw [if_neg isReplaced, if_neg (fun held => isReplaced (List.contains_iff_mem.mp held)),
        Option.elim_none]
  | function f =>
    have renamed := isGenerated_apply generated replaced member itemNamed
    have text : (f.returnType ++ " " ++ (fragment.spellings call replaced).apply f.name ++ "(" ++
        (fragment.spellings call replaced).rename f.parameters ++ ") " ++
          (fragment.spellings call replaced).rename f.body).toList =
        (Function.mk f.returnType ((fragment.spellings call replaced).apply f.name)
          ((fragment.spellings call replaced).rename f.parameters)
          ((fragment.spellings call replaced).rename f.body)).text := by
      simp [Function.text]
    have refers := Function.references_text
      ⟨f.returnType, (fragment.spellings call replaced).apply f.name,
        (fragment.spellings call replaced).rename f.parameters,
        (fragment.spellings call replaced).rename f.body⟩ renamed.isIdentifier
    rw [renderItem, Option.elim_some, text, refers, references_rename generated,
      references_rename generated, itemReferences, List.map_append]

/-- What some items refer to, on lines of their own. -/
theorem references_filterMap (named : fragment.IsNamed) (generated : IsGenerated call)
    {items : List Item} (within : items ⊆ fragment.others) :
    ((items.filterMap (renderItem call replaced (fragment.spellings call replaced))).map
        String.toList).flatMap references =
      items.flatMap (itemReferences call replaced (fragment.spellings call replaced)) := by
  induction items with
  | nil => rfl
  | cons item items ih =>
    obtain ⟨here, others⟩ := List.cons_subset.mp within
    rw [List.flatMap_cons, ← ih others, ← references_renderItem named generated here]
    cases rendered : renderItem call replaced (fragment.spellings call replaced) item with
    | none => rw [List.filterMap_cons_none rendered, Option.elim_none, List.nil_append]
    | some text =>
      rw [List.filterMap_cons_some rendered, List.map_cons, List.flatMap_cons, Option.elim_some]

/-- What the copy of a fragment for a call refers to. -/
theorem references_render (named : fragment.IsNamed) (generated : IsGenerated call)
    (replaced : List String) :
    references (fragment.render call replaced).toList =
      fragment.copiedReferences call replaced := by
  have separates : ∀ front rest : List Char,
      references (front ++ ['\n'] ++ rest) = references front ++ references rest := by
    intro front rest
    rw [List.append_assoc]
    exact references_append_cons (by decide) (by decide) front rest
  have entry : references (fragment.entryAt call replaced).text =
      fragment.entryReferences call replaced := by
    rw [Function.references_text (fragment.entryAt call replaced) generated.isIdentifier,
      references_parameters named generated, references_body named generated]
    rfl
  rw [toList_render, references_intercalate separates, List.flatMap_append, List.flatMap_cons,
    references_filterMap named generated (List.subset_append_left _ _),
    references_filterMap named generated (List.subset_append_right _ _), entry]
  rfl

/-! ## Names that are left -/

/-- The names that the fragment defines at its top level, with the uniforms that are replaced. -/
def topLevelNames (fragment : Fragment) (replaced : List String) : List String :=
  fragment.entry.name :: fragment.localNames replaced

/-- The return types of all functions, as they stand in the source. -/
def returnTypes (fragment : Fragment) : List String :=
  fragment.entry.returnType :: fragment.others.filterMap Item.returnType?

/-- What the fragment defines has other names than what is written beside it: than the parameters
of the entry, types, qualifiers, and names that begin as the call does. -/
structure Separable (fragment : Fragment) (call : String) (replaced : List String) : Prop where
  /-- No parameter of the entry has the name of a definition. -/
  parameters : ∀ parameter ∈ fragment.parameters, parameter.name ∉ fragment.topLevelNames replaced
  /-- No definition is named as if for the call. -/
  unprefixed : ∀ name ∈ fragment.topLevelNames replaced, ¬call.toList <+: name.toList
  /-- No definition has the name of a type. -/
  types : ∀ type : ValueType, type.spelling ∉ fragment.topLevelNames replaced
  /-- No definition is named like a qualifier. -/
  qualifiers : ∀ direction : Direction, direction.qualifier ∉ fragment.topLevelNames replaced

namespace Separable

variable (separable : fragment.Separable call replaced)

include separable

/-- A name with the call in front is no name of a definition. -/
theorem notMem_append (more : String) :
    call ++ more ∉ fragment.topLevelNames replaced := by
  intro member
  apply separable.unprefixed _ member
  rw [String.toList_append]
  exact List.prefix_append _ _

/-- The name of the call is no name of a definition. -/
theorem call_notMem : call ∉ fragment.topLevelNames replaced :=
  fun member => separable.unprefixed call member List.prefix_rfl

/-- No name inside the call is the name of a definition. -/
theorem localName_notMem (name : String) :
    localName call name ∉ fragment.topLevelNames replaced := by
  rw [localName, String.append_assoc]
  exact separable.notMem_append _

/-- No parameter that feeds a replaced uniform has the name of a definition. -/
theorem feedName_notMem (u : Uniform) :
    feedName call u ∉ fragment.topLevelNames replaced := by
  rw [feedName, localName, String.append_assoc, String.append_assoc]
  exact separable.notMem_append _

/-- No new spelling is the name of a definition. -/
theorem apply_notMem (word : String) :
    (fragment.spellings call replaced).apply word ∉ fragment.topLevelNames replaced := by
  unfold Renaming.apply spellings
  split
  · exact separable.call_notMem
  · rename_i notEntry
    split
    · exact separable.localName_notMem word
    · rename_i notLocal
      rw [Option.getD_none]
      exact List.not_mem_cons_of_ne_of_not_mem notEntry notLocal

variable {name : String} (defined : name ∈ fragment.topLevelNames replaced)

include defined

/-- No renamed text refers to a definition under its name in the source. -/
theorem notMem_map_apply (words : List String) :
    name ∉ words.map (fragment.spellings call replaced).apply := by
  intro member
  obtain ⟨word, -, same⟩ := List.mem_map.mp member
  exact separable.apply_notMem word (same ▸ defined)

/-- An item refers to a definition under its name in the source exactly if its return type
does. -/
theorem mem_itemReferences (item : Item) :
    name ∈ itemReferences call replaced (fragment.spellings call replaced) item ↔
      ∃ type ∈ item.returnType?, name ∈ references type.toList := by
  have renamed := separable.notMem_map_apply defined
  cases item with
  | directive text =>
    simpa [itemReferences, Item.returnType?] using renamed (references text.toList)
  | global text => simpa [itemReferences, Item.returnType?] using renamed (references text.toList)
  | uniform u =>
    have notType : name ≠ u.type.spelling := fun same => separable.types u.type (same ▸ defined)
    have notLocal : name ≠ localName call u.name :=
      fun same => separable.localName_notMem u.name (same ▸ defined)
    rw [itemReferences]
    split <;> simp [Item.returnType?, notType, notLocal]
  | function f =>
    have notName : name ≠ (fragment.spellings call replaced).apply f.name :=
      fun same => separable.apply_notMem f.name (same ▸ defined)
    simp only [itemReferences, Item.returnType?, List.mem_append, List.mem_cons, notName,
      renamed (references f.parameters.toList ++ references f.body.toList), or_false,
      Option.mem_some_iff, exists_eq_left']

/-- Some items refer to a definition under its name in the source exactly if a return type among
them does. -/
theorem mem_flatMap_itemReferences (items : List Item) :
    name ∈ items.flatMap (itemReferences call replaced (fragment.spellings call replaced)) ↔
      ∃ type ∈ items.filterMap Item.returnType?, name ∈ references type.toList := by
  induction items with
  | nil => simp
  | cons item items ih =>
    rw [List.flatMap_cons, List.mem_append, ih, separable.mem_itemReferences defined]
    cases returned : item.returnType? with
    | none => simp [List.filterMap_cons_none returned]
    | some type => simp [List.filterMap_cons_some returned]

/-- The parameters of the entry refer to no definition. -/
theorem notMem_parameterReferences :
    name ∉ fragment.parameterReferences call replaced := by
  intro member
  obtain ⟨parameter, isParameter, inDeclaration⟩ := List.mem_flatMap.mp member
  have notName : name ≠ parameter.name := by
    rintro rfl
    rcases List.mem_append.mp isParameter with own | isFeed
    · exact separable.parameters parameter own defined
    · obtain ⟨u, -, rfl⟩ := List.mem_map.mp isFeed
      exact separable.feedName_notMem u defined
  simp only [List.mem_cons, List.not_mem_nil, or_false, notName] at inDeclaration
  rcases inDeclaration with rfl | rfl
  · exact separable.qualifiers parameter.direction defined
  · exact separable.types parameter.type defined

/-- The body of the entry refers to no definition under its name in the source. -/
theorem notMem_bodyReferences :
    name ∉ fragment.bodyReferences call replaced := by
  intro member
  rcases List.mem_append.mp member with inCopies | inBody
  · obtain ⟨u, -, inCopy⟩ := List.mem_flatMap.mp inCopies
    simp only [List.mem_cons, List.not_mem_nil, or_false] at inCopy
    rcases inCopy with rfl | rfl
    · exact separable.localName_notMem u.name defined
    · exact separable.feedName_notMem u defined
  · exact separable.notMem_map_apply defined _ inBody

/-- The entry refers to a definition under its name in the source exactly if its return type
does. -/
theorem mem_entryReferences :
    name ∈ fragment.entryReferences call replaced ↔
      name ∈ references fragment.entry.returnType.toList := by
  have notCall : name ≠ call := fun same => separable.call_notMem (same ▸ defined)
  have notParameter := separable.notMem_parameterReferences defined
  have notBody := separable.notMem_bodyReferences defined
  simp only [entryReferences, List.mem_append, List.mem_cons, notCall, notParameter, notBody,
    or_false]

end Separable

end Fragment

namespace Sample

/-- A fragment with a helper that returns a structure. -/
def rayFragment : Fragment :=
  ⟨"main", [.global "struct Ray \x7b float t; \x7d;",
      .function ⟨"Ray", "aim", "", "\x7b Ray r; return r; \x7d"⟩],
    ⟨"void", "main", [⟨"y", .float, .output⟩], "\x7b y = aim().t; \x7d"⟩, []⟩

/-- The fragment with the structure can be read. -/
theorem rayFragment_isRead : rayFragment.IsRead :=
  ⟨none, "struct Ray \x7b float t; \x7d;\nRay aim() \x7b Ray r; return r; \x7d\n" ++
    "void main(out float y) \x7b y = aim().t; \x7d", rfl⟩

/-- What the fragment with the structure defines has names of its own. -/
theorem rayFragment_separable :
    rayFragment.Separable (callName .fragment "main" 1) [] where
  parameters := by decide
  unprefixed := by decide
  types type := by cases type <;> decide
  qualifiers direction := by cases direction <;> decide

end Sample

namespace Fragment

variable {fragment : Fragment} {replaced : List String}

/-- The copy of a fragment for a call refers to what is listed, in which all that the fragment
uses is renamed but for the return types. If the names of the definitions are separable, the copy
therefore refers to a definition under its name in the source exactly when a return type does. -/
theorem mem_references_render_iff (isRead : fragment.IsRead) {base : String}
    (letters : ∀ c ∈ base.toList, isWordChar c = true) {phase : Phase} {owner : BlockIndex}
    (separable : fragment.Separable (callName phase base owner) replaced) :
    references (fragment.render (callName phase base owner) replaced).toList =
        fragment.copiedReferences (callName phase base owner) replaced ∧
      ∀ name ∈ fragment.topLevelNames replaced,
        (name ∈ references (fragment.render (callName phase base owner) replaced).toList ↔
          ∃ type ∈ fragment.returnTypes, name ∈ references type.toList) := by
  have listed := references_render (isNamed_of_isRead isRead)
    (isGenerated_callName phase letters owner) replaced
  refine ⟨listed, fun name defined => ?_⟩
  rw [listed, copiedReferences, List.mem_append, List.mem_append,
    separable.mem_flatMap_itemReferences defined, separable.mem_flatMap_itemReferences defined,
    separable.mem_entryReferences defined]
  simp only [returnTypes, others, List.filterMap_append, List.mem_cons, List.mem_append,
    or_and_right, exists_or, exists_eq_left]
  exact or_left_comm

/-- In the sample the helper returns a structure, and the copy for a call refers to the structure
under the name in the source, besides the name for the call. It refers so to no other definition. -/
theorem mem_references_render_iff_sample :
    Sample.rayFragment.Separable (callName .fragment "main" 1) [] ∧
      Sample.rayFragment.topLevelNames [] = ["main", "Ray", "aim"] ∧
      Sample.rayFragment.copiedReferences (callName .fragment "main" 1) [] =
        ["struct", "sg_fragment_main_1_Ray", "float", "t", "Ray", "sg_fragment_main_1_aim",
          "sg_fragment_main_1_Ray", "r", "return", "r", "void", "sg_fragment_main_1", "out",
          "float", "y", "y", "sg_fragment_main_1_aim"] ∧
      references (Sample.rayFragment.render (callName .fragment "main" 1) []).toList =
        Sample.rayFragment.copiedReferences (callName .fragment "main" 1) [] ∧
      ∀ name ∈ Sample.rayFragment.topLevelNames [],
        (name ∈ references
            (Sample.rayFragment.render (callName .fragment "main" 1) []).toList ↔
          ∃ type ∈ Sample.rayFragment.returnTypes, name ∈ references type.toList) := by
  obtain ⟨listed, left⟩ := mem_references_render_iff Sample.rayFragment_isRead
    (List.all_eq_true.mp (by decide)) Sample.rayFragment_separable
  exact ⟨Sample.rayFragment_separable, rfl, rfl, listed, left⟩

/-- The copy of the sample refers to a definition under its name in the source, although the
names are separable. -/
theorem mem_references_render_ray :
    Sample.rayFragment.IsRead ∧
      Sample.rayFragment.Separable (callName .fragment "main" 1) [] ∧
      "Ray" ∈ Sample.rayFragment.topLevelNames [] ∧
      "Ray" ∈ references
        (Sample.rayFragment.render (callName .fragment "main" 1) []).toList := by
  have written : references
      (Sample.rayFragment.render (callName .fragment "main" 1) []).toList =
        Sample.rayFragment.copiedReferences (callName .fragment "main" 1) [] :=
    references_render (isNamed_of_isRead Sample.rayFragment_isRead)
      (isGenerated_callName .fragment (List.all_eq_true.mp (by decide)) 1) []
  refine ⟨Sample.rayFragment_isRead, Sample.rayFragment_separable, by decide, ?_⟩
  rw [written]
  decide

/-! ## Parameters of the entry -/

variable {call : String}

/-- Every part of a text in several parts is found in it. -/
theorem isInfix_intercalate {separator part : List Char} {parts : List (List Char)}
    (member : part ∈ parts) : part <:+: separator.intercalate parts := by
  induction parts with
  | nil => contradiction
  | cons first parts ih =>
    cases parts with
    | nil =>
      rw [List.mem_singleton.mp member, List.intercalate_singleton]
    | cons next parts =>
      rw [List.intercalate_cons_cons, List.append_assoc]
      rcases List.mem_cons.mp member with rfl | inRest
      · exact (List.prefix_append _ _).isInfix
      · have behind : separator.intercalate (next :: parts) <:+
            first ++ (separator ++ separator.intercalate (next :: parts)) :=
          (List.suffix_append _ _).trans (List.suffix_append _ _)
        exact (ih inRest).trans behind.isInfix

/-- Each replaced uniform is filled by an assignment with two names. -/
theorem length_copyReferences (call : String) (fed : List Uniform) :
    (copyReferences call fed).length = 2 * fed.length := by
  induction fed with
  | nil => rfl
  | cons u fed ih =>
    simp only [copyReferences, List.flatMap_cons, List.length_append, List.length_cons,
      List.length_nil] at ih ⊢
    omega

/-- A name keeps its spelling at a call exactly if the fragment does not define it, or if it is
the name of the entry and of the call. -/
theorem apply_eq_self_iff {name : String} :
    (fragment.spellings call replaced).apply name = name ↔
      name ∉ fragment.topLevelNames replaced ∨ name = fragment.entry.name ∧ name = call := by
  unfold Renaming.apply spellings topLevelNames
  rw [List.mem_cons]
  by_cases isEntry : name = fragment.entry.name
  · rw [if_pos isEntry, Option.getD_some]
    constructor
    · exact fun same => .inr ⟨isEntry, same.symm⟩
    · rintro (absent | ⟨-, same⟩)
      · exact absurd (.inl isEntry) absent
      · exact same.symm
  · rw [if_neg isEntry]
    by_cases isLocal : name ∈ fragment.localNames replaced
    · rw [if_pos isLocal, Option.getD_some]
      -- The new spelling is longer.
      have longer : localName call name ≠ name := by
        intro same
        have lengths := congrArg String.length same
        simp only [localName, String.length_append] at lengths
        have mark : "_".length = 1 := rfl
        omega
      constructor
      · exact fun same => absurd same longer
      · rintro (absent | ⟨same, -⟩)
        · exact absurd (.inr isLocal) absent
        · exact absurd same isEntry
    · rw [if_neg isLocal, Option.getD_none]
      exact iff_of_true rfl (.inl fun held => held.elim isEntry isLocal)

/-- The entry is written for a call with its parameters under their names. A use of a parameter
in the body of the entry stays a use of the parameter exactly if the fragment defines nothing
else under that name, or if it is the name of the entry and of the call. In the copy the use
stands behind the assignments that fill replaced uniforms, which have two names each. -/
theorem parameter_kept_iff (isRead : fragment.IsRead) {base : String}
    (letters : ∀ c ∈ base.toList, isWordChar c = true) (phase : Phase) (owner : BlockIndex)
    (replaced : List String) {parameter : Parameter} (member : parameter ∈ fragment.parameters) :
    (fragment.entryAt (callName phase base owner) replaced).text <:+:
        (fragment.render (callName phase base owner) replaced).toList ∧
      (renderParameter parameter).toList <:+:
        (fragment.entryAt (callName phase base owner) replaced).parameters.toList ∧
      ∀ place, (references fragment.entry.body.toList)[place]? = some parameter.name →
        ((references (fragment.entryAt (callName phase base owner) replaced).body.toList)[
              2 * (fragment.replacedUniforms replaced).length + place]? = some parameter.name ↔
          parameter.name ∉ fragment.topLevelNames replaced ∨
            parameter.name = fragment.entry.name ∧ parameter.name = callName phase base owner) := by
  have named := isNamed_of_isRead isRead
  have generated := isGenerated_callName phase letters owner
  refine ⟨?_, ?_, fun place used => ?_⟩
  · rw [toList_render]
    exact isInfix_intercalate (List.mem_append_right _ List.mem_cons_self)
  · rw [entryAt, String.toList_intercalate]
    apply isInfix_intercalate
    exact List.mem_map_of_mem (List.mem_map_of_mem (List.mem_append_left _ member))
  · have behind : (copyReferences (callName phase base owner)
        (fragment.replacedUniforms replaced)).length ≤
          2 * (fragment.replacedUniforms replaced).length + place := by
      rw [length_copyReferences]
      omega
    rw [references_body named generated, bodyReferences, List.getElem?_append_right behind,
      length_copyReferences, Nat.add_sub_cancel_left, List.getElem?_map, used, Option.map_some,
      Option.some.injEq]
    exact apply_eq_self_iff

end Fragment

namespace Sample

/-- A fragment with a parameter that has the name of a constant. -/
def shadowFragment : Fragment :=
  ⟨"main", [.global "const float x = 1.0;"],
    ⟨"void", "main", [⟨"x", .float, .input⟩, ⟨"y", .float, .output⟩], "\x7b y = x; \x7d"⟩, []⟩

/-- The fragment with the constant can be read. -/
theorem shadowFragment_isRead : shadowFragment.IsRead :=
  ⟨none, "const float x = 1.0;\nvoid main(in float x, out float y) \x7b y = x; \x7d", rfl⟩

end Sample

namespace Fragment

/-- In the sample the output is still assigned to. -/
theorem parameter_kept_iff_sample :
    (references Sample.shadowFragment.entry.body.toList)[0]? = some "y" ∧
      "y" ∉ Sample.shadowFragment.topLevelNames [] ∧
      (references (Sample.shadowFragment.entryAt (callName .fragment "main" 1) []).body.toList)[
        0]? = some "y" := by
  have apart : "y" ∉ Sample.shadowFragment.topLevelNames [] := by decide
  have member : ⟨"y", .float, .output⟩ ∈ Sample.shadowFragment.parameters := by decide
  have letters : ∀ c ∈ "main".toList, isWordChar c = true := List.all_eq_true.mp (by decide)
  have kept := (parameter_kept_iff Sample.shadowFragment_isRead letters .fragment 1 [] member).2.2
    0 rfl
  exact ⟨rfl, apart, kept.mpr (.inl apart)⟩

/-- The input of the sample is written under its name, but the body of the copy reads the
constant. -/
theorem parameter_captured :
    Sample.shadowFragment.IsRead ∧
      ⟨"x", .float, .input⟩ ∈ Sample.shadowFragment.parameters ∧
      (Sample.shadowFragment.entryAt (callName .fragment "main" 1) []).parameters =
        "in float x, out float y" ∧
      (references Sample.shadowFragment.entry.body.toList)[1]? = some "x" ∧
      (references (Sample.shadowFragment.entryAt (callName .fragment "main" 1) []).body.toList)[
        1]? = some "sg_fragment_main_1_x" :=
  ⟨Sample.shadowFragment_isRead, by decide, rfl, rfl, rfl⟩

end Fragment

end ShaderBlocks
