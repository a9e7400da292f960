import ShaderBlocks.Proofs.UniformText

/-!
# The text of a program can be read

The text of a phase lists the uniforms, the items of every call, one call after the other, and
the main function. Read as the source of a fragment it has the main function as its entry, and
of uniforms those that the program declares and no others.
-/

namespace ShaderBlocks

open Text Source

/-- A uniform as the program declares it, without its value. -/
def Uniform.declared (u : Uniform) : Uniform :=
  { u with value := none }

/-- A plain uniform can be declared without its value. -/
theorem Uniform.IsPlain.isDeclarable {u : Uniform} (plain : u.IsPlain) :
    u.declared.IsDeclarable where
  plain := ⟨plain.name, plain.noPrecision⟩
  value value isValue := by contradiction

namespace Function

variable {f : Function}

/-- A main function that returns nothing can be read if its parameters and its body can. -/
theorem isPlain_of_main (isVoid : f.returnType = "void") (isMain : f.name = "main")
    (parameters : IsHeader f.parameters.toList) (body : IsGroup f.body.toList) : f.IsPlain where
  begins := by
    rw [isVoid]
    exact ⟨'v', ['o', 'i', 'd'], by decide, by decide, by decide⟩
  returnType := by
    rw [isVoid]
    exact isHeader_of_isWord (by decide)
  noParameters := by
    rw [isVoid]
    decide
  noReturn := by
    rw [isVoid]
    decide
  name := by
    rw [isMain]
    decide
  parameters := parameters
  body := body

/-- A function that returns nothing is read as it was written if no line end in it is to be unified
and no blank stands at the ends of its parameters. -/
theorem reread_of_void (isVoid : f.returnType = "void") (parameters : '\r' ∉ f.parameters.toList)
    (trimmed : trim f.parameters.toList = f.parameters.toList) (body : '\r' ∉ f.body.toList) :
    (f.changed unifyLineEnds f.name).reread = f := by
  have returnType : " ".intercalate ((words f.returnType.toList).map String.ofList) =
      f.returnType := by
    rw [isVoid]
    decide
  simp only [reread, changed, returnType, unifyLineEnds_eq_self parameters,
    unifyLineEnds_eq_self body, String.ofList_toList, trimmed]

end Function

/-- The text of a program holds nothing that could not be read. -/
structure Program.Readable (program : Program) : Prop where
  /-- The uniforms can be declared. -/
  externals : ∀ u ∈ program.externals, u.IsPlain
  /-- The variables are named by words. -/
  locals : ∀ cell ∈ program.locals, IsWord cell.name.toList
  /-- The functions that are called have generated names. -/
  names : ∀ call ∈ program.calls, IsGenerated call.name
  /-- The arguments of the calls are words. -/
  args : ∀ call ∈ program.calls, ∀ cell ∈ call.args, IsWord cell.toList
  /-- The text for a call is that of a plain fragment. -/
  bodies : ∀ call ∈ program.calls, ∃ (fragment : Fragment) (replaced : List String),
    fragment.IsPlain ∧ call.body = fragment.render call.name replaced

namespace Program

variable {program : Program}

/-- The lines that declare the uniforms list the uniforms. -/
theorem listed_externals {externals : List Uniform} (plain : ∀ u ∈ externals, u.IsPlain) :
    Listed (String.join (externals.map renderExternal)).toList
      (externals.map fun u => .uniform u.declared) := by
  have declarable : ∀ u ∈ externals.map Uniform.declared, u.IsDeclarable := by
    intro u member
    obtain ⟨external, isExternal, rfl⟩ := List.mem_map.mp member
    exact (plain external isExternal).isDeclarable
  have rendered : ∀ u : Uniform, (renderExternal u).toList =
      u.declared.line ++ u.declared.initial ++ [';'] ++ ['\n'] := by
    intro u
    simp [renderExternal, Uniform.line, Uniform.keyword, Uniform.subject, Uniform.initial,
      Uniform.declared]
  have listed := Uniform.listed declarable
  rw [List.map_map, List.flatMap_map] at listed
  rw [String.toList_join, List.flatMap_map]
  simp only [rendered]
  exact listed

/-- The text for a call lists inner items, and among them the function that is called. -/
theorem Readable.listed_renderBody (readable : program.Readable) {call : Call}
    (member : call ∈ program.calls) :
    ∃ items, Listed (renderBody call).toList items ∧ (∀ item ∈ items, item.IsInner) ∧
      ∃ f, .function f ∈ items ∧ f.name = call.name := by
  obtain ⟨fragment, replaced, plain, isBody⟩ := readable.bodies call member
  have generated := readable.names call member
  obtain ⟨ends, before, after, listed, innerBefore, innerAfter, -⟩ :=
    Fragment.listed_render plain generated replaced
  have text : (renderBody call).toList =
      ((fragment.render call.name replaced).toList ++ ['\n']) ++ ['\n'] := by
    rw [renderBody, String.toList_append, String.toList_ofList, isBody, ends.trimEnd]
    simp
  have whole := listed.append (.gap .nil)
  rw [List.append_nil, ← text] at whole
  refine ⟨_, whole, fun item inItems => ?_, _, List.mem_append_right _ List.mem_cons_self, rfl⟩
  rw [List.mem_append, List.mem_cons] at inItems
  rcases inItems with isBefore | rfl | isAfter
  · exact innerBefore item isBefore
  · exact generated.ne (by decide)
  · exact innerAfter item isAfter

/-- The line that declares a variable is inert. -/
theorem isInert_renderVariable {cell : Variable} (isWord : IsWord cell.name.toList) :
    IsInert (renderVariable cell).toList := by
  have type := isInert_of_isWord cell.type.isWord_spelling
  have name := isInert_of_isWord isWord
  simp only [renderVariable, String.toList_append, isInert_append]
  exact ⟨⟨⟨⟨by decide, type⟩, by decide⟩, name⟩, by decide⟩

/-- The line that makes a call is inert. -/
theorem isInert_renderCall {call : Call} (isWord : IsWord call.name.toList)
    (words : ∀ cell ∈ call.args, IsWord cell.toList) : IsInert (renderCall call).toList := by
  have name := isInert_of_isWord isWord
  have separator : IsInert ", ".toList := by decide
  have args : IsInert (", ".intercalate call.args).toList := by
    intro c member
    rw [String.toList_intercalate] at member
    rcases mem_intercalate member with inSeparator | ⟨text, isText, inText⟩
    · exact separator c inSeparator
    · obtain ⟨cell, isCell, rfl⟩ := List.mem_map.mp isText
      exact isInert_of_isWord (words cell isCell) c inText
  simp only [renderCall, String.toList_append, isInert_append]
  exact ⟨⟨⟨⟨by decide, name⟩, by decide⟩, args⟩, by decide⟩

/-- The lines of the main function of a phase. -/
def mainLines (program : Program) (phase : Phase) : String :=
  String.join ((program.localsOf phase).map renderVariable) ++
    String.join ((program.callsOf phase).map renderCall)

/-- The main function of a phase. -/
def mainFunction (program : Program) (phase : Phase) : Function where
  returnType := "void"
  name := "main"
  parameters := ""
  body := "\x7b\n" ++ program.mainLines phase ++ "\x7d"

/-- The lines of the main function are inert. -/
theorem Readable.isInert_mainLines (readable : program.Readable) (phase : Phase) :
    IsInert (program.mainLines phase).toList := by
  rw [mainLines, String.toList_append, isInert_append]
  constructor
  · refine isInert_join fun cell member => ?_
    exact isInert_renderVariable (readable.locals cell (List.mem_filter.mp member).1)
  · refine isInert_join fun call member => ?_
    have called := (List.mem_filter.mp member).1
    exact isInert_renderCall (readable.names call called).isWord (readable.args call called)

/-- The body of the main function, with the braces. -/
theorem toList_mainFunction (program : Program) (phase : Phase) :
    (program.mainFunction phase).body.toList =
      '{' :: ('\n' :: (program.mainLines phase).toList ++ ['}']) := by
  simp [mainFunction]

/-- The main function can be read. -/
theorem Readable.isPlain_mainFunction (readable : program.Readable) (phase : Phase) :
    (program.mainFunction phase).IsPlain := by
  have lineEnd : IsInert ['\n'] := by decide
  have inert : IsInert ('\n' :: (program.mainLines phase).toList) :=
    isInert_append.mpr ⟨lineEnd, readable.isInert_mainLines phase⟩
  have noGroup : IsGroup ['{', '}'] := ⟨⟨[], rfl, rfl⟩, .of_notMem (by decide)⟩
  refine Function.isPlain_of_main rfl rfl isHeader_nil ?_
  rw [toList_mainFunction]
  exact noGroup.insert inert

/-- The main function is read as it was written. -/
theorem Readable.reread_mainFunction (readable : program.Readable) (phase : Phase) :
    ((program.mainFunction phase).changed unifyLineEnds "main").reread =
      program.mainFunction phase := by
  have noReturn : '\r' ∉ (program.mainLines phase).toList :=
    fun member => readable.isInert_mainLines phase _ member (by decide)
  refine Function.reread_of_void rfl List.not_mem_nil rfl ?_
  simp [toList_mainFunction, noReturn]

/-- The text of a phase, part by part. -/
theorem toList_renderPhase (program : Program) (phase : Phase) :
    (program.renderPhase phase).toList =
      (String.join (program.externals.map renderExternal)).toList ++
        (if program.externals.isEmpty then [] else ['\n']) ++
        (String.join ((program.callsOf phase).map renderBody)).toList ++
        ((program.mainFunction phase).text ++ ['\n']) := by
  rw [renderPhase]
  split <;> simp [Function.text, mainFunction, mainLines]

/-- The text of a phase ends with the main function. -/
theorem renderPhase_eq_append (program : Program) (phase : Phase) :
    ∃ front, program.renderPhase phase =
      front ++ "void main() " ++ (program.mainFunction phase).body ++ "\n" := by
  refine ⟨String.join (program.externals.map renderExternal) ++
    (if program.externals.isEmpty then "" else "\n") ++
    String.join ((program.callsOf phase).map renderBody), String.toList_inj.mp ?_⟩
  simp [renderPhase, mainFunction, mainLines]

/-- The texts for some calls list what the text for each of them lists. -/
theorem listed_bodies {calls : List Call} {items : Call → List Item}
    (listed : ∀ call ∈ calls, Listed (renderBody call).toList (items call)) :
    Listed (String.join (calls.map renderBody)).toList (calls.flatMap items) := by
  induction calls with
  | nil => exact .nil
  | cons call calls ih =>
    obtain ⟨first, others⟩ := List.forall_mem_cons.mp listed
    have text : (String.join ((call :: calls).map renderBody)).toList =
        (renderBody call).toList ++ (String.join (calls.map renderBody)).toList := by
      simp [String.toList_join]
    rw [text]
    exact first.append (ih others)

/-- The text of a phase lists the uniforms, what the text for each call lists, and the main
function. -/
theorem Readable.listed_renderPhase (readable : program.Readable) {phase : Phase}
    {items : Call → List Item}
    (listed : ∀ call ∈ program.callsOf phase, Listed (renderBody call).toList (items call)) :
    Listed (program.renderPhase phase).toList
      ((program.externals.map fun u => .uniform u.declared) ++
        (program.callsOf phase).flatMap items ++ [.function (program.mainFunction phase)]) := by
  have gap : Listed (if program.externals.isEmpty then [] else ['\n']) [] := by
    split
    · exact .nil
    · exact .gap .nil
  have main := Item.written_function (readable.isPlain_mainFunction phase)
  rw [← readable.reread_mainFunction phase, toList_renderPhase]
  have front := ((listed_externals readable.externals).append gap).append (listed_bodies listed)
  rw [List.append_nil] at front
  exact front.append (.item main .nil)

end Program

/-- Items are cut at a wanted function behind functions that are not wanted. -/
theorem Item.cutAtFunction?_append {wanted : Function → Bool} {before : List Item}
    (passed : ∀ f, .function f ∈ before → wanted f = false) {f : Function}
    (isWanted : wanted f = true) (after : List Item) :
    cutAtFunction? wanted (before ++ .function f :: after) = some (before, f, after) := by
  induction before with
  | nil => simp [cutAtFunction?, isWanted]
  | cons item before ih =>
    have later := ih fun g member => passed g (List.mem_cons_of_mem _ member)
    cases item with
    | function g => simp [cutAtFunction?, passed g List.mem_cons_self, later]
    | directive | global | uniform => simp [cutAtFunction?, later]

/-- A text that is read as items and then a main function is the source of a fragment whose entry
is this function. -/
theorem Fragment.read_of_main {text : String} {items : List Item} {f : Function}
    {parameters : List Parameter} (name : Option String)
    (all : Item.readAll text.toList = .ok (items ++ [.function f])) (isMain : f.name = "main")
    (noMain : ∀ g, .function g ∈ items → g.name ≠ "main")
    (read : readParameters f.parameters = .ok parameters) :
    Fragment.read name text = .ok {
      name := sanitize (name.getD "main")
      before := items
      entry := {
        returnType := f.returnType
        name := "main"
        parameters
        body := f.body }
      after := [] } := by
  obtain ⟨raw, divided, meant⟩ := bind_eq_ok.mp all
  have cut : Item.cutAtFunction? (·.name == "main") (items ++ [.function f]) =
      some (items, f, []) :=
    Item.cutAtFunction?_append (fun g member => beq_eq_false_iff_ne.mpr (noMain g member))
      (by simp [isMain]) []
  simp only [Fragment.read, divided, meant, bind, Except.bind, Item.cutAtEntry?, cut]
  simp [read, isMain, pure, Except.pure]

/-- A text that lists items and then a main function without parameters is read as the source
of a fragment whose entry is this function. -/
theorem Listed.read_fragment {text : String} {items : List Item} {f : Function}
    (listed : Listed text.toList (items ++ [.function f])) (isMain : f.name = "main")
    (noParameters : f.parameters = "") (noMain : ∀ g, .function g ∈ items → g.name ≠ "main") :
    Fragment.read none text = .ok {
      name := "main"
      before := items
      entry := {
        returnType := f.returnType
        name := "main"
        parameters := []
        body := f.body }
      after := [] } := by
  have sanitized : sanitize "main" = "main" := by decide
  have empty : readParameters f.parameters = .ok [] := by
    rw [noParameters]
    decide
  rw [Fragment.read_of_main none listed.readAll isMain noMain empty, Option.getD_none, sanitized]

namespace Program

variable {program : Program} {phase : Phase} {items : Call → List Item}

/-- What the text of a phase is read as, where `items` are read from the texts for the calls. -/
def linked (program : Program) (phase : Phase) (items : Call → List Item) : Fragment where
  name := "main"
  before := (program.externals.map fun u => .uniform u.declared) ++
    (program.callsOf phase).flatMap items
  entry := {
    returnType := "void"
    name := "main"
    parameters := []
    body := (program.mainFunction phase).body }
  after := []

/-- The items between the uniforms and the main function are inner items. -/
theorem isInner_of_mem_flatMap
    (inner : ∀ call ∈ program.callsOf phase, ∀ item ∈ items call, item.IsInner) :
    ∀ item ∈ (program.callsOf phase).flatMap items, item.IsInner := by
  intro item member
  obtain ⟨call, isCall, inItems⟩ := List.mem_flatMap.mp member
  exact inner call isCall item inItems

/-- The text of a phase is read as the source of a fragment. -/
theorem Readable.read_renderPhase (readable : program.Readable)
    (listed : ∀ call ∈ program.callsOf phase, Listed (renderBody call).toList (items call))
    (inner : ∀ call ∈ program.callsOf phase, ∀ item ∈ items call, item.IsInner) :
    Fragment.read none (program.renderPhase phase) = .ok (program.linked phase items) := by
  refine (readable.listed_renderPhase listed).read_fragment rfl rfl fun f member => ?_
  rcases List.mem_append.mp member with isUniform | isInner
  · simp at isUniform
  · exact isInner_of_mem_flatMap inner _ isInner

/-- The uniforms of the text of a phase are those of the program. -/
theorem uniforms_linked
    (inner : ∀ call ∈ program.callsOf phase, ∀ item ∈ items call, item.IsInner) :
    (program.linked phase items).uniforms = program.externals.map Uniform.declared := by
  have declares : (Item.uniform? ∘ fun u => Item.uniform u.declared) =
      some ∘ Uniform.declared := rfl
  have noOther : ((program.callsOf phase).flatMap items).filterMap Item.uniform? = [] :=
    List.filterMap_eq_nil_iff.mpr fun item member =>
      (isInner_of_mem_flatMap inner item member).uniform?_eq_none
  rw [Fragment.uniforms, Fragment.others, linked, List.append_nil, List.filterMap_append, noOther,
    List.append_nil, List.filterMap_map, declares, List.filterMap_eq_map]

end Program

end ShaderBlocks
