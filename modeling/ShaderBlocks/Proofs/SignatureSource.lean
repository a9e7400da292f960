import ShaderBlocks.Proofs.FragmentReread

/-!
# Sources written from a signature

The signature of a fragment is its list of uniforms and the list of parameters of its entry. Written
out it is a source again: a line for each uniform, and a main function with the parameters and an
empty body. What is read from this source is the signature it was written from, with everything in
its order. Neither a name that is the spelling of a type nor a value that holds parentheses, commas
or equals signs moves a word from its place. Of names only the qualifiers are in the way, which are
passed over or refused where a type or a name is expected.
-/

namespace ShaderBlocks

open Text Source

/-- The declaration of a uniform, with its initial value if it has one. -/
def Uniform.declaration (u : Uniform) : String :=
  "uniform " ++ u.type.spelling ++ " " ++ u.name ++
    (match u.value with
      | some value => " = " ++ value
      | none => "") ++ ";"

/-- Parameters as they stand between the parentheses of a function. -/
def Source.parameterText (parameters : List Parameter) : String :=
  ", ".intercalate (parameters.map Fragment.renderParameter)

/-- A source with some uniforms and a main function with some parameters. -/
def Source.signatureText (uniforms : List Uniform) (parameters : List Parameter) : String :=
  String.join (uniforms.map fun u => u.declaration ++ "\n") ++
    "void main(" ++ parameterText parameters ++ ") \x7b \x7d"

/-- The declaration of a uniform, part by part. -/
theorem Uniform.toList_declaration (u : Uniform) :
    u.declaration.toList = u.line ++ u.initial ++ [';'] := by
  cases isValue : u.value with
  | none => simp [declaration, line, keyword, subject, initial, isValue]
  | some value => simp [declaration, line, keyword, subject, initial, isValue]

/-- Plain parameters are read from what is written of them. -/
theorem Source.readParameters_parameterText {parameters : List Parameter}
    (plain : ∀ parameter ∈ parameters, parameter.IsPlain) :
    readParameters (parameterText parameters) = .ok parameters := by
  have text : parameterText parameters = String.ofList (parameterLines parameters) :=
    String.toList_injective ((toList_parameters parameters).trans String.toList_ofList.symm)
  rw [text]
  exact readParameters_lines plain

/-- A main function with some parameters and an empty body. -/
def Function.emptyMain (parameters : List Parameter) : Function where
  returnType := "void"
  name := "main"
  parameters := parameterText parameters
  body := "\x7b \x7d"

namespace Function

variable {parameters : List Parameter}

/-- A main function with plain parameters can be read. -/
theorem isPlain_emptyMain (plain : ∀ parameter ∈ parameters, parameter.IsPlain) :
    (emptyMain parameters).IsPlain := by
  have isGroup : IsGroup "\x7b \x7d".toList := ⟨⟨[' '], by decide, rfl⟩, .of_notMem (by decide)⟩
  have isHeader := Fragment.isHeader_parameters fun parameter member =>
    (plain parameter member).isWord
  exact isPlain_of_main rfl rfl isHeader isGroup

/-- A main function with plain parameters is read as it was written. -/
theorem reread_emptyMain (plain : ∀ parameter ∈ parameters, parameter.IsPlain) :
    ((emptyMain parameters).changed unifyLineEnds (emptyMain parameters).name).reread =
      emptyMain parameters := by
  have text : (emptyMain parameters).parameters.toList = parameterLines parameters :=
    toList_parameters parameters
  have noReturn : '\r' ∉ "\x7b \x7d".toList := by decide
  refine reread_of_void rfl ?_ ?_ noReturn
  · rw [text]
    exact noReturn_parameterLines plain
  · rw [text, trim_parameterLines plain]

end Function

/-- A source that is written from a signature is read as its uniforms and a main function. -/
theorem Source.readAll_signatureText {uniforms : List Uniform} {parameters : List Parameter}
    (declarable : ∀ u ∈ uniforms, u.IsDeclarable)
    (plain : ∀ parameter ∈ parameters, parameter.IsPlain) :
    Item.readAll (signatureText uniforms parameters).toList =
      .ok (uniforms.map .uniform ++ [.function (Function.emptyMain parameters)]) := by
  have isPlain := Function.isPlain_emptyMain plain
  have text : (signatureText uniforms parameters).toList =
      (uniforms.flatMap fun u => u.line ++ u.initial ++ [';'] ++ ['\n']) ++
        (Function.emptyMain parameters).text := by
    simp [signatureText, Function.text, Function.emptyMain, String.toList_join, List.flatMap_map,
      Uniform.toList_declaration]
  have main := Item.written_function isPlain
  rw [Function.reread_emptyMain plain] at main
  have listed := (Uniform.listed declarable).append (.item main .nil)
  rw [← List.append_assoc, ← text] at listed
  refine listed.readAll_of_line ?_
  rw [text]
  exact isPlain.endsSolid.append _

/-- A source that is written from a signature is read as a fragment with this signature: the
parameters and the uniforms that were written, each list in its order. Parameters that were read
from any text are read again from what is written of them. -/
theorem Fragment.read_signature {uniforms : List Uniform} {parameters : List Parameter}
    (declarable : ∀ u ∈ uniforms, u.IsDeclarable)
    (plain : ∀ parameter ∈ parameters, parameter.IsPlain) :
    (∀ name, ∃ fragment, Fragment.read name (signatureText uniforms parameters) = .ok fragment ∧
      fragment.parameters = parameters ∧ fragment.uniforms = uniforms) ∧
    ∀ text read, readParameters text = .ok read →
      readParameters (parameterText read) = .ok read := by
  constructor
  · intro name
    have all := readAll_signatureText declarable plain
    have noMain : ∀ g, .function g ∈ uniforms.map Item.uniform → g.name ≠ "main" := by
      intro g member
      obtain ⟨u, -, isFunction⟩ := List.mem_map.mp member
      contradiction
    refine ⟨_, read_of_main name all rfl noMain (readParameters_parameterText plain), rfl, ?_⟩
    have kept : ∀ u : Uniform, (Item.uniform u).uniform? = some u := fun u => rfl
    simp [Fragment.uniforms, Fragment.others, List.filterMap_map, kept]
  · intro text read isRead
    exact readParameters_parameterText (Parameter.isPlain_of_read isRead)

namespace Sample

/-- A value that reads like a qualifier, two parameters and a comparison. -/
def comparison : String := "in = (a, b) == c /d"

/-- The name of a uniform is a qualifier, and that of another the word that announces uniforms. -/
def awkwardUniforms : List Uniform :=
  [⟨"out", .vec2, some comparison⟩, ⟨"uniform", .mat3, none⟩]

/-- The name of a parameter is the spelling of a type. -/
def awkwardParameters : List Parameter :=
  [⟨"float", .vec4, .input⟩, ⟨"uniform", .sampler2D, .output⟩]

/-- The source with these uniforms and parameters. -/
def awkwardSource : String :=
  "uniform vec2 out = in = (a, b) == c /d;\nuniform mat3 uniform;\n" ++
    "void main(in vec4 float, out sampler2D uniform) \x7b \x7d"

end Sample

/-- Names and values that read like other parts of a declaration move nothing from its place, and
parameters that were not written in the usual way are read again as well. -/
theorem Fragment.read_signature_sample :
    (∀ u ∈ Sample.awkwardUniforms, u.IsDeclarable) ∧
    (∀ parameter ∈ Sample.awkwardParameters, parameter.IsPlain) ∧
    (∃ fragment, Fragment.read (some "3d") Sample.awkwardSource = .ok fragment ∧
      fragment.parameters = Sample.awkwardParameters ∧
      fragment.uniforms = Sample.awkwardUniforms) ∧
    readParameters "highp vec2  a ,\nconst out int in_" =
      .ok [⟨"a", .vec2, .input⟩, ⟨"in_", .int, .output⟩] ∧
    readParameters "in vec2 a, out int in_" =
      .ok [⟨"a", .vec2, .input⟩, ⟨"in_", .int, .output⟩] := by
  have noEnd : Sample.comparison.toList.all (fun c => c ∉ [';', '\x7b', '\x7d', '\r']) = true := by
    decide
  have isInitial : Uniform.IsInitial Sample.comparison.toList :=
    { some := by decide
      trimmed := by decide
      plain := fun c member => of_decide_eq_true (List.all_eq_true.mp noEnd c member)
      noLine := by decide
      noBlock := by decide }
  have valued : Uniform.IsDeclarable ⟨"out", .vec2, some Sample.comparison⟩ := by
    refine ⟨⟨by decide, by decide⟩, fun value isValue => ?_⟩
    obtain rfl := Option.some.inj isValue
    exact isInitial
  have bare : Uniform.IsDeclarable ⟨"uniform", .mat3, none⟩ :=
    ⟨⟨by decide, by decide⟩, fun value isValue => by contradiction⟩
  have declarable : ∀ u ∈ Sample.awkwardUniforms, u.IsDeclarable :=
    List.forall_mem_cons.mpr ⟨valued, List.forall_mem_singleton.mpr bare⟩
  have plain : ∀ parameter ∈ Sample.awkwardParameters, parameter.IsPlain :=
    List.forall_mem_cons.mpr ⟨⟨by decide, by decide⟩,
      List.forall_mem_singleton.mpr ⟨by decide, by decide⟩⟩
  have text : signatureText Sample.awkwardUniforms Sample.awkwardParameters =
      Sample.awkwardSource := by decide
  have loose : readParameters "highp vec2  a ,\nconst out int in_" =
      .ok [⟨"a", .vec2, .input⟩, ⟨"in_", .int, .output⟩] := by decide
  have tidied : parameterText [⟨"a", .vec2, .input⟩, ⟨"in_", .int, .output⟩] =
      "in vec2 a, out int in_" := by decide
  obtain ⟨isRead, again⟩ := read_signature declarable plain
  rw [text] at isRead
  have readAgain := again _ _ loose
  rw [tidied] at readAgain
  exact ⟨declarable, plain, isRead (some "3d"), loose, readAgain⟩

end ShaderBlocks
