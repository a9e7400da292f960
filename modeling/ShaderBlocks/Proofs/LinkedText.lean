import Mathlib.Tactic.Choose
import ShaderBlocks.Proofs.Dataflow
import ShaderBlocks.Proofs.ProgramHistory
import ShaderBlocks.Proofs.ProgramText

/-!
# Linked texts are sources

Whatever a material compiles to, if the sources of its graph have only the usual blanks, is
itself the source of a fragment. All names that go into the program are words: those of the
variables because outlets are named by identifiers, those of the functions because they are
generated. So the uniforms of the text are those of the program, its entry is the main
function, and in between stand, for every call, the items that the text for this call has when
it is read alone.
-/

namespace ShaderBlocks

open Text Source Emission

/-- The hint of a name is a part of the name. -/
theorem mem_of_mem_hintFor {name : String} {c : Char} (member : c ∈ (hintFor name).toList) :
    c ∈ name.toList := by
  have within : ∀ {ending front : List Char}, stripEnd? ending name.toList = some front →
      c ∈ front → c ∈ name.toList := by
    intro ending front stripped inFront
    rw [eq_append_of_stripEnd? stripped]
    exact List.mem_append_left _ inFront
  simp only [hintFor] at member
  split at member
  · rename_i first stem stripped
    rw [String.toList_ofList] at member
    rcases Option.or_eq_some_iff.mp stripped with isIn | ⟨-, isOut⟩
    · exact within isIn member
    · exact within isOut member
  · exact member

/-- The identifier of an outlet whose name is a word is a word. -/
theorem Outlet.isWord_idFor {name : String} (isWord : IsWord name.toList) (owner : BlockIndex)
    (slot : Nat) : IsWord (idFor (hintFor name) owner slot).toList := by
  have start : IsWord "v_".toList := by decide
  have mark : ∀ c ∈ "_".toList, isWordChar c = true := List.all_eq_true.mp (by decide)
  have hint : ∀ c ∈ (hintFor name).toList, isWordChar c = true :=
    fun c member => isWord.2 c (mem_of_mem_hintFor member)
  simp only [idFor, String.toList_append]
  have digits : ∀ number : Nat, ∀ c ∈ (toString number).toList, isWordChar c = true :=
    fun _ _ => isWordChar_of_mem_toString
  exact ((((start.append hint).append mark).append (digits owner)).append mark).append (digits slot)

/-- The outlets of a plain fragment are named by words. -/
theorem Fragment.IsPlain.isWord_outlet {fragment : Fragment} (plain : fragment.IsPlain)
    {spec : OutletSpec} (member : spec ∈ fragment.outlets) : IsWord spec.name.toList := by
  rcases mem_outlets.mp member with ⟨parameter, isParameter, rfl⟩ | ⟨u, isUniform, rfl⟩
  · exact isWord_of_isIdentifier (plain.parameters parameter isParameter)
  · exact isWord_of_isIdentifier (plain.items _ (mem_uniforms.mp isUniform)).name

/-- The outlets of a block with plain fragments have words as identifiers. -/
theorem Block.Lawful.isWord_id {block : Block} (lawful : block.Lawful)
    (plain : ∀ phase, (block.fragmentFor phase).IsPlain) {outlet : Outlet}
    (member : outlet ∈ block.outlets) : IsWord outlet.id.toList := by
  obtain ⟨slot, place⟩ := List.mem_iff_getElem?.mp member
  obtain ⟨phase, described⟩ := BlockKind.described_of_mem_outlets lawful.described
    (List.mem_map_of_mem member)
  rw [lawful.identified slot outlet place]
  exact Outlet.isWord_idFor ((plain phase).isWord_outlet described) block.index slot

/-- A step that declares nothing but what can be written. -/
def Step.IsPlain : Step → Prop
  | .declare _ name _ => IsWord name.toList
  | .declareExternal u => u.IsPlain
  | _ => True

/-- A call of a function with a generated name and the text of a plain fragment, that passes
variables of the program. -/
structure Program.CallReadable (program : Program) (call : Call) : Prop where
  /-- The name of the function is generated. -/
  name : IsGenerated call.name
  /-- The variables passed are declared. -/
  args : ∀ cell ∈ call.args, program.Declares call.phase cell
  /-- The text is that of a plain fragment. -/
  body : ∃ (fragment : Fragment) (replaced : List String),
    fragment.IsPlain ∧ call.body = fragment.render call.name replaced

/-- A call stays readable when the program grows. -/
theorem Program.CallReadable.mono {before after : Program} {call : Call}
    (extension : before.Extends after) (readable : before.CallReadable call) :
    after.CallReadable call where
  name := readable.name
  args cell passed := by
    obtain ⟨type, isLocal⟩ := readable.args cell passed
    exact ⟨type, extension.locals.subset isLocal⟩
  body := readable.body

namespace Graph

/-- The fragments of a graph were read from sources with only the usual blanks. -/
def PlainlyRead (graph : Graph) : Prop :=
  ∀ block ∈ graph.blocks, ∀ phase, ∃ name source,
    Fragment.read name source = .ok (block.fragmentFor phase) ∧ PlainBlanks source.toList

variable {graph : Graph} {material : BlockIndex} {block : Block}

/-- The fragments of a block of such a graph are plain. -/
theorem PlainlyRead.isPlain (plainly : graph.PlainlyRead) {index : BlockIndex}
    (found : graph.find? index = some block) (phase : Phase) :
    (block.fragmentFor phase).IsPlain := by
  obtain ⟨name, source, read, blanks⟩ := plainly block (find?_eq_some.mp found).1 phase
  exact Fragment.isPlain_of_read read blanks

/-- An outlet that is found in the graph has a word as its identifier. -/
theorem PlainlyRead.isWord_id (plainly : graph.PlainlyRead) (lawful : graph.Lawful)
    {index : BlockIndex} {name : String} {outlet : Outlet} (found : graph.find? index = some block)
    (outletFound : block.outlet? name = some outlet) : IsWord outlet.id.toList :=
  (lawful block (find?_eq_some.mp found).1).isWord_id (plainly.isPlain found)
    (Block.mem_of_outlet? outletFound).1

/-- All variables that are passed have words as names. -/
theorem PlainlyRead.isWord_of_passes (plainly : graph.PlainlyRead) (lawful : graph.Lawful)
    {phase : Phase} {name : String} {type : ValueType}
    (found : graph.find? block.index = some block) (passes : graph.Passes block phase name type) :
    IsWord name.toList := by
  cases passes with
  | output member way outletFound => exact plainly.isWord_id lawful found outletFound
  | input member way fed resolved =>
    obtain ⟨producerFound, sourceFound⟩ := resolve_eq_ok.mp resolved
    exact plainly.isWord_id lawful producerFound sourceFound
  | uniform member fed resolved =>
    obtain ⟨producerFound, sourceFound⟩ := resolve_eq_ok.mp resolved
    exact plainly.isWord_id lawful producerFound sourceFound

/-- Whatever prepares a call declares what can be written. -/
theorem PlainlyRead.isPlain_of_mem_preparation (plainly : graph.PlainlyRead)
    (lawful : graph.Lawful) {phase : Phase} {priority : Priority}
    (found : graph.find? block.index = some block) {step : Step}
    (member : step ∈ graph.preparation block phase priority) : step.IsPlain := by
  cases step with
  | declare scope name type =>
    exact plainly.isWord_of_passes lawful found (declare_mem_preparation.mp member).2
  | declareExternal u =>
    have isUniform := (declareExternal_mem_preparation.mp member).1
    exact (plainly.isPlain found phase).items _ (Fragment.mem_uniforms.mp isUniform)
  | demand | fail | add => trivial

/-- The call of a block, once it is prepared, can be read. -/
theorem PlainlyRead.callReadable (plainly : graph.PlainlyRead) {phase : Phase} {priority : Priority}
    {program : Program} (found : graph.find? block.index = some block)
    (met : ∀ step ∈ graph.preparation block phase priority, step.Met program program.keys) :
    program.CallReadable (graph.blockCall block phase priority) where
  name := isGenerated_callName phase (plainly.isPlain found phase).name.2 block.index
  args _ passed := Program.passesDeclared_of_met met passed
  body := ⟨block.fragmentFor phase, _, plainly.isPlain found phase, rfl⟩

/-- What a material of such a graph compiles to can be read. -/
theorem PlainlyRead.readable_of_compile (plainly : graph.PlainlyRead) (lawful : graph.Lawful)
    {compiled : CompiledProgram} (compiles : graph.compile material = .ok compiled) :
    ∃ program : Program, program.Readable ∧ compiled = program.compile := by
  obtain ⟨block, program, found, -, follows, rfl⟩ := follows_of_compile compiles
  have asked : ∀ step ∈ roots block, step.IsPlain ∧ ∀ other phase priority,
      step = .demand other phase priority → graph.find? other.index = some other := by
    intro step member
    obtain ⟨phase, rfl⟩ := mem_roots.mp member
    refine ⟨trivial, fun other _ _ same => ?_⟩
    injection same with isBlock
    rw [← isBlock, (find?_eq_some.mp found).2, found]
  obtain ⟨locals, externals⟩ := follows.forall_declared Step.IsPlain
    (fun found _ => plainly.isPlain_of_mem_preparation lawful found) asked
    ⟨List.forall_mem_nil _, List.forall_mem_nil _⟩
  have calls := follows.forall_calls (fun block => graph.find? block.index = some block)
    Program.CallReadable Program.CallReadable.mono plainly.callReadable find?_of_demand_mem .empty
    (fun other phase priority member => (asked _ member).2 other phase priority rfl)
    (List.forall_mem_nil _)
  refine ⟨program, ⟨externals, locals, fun call member => (calls call member).name, ?_,
    fun call member => (calls call member).body⟩, rfl⟩
  intro call member cell passed
  obtain ⟨type, isLocal⟩ := (calls call member).args cell passed
  exact locals _ isLocal

/-- The text of either phase of a compiled material is the source of a fragment. Its entry is
the main function that ends the text, without parameters. Its uniforms are those that the
program is fed, in order and without values. Before the entry stand these uniforms and, call by
call, the items that the text for the call is read as when it stands alone: the function that
is called is one of them, a uniform or a main function is not. Behind the entry stands
nothing. -/
theorem read_text_of_compile {compiled : CompiledProgram} (obtainable : graph.Obtainable)
    (plainly : graph.PlainlyRead) (compiles : graph.compile material = .ok compiled)
    (phase : Phase) :
    ∃ (parsed : Fragment) (items : Call → List Item),
      Fragment.read none (compiled.text phase) = .ok parsed ∧
      parsed.entry.name = "main" ∧ parsed.parameters = [] ∧
      (∃ front, compiled.text phase = front ++ "void main() " ++ parsed.entry.body ++ "\n") ∧
      parsed.uniforms = compiled.uniforms.map Uniform.declared ∧
      parsed.before = (compiled.uniforms.map fun u => .uniform u.declared) ++
        (compiled.callsOf phase).flatMap items ∧
      parsed.after = [] ∧
      ∀ call ∈ compiled.callsOf phase,
        Item.readAll (Program.renderBody call).toList = .ok (items call) ∧
          (∀ item ∈ items call, item.IsInner) ∧
          ∃ f, .function f ∈ items call ∧ f.name = call.name := by
  obtain ⟨program, readable, rfl⟩ := plainly.readable_of_compile obtainable.lawful compiles
  have each : ∀ call ∈ program.callsOf phase, ∃ items,
      Listed (Program.renderBody call).toList items ∧ (∀ item ∈ items, item.IsInner) ∧
        ∃ f, .function f ∈ items ∧ f.name = call.name :=
    fun call member => readable.listed_renderBody (List.mem_filter.mp member).1
  choose! items listed inner called using each
  have text : program.compile.text phase = program.renderPhase phase := by cases phase <;> rfl
  rw [text]
  refine ⟨program.linked phase items, items, readable.read_renderPhase listed inner, rfl, rfl,
    program.renderPhase_eq_append phase, Program.uniforms_linked inner, rfl, rfl, ?_⟩
  intro call member
  exact ⟨(listed call member).readAll, inner call member, called call member⟩

/-- The sample is read from sources with only the usual blanks. -/
theorem plainlyRead_sample : Sample.graph.PlainlyRead := by
  intro block member phase
  have isBlock : block ∈ [Sample.wave, Sample.scale (some Sample.height) (some Sample.height),
    Sample.surface (some Sample.height) (some Sample.scaled)] := member
  simp only [List.mem_cons, List.not_mem_nil, or_false] at isBlock
  rcases isBlock with rfl | rfl | rfl
  · exact ⟨none, "uniform float speed; void wave(out float hOut) \x7b hOut = speed; \x7d", rfl,
      by decide⟩
  · exact ⟨none,
      "uniform float gain; void scale(in float xIn, out float yOut) \x7b yOut = gain * xIn; \x7d",
      rfl, by decide⟩
  · cases phase with
    | vertex => exact ⟨some "material", "void main(in float aIn) \x7b \x7d", rfl, by decide⟩
    | fragment =>
      exact ⟨some "material", "void main(in float aIn, in float bIn) \x7b \x7d", rfl, by decide⟩

/-- In the sample the text of the fragment phase is read with the one uniform that is fed. -/
theorem read_text_of_compile_sample :
    Sample.graph.Obtainable ∧ Sample.graph.PlainlyRead ∧
      ∃ compiled parsed, Sample.graph.compile 3 = .ok compiled ∧
        Fragment.read none (compiled.text .fragment) = .ok parsed ∧
        parsed.entry.name = "main" ∧ parsed.parameters = [] ∧
        parsed.uniforms = [⟨"speed", .float, none⟩] := by
  have obtainable := Sample.graph_built.obtainable
  obtain ⟨compiled, compiles, uniforms⟩ : ∃ compiled, Sample.graph.compile 3 = .ok compiled ∧
      compiled.uniforms = [⟨"speed", .float, none⟩] := by
    obtain ⟨compiled, compiles, -⟩ := Sample.graph_compiles
    have fed : (Sample.graph.compile 3).toOption.map CompiledProgram.uniforms =
        some [⟨"speed", .float, none⟩] := rfl
    rw [compiles] at fed
    exact ⟨compiled, compiles, Option.some.inj fed⟩
  obtain ⟨parsed, items, read, named, parameters, -, declared, -⟩ :=
    read_text_of_compile obtainable plainlyRead_sample compiles .fragment
  refine ⟨obtainable, plainlyRead_sample, compiled, parsed, compiles, read, named, parameters, ?_⟩
  rw [declared, uniforms]
  rfl

end Graph

end ShaderBlocks
