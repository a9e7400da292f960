import Mathlib.Data.List.Forall2
import ShaderBlocks.Proofs.CallArguments

/-!
# The types of the arguments

The arguments of a call are gathered while its preparation goes on; the parameter list of
the function that it calls is written later, from the fragment and the names of the
uniforms that were replaced. The two agree. A call has one argument for each parameter
that is written, and its phase declares this argument once, with the type that is written
at its place, whatever is declared after the call was added. A uniform that is not linked
is no parameter; the program declares it once, with the type that the fragment gives it.
-/

namespace ShaderBlocks

open Emission

namespace Fragment

/-- The parameters of the function that a fragment becomes at a call: those of the entry
function, and an input for each uniform that is fed by an argument. -/
def calledParameters (fragment : Fragment) (call : String) (replaced : List String) :
    List Parameter :=
  fragment.parameters ++ (fragment.replacedUniforms replaced).map fun uniform =>
    ⟨feedName call uniform, uniform.type, .input⟩

/-- The parameters of a call, with their types, are what is written between the parentheses
of the function. -/
theorem renderEntry_eq (fragment : Fragment) (call : String) (replaced : List String) :
    fragment.renderEntry call replaced =
      fragment.entry.returnType ++ " " ++ call ++ "(" ++
        ", ".intercalate ((fragment.calledParameters call replaced).map renderParameter) ++ ") " ++
          fillUniforms call (fragment.replacedUniforms replaced)
            ((fragment.spellings call replaced).rename fragment.entry.body) := by
  have feeds : (fragment.replacedUniforms replaced).map (renderFeed call) =
      ((fragment.replacedUniforms replaced).map fun uniform =>
        (⟨feedName call uniform, uniform.type, .input⟩ : Parameter)).map renderParameter := by
    rw [List.map_map]
    rfl
  rw [renderEntry, calledParameters, List.map_append, feeds]

/-- One of some texts on lines of their own stands behind the lines of those before it. -/
theorem intercalate_line (front : List String) (text : String) (back : List String) :
    ∃ rest, "\n".intercalate (front ++ text :: back) =
      String.join (front.map (· ++ "\n")) ++ text ++ rest := by
  induction front with
  | nil =>
    cases back with
    | nil => exact ⟨"", by simp⟩
    | cons next others =>
      exact ⟨"\n" ++ "\n".intercalate (next :: others), by simp [String.append_assoc]⟩
  | cons first front ih =>
    obtain ⟨rest, written⟩ := ih
    refine ⟨rest, ?_⟩
    rw [List.cons_append, String.intercalate_cons_of_ne_nil (by simp), written, List.map_cons,
      String.join_cons]
    simp only [String.append_assoc]

/-- In the text of a call the function begins on a line of its own, with the parameters. -/
theorem exists_render_eq (fragment : Fragment) (call : String) (replaced : List String) :
    ∃ (front : List String) (rest : String), fragment.render call replaced =
      String.join (front.map (· ++ "\n")) ++
        (fragment.entry.returnType ++ " " ++ call ++ "(" ++
          ", ".intercalate ((fragment.calledParameters call replaced).map renderParameter) ++
            ") ") ++ rest := by
  let item := renderItem call replaced (fragment.spellings call replaced)
  obtain ⟨rest, written⟩ := intercalate_line (fragment.before.filterMap item)
    (fragment.renderEntry call replaced) (fragment.after.filterMap item)
  have rendered : fragment.render call replaced = _ := written
  rw [renderEntry_eq] at rendered
  refine ⟨fragment.before.filterMap item, fillUniforms call (fragment.replacedUniforms replaced)
    ((fragment.spellings call replaced).rename fragment.entry.body) ++ rest, rendered.trans ?_⟩
  simp only [String.append_assoc]

end Fragment

/-- Of items with distinct labels, one alone has the label of an item. -/
theorem filter_eq_singleton {α β : Type} [DecidableEq β] {label : α → β} {items : List α}
    (distinct : (items.map label).Nodup) {item : α} (member : item ∈ items) :
    items.filter (label · = label item) = [item] := by
  induction items with
  | nil => cases member
  | cons first rest ih =>
    obtain ⟨absent, restDistinct⟩ := List.nodup_cons.mp distinct
    have others : ∀ other ∈ rest, label other ≠ label first :=
      fun other inRest same => absent (same ▸ List.mem_map_of_mem inRest)
    rcases List.mem_cons.mp member with rfl | inRest
    · rw [List.filter_cons_of_pos (by simp)]
      congr 1
      exact List.filter_eq_nil_iff.mpr fun other inRest => by simpa using others other inRest
    · rw [List.filter_cons_of_neg (by simpa using (others item inRest).symm)]
      exact ih restDistinct inRest

namespace Program.Tracked

/-- A variable that a phase declares is declared once. -/
theorem filter_localsOf {path : List Key} {program : Program} (tracked : Tracked path program)
    {cell : Variable} (member : cell ∈ program.locals) :
    (program.localsOf cell.phase).filter (·.name = cell.name) = [cell] := by
  have once := filter_eq_singleton tracked.localsDistinct member
  simp only [Prod.mk.injEq] at once
  rw [localsOf, List.filter_filter, ← once]
  exact List.filter_congr fun other _ => by simp [and_comm]

/-- A uniform that is declared is declared once. -/
theorem filter_externals {path : List Key} {program : Program} (tracked : Tracked path program)
    {uniform : Uniform} (member : uniform ∈ program.externals) :
    program.externals.filter (·.name = uniform.name) = [uniform] :=
  filter_eq_singleton tracked.externalsDistinct member

end Program.Tracked

namespace Slot

/-- The type at which the call passes a variable. -/
def type? : Slot → Option ValueType
  | output _ type => some type
  | input _ _ type => some type
  | replaced uniform _ _ => some uniform.type
  | external _ => none
  | broken _ => none

/-- What is passed is declared at the type at which it is passed. -/
theorem forall₂_declare (phase : Phase) (priority : Priority) (slots : List Slot) :
    List.Forall₂ (fun cell type => Step.declare phase cell type ∈
        slots.flatMap (Slot.steps phase priority))
      (slots.filterMap argument?) (slots.filterMap type?) := by
  -- The steps of the slots passed over stay part of the whole list.
  suffices general : ∀ front : List Slot,
      List.Forall₂ (fun cell type => Step.declare phase cell type ∈
          (front ++ slots).flatMap (Slot.steps phase priority))
        (slots.filterMap argument?) (slots.filterMap type?) from general []
  induction slots with
  | nil => exact fun _ => .nil
  | cons slot rest ih =>
    intro front
    have restDeclared := ih (front ++ [slot])
    rw [List.append_assoc, List.singleton_append] at restDeclared
    have here : ∀ {step : Step}, step ∈ slot.steps phase priority →
        step ∈ (front ++ slot :: rest).flatMap (Slot.steps phase priority) :=
      fun member => List.mem_flatMap.mpr
        ⟨slot, List.mem_append_right _ List.mem_cons_self, member⟩
    cases slot with
    | output name type => exact .cons (here (by simp [steps])) restDeclared
    | input producer name type => exact .cons (here (by simp [steps])) restDeclared
    | replaced uniform producer name => exact .cons (here (by simp [steps])) restDeclared
    | external uniform => exact restDeclared
    | broken error => exact restDeclared

end Slot

namespace Graph

/-- What the call does about a parameter passes a variable at the type of the parameter,
unless the call cannot be made. -/
theorem type?_parameterSlot (graph : Graph) (block : Block) (parameter : Parameter) :
    (graph.parameterSlot block.index block.node parameter).type? = some parameter.type ∨
      ∃ error, graph.parameterSlot block.index block.node parameter = .broken error := by
  cases found : block.outlet? parameter.name with
  | none => exact .inr ⟨_, by rw [parameterSlot, get_node_of_absent found]⟩
  | some outlet =>
    cases way : parameter.direction with
    | output => exact .inl (by rw [parameterSlot_of_output way found]; rfl)
    | input =>
      cases isFeed : outlet.feed with
      | none => exact .inr ⟨_, parameterSlot_of_missing way found isFeed⟩
      | some feed =>
        have fed : block.feed? parameter.name = some feed := by simp [Block.feed?, found, isFeed]
        cases resolved : graph.resolve feed with
        | ok pair => exact .inl (by rw [parameterSlot_of_input way fed resolved]; rfl)
        | error error =>
          refine .inr ⟨error, ?_⟩
          simp [parameterSlot, Block.get_node_eq_ok.mpr found, way, isFeed, resolved]

/-- A call that can be made passes its variables at the types that are written in the
parameter list of the function. -/
theorem filterMap_type? {graph : Graph} {block : Block} {phase : Phase} {priority : Priority}
    (sound : ∀ error, Step.fail error ∉ graph.preparation block phase priority) (call : String) :
    (graph.slots block.index block.node (block.fragmentFor phase)).filterMap Slot.type? =
      ((block.fragmentFor phase).calledParameters call (block.callee phase).replaced).map
        (·.type) := by
  have parameters : ∀ parameter ∈ (block.fragmentFor phase).parameters,
      (graph.parameterSlot block.index block.node parameter).type? = some parameter.type := by
    intro parameter member
    rcases graph.type?_parameterSlot block parameter with typed | ⟨error, slot⟩
    · exact typed
    · exact absurd slot (ne_broken_of_sound sound
        (List.mem_append_left _ (List.mem_map_of_mem member)) error)
  have uniforms : ∀ uniform ∈ (block.fragmentFor phase).uniforms,
      (graph.uniformSlot block.node uniform).type? =
        if (block.feed? uniform.name).isSome = true then some uniform.type else none := by
    intro uniform member
    rcases graph.uniformSlot_cases block uniform with
      ⟨unfed, slot⟩ | ⟨producer, cell, fed, slot⟩ | ⟨error, slot⟩
    · rw [slot, unfed]
      rfl
    · rw [slot, if_pos fed]
      rfl
    · exact absurd slot (ne_broken_of_sound sound
        (List.mem_append_right _ (List.mem_map_of_mem member)) error)
  calc (graph.slots block.index block.node (block.fragmentFor phase)).filterMap Slot.type?
      = (block.fragmentFor phase).parameters.filterMap
            (fun parameter => (graph.parameterSlot block.index block.node parameter).type?) ++
          (block.fragmentFor phase).uniforms.filterMap
            (fun uniform => (graph.uniformSlot block.node uniform).type?) := by
        rw [slots, List.filterMap_append, List.filterMap_map, List.filterMap_map]
        rfl
    _ = (block.fragmentFor phase).parameters.map (·.type) ++
          ((block.fragmentFor phase).uniforms.filter fun uniform =>
            (block.feed? uniform.name).isSome).map (·.type) := by
        rw [List.filterMap_eq_map_iff_forall_eq_some.mpr parameters,
          List.filterMap_congr uniforms, ← List.filterMap_filter, List.filterMap_eq_map']
    _ = _ := by
        rw [Fragment.calledParameters, List.map_append, List.map_map,
          block.replacedUniforms_callee]
        rfl

/-- The parameters of the function that is written for a call of a block. -/
def parametersOf (block : Block) (call : Call) : List Parameter :=
  (block.fragmentFor call.phase).calledParameters call.name (block.callee call.phase).replaced

/-- A call agrees with the function that it calls, and with the declarations of the program:
it is the call of `block`, and the names at its places have the types that are written
there. -/
structure CallTyped (program : Program) (block : Block) (call : Call) : Prop where
  /-- The call is made for the block. -/
  origin : call.origin = block.index
  /-- The function is the fragment of the block for the phase, with the linked uniforms fed
  by arguments. -/
  body : call.body =
    (block.fragmentFor call.phase).render call.name (block.callee call.phase).replaced
  /-- The text of the call has the function on a line of its own, under the name of the call and
  with the parameters. -/
  header : ∃ (front : List String) (rest : String), call.body =
    String.join (front.map (· ++ "\n")) ++
      ((block.fragmentFor call.phase).entry.returnType ++ " " ++ call.name ++ "(" ++
        ", ".intercalate ((parametersOf block call).map Fragment.renderParameter) ++ ") ") ++ rest
  /-- There are as many arguments as parameters. -/
  arity : call.args.length = (parametersOf block call).length
  /-- The phase declares each argument once, with the type of the parameter at its place. -/
  args : ∀ (position : Nat) (cell : String) (parameter : Parameter),
    call.args[position]? = some cell → (parametersOf block call)[position]? = some parameter →
    (program.localsOf call.phase).filter (·.name = cell) = [⟨call.phase, cell, parameter.type⟩]
  /-- The program declares each uniform that is not linked once, with its type. -/
  externals : ∀ uniform ∈ (block.fragmentFor call.phase).uniforms,
    block.feed? uniform.name = none →
    ∃ value, program.externals.filter (·.name = uniform.name) =
      [⟨uniform.name, uniform.type, value⟩]

/-- What the preparation of a call asked for is declared. -/
structure CallDeclared (program : Program) (block : Block) (call : Call) : Prop where
  /-- The call is made for the block. -/
  origin : call.origin = block.index
  /-- The function is that of the block. -/
  body : call.body =
    (block.fragmentFor call.phase).render call.name (block.callee call.phase).replaced
  /-- Arguments are declared at the types that are written. -/
  args : List.Forall₂ (fun cell type => ⟨call.phase, cell, type⟩ ∈ program.locals) call.args
    ((parametersOf block call).map (·.type))
  /-- Uniforms that are not linked are declared. -/
  externals : ∀ uniform ∈ (block.fragmentFor call.phase).uniforms,
    block.feed? uniform.name = none →
    ∃ held ∈ program.externals, held.name = uniform.name ∧ held.type = uniform.type

/-- Declarations stay. -/
theorem CallDeclared.mono {before after : Program} {block : Block} {call : Call}
    (declared : CallDeclared before block call) (extension : before.Extends after) :
    CallDeclared after block call where
  origin := declared.origin
  body := declared.body
  args := declared.args.imp fun _ _ member => extension.locals.subset member
  externals := by
    intro uniform member unfed
    obtain ⟨held, heldMember, same⟩ := declared.externals uniform member unfed
    exact ⟨held, extension.externals.subset heldMember, same⟩

/-- When the preparation of a call is met, what it passes is declared. -/
theorem callDeclared_of_met {graph : Graph} {block : Block} {phase : Phase} {priority : Priority}
    {program : Program} (met : ∀ step ∈ graph.preparation block phase priority,
      step.Met program program.keys) :
    CallDeclared program block (graph.blockCall block phase priority) := by
  have sound : ∀ error, Step.fail error ∉ graph.preparation block phase priority :=
    fun error member => met _ member
  refine ⟨rfl, ?_, ?_, ?_⟩
  · change Fragment.render _ _ _ = _
    rw [filterMap_replaced? sound]
    rfl
  · have declared := Slot.forall₂_declare phase priority
      (graph.slots block.index block.node (block.fragmentFor phase))
    rw [filterMap_type? sound (graph.blockCall block phase priority).name] at declared
    exact declared.imp fun cell type member => met _ member
  · intro uniform member unfed
    have asked : Step.declareExternal uniform ∈ graph.preparation block phase priority := by
      apply mem_preparation_of_uniform member
      rcases graph.uniformSlot_cases block uniform with
        ⟨-, slot⟩ | ⟨producer, cell, fed, -⟩ | ⟨error, slot⟩
      · rw [slot]
        exact List.mem_singleton_self _
      · rw [unfed] at fed
        contradiction
      · exact absurd slot (ne_broken_of_sound sound
          (List.mem_append_right _ (List.mem_map_of_mem member)) error)
    exact met _ asked

/-- Names that are declared once are found once. -/
theorem CallDeclared.typed {path : List Key} {program : Program} {block : Block} {call : Call}
    (declared : CallDeclared program block call) (tracked : program.Tracked path) :
    CallTyped program block call where
  origin := declared.origin
  body := declared.body
  header := by
    rw [declared.body]
    exact Fragment.exists_render_eq _ _ _
  arity := by
    rw [declared.args.length_eq, List.length_map]
  args := by
    intro position cell parameter isCell isParameter
    obtain ⟨-, pointwise⟩ := List.forall₂_iff_get.mp declared.args
    obtain ⟨below, rfl⟩ := List.getElem?_eq_some_iff.mp isCell
    obtain ⟨parameterBelow, rfl⟩ := List.getElem?_eq_some_iff.mp isParameter
    have member := pointwise position below (by simpa using parameterBelow)
    simp only [List.get_eq_getElem, List.getElem_map] at member
    exact tracked.filter_localsOf member
  externals := by
    intro uniform member unfed
    obtain ⟨held, heldMember, sameName, sameType⟩ := declared.externals uniform member unfed
    refine ⟨held.value, ?_⟩
    rw [← sameName, ← sameType]
    exact tracked.filter_externals heldMember

/-- The calls of a compiled block are well typed. Each is the call of the block or of a block
of the graph, in some phase; it has as many arguments as the function that is written for it
has parameters; the phase declares every argument once, with the type that is written at its
place; and the program declares every uniform that is not linked once, with its type. -/
theorem calls_typed_of_compile {graph : Graph} {block : Block} {compiled : CompiledProgram}
    (compiles : block.compile graph = .ok compiled) :
    ∃ program, block.compileInto graph .empty = .ok program ∧ compiled = program.compile ∧
      ∀ call ∈ compiled.calls, ∃ caller, (caller = block ∨ caller ∈ graph.blocks) ∧
        CallTyped program caller call := by
  simp only [Block.compile, bind, Except.bind] at compiles
  split at compiles
  · contradiction
  · rename_i program put
    cases compiles
    obtain ⟨-, follows⟩ := follows_of_compileInto put
    refine ⟨program, put, rfl, fun call member => ?_⟩
    have declared : ∀ call ∈ program.calls, ∃ caller,
        (caller = block ∨ caller ∈ graph.blocks) ∧ CallDeclared program caller call := by
      refine follows.forall_calls (fun caller => caller = block ∨ caller ∈ graph.blocks)
        (fun program call => ∃ caller, (caller = block ∨ caller ∈ graph.blocks) ∧
          CallDeclared program caller call) ?_ ?_ ?_ .empty ?_ ?_
      · rintro before after call extension ⟨caller, known, declared⟩
        exact ⟨caller, known, declared.mono extension⟩
      · intro caller phase priority program known met
        exact ⟨caller, known, callDeclared_of_met met⟩
      · intro caller producer phase asked priority rank demanded
        exact .inr (find?_eq_some.mp (find?_of_demand_mem demanded)).1
      · intro caller phase priority demanded
        obtain ⟨_, same⟩ := mem_roots.mp demanded
        injection same with isBlock
        exact .inl isBlock
      · simp [Program.empty]
    obtain ⟨caller, known, isDeclared⟩ := declared call member
    exact ⟨caller, known, isDeclared.typed (follows.tracked .empty)⟩

/-- In the sample every call is well typed: the wave leaves its uniform outside, the scaling
takes its uniform from an argument. -/
theorem calls_typed_of_compile_sample :
    ∃ compiled program, (Sample.surface (some Sample.height) (some Sample.scaled)).compile
        Sample.graph = .ok compiled ∧ compiled = program.compile ∧
      compiled.calls.map Call.key =
        [(1, .vertex), (3, .vertex), (1, .fragment), (2, .fragment), (3, .fragment)] ∧
      ∀ call ∈ compiled.calls, ∃ caller,
        (caller = Sample.surface (some Sample.height) (some Sample.scaled) ∨
          caller ∈ Sample.graph.blocks) ∧ CallTyped program caller call := by
  obtain ⟨compiled, compiles, keys⟩ := Sample.graph_compiles
  have surfaceCompiles : (Sample.surface (some Sample.height) (some Sample.scaled)).compile
      Sample.graph = .ok compiled := compiles
  obtain ⟨program, -, isProgram, typed⟩ := calls_typed_of_compile surfaceCompiles
  exact ⟨compiled, program, surfaceCompiles, isProgram, keys, typed⟩

end Graph

end ShaderBlocks
