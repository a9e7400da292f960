import Mathlib.Logic.Relation
import ShaderBlocks.Emission
import ShaderBlocks.Proofs.Relinking

/-!
# What a call depends on

A block in a phase needs the blocks that feed what its fragment for the phase names, in
the same phase; and if such a block is a material and the phase is the fragment phase,
it needs the material in the vertex phase too. This relation is read off the graph
alone. Emission, on the other hand, goes through a list of steps before it makes a call.
Here the two meet: the steps before a call ask for the blocks that the call needs and for
no other, and declare the variables and uniforms that the call passes.
-/

namespace ShaderBlocks

/-- The place of a call: the block and the phase. -/
def Call.key (call : Call) : Key :=
  (call.origin, call.phase)

/-- An outlet named by a parameter or uniform of the fragment for a phase is fed. -/
def Block.FedBy (block : Block) (phase : Phase) (feed : Endpoint) : Prop :=
  ∃ spec ∈ (block.fragmentFor phase).outlets, block.feed? spec.name = some feed

namespace Graph

/-- What a block in a phase needs: whatever feeds it, in the same phase, and a material
that feeds it in the fragment phase also in the vertex phase. -/
inductive Needs (graph : Graph) : Key → Key → Prop
  | feeder {block : Block} {phase : Phase} {feed : Endpoint}
      (found : graph.find? block.index = some block) (fed : block.FedBy phase feed) :
      Needs graph (block.index, phase) (feed.block, phase)
  | vertexStage {block feeder : Block} {feed : Endpoint}
      (found : graph.find? block.index = some block) (fed : block.FedBy .fragment feed)
      (feederFound : graph.find? feed.block = some feeder)
      (material : feeder.isMaterial = true) :
      Needs graph (block.index, .fragment) (feed.block, .vertex)

/-- The least set that holds a material in both phases, and with a block in a phase all
that it needs. -/
inductive Needed (graph : Graph) (material : BlockIndex) : Key → Prop
  | root (phase : Phase) : Needed graph material (material, phase)
  | step {consumer producer : Key} (needed : Needed graph material consumer)
      (needs : graph.Needs consumer producer) : Needed graph material producer

/-- The steps that come before the call of a block in a phase. -/
def preparation (graph : Graph) (block : Block) (phase : Phase) (priority : Priority) : List Step :=
  (graph.slots block.index block.node (block.fragmentFor phase)).flatMap
    (Slot.steps phase priority)

/-- The call of a block in a phase. -/
def blockCall (graph : Graph) (block : Block) (phase : Phase) (priority : Priority) : Call :=
  graph.call block.index block.node (block.fragmentFor phase) phase priority

/-- The call of a block in a phase stands at the block and the phase. -/
@[simp] theorem key_blockCall (graph : Graph) (block : Block) (phase : Phase)
    (priority : Priority) : (graph.blockCall block phase priority).key = (block.index, phase) := rfl

/-- The steps to the call of a block are its preparation and the call. -/
theorem blockSteps_eq (graph : Graph) (block : Block) (phase : Phase) (priority : Priority) :
    graph.blockSteps block phase priority =
      graph.preparation block phase priority ++
        [.add (graph.blockCall block phase priority)] := by
  simp only [blockSteps, steps, block.owned, preparation, blockCall]

/-- How the call of a block in a phase can come by what it does about a parameter or a
uniform. -/
inductive SlotFor (graph : Graph) (block : Block) (phase : Phase) : Slot → Prop
  | output {parameter : Parameter} {outlet : Outlet}
      (member : parameter ∈ (block.fragmentFor phase).parameters)
      (way : parameter.direction = .output)
      (found : block.outlet? parameter.name = some outlet) :
      SlotFor graph block phase (.output outlet.id parameter.type)
  | input {parameter : Parameter} {feed : Endpoint} {producer : Block} {source : Outlet}
      (member : parameter ∈ (block.fragmentFor phase).parameters)
      (way : parameter.direction = .input)
      (fed : block.feed? parameter.name = some feed)
      (resolved : graph.resolve feed = .ok (producer, source)) :
      SlotFor graph block phase (.input producer source.id parameter.type)
  | replaced {uniform : Uniform} {feed : Endpoint} {producer : Block} {source : Outlet}
      (member : uniform ∈ (block.fragmentFor phase).uniforms)
      (fed : block.feed? uniform.name = some feed)
      (resolved : graph.resolve feed = .ok (producer, source)) :
      SlotFor graph block phase (.replaced uniform producer source.id)
  | external {uniform : Uniform} {outlet : Outlet}
      (member : uniform ∈ (block.fragmentFor phase).uniforms)
      (found : block.outlet? uniform.name = some outlet) (unfed : outlet.feed = none) :
      SlotFor graph block phase (.external uniform)
  | unknown {spec : OutletSpec} (member : spec ∈ (block.fragmentFor phase).outlets)
      (absent : block.outlet? spec.name = none) :
      SlotFor graph block phase (.broken (.unknownOutlet (some block.index) spec.name))
  | missing {parameter : Parameter} {outlet : Outlet}
      (member : parameter ∈ (block.fragmentFor phase).parameters)
      (way : parameter.direction = .input)
      (found : block.outlet? parameter.name = some outlet) (unfed : outlet.feed = none) :
      SlotFor graph block phase
        (.broken (.missingConnection block.index parameter.name outlet.name))
  | unresolved {spec : OutletSpec} {feed : Endpoint} {error : GraphError}
      (member : spec ∈ (block.fragmentFor phase).outlets)
      (fed : block.feed? spec.name = some feed) (failed : graph.resolve feed = .error error) :
      SlotFor graph block phase (.broken error)

/-- The call of a block in a phase passes a variable at a type: its own one for an output
parameter, that of the outlet which feeds it for an input parameter or a uniform. -/
inductive Passes (graph : Graph) (block : Block) (phase : Phase) : String → ValueType → Prop
  | output {parameter : Parameter} {outlet : Outlet}
      (member : parameter ∈ (block.fragmentFor phase).parameters)
      (way : parameter.direction = .output)
      (found : block.outlet? parameter.name = some outlet) :
      Passes graph block phase outlet.id parameter.type
  | input {parameter : Parameter} {feed : Endpoint} {producer : Block} {source : Outlet}
      (member : parameter ∈ (block.fragmentFor phase).parameters)
      (way : parameter.direction = .input)
      (fed : block.feed? parameter.name = some feed)
      (resolved : graph.resolve feed = .ok (producer, source)) :
      Passes graph block phase source.id parameter.type
  | uniform {uniform : Uniform} {feed : Endpoint} {producer : Block} {source : Outlet}
      (member : uniform ∈ (block.fragmentFor phase).uniforms)
      (fed : block.feed? uniform.name = some feed)
      (resolved : graph.resolve feed = .ok (producer, source)) :
      Passes graph block phase source.id uniform.type

end Graph

/-- A uniform of the fragment for a phase is not linked. -/
def Block.LeavesOutside (block : Block) (phase : Phase) (uniform : Uniform) : Prop :=
  uniform ∈ (block.fragmentFor phase).uniforms ∧
    ∃ outlet, block.outlet? uniform.name = some outlet ∧ outlet.feed = none

namespace Graph

/-- What the call does about an output parameter. -/
theorem parameterSlot_of_output {graph : Graph} {block : Block} {parameter : Parameter}
    {outlet : Outlet} (way : parameter.direction = .output)
    (found : block.outlet? parameter.name = some outlet) :
    graph.parameterSlot block.index block.node parameter =
      .output outlet.id parameter.type := by
  simp [parameterSlot, Block.get_node_eq_ok.mpr found, way]

/-- What the call does about an input parameter that is fed. -/
theorem parameterSlot_of_input {graph : Graph} {block : Block} {parameter : Parameter}
    {feed : Endpoint} {producer : Block} {source : Outlet}
    (way : parameter.direction = .input) (fed : block.feed? parameter.name = some feed)
    (resolved : graph.resolve feed = .ok (producer, source)) :
    graph.parameterSlot block.index block.node parameter =
      .input producer source.id parameter.type := by
  obtain ⟨outlet, found, isFeed⟩ := Option.bind_eq_some_iff.mp fed
  simp [parameterSlot, Block.get_node_eq_ok.mpr found, way, isFeed, resolved]

/-- What the call does about an input parameter that is not fed. -/
theorem parameterSlot_of_missing {graph : Graph} {block : Block} {parameter : Parameter}
    {outlet : Outlet} (way : parameter.direction = .input)
    (found : block.outlet? parameter.name = some outlet) (unfed : outlet.feed = none) :
    graph.parameterSlot block.index block.node parameter =
      .broken (.missingConnection block.index parameter.name outlet.name) := by
  simp [parameterSlot, Block.get_node_eq_ok.mpr found, way, unfed]

/-- What the call does about a uniform that is fed. -/
theorem uniformSlot_of_fed {graph : Graph} {block : Block} {uniform : Uniform}
    {feed : Endpoint} {producer : Block} {source : Outlet}
    (fed : block.feed? uniform.name = some feed)
    (resolved : graph.resolve feed = .ok (producer, source)) :
    graph.uniformSlot block.node uniform = .replaced uniform producer source.id := by
  obtain ⟨outlet, found, isFeed⟩ := Option.bind_eq_some_iff.mp fed
  simp [uniformSlot, Block.get_node_eq_ok.mpr found, isFeed, resolved]

/-- What the call does about a uniform that is not fed. -/
theorem uniformSlot_of_unfed {graph : Graph} {block : Block} {uniform : Uniform}
    {outlet : Outlet} (found : block.outlet? uniform.name = some outlet)
    (unfed : outlet.feed = none) :
    graph.uniformSlot block.node uniform = .external uniform := by
  simp [uniformSlot, Block.get_node_eq_ok.mpr found, unfed]

/-- A node finds no outlet of a name that the block does not have. -/
theorem get_node_of_absent {block : Block} {name : String} (absent : block.outlet? name = none) :
    block.node.get name = .error (.unknownOutlet (some block.index) name) := by
  rw [Node.get, show block.node.outlets.find? (·.name == name) = none from absent, block.owned]

/-- Whatever the call does about a parameter has one of the stated reasons. -/
theorem slotFor_parameter (graph : Graph) (block : Block) {phase : Phase}
    {parameter : Parameter} (member : parameter ∈ (block.fragmentFor phase).parameters) :
    SlotFor graph block phase (graph.parameterSlot block.index block.node parameter) := by
  have described := Fragment.ofParameter_mem_outlets member
  cases found : block.outlet? parameter.name with
  | none =>
    rw [parameterSlot, get_node_of_absent found]
    exact .unknown described found
  | some outlet =>
    cases way : parameter.direction with
    | output =>
      rw [parameterSlot_of_output way found]
      exact .output member way found
    | input =>
      cases isFeed : outlet.feed with
      | none =>
        rw [parameterSlot_of_missing way found isFeed]
        exact .missing member way found isFeed
      | some feed =>
        have fed : block.feed? parameter.name = some feed := by simp [Block.feed?, found, isFeed]
        cases resolved : graph.resolve feed with
        | ok pair =>
          rw [parameterSlot_of_input way fed resolved]
          exact .input member way fed resolved
        | error error =>
          simp only [parameterSlot, Block.get_node_eq_ok.mpr found, way, isFeed, resolved]
          exact .unresolved described fed resolved

/-- Whatever the call does about a uniform has one of the stated reasons. -/
theorem slotFor_uniform (graph : Graph) (block : Block) {phase : Phase} {uniform : Uniform}
    (member : uniform ∈ (block.fragmentFor phase).uniforms) :
    SlotFor graph block phase (graph.uniformSlot block.node uniform) := by
  have described := Fragment.ofUniform_mem_outlets member
  cases found : block.outlet? uniform.name with
  | none =>
    rw [uniformSlot, get_node_of_absent found]
    exact .unknown described found
  | some outlet =>
    cases isFeed : outlet.feed with
    | none =>
      rw [uniformSlot_of_unfed found isFeed]
      exact .external member found isFeed
    | some feed =>
      have fed : block.feed? uniform.name = some feed := by simp [Block.feed?, found, isFeed]
      cases resolved : graph.resolve feed with
      | ok pair =>
        rw [uniformSlot_of_fed fed resolved]
        exact .replaced member fed resolved
      | error error =>
        simp only [uniformSlot, Block.get_node_eq_ok.mpr found, isFeed, resolved]
        exact .unresolved described fed resolved

/-- Whatever the call does has one of the stated reasons. -/
theorem slotFor_of_mem {graph : Graph} {block : Block} {phase : Phase} {slot : Slot}
    (member : slot ∈ graph.slots block.index block.node (block.fragmentFor phase)) :
    SlotFor graph block phase slot := by
  rcases List.mem_append.mp member with inParameters | inUniforms
  · obtain ⟨parameter, parameterMember, rfl⟩ := List.mem_map.mp inParameters
    exact slotFor_parameter graph block parameterMember
  · obtain ⟨uniform, uniformMember, rfl⟩ := List.mem_map.mp inUniforms
    exact slotFor_uniform graph block uniformMember

/-- What the call does about a uniform depends on whether the uniform is linked, unless
the call cannot be made. -/
theorem uniformSlot_cases (graph : Graph) (block : Block) (uniform : Uniform) :
    block.feed? uniform.name = none ∧
        graph.uniformSlot block.node uniform = .external uniform ∨
      (∃ producer cell, (block.feed? uniform.name).isSome = true ∧
        graph.uniformSlot block.node uniform = .replaced uniform producer cell) ∨
      ∃ error, graph.uniformSlot block.node uniform = .broken error := by
  cases found : block.outlet? uniform.name with
  | none => exact .inr (.inr ⟨_, by rw [uniformSlot, get_node_of_absent found]⟩)
  | some outlet =>
    have isFeed : block.feed? uniform.name = outlet.feed := by simp [Block.feed?, found]
    cases fed : outlet.feed with
    | none => exact .inl ⟨isFeed.trans fed, uniformSlot_of_unfed found fed⟩
    | some feed =>
      cases resolved : graph.resolve feed with
      | ok pair =>
        have slot := uniformSlot_of_fed (isFeed.trans fed) resolved
        exact .inr (.inl ⟨_, _, by rw [isFeed, fed]; rfl, slot⟩)
      | error error =>
        refine .inr (.inr ⟨error, ?_⟩)
        simp [uniformSlot, Block.get_node_eq_ok.mpr found, fed, resolved]

/-- The steps about a parameter are part of the preparation. -/
theorem mem_preparation_of_parameter {graph : Graph} {block : Block} {phase : Phase}
    {priority : Priority} {parameter : Parameter} {step : Step}
    (member : parameter ∈ (block.fragmentFor phase).parameters)
    (asked : step ∈ (graph.parameterSlot block.index block.node parameter).steps phase priority) :
    step ∈ graph.preparation block phase priority :=
  List.mem_flatMap.mpr
    ⟨_, List.mem_append_left _ (List.mem_map_of_mem member), asked⟩

/-- The steps about a uniform are part of the preparation. -/
theorem mem_preparation_of_uniform {graph : Graph} {block : Block} {phase : Phase}
    {priority : Priority} {uniform : Uniform} {step : Step}
    (member : uniform ∈ (block.fragmentFor phase).uniforms)
    (asked : step ∈ (graph.uniformSlot block.node uniform).steps phase priority) :
    step ∈ graph.preparation block phase priority :=
  List.mem_flatMap.mpr
    ⟨_, List.mem_append_right _ (List.mem_map_of_mem member), asked⟩

/-- A call whose preparation does not give up can be made. -/
theorem ne_broken_of_sound {graph : Graph} {block : Block} {phase : Phase} {priority : Priority}
    (sound : ∀ error, Step.fail error ∉ graph.preparation block phase priority) {slot : Slot}
    (member : slot ∈ graph.slots block.index block.node (block.fragmentFor phase))
    (error : GraphError) : slot ≠ .broken error := by
  rintro rfl
  exact sound error (List.mem_flatMap.mpr ⟨_, member, List.mem_singleton_self _⟩)

/-- Reading an outlet asks for its block in the phase, and for the vertex stage of a
material that is read in the fragment phase. -/
theorem mem_demands {block : Block} {phase : Phase} {priority : Priority} {step : Step} :
    step ∈ block.demands phase priority ↔
      step = .demand block phase priority ∨
        block.isMaterial = true ∧ phase = .fragment ∧ step = .demand block .vertex 0 := by
  simp only [Block.demands, List.mem_cons, Bool.and_eq_true, decide_eq_true_eq]
  constructor
  · rintro (first | second)
    · exact .inl first
    · split at second
      · rename_i both
        exact .inr ⟨both.1, both.2, by simpa using second⟩
      · simp at second
  · rintro (first | ⟨material, isFragment, second⟩)
    · exact .inl first
    · exact .inr (by simp [material, isFragment, second])

/-- A block that a preparation asks for feeds the call, and is asked for in the same
phase or as the vertex stage of a material. -/
theorem feeds_of_demand_mem {graph : Graph} {block producer : Block} {phase asked : Phase}
    {priority rank : Priority}
    (member : Step.demand producer asked rank ∈ graph.preparation block phase priority) :
    ∃ feed source, block.FedBy phase feed ∧ graph.resolve feed = .ok (producer, source) ∧
      (asked = phase ∨ producer.isMaterial = true ∧ phase = .fragment ∧ asked = .vertex) := by
  obtain ⟨slot, slotMember, stepMember⟩ := List.mem_flatMap.mp member
  have origin : ∀ {other : Block} {rank' : Priority},
      Step.demand producer asked rank ∈ other.demands phase rank' →
        producer = other ∧
          (asked = phase ∨ other.isMaterial = true ∧ phase = .fragment ∧ asked = .vertex) := by
    intro other rank' inDemands
    rcases mem_demands.mp inDemands with same | ⟨material, isFragment, same⟩
    · injection same with blockSame phaseSame
      exact ⟨blockSame, .inl phaseSame⟩
    · injection same with blockSame phaseSame
      exact ⟨blockSame, .inr ⟨material, isFragment, phaseSame⟩⟩
  cases slotFor_of_mem slotMember with
  | @input parameter feed other source parameterMember way fed resolved =>
    obtain ⟨rfl, how⟩ := origin (by simpa [Slot.steps] using stepMember)
    exact ⟨feed, source, ⟨_, Fragment.ofParameter_mem_outlets parameterMember, fed⟩, resolved, how⟩
  | @replaced uniform feed other source uniformMember fed resolved =>
    obtain ⟨rfl, how⟩ := origin (by simpa [Slot.steps] using stepMember)
    exact ⟨feed, source, ⟨_, Fragment.ofUniform_mem_outlets uniformMember, fed⟩, resolved, how⟩
  | output => simp [Slot.steps] at stepMember
  | external => simp [Slot.steps] at stepMember
  | unknown => simp [Slot.steps] at stepMember
  | missing => simp [Slot.steps] at stepMember
  | unresolved => simp [Slot.steps] at stepMember

/-- A preparation asks for blocks of the graph only. -/
theorem find?_of_demand_mem {graph : Graph} {block producer : Block} {phase asked : Phase}
    {priority rank : Priority}
    (member : Step.demand producer asked rank ∈ graph.preparation block phase priority) :
    graph.find? producer.index = some producer := by
  obtain ⟨feed, source, -, resolved, -⟩ := feeds_of_demand_mem member
  have found := (resolve_eq_ok.mp resolved).1
  rw [(find?_eq_some.mp found).2, found]

/-- A preparation asks only for what the call needs. -/
theorem needs_of_demand_mem {graph : Graph} {block producer : Block} {phase asked : Phase}
    {priority rank : Priority} (found : graph.find? block.index = some block)
    (member : Step.demand producer asked rank ∈ graph.preparation block phase priority) :
    graph.Needs (block.index, phase) (producer.index, asked) := by
  obtain ⟨feed, source, fed, resolved, how⟩ := feeds_of_demand_mem member
  have producerFound := (resolve_eq_ok.mp resolved).1
  rw [(find?_eq_some.mp producerFound).2]
  rcases how with rfl | ⟨material, rfl, rfl⟩
  · exact .feeder found fed
  · exact .vertexStage found fed producerFound material

/-- The preparation of a lawful block asks for whatever feeds the block, unless it gives
up. -/
theorem demands_mem_of_fedBy {graph : Graph} {block : Block} {phase : Phase} {priority : Priority}
    (lawful : block.Lawful) {feed : Endpoint} (fed : block.FedBy phase feed)
    (sound : ∀ error, Step.fail error ∉ graph.preparation block phase priority) :
    ∃ producer source, graph.resolve feed = .ok (producer, source) ∧
      ∀ step ∈ producer.demands phase (priority + 1),
        step ∈ graph.preparation block phase priority := by
  obtain ⟨spec, described, specFed⟩ := fed
  obtain ⟨other, otherMember, named, way⟩ := lawful.input_of_fed described specFed
  rw [← named] at specFed
  obtain ⟨outlet, found, isFeed⟩ := Option.bind_eq_some_iff.mp specFed
  rcases Fragment.mem_outlets.mp otherMember with ⟨parameter, member, rfl⟩ | ⟨uniform, member, rfl⟩
  · cases resolved : graph.resolve feed with
    | ok pair =>
      refine ⟨pair.1, pair.2, rfl, fun step asked => mem_preparation_of_parameter member ?_⟩
      rw [parameterSlot_of_input way specFed resolved]
      exact List.mem_append_left _ asked
    | error error =>
      refine absurd (mem_preparation_of_parameter member ?_) (sound error)
      simp only [OutletSpec.ofParameter] at way found
      simp [parameterSlot, Block.get_node_eq_ok.mpr found, way, isFeed, resolved, Slot.steps]
  · cases resolved : graph.resolve feed with
    | ok pair =>
      refine ⟨pair.1, pair.2, rfl, fun step asked => mem_preparation_of_uniform member ?_⟩
      rw [uniformSlot_of_fed specFed resolved]
      exact List.mem_append_left _ asked
    | error error =>
      refine absurd (mem_preparation_of_uniform member ?_) (sound error)
      simp only [OutletSpec.ofUniform] at found
      simp [uniformSlot, Block.get_node_eq_ok.mpr found, isFeed, resolved, Slot.steps]

/-- The preparation of a lawful block asks for all that the call needs, unless it gives
up. -/
theorem demand_mem_of_needs {graph : Graph} {block : Block} {phase : Phase} {priority : Priority}
    {key : Key} (found : graph.find? block.index = some block) (lawful : block.Lawful)
    (needs : graph.Needs (block.index, phase) key)
    (sound : ∀ error, Step.fail error ∉ graph.preparation block phase priority) :
    ∃ producer rank, producer.index = key.1 ∧
      Step.demand producer key.2 rank ∈ graph.preparation block phase priority := by
  generalize consumerEq : (block.index, phase) = consumer at needs
  cases needs with
  | @feeder other otherPhase feed otherFound fed =>
    obtain ⟨indexSame, rfl⟩ := Prod.mk.inj consumerEq
    rw [← indexSame, found, Option.some.injEq] at otherFound
    subst otherFound
    obtain ⟨producer, source, resolved, asked⟩ := demands_mem_of_fedBy lawful fed sound
    refine ⟨producer, priority + 1, (find?_eq_some.mp (resolve_eq_ok.mp resolved).1).2, ?_⟩
    exact asked _ (mem_demands.mpr (.inl rfl))
  | @vertexStage other feeder feed otherFound fed feederFound material =>
    obtain ⟨indexSame, rfl⟩ := Prod.mk.inj consumerEq
    rw [← indexSame, found, Option.some.injEq] at otherFound
    subst otherFound
    obtain ⟨producer, source, resolved, asked⟩ := demands_mem_of_fedBy lawful fed sound
    obtain ⟨producerFound, -⟩ := resolve_eq_ok.mp resolved
    rw [feederFound, Option.some.injEq] at producerFound
    subst producerFound
    refine ⟨feeder, 0, (find?_eq_some.mp feederFound).2, ?_⟩
    exact asked _ (mem_demands.mpr (.inr ⟨material, rfl, rfl⟩))

/-- A preparation declares exactly the variables that the call passes. -/
theorem declare_mem_preparation {graph : Graph} {block : Block} {phase scope : Phase}
    {priority : Priority} {name : String} {type : ValueType} :
    Step.declare scope name type ∈ graph.preparation block phase priority ↔
      scope = phase ∧ graph.Passes block phase name type := by
  constructor
  · intro member
    obtain ⟨slot, slotMember, stepMember⟩ := List.mem_flatMap.mp member
    cases slotFor_of_mem slotMember with
    | output parameterMember way found =>
      simp only [Slot.steps, List.mem_singleton, Step.declare.injEq] at stepMember
      obtain ⟨rfl, rfl, rfl⟩ := stepMember
      exact ⟨rfl, .output parameterMember way found⟩
    | input parameterMember way fed resolved =>
      simp only [Slot.steps, List.mem_append, mem_demands, reduceCtorEq, and_false, or_self,
        false_or, List.mem_singleton, Step.declare.injEq] at stepMember
      obtain ⟨rfl, rfl, rfl⟩ := stepMember
      exact ⟨rfl, .input parameterMember way fed resolved⟩
    | replaced uniformMember fed resolved =>
      simp only [Slot.steps, List.mem_append, mem_demands, reduceCtorEq, and_false, or_self,
        false_or, List.mem_singleton, Step.declare.injEq] at stepMember
      obtain ⟨rfl, rfl, rfl⟩ := stepMember
      exact ⟨rfl, .uniform uniformMember fed resolved⟩
    | external => simp [Slot.steps] at stepMember
    | unknown => simp [Slot.steps] at stepMember
    | missing => simp [Slot.steps] at stepMember
    | unresolved => simp [Slot.steps] at stepMember
  · rintro ⟨rfl, passes⟩
    cases passes with
    | output member way found =>
      apply mem_preparation_of_parameter member
      simp [parameterSlot_of_output way found, Slot.steps]
    | input member way fed resolved =>
      apply mem_preparation_of_parameter member
      simp [parameterSlot_of_input way fed resolved, Slot.steps]
    | uniform member fed resolved =>
      apply mem_preparation_of_uniform member
      simp [uniformSlot_of_fed fed resolved, Slot.steps]

/-- A preparation declares exactly the uniforms that are not linked. -/
theorem declareExternal_mem_preparation {graph : Graph} {block : Block} {phase : Phase}
    {priority : Priority} {uniform : Uniform} :
    Step.declareExternal uniform ∈ graph.preparation block phase priority ↔
      block.LeavesOutside phase uniform := by
  constructor
  · intro member
    obtain ⟨slot, slotMember, stepMember⟩ := List.mem_flatMap.mp member
    cases slotFor_of_mem slotMember with
    | external uniformMember found unfed =>
      simp only [Slot.steps, List.mem_singleton, Step.declareExternal.injEq] at stepMember
      exact stepMember ▸ ⟨uniformMember, _, found, unfed⟩
    | output => simp [Slot.steps] at stepMember
    | input => simp [Slot.steps, mem_demands] at stepMember
    | replaced => simp [Slot.steps, mem_demands] at stepMember
    | unknown => simp [Slot.steps] at stepMember
    | missing => simp [Slot.steps] at stepMember
    | unresolved => simp [Slot.steps] at stepMember
  · rintro ⟨member, outlet, found, unfed⟩
    apply mem_preparation_of_uniform member
    simp [uniformSlot_of_unfed found unfed, Slot.steps]

/-- A preparation gives up for one of the stated reasons. -/
theorem slotFor_broken_of_fail_mem {graph : Graph} {block : Block} {phase : Phase}
    {priority : Priority} {error : GraphError}
    (member : Step.fail error ∈ graph.preparation block phase priority) :
    SlotFor graph block phase (.broken error) := by
  obtain ⟨slot, slotMember, stepMember⟩ := List.mem_flatMap.mp member
  have reason := slotFor_of_mem slotMember
  cases slot with
  | broken other =>
    simp only [Slot.steps, List.mem_singleton, Step.fail.injEq] at stepMember
    exact stepMember ▸ reason
  | output name type => simp [Slot.steps] at stepMember
  | input producer name type => simp [Slot.steps, mem_demands] at stepMember
  | replaced uniform producer name => simp [Slot.steps, mem_demands] at stepMember
  | external uniform => simp [Slot.steps] at stepMember

/-- A preparation adds no call. -/
theorem add_notMem_preparation (graph : Graph) (block : Block) (phase : Phase) (priority : Priority)
    (call : Call) : Step.add call ∉ graph.preparation block phase priority := by
  intro member
  obtain ⟨slot, -, stepMember⟩ := List.mem_flatMap.mp member
  cases slot <;> simp [Slot.steps, mem_demands] at stepMember

end Graph

end ShaderBlocks
