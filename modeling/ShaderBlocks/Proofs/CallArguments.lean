import ShaderBlocks.Proofs.CallOrder

/-!
# What a call reads and writes

A call passes one variable for every parameter of the entry function, in order, and then
one for every uniform that is fed by an argument. A variable that stands at the place of an
output is written by the call, one that stands anywhere else is read. Every call of a
compiled material reads at an input the variable of the outlet that feeds it. Whether that
variable was written before depends on the fragment that its block has for the phase: the
calls of a phase write every variable before they read it exactly when each outlet that is
read there is an output parameter of its owner's fragment for the phase. A material can
fail this, because its outlets are those of both its fragments.
-/

namespace ShaderBlocks

/-- One place in the parameter list of a function. -/
structure Place where
  /-- The name of the parameter or uniform. -/
  name : String
  /-- Which way the value goes. -/
  direction : Direction
  deriving DecidableEq, Repr

/-- A fragment with the uniforms that are fed by arguments: all that fixes the function
that is called, apart from its name. -/
structure Callee where
  /-- The fragment. -/
  fragment : Fragment
  /-- The names of the uniforms that are fed by arguments. -/
  replaced : List String

/-- The parameter list of the function: the parameters, then the uniforms that are fed. -/
def Callee.places (callee : Callee) : List Place :=
  callee.fragment.parameters.map (fun parameter => ⟨parameter.name, parameter.direction⟩) ++
    (callee.fragment.replacedUniforms callee.replaced).map (fun uniform => ⟨uniform.name, .input⟩)

namespace Block

/-- The function that a block calls in a phase: the uniforms that are linked are fed by
arguments. -/
def callee (block : Block) (phase : Phase) : Callee where
  fragment := block.fragmentFor phase
  replaced := ((block.fragmentFor phase).uniforms.filter fun uniform =>
    (block.feed? uniform.name).isSome).map (·.name)

/-- The uniforms that are fed by arguments are those that are linked. -/
theorem replacedUniforms_callee (block : Block) (phase : Phase) :
    (block.fragmentFor phase).replacedUniforms (block.callee phase).replaced =
      (block.fragmentFor phase).uniforms.filter fun uniform =>
        (block.feed? uniform.name).isSome := by
  refine List.filter_congr fun uniform member => ?_
  rw [Bool.eq_iff_iff, decide_eq_true_iff]
  constructor
  · intro listed
    obtain ⟨other, otherFed, same⟩ := List.mem_map.mp listed
    exact same ▸ (List.mem_filter.mp otherFed).2
  · intro fed
    exact List.mem_map.mpr ⟨uniform, List.mem_filter.mpr ⟨member, fed⟩, rfl⟩

/-- A place of the function that a block calls is that of a parameter or of a linked
uniform. -/
theorem mem_places {block : Block} {phase : Phase} {place : Place} :
    place ∈ (block.callee phase).places ↔
      (∃ parameter ∈ (block.fragmentFor phase).parameters,
        place = ⟨parameter.name, parameter.direction⟩) ∨
      ∃ uniform ∈ (block.fragmentFor phase).uniforms,
        (block.feed? uniform.name).isSome = true ∧ place = ⟨uniform.name, .input⟩ := by
  have uniforms := block.replacedUniforms_callee phase
  simp only [Callee.places, List.mem_append, List.mem_map,
    show (block.callee phase).fragment = block.fragmentFor phase from rfl, uniforms,
    List.mem_filter]
  constructor
  · rintro (⟨parameter, member, rfl⟩ | ⟨uniform, ⟨member, fed⟩, rfl⟩)
    · exact .inl ⟨parameter, member, rfl⟩
    · exact .inr ⟨uniform, member, fed, rfl⟩
  · rintro (⟨parameter, member, rfl⟩ | ⟨uniform, member, fed, rfl⟩)
    · exact .inl ⟨parameter, member, rfl⟩
    · exact .inr ⟨uniform, ⟨member, fed⟩, rfl⟩

end Block

namespace Graph

/-- The variable that a call of a block passes at a place: that of the block's own outlet
at an output, that of the outlet that feeds it at an input. -/
def passed (graph : Graph) (block : Block) (place : Place) : Option String :=
  match place.direction with
  | .output => (block.outlet? place.name).map (·.id)
  | .input => (block.feed? place.name).bind fun feed =>
    (graph.resolve feed).toOption.map fun found => found.2.id

/-- At an output a block passes the variable of its own outlet. -/
theorem passed_output {graph : Graph} {block : Block} {name cell : String} :
    graph.passed block ⟨name, .output⟩ = some cell ↔
      ∃ outlet, block.outlet? name = some outlet ∧ outlet.id = cell := by
  simp [passed]

/-- At an input a block passes the variable of the outlet that feeds it. -/
theorem passed_input {graph : Graph} {block : Block} {name cell : String} :
    graph.passed block ⟨name, .input⟩ = some cell ↔
      ∃ feed producer source, block.feed? name = some feed ∧
        graph.resolve feed = .ok (producer, source) ∧ source.id = cell := by
  simp only [passed, Option.bind_eq_some_iff, Option.map_eq_some_iff]
  constructor
  · rintro ⟨feed, fed, ⟨producer, source⟩, resolved, rfl⟩
    refine ⟨feed, producer, source, fed, ?_, rfl⟩
    cases outcome : graph.resolve feed with
    | error error =>
      rw [outcome] at resolved
      contradiction
    | ok pair =>
      rw [outcome] at resolved
      exact congrArg _ (Option.some.inj resolved)
  · rintro ⟨feed, producer, source, fed, resolved, rfl⟩
    exact ⟨feed, fed, (producer, source), by rw [resolved]; rfl, rfl⟩

/-- What the call does about a parameter passes the variable of its place. -/
theorem argument?_parameterSlot (graph : Graph) (block : Block) (parameter : Parameter) :
    (graph.parameterSlot block.index block.node parameter).argument? =
      graph.passed block ⟨parameter.name, parameter.direction⟩ := by
  cases found : block.outlet? parameter.name with
  | none =>
    rw [parameterSlot, get_node_of_absent found]
    cases way : parameter.direction <;> simp [passed, Slot.argument?, Block.feed?, found]
  | some outlet =>
    cases way : parameter.direction with
    | output => simp [parameterSlot_of_output way found, passed, Slot.argument?, found]
    | input =>
      cases isFeed : outlet.feed with
      | none =>
        simp [parameterSlot_of_missing way found isFeed, passed, Slot.argument?, Block.feed?,
          found, isFeed]
      | some feed =>
        cases resolved : graph.resolve feed <;>
          simp [parameterSlot, Block.get_node_eq_ok.mpr found, way, isFeed, resolved, passed,
            Slot.argument?, Block.feed?, found, Except.toOption]

/-- What the call does about a uniform passes the variable of its place. -/
theorem argument?_uniformSlot (graph : Graph) (block : Block) (uniform : Uniform) :
    (graph.uniformSlot block.node uniform).argument? =
      graph.passed block ⟨uniform.name, .input⟩ := by
  cases found : block.outlet? uniform.name with
  | none =>
    rw [uniformSlot, get_node_of_absent found]
    simp [passed, Slot.argument?, Block.feed?, found]
  | some outlet =>
    cases isFeed : outlet.feed with
    | none =>
      simp [uniformSlot_of_unfed found isFeed, passed, Slot.argument?, Block.feed?, found, isFeed]
    | some feed =>
      cases resolved : graph.resolve feed <;>
        simp [uniformSlot, Block.get_node_eq_ok.mpr found, isFeed, resolved, passed,
          Slot.argument?, Block.feed?, found, Except.toOption]

/-- A call whose preparation does not give up passes a variable at every place. -/
theorem isSome_passed {graph : Graph} {block : Block} {phase : Phase} {priority : Priority}
    (lawful : block.Lawful)
    (sound : ∀ error, Step.fail error ∉ graph.preparation block phase priority) {place : Place}
    (member : place ∈ (block.callee phase).places) : (graph.passed block place).isSome = true := by
  have fedPasses : ∀ {spec : OutletSpec} {feed : Endpoint},
      spec ∈ (block.fragmentFor phase).outlets → block.feed? spec.name = some feed →
        (graph.passed block ⟨spec.name, .input⟩).isSome = true := by
    intro spec feed described fed
    obtain ⟨producer, source, resolved, -⟩ :=
      demands_mem_of_fedBy lawful ⟨spec, described, fed⟩ sound
    exact Option.isSome_of_eq_some (passed_input.mpr ⟨feed, producer, source, fed, resolved, rfl⟩)
  rcases Block.mem_places.mp member with
    ⟨parameter, parameterMember, rfl⟩ | ⟨uniform, uniformMember, fed, rfl⟩
  · have described := Fragment.ofParameter_mem_outlets parameterMember
    obtain ⟨outlet, found, -⟩ := lawful.outlet?_of_described described
    cases way : parameter.direction with
    | output => exact Option.isSome_of_eq_some (passed_output.mpr ⟨outlet, found, rfl⟩)
    | input =>
      cases isFeed : outlet.feed with
      | none =>
        have missing : Step.fail (.missingConnection block.index parameter.name outlet.name) ∈
            graph.preparation block phase priority := by
          apply mem_preparation_of_parameter parameterMember
          rw [parameterSlot_of_missing way found isFeed]
          exact List.mem_singleton_self _
        exact absurd missing (sound _)
      | some feed =>
        exact fedPasses described (Option.bind_eq_some_iff.mpr ⟨outlet, found, isFeed⟩)
  · obtain ⟨feed, isFeed⟩ := Option.isSome_iff_exists.mp fed
    exact fedPasses (Fragment.ofUniform_mem_outlets uniformMember) isFeed

/-- The arguments of a call are the variables passed at the places of the function. -/
theorem args_blockCall (graph : Graph) (block : Block) (phase : Phase) (priority : Priority) :
    (graph.blockCall block phase priority).args =
      (block.callee phase).places.filterMap (graph.passed block) := by
  have unlinked : ∀ uniform : Uniform, graph.passed block ⟨uniform.name, .input⟩ =
      if (block.feed? uniform.name).isSome = true then graph.passed block ⟨uniform.name, .input⟩
      else none := by
    intro uniform
    split
    · rfl
    · rename_i unfed
      simp [passed, Option.not_isSome_iff_eq_none.mp unfed]
  calc (graph.blockCall block phase priority).args
      = (block.fragmentFor phase).parameters.filterMap
            (fun parameter => graph.passed block ⟨parameter.name, parameter.direction⟩) ++
          (block.fragmentFor phase).uniforms.filterMap
            (fun uniform => graph.passed block ⟨uniform.name, .input⟩) := by
        simp [blockCall, call, slots, List.filterMap_map,
          argument?_parameterSlot, argument?_uniformSlot]
    _ = (block.callee phase).places.filterMap (graph.passed block) := by
        rw [Callee.places, List.filterMap_append, List.filterMap_map, List.filterMap_map,
          show (block.callee phase).fragment = block.fragmentFor phase from rfl,
          block.replacedUniforms_callee, List.filterMap_filter, funext unlinked]
        rfl

/-- The uniforms that a call replaces are those that are linked. -/
theorem filterMap_replaced? {graph : Graph} {block : Block} {phase : Phase} {priority : Priority}
    (sound : ∀ error, Step.fail error ∉ graph.preparation block phase priority) :
    (graph.slots block.index block.node (block.fragmentFor phase)).filterMap Slot.replaced? =
      (block.callee phase).replaced := by
  have parameters : ∀ parameter,
      (graph.parameterSlot block.index block.node parameter).replaced? = none := by
    intro parameter
    simp only [parameterSlot]
    repeat' split
    all_goals rfl
  have uniforms : ∀ uniform ∈ (block.fragmentFor phase).uniforms,
      (graph.uniformSlot block.node uniform).replaced? =
        if (block.feed? uniform.name).isSome = true then some uniform.name else none := by
    intro uniform member
    have inSlots : graph.uniformSlot block.node uniform ∈
        graph.slots block.index block.node (block.fragmentFor phase) :=
      List.mem_append_right _ (List.mem_map_of_mem member)
    rcases graph.uniformSlot_cases block uniform with
      ⟨unfed, slot⟩ | ⟨producer, cell, fed, slot⟩ | ⟨error, slot⟩
    · rw [slot, unfed]
      rfl
    · rw [slot, if_pos fed]
      rfl
    · exact absurd slot (ne_broken_of_sound sound inSlots error)
  calc (graph.slots block.index block.node (block.fragmentFor phase)).filterMap Slot.replaced?
      = (block.fragmentFor phase).uniforms.filterMap
          fun uniform => (graph.uniformSlot block.node uniform).replaced? := by
        simp [slots, List.filterMap_map, parameters]
    _ = (block.fragmentFor phase).uniforms.filterMap fun uniform =>
          if (block.feed? uniform.name).isSome = true then some uniform.name else none :=
        List.filterMap_congr uniforms
    _ = (block.callee phase).replaced := by
        rw [← List.filterMap_filter, List.filterMap_eq_map']
        rfl

/-- The variable that a call of a block passes at a place, if it passes one. -/
def cellAt (graph : Graph) (block : Block) (place : Place) : String :=
  (graph.passed block place).getD ""

/-- A call is the call of a block: it passes the variables of the places of the block's
function, and its text is that of this function. -/
structure Invokes (graph : Graph) (block : Block) (call : Call) : Prop where
  /-- The block is in the graph. -/
  found : graph.find? call.origin = some block
  /-- The arguments are the variables of the places. -/
  args : call.args = (block.callee call.phase).places.map (graph.cellAt block)
  /-- There is a variable for every place. -/
  passed : ∀ place ∈ (block.callee call.phase).places,
    graph.passed block place = some (graph.cellAt block place)
  /-- The text is that of the function, under the name of the call. -/
  body : call.body = (block.fragmentFor call.phase).render call.name
    (block.callee call.phase).replaced

/-- A call whose preparation does not give up is the call of its block. -/
theorem invokes_blockCall {graph : Graph} {block : Block} {phase : Phase} {priority : Priority}
    (found : graph.find? block.index = some block) (lawful : block.Lawful)
    (sound : ∀ error, Step.fail error ∉ graph.preparation block phase priority) :
    graph.Invokes block (graph.blockCall block phase priority) := by
  have passed : ∀ place ∈ (block.callee phase).places,
      graph.passed block place = some (graph.cellAt block place) := by
    intro place member
    obtain ⟨cell, isCell⟩ := Option.isSome_iff_exists.mp (isSome_passed lawful sound member)
    rw [cellAt, isCell, Option.getD_some]
  refine ⟨found, ?_, passed, ?_⟩
  · rw [args_blockCall]
    exact List.filterMap_eq_map_iff_forall_eq_some.mpr passed
  · change Fragment.render _ _ _ = _
    rw [filterMap_replaced? sound]
    rfl

/-- Every call of an emitted program is the call of a block. -/
theorem Emitted.invokes {graph : Graph} {material : BlockIndex} {program : Program}
    (emitted : graph.Emitted material program) (lawful : graph.Lawful) {call : Call}
    (member : call ∈ program.calls) : ∃ block, graph.Invokes block call := by
  obtain ⟨before, after, split⟩ := List.append_of_mem member
  obtain ⟨block, priority, found, isCall, -, sound⟩ := emitted.block_of_call split
  rw [isCall]
  exact ⟨block, invokes_blockCall found (lawful block (find?_eq_some.mp found).1) sound⟩

/-- A call passes a variable at a place of the given direction. -/
def HasArgument (graph : Graph) (call : Call) (direction : Direction) (cell : String) : Prop :=
  ∃ block, graph.find? call.origin = some block ∧ ∃ (position : Nat) (name : String),
    (block.callee call.phase).places[position]? = some ⟨name, direction⟩ ∧
      call.args[position]? = some cell

/-- The arguments of the call of a block, by direction. -/
theorem Invokes.hasArgument {graph : Graph} {block : Block} {call : Call}
    (invokes : graph.Invokes block call) {direction : Direction} {cell : String} :
    graph.HasArgument call direction cell ↔
      ∃ name, ⟨name, direction⟩ ∈ (block.callee call.phase).places ∧
        graph.passed block ⟨name, direction⟩ = some cell := by
  constructor
  · rintro ⟨other, found, position, name, place, argument⟩
    rw [invokes.found, Option.some.injEq] at found
    subst found
    have member := List.mem_of_getElem? place
    rw [invokes.args, List.getElem?_map, place] at argument
    exact ⟨name, member, (invokes.passed _ member).trans argument⟩
  · rintro ⟨name, member, isPassed⟩
    obtain ⟨position, place⟩ := List.mem_iff_getElem?.mp member
    refine ⟨block, invokes.found, position, name, place, ?_⟩
    rw [invokes.args, List.getElem?_map, place]
    exact (invokes.passed _ member).symm.trans isPassed

end Graph

/-- The calls of a phase, in order. -/
def CompiledProgram.callsOf (compiled : CompiledProgram) (phase : Phase) : List Call :=
  compiled.calls.filter (·.phase = phase)

namespace Graph

/-- Every outlet that is read in a phase is an output parameter of the fragment that its
owner has for the phase. -/
def WritesWhatIsRead (graph : Graph) (material : BlockIndex) (phase : Phase) : Prop :=
  ∀ block feed owner, graph.Needed material (block.index, phase) →
    graph.find? block.index = some block → block.FedBy phase feed →
    graph.find? feed.block = some owner →
    ∃ parameter ∈ (owner.fragmentFor phase).parameters,
      parameter.name = feed.outlet ∧ parameter.direction = .output

/-- Every variable that a call reads was written by a call before it. -/
def DefinedBeforeUse (graph : Graph) (calls : List Call) : Prop :=
  ∀ before call after, calls = before ++ call :: after →
    ∀ cell, graph.HasArgument call .input cell →
      ∃ earlier ∈ before, graph.HasArgument earlier .output cell

/-- A call among those of a phase stands in the same place among all calls. -/
theorem split_of_callsOf {program : Program} {phase : Phase} {before after : List Call}
    {call : Call} (split : program.compile.callsOf phase = before ++ call :: after) :
    ∃ early late, program.calls = early ++ call :: late ∧
      early.filter (·.phase = phase) = before ∧ call.phase = phase := by
  obtain ⟨early, rest, whole, isBefore, isRest⟩ := List.filter_eq_append_iff.mp split
  obtain ⟨between, late, restSplit, skipped, inPhase, -⟩ := List.filter_eq_cons_iff.mp isRest
  refine ⟨early ++ between, late, ?_, ?_, by simpa using inPhase⟩
  · rw [show program.calls = early ++ rest from whole, restSplit, List.append_assoc]
  · have none : between.filter (·.phase = phase) = [] := by simpa using skipped
    rw [List.filter_append, isBefore, none, List.append_nil]

/-- In a lawful graph an identifier tells the block and the name of the outlet. -/
theorem Lawful.eq_of_id_eq {graph : Graph} (lawful : graph.Lawful) {index other : BlockIndex}
    {first second : Block} {name otherName : String} {outlet twin : Outlet}
    (found : graph.find? index = some first) (secondFound : graph.find? other = some second)
    (outletFound : first.outlet? name = some outlet)
    (twinFound : second.outlet? otherName = some twin) (same : outlet.id = twin.id) :
    first = second ∧ name = otherName := by
  have firstMember := (find?_eq_some.mp found).1
  have secondMember := (find?_eq_some.mp secondFound).1
  obtain ⟨outletMember, rfl⟩ := Block.mem_of_outlet? outletFound
  obtain ⟨twinMember, rfl⟩ := Block.mem_of_outlet? twinFound
  have sameIndex := (lawful first firstMember).index_eq_of_id_eq (lawful second secondMember)
    outletMember twinMember same
  obtain rfl := eq_of_index_eq firstMember secondMember sameIndex
  have sameOutlet := (lawful first firstMember).outlet_eq_of_id_eq outletMember twinMember same
  exact ⟨rfl, congrArg (·.name) sameOutlet⟩

/-- What the call of a block reads is the variable of an outlet that feeds the block. -/
theorem fedBy_of_place {graph : Graph} {block : Block} {phase : Phase} {name cell : String}
    (member : ⟨name, .input⟩ ∈ (block.callee phase).places)
    (isPassed : graph.passed block ⟨name, .input⟩ = some cell) :
    ∃ feed producer source, block.feed? name = some feed ∧ block.FedBy phase feed ∧
      graph.resolve feed = .ok (producer, source) ∧ source.id = cell := by
  obtain ⟨feed, producer, source, fed, resolved, isCell⟩ := passed_input.mp isPassed
  refine ⟨feed, producer, source, fed, ?_, resolved, isCell⟩
  rcases Block.mem_places.mp member with
    ⟨parameter, inParameters, same⟩ | ⟨uniform, inUniforms, -, same⟩
  · obtain rfl : name = parameter.name := congrArg Place.name same
    exact ⟨_, Fragment.ofParameter_mem_outlets inParameters, fed⟩
  · obtain rfl : name = uniform.name := congrArg Place.name same
    exact ⟨_, Fragment.ofUniform_mem_outlets inUniforms, fed⟩

/-- An outlet that feeds a lawful block has a place at which it is read. -/
theorem place_of_fedBy {block : Block} {phase : Phase} {feed : Endpoint} (lawful : block.Lawful)
    (fed : block.FedBy phase feed) :
    ∃ name, ⟨name, .input⟩ ∈ (block.callee phase).places ∧ block.feed? name = some feed := by
  obtain ⟨spec, described, specFed⟩ := fed
  obtain ⟨other, otherMember, named, way⟩ := lawful.input_of_fed described specFed
  rw [← named] at specFed
  refine ⟨other.name, Block.mem_places.mpr ?_, specFed⟩
  rcases Fragment.mem_outlets.mp otherMember with ⟨parameter, member, rfl⟩ | ⟨uniform, member, rfl⟩
  · exact .inl ⟨parameter, member, congrArg (Place.mk parameter.name) way.symm⟩
  · exact .inr ⟨uniform, member, Option.isSome_of_eq_some specFed, rfl⟩

namespace Emitted

variable {graph : Graph} {material : BlockIndex} {program : Program}

/-- The block that feeds a call is called before it in the same phase. -/
theorem feeder_called (emitted : graph.Emitted material program)
    (lawful : graph.Lawful) {phase : Phase}
    {before after : List Call} {call : Call} {block : Block} {feed : Endpoint}
    (split : program.compile.callsOf phase = before ++ call :: after)
    (found : graph.find? call.origin = some block) (fed : block.FedBy phase feed) :
    ∃ earlier ∈ before, earlier.origin = feed.block := by
  obtain ⟨early, late, whole, isBefore, inPhase⟩ := split_of_callsOf split
  obtain ⟨blockMember, numbered⟩ := find?_eq_some.mp found
  have needs : graph.Needs call.key (feed.block, phase) := by
    rw [Call.key, inPhase, ← numbered]
    exact .feeder (numbered ▸ found) fed
  obtain ⟨earlier, member, place⟩ := List.mem_map.mp (emitted.producer_mem lawful whole needs)
  obtain ⟨origin, inSamePhase⟩ := Prod.mk.inj place
  refine ⟨earlier, ?_, origin⟩
  rw [← isBefore, List.mem_filter]
  exact ⟨member, by simpa using inSamePhase⟩

/-- If whoever is read has an output for it, then the outlet that feeds a call is an output
of a call before it. -/
theorem writer_called (emitted : graph.Emitted material program)
    (lawful : graph.Lawful) {phase : Phase}
    (written : graph.WritesWhatIsRead material phase) {before after : List Call} {call : Call}
    {block owner : Block} {feed : Endpoint}
    (split : program.compile.callsOf phase = before ++ call :: after)
    (found : graph.find? call.origin = some block) (fed : block.FedBy phase feed)
    (ownerFound : graph.find? feed.block = some owner) :
    ∃ earlier ∈ before, earlier.origin = feed.block ∧
      ⟨feed.outlet, .output⟩ ∈ (owner.callee phase).places := by
  obtain ⟨early, late, whole, -, inPhase⟩ := split_of_callsOf split
  have called : call ∈ program.calls := whole ▸ List.mem_append_right _ List.mem_cons_self
  have numbered := (find?_eq_some.mp found).2
  have needed : graph.Needed material (block.index, phase) := by
    rw [numbered, ← inPhase]
    exact emitted.needed call.key (List.mem_map_of_mem called)
  obtain ⟨parameter, inParameters, named, way⟩ :=
    written block feed owner needed (numbered ▸ found) fed ownerFound
  obtain ⟨earlier, inBefore, origin⟩ := emitted.feeder_called lawful split found fed
  refine ⟨earlier, inBefore, origin, Block.mem_places.mpr (.inl ⟨parameter, inParameters, ?_⟩)⟩
  rw [named, way]

/-- A call of a phase is the call of a block, in this phase. -/
theorem invokes_of_callsOf (emitted : graph.Emitted material program)
    (lawful : graph.Lawful) {phase : Phase}
    {call : Call} (member : call ∈ program.compile.callsOf phase) :
    call.phase = phase ∧ ∃ block, graph.Invokes block call := by
  obtain ⟨called, inPhase⟩ := List.mem_filter.mp member
  exact ⟨by simpa using inPhase, emitted.invokes lawful called⟩

/-- Calls of a phase write what they read, if whoever is read has an output for it in the
phase. -/
theorem definedBeforeUse (emitted : graph.Emitted material program)
    (lawful : graph.Lawful) {phase : Phase}
    (written : graph.WritesWhatIsRead material phase) :
    graph.DefinedBeforeUse (program.compile.callsOf phase) := by
  intro before call after split cell reads
  have called : call ∈ program.compile.callsOf phase :=
    split ▸ List.mem_append_right _ List.mem_cons_self
  obtain ⟨inPhase, block, invokes⟩ := emitted.invokes_of_callsOf lawful called
  obtain ⟨name, member, isPassed⟩ := invokes.hasArgument.mp reads
  rw [inPhase] at member
  obtain ⟨feed, owner, source, -, fed, resolved, isCell⟩ := fedBy_of_place member isPassed
  obtain ⟨ownerFound, sourceFound⟩ := resolve_eq_ok.mp resolved
  obtain ⟨earlier, inBefore, origin, isOutput⟩ :=
    emitted.writer_called lawful written split invokes.found fed ownerFound
  refine ⟨earlier, inBefore, ?_⟩
  -- The earlier call is that of the owner, in the same phase.
  obtain ⟨earlierPhase, writer, writerInvokes⟩ :=
    emitted.invokes_of_callsOf lawful (split ▸ List.mem_append_left _ inBefore)
  have isOwner : writer = owner :=
    Option.some.inj (writerInvokes.found.symm.trans (origin ▸ ownerFound))
  subst isOwner
  exact writerInvokes.hasArgument.mpr ⟨feed.outlet, earlierPhase ▸ isOutput,
    passed_output.mpr ⟨source, sourceFound, isCell⟩⟩

/-- If the calls of a phase write what they read, then whoever is read has an output for it
in the phase. -/
theorem writesWhatIsRead (emitted : graph.Emitted material program)
    (lawful : graph.Lawful) {phase : Phase}
    (defined : graph.DefinedBeforeUse (program.compile.callsOf phase)) :
    graph.WritesWhatIsRead material phase := by
  intro block feed owner needed found fed ownerFound
  -- The call of the block reads the variable of the outlet that feeds it.
  obtain ⟨call, called, place⟩ := List.mem_map.mp ((emitted.mem_keys lawful).mpr needed)
  obtain ⟨origin, inPhase⟩ := Prod.mk.inj place
  obtain ⟨other, invokes⟩ := emitted.invokes lawful called
  have same : other = block := Option.some.inj (invokes.found.symm.trans (origin ▸ found))
  subst same
  obtain ⟨name, member, nameFed⟩ :=
    place_of_fedBy (lawful other (find?_eq_some.mp found).1) fed
  have isPassed := invokes.passed _ (inPhase ▸ member)
  obtain ⟨_, producer, source, sameFed, resolved, isCell⟩ := passed_input.mp isPassed
  obtain rfl := Option.some.inj (nameFed.symm.trans sameFed)
  obtain ⟨producerFound, sourceFound⟩ := resolve_eq_ok.mp resolved
  obtain rfl := Option.some.inj (producerFound.symm.trans ownerFound)
  have reads : graph.HasArgument call .input source.id :=
    invokes.hasArgument.mpr ⟨name, inPhase ▸ member, isCell ▸ isPassed⟩
  have inCalls : call ∈ program.compile.callsOf phase :=
    List.mem_filter.mpr ⟨called, by simpa using inPhase⟩
  obtain ⟨before, after, split⟩ := List.append_of_mem inCalls
  -- The call that writes the variable is one of the owner, since identifiers tell blocks.
  obtain ⟨earlier, inBefore, writes⟩ := defined before call after split source.id reads
  obtain ⟨earlierPhase, writer, writerInvokes⟩ :=
    emitted.invokes_of_callsOf lawful (split ▸ List.mem_append_left _ inBefore)
  obtain ⟨written, writtenMember, writtenPassed⟩ := writerInvokes.hasArgument.mp writes
  obtain ⟨outlet, outletFound, sameId⟩ := passed_output.mp writtenPassed
  obtain ⟨rfl, rfl⟩ := lawful.eq_of_id_eq writerInvokes.found producerFound outletFound
    sourceFound sameId
  rw [earlierPhase] at writtenMember
  rcases Block.mem_places.mp writtenMember with ⟨parameter, inParameters, same⟩ | ⟨_, -, -, same⟩
  · obtain ⟨named, way⟩ := Place.mk.inj same
    exact ⟨parameter, inParameters, named.symm, way.symm⟩
  · cases congrArg Place.direction same

end Emitted

/-- The calls of a phase write every variable before they read it exactly when every outlet
that is read in the phase is an output parameter of its owner's fragment for the phase. -/
theorem definedBeforeUse_iff {graph : Graph} {material : BlockIndex}
    {compiled : CompiledProgram} (built : graph.Built)
    (compiles : graph.compile material = .ok compiled) (phase : Phase) :
    graph.DefinedBeforeUse (compiled.callsOf phase) ↔ graph.WritesWhatIsRead material phase := by
  obtain ⟨-, program, -, -, emitted, rfl⟩ := emitted_of_compile compiles
  exact ⟨emitted.writesWhatIsRead built.lawful, emitted.definedBeforeUse built.lawful⟩

end Graph

namespace Sample

/-- In the sample whatever is read has been written, in both phases. -/
theorem graph_writesWhatIsRead (phase : Phase) : graph.WritesWhatIsRead 3 phase := by
  intro block feed owner _ found fed ownerFound
  have links : ∀ block ∈ graph.blocks, ∀ outlet ∈ block.outlets,
      outlet.feed ∈ [none, some height, some scaled] := by
    decide
  obtain ⟨spec, -, specFed⟩ := fed
  obtain ⟨outlet, outletFound, isFeed⟩ := Option.bind_eq_some_iff.mp specFed
  have link := links block (Graph.find?_eq_some.mp found).1 outlet
    (Block.mem_of_outlet? outletFound).1
  rw [isFeed] at link
  simp only [List.mem_cons, reduceCtorEq, Option.some.injEq, List.not_mem_nil, or_false,
    false_or] at link
  rcases link with rfl | rfl
  · obtain rfl : wave = owner := Option.some.inj ownerFound
    exact ⟨⟨"hOut", .float, .output⟩, List.mem_cons_self, rfl, rfl⟩
  · obtain rfl : scale (some height) (some height) = owner := Option.some.inj ownerFound
    exact ⟨⟨"yOut", .float, .output⟩, List.mem_cons_of_mem _ List.mem_cons_self, rfl, rfl⟩

end Sample

namespace Graph

/-- In the sample every variable is written before it is read. -/
theorem definedBeforeUse_iff_sample :
    Sample.graph.Built ∧ ∃ compiled, Sample.graph.compile 3 = .ok compiled ∧
      ∀ phase, (Sample.graph.DefinedBeforeUse (compiled.callsOf phase) ↔
          Sample.graph.WritesWhatIsRead 3 phase) ∧
        Sample.graph.DefinedBeforeUse (compiled.callsOf phase) := by
  have built := Sample.graph_built
  obtain ⟨compiled, compiles, -⟩ := Sample.graph_compiles
  refine ⟨built, compiled, compiles, fun phase => ?_⟩
  have exactly := definedBeforeUse_iff built compiles phase
  exact ⟨exactly, exactly.mpr (Sample.graph_writesWhatIsRead phase)⟩

end Graph

/-!
## A material that is read in the wrong phase

The light has its output in the vertex phase only. The canvas reads it in the fragment
phase, where nothing writes it, and compiles all the same.
-/

namespace Sample

/-- What the light does in the vertex phase. -/
def lightVertex : Fragment :=
  ⟨"material", [], ⟨"void", "main", [⟨"aOut", .float, .output⟩], "{ aOut = 1.0; }"⟩, []⟩

/-- A fragment that does nothing. -/
def idle : Fragment :=
  ⟨"material", [], ⟨"void", "main", [], "{ }"⟩, []⟩

/-- What the canvas does in the fragment phase. -/
def canvasFragment : Fragment :=
  ⟨"material", [],
    ⟨"void", "main", [⟨"xIn", .float, .input⟩], "{ gl_FragColor = vec4(xIn); }"⟩, []⟩

/-- The light, as the first block. -/
def light : Block :=
  ⟨1, .material lightVertex idle,
    ⟨some 1, [⟨⟨"aOut", .float, .output, .parameter, none⟩, "v_a_1_0", none⟩]⟩, none, [], [], rfl⟩

/-- The canvas, as the second block, with what feeds it. -/
def canvas (feed : Option Endpoint) : Block :=
  ⟨2, .material idle canvasFragment,
    ⟨some 2, [⟨⟨"xIn", .float, .input, .parameter, none⟩, "v_x_2_0", feed⟩]⟩, none, [], [], rfl⟩

/-- The light and the canvas with some link. -/
def crossedWith (feed : Option Endpoint) : Graph :=
  ⟨[light, canvas feed], by simp [light, canvas]⟩

/-- The canvas reads the light. -/
def crossed : Graph :=
  crossedWith (some ⟨1, "aOut"⟩)

/-- The graph in which the canvas reads the light can be built. -/
theorem crossed_built : crossed.Built := by
  have idleRead : idle.IsRead := ⟨some "material", "void main() { }", rfl⟩
  have lightRead : (BlockKind.material lightVertex idle).IsRead :=
    ⟨⟨some "material", "void main(out float aOut) { aOut = 1.0; }", rfl⟩, idleRead⟩
  have canvasRead : (BlockKind.material idle canvasFragment).IsRead :=
    ⟨idleRead, ⟨some "material", "void main(in float xIn) { gl_FragColor = vec4(xIn); }", rfl⟩⟩
  have first : Relation.ReflTransGen Workshop.Step .start ⟨⟨2⟩, [], .insert .empty light⟩ :=
    Workshop.reachable_insert .refl lightRead rfl
  have added : (crossedWith none).Built :=
    ⟨⟨⟨3⟩, [], _⟩, Workshop.reachable_insert first canvasRead rfl, rfl⟩
  exact added.connect ⟨1, "aOut"⟩ ⟨2, "xIn"⟩ rfl

end Sample

namespace Graph

/-- The canvas compiles, but in the fragment phase it reads a variable that no call has
written. -/
theorem not_definedBeforeUse_crossed :
    Sample.crossed.Built ∧ ∃ compiled, Sample.crossed.compile 2 = .ok compiled ∧
      ¬Sample.crossed.DefinedBeforeUse (compiled.callsOf .fragment) := by
  refine ⟨Sample.crossed_built, ?_⟩
  cases compiles : Sample.crossed.compile 2 with
  | error error =>
    have succeeds : (Sample.crossed.compile 2).toOption.isSome = true := rfl
    rw [compiles] at succeeds
    contradiction
  | ok compiled =>
    obtain ⟨-, program, -, -, emitted, rfl⟩ := emitted_of_compile compiles
    refine ⟨program.compile, rfl, fun defined => ?_⟩
    have written := emitted.writesWhatIsRead Sample.crossed_built.lawful defined
    have fed : (Sample.canvas (some ⟨1, "aOut"⟩)).FedBy .fragment ⟨1, "aOut"⟩ :=
      ⟨⟨"xIn", .float, .input, .parameter, none⟩, List.mem_cons_self, rfl⟩
    obtain ⟨parameter, member, -⟩ :=
      written (Sample.canvas (some ⟨1, "aOut"⟩)) _ Sample.light (.root .fragment) rfl fed rfl
    cases member

end Graph

end ShaderBlocks
