import ShaderBlocks.Proofs.CallOrder
import ShaderBlocks.Proofs.Reachability

/-!
# Compilation looks upstream only

What a material compiles to, or why it does not, depends on the blocks that it reaches and on
nothing else in the graph, and of these blocks neither on their groups nor on the values kept
with them. Two graphs that hold the same blocks there, up to grouping and kept values, are
compiled alike. Emission on the one and on the other go through the same steps, because
whatever a step looks up is reached. That the graphs may differ in size, and with it the depth
that emission is given, makes no difference, since the depth never runs out.
-/

namespace ShaderBlocks

open Emission

/-- A block without what compilation never looks at: its group and the values kept with it. -/
def Block.bare (block : Block) : Block :=
  { block with parent := none, children := [], properties := [] }

/-- Blocks that are the same up to grouping and kept values have the same number, source and
node. -/
theorem Block.bare_inj {block twin : Block} (alike : block.bare = twin.bare) :
    block.index = twin.index ∧ block.kind = twin.kind ∧ block.node = twin.node := by
  simp only [bare, Block.mk.injEq, and_true] at alike
  exact alike

/-- Blocks that are the same up to grouping and kept values have the same fragments. -/
theorem Block.fragmentFor_eq_of_bare {block twin : Block} (alike : block.bare = twin.bare)
    (phase : Phase) : block.fragmentFor phase = twin.fragmentFor phase := by
  rw [fragmentFor, fragmentFor, (bare_inj alike).2.1]

/-- What a call does about a parameter or uniform, with the producer bare. -/
def Slot.bare : Slot → Slot
  | input producer name type => input producer.bare name type
  | replaced uniform producer name => replaced uniform producer.bare name
  | slot => slot

/-- A step with the demanded block bare. -/
def Step.bare : Step → Step
  | demand block phase priority => demand block.bare phase priority
  | step => step

/-- Whether the producer is bare makes no difference to the argument. -/
theorem Slot.argument?_bare (slot : Slot) : slot.bare.argument? = slot.argument? := by
  cases slot <;> rfl

/-- Whether the producer is bare makes no difference to the uniform that is replaced. -/
theorem Slot.replaced?_bare (slot : Slot) : slot.bare.replaced? = slot.replaced? := by
  cases slot <;> rfl

/-- What a bare block asks for. -/
theorem Block.map_bare_demands (block : Block) (phase : Phase) (priority : Priority) :
    (block.demands phase priority).map Step.bare = block.bare.demands phase priority := by
  have sameKind : block.bare.isMaterial = block.isMaterial := rfl
  simp only [demands, sameKind, List.map_cons]
  split <;> rfl

/-- What a parameter or uniform with a bare producer asks for. -/
theorem Slot.map_bare_steps (slot : Slot) (phase : Phase) (priority : Priority) :
    (slot.steps phase priority).map Step.bare = slot.bare.steps phase priority := by
  cases slot with
  | output name type => rfl
  | input producer name type =>
    rw [steps, List.map_append, Block.map_bare_demands]
    rfl
  | replaced uniform producer name =>
    rw [steps, List.map_append, Block.map_bare_demands]
    rfl
  | external uniform => rfl
  | broken error => rfl

namespace Graph

/-- Two graphs hold the same block of a number, up to grouping and kept values, or both hold
none. -/
def AgreesAt (graph other : Graph) (index : BlockIndex) : Prop :=
  (graph.find? index).map Block.bare = (other.find? index).map Block.bare

/-- Two graphs hold the same wherever a block of the first one leads upstream. -/
def AgreesUpstream (graph other : Graph) (material : BlockIndex) : Prop :=
  ∀ index ∈ graph.reach material, graph.AgreesAt other index

/-- A block that one graph holds has its counterpart in a graph that agrees. -/
theorem AgreesAt.twin {graph other : Graph} {index : BlockIndex} {block : Block}
    (agrees : graph.AgreesAt other index) (found : graph.find? index = some block) :
    ∃ twin, other.find? index = some twin ∧ block.bare = twin.bare := by
  rw [AgreesAt, found, Option.map_some] at agrees
  obtain ⟨twin, twinFound, alike⟩ := Option.map_eq_some_iff.mp agrees.symm
  exact ⟨twin, twinFound, alike.symm⟩

/-- A block that one graph does not hold is missing in a graph that agrees. -/
theorem AgreesAt.none {graph other : Graph} {index : BlockIndex}
    (agrees : graph.AgreesAt other index) (absent : graph.find? index = none) :
    other.find? index = none := by
  rw [AgreesAt, absent, Option.map_none] at agrees
  exact Option.map_eq_none_iff.mp agrees.symm

/-- The number of a block that is found is one of the graph. -/
theorem index_mem_of_find? {graph : Graph} {index : BlockIndex} {block : Block}
    (found : graph.find? index = some block) : index ∈ graph.blocks.map (·.index) :=
  List.mem_map.mpr ⟨block, find?_eq_some.mp found⟩

/-- Whatever feeds an outlet of a block feeds the block. -/
theorem mem_feeders {graph : Graph} {block : Block} {outlet : Outlet} {feed : Endpoint}
    (found : graph.find? block.index = some block) (member : outlet ∈ block.outlets)
    (fed : outlet.feed = some feed) : feed.block ∈ graph.feeders block.index := by
  have isBlock := (find?_eq_some.mp found).1
  exact mem_feeders_iff.mpr ⟨block, isBlock, rfl, outlet, member, feed, fed, rfl⟩

/-- Whatever feeds a fragment of a block feeds the block. -/
theorem mem_feeders_of_fedBy {graph : Graph} {block : Block} {phase : Phase} {feed : Endpoint}
    (found : graph.find? block.index = some block) (fedBy : block.FedBy phase feed) :
    feed.block ∈ graph.feeders block.index := by
  obtain ⟨spec, -, fed⟩ := fedBy
  obtain ⟨outlet, outletFound, isFeed⟩ := Option.bind_eq_some_iff.mp fed
  exact mem_feeders found (Block.mem_of_outlet? outletFound).1 isFeed

section Lookup

variable {graph other : Graph}

/-- Where two graphs agree, an endpoint leads to the same outlet of alike blocks, or to the
same error. -/
theorem AgreesAt.resolve {feed : Endpoint} (agrees : graph.AgreesAt other feed.block) :
    (∃ error, graph.resolve feed = .error error ∧ other.resolve feed = .error error) ∨
      ∃ producer twin source, graph.resolve feed = .ok (producer, source) ∧
        other.resolve feed = .ok (twin, source) ∧ producer.bare = twin.bare := by
  cases found : graph.find? feed.block with
  | none =>
    refine .inl ⟨.unknownBlock feed.block, ?_, ?_⟩
    · simp [resolve_eq, get, found, bind, Except.bind]
    · simp [resolve_eq, get, agrees.none found, bind, Except.bind]
  | some producer =>
    obtain ⟨twin, twinFound, alike⟩ := agrees.twin found
    have sameNode : twin.node = producer.node := (Block.bare_inj alike).2.2.symm
    cases outlet : producer.node.get feed.outlet with
    | error error =>
      refine .inl ⟨error, ?_, ?_⟩
      · simp [resolve_eq, get, found, outlet, bind, Except.bind]
      · simp [resolve_eq, get, twinFound, sameNode, outlet, bind, Except.bind]
    | ok source =>
      refine .inr ⟨producer, twin, source, ?_, ?_, alike⟩
      · simp [resolve_eq, get, found, outlet, bind, Except.bind, pure, Except.pure]
      · simp [resolve_eq, get, twinFound, sameNode, outlet, bind, Except.bind, pure, Except.pure]

/-- What a node gives under a name is one of its outlets. -/
theorem mem_of_get_node {node : Node} {name : String} {outlet : Outlet}
    (given : node.get name = .ok outlet) : outlet ∈ node.outlets := by
  unfold Node.get at given
  split at given
  · rename_i found
    cases given
    exact List.mem_of_find?_eq_some found
  · contradiction

variable {node : Node}
  (agrees : ∀ outlet ∈ node.outlets, ∀ feed, outlet.feed = some feed →
    graph.AgreesAt other feed.block)

include agrees

/-- Graphs that agree on what feeds a node do the same about a parameter. -/
theorem bare_parameterSlot (owner : BlockIndex) (parameter : Parameter) :
    (graph.parameterSlot owner node parameter).bare =
      (other.parameterSlot owner node parameter).bare := by
  unfold parameterSlot
  cases given : node.get parameter.name with
  | error error => rfl
  | ok outlet =>
    cases parameter.direction with
    | output => rfl
    | input =>
      cases fed : outlet.feed with
      | none => simp only [fed]
      | some feed =>
        rcases (agrees outlet (mem_of_get_node given) feed fed).resolve with
          ⟨error, here, there⟩ | ⟨producer, twin, source, here, there, alike⟩
        · simp only [fed, here, there]
        · simp only [fed, here, there, Slot.bare, alike]

/-- Graphs that agree on what feeds a node do the same about a uniform. -/
theorem bare_uniformSlot (uniform : Uniform) :
    (graph.uniformSlot node uniform).bare = (other.uniformSlot node uniform).bare := by
  unfold uniformSlot
  cases given : node.get uniform.name with
  | error error => rfl
  | ok outlet =>
    cases fed : outlet.feed with
    | none => simp only [fed]
    | some feed =>
      rcases (agrees outlet (mem_of_get_node given) feed fed).resolve with
        ⟨error, here, there⟩ | ⟨producer, twin, source, here, there, alike⟩
      · simp only [fed, here, there]
      · simp only [fed, here, there, Slot.bare, alike]

/-- Graphs that agree on what feeds a node do the same for a call. -/
theorem map_bare_slots (owner : BlockIndex) (fragment : Fragment) :
    (graph.slots owner node fragment).map Slot.bare =
      (other.slots owner node fragment).map Slot.bare := by
  simp only [slots, List.map_append, List.map_map]
  congr 1
  · exact List.map_congr_left fun parameter _ => bare_parameterSlot agrees owner parameter
  · exact List.map_congr_left fun uniform _ => bare_uniformSlot agrees uniform

end Lookup

/-- Two graphs hold the same at every number in `known`, and with the number of a block, that of
whatever feeds the block is in `known`. -/
structure AgreesOn (graph other : Graph) (known : List BlockIndex) : Prop where
  /-- What feeds a known block is known. -/
  closed : graph.ClosedUpstream known
  /-- The graphs agree on what is known. -/
  agrees : ∀ index ∈ known, graph.AgreesAt other index

namespace AgreesOn

variable {graph other : Graph} {known : List BlockIndex} {block twin : Block}
  (agreesOn : graph.AgreesOn other known) (found : graph.find? block.index = some block)
  (isKnown : block.index ∈ known)

include agreesOn found isKnown

/-- The graphs agree on what feeds a known block. -/
theorem feeds : ∀ outlet ∈ block.node.outlets, ∀ feed, outlet.feed = some feed →
      graph.AgreesAt other feed.block := by
  intro outlet member feed fed
  have feederKnown := agreesOn.closed block.index isKnown feed.block (mem_feeders found member fed)
  exact agreesOn.agrees feed.block feederKnown

/-- A block that is asked for before the call of a known block is known. -/
theorem known_of_demand_mem {producer : Block} {phase asked : Phase} {priority rank : Priority}
    (member : Step.demand producer asked rank ∈ graph.preparation block phase priority) :
    producer.index ∈ known := by
  obtain ⟨feed, source, fedBy, resolved, -⟩ := feeds_of_demand_mem member
  have numbered : producer.index = feed.block := (find?_eq_some.mp (resolve_eq_ok.mp resolved).1).2
  rw [numbered]
  exact agreesOn.closed block.index isKnown feed.block (mem_feeders_of_fedBy found fedBy)

/-- Both graphs do the same about the parameters and uniforms of alike blocks. -/
theorem map_bare_slots (alike : block.bare = twin.bare) (phase : Phase) :
    (graph.slots block.index block.node (block.fragmentFor phase)).map Slot.bare =
      (other.slots twin.index twin.node (twin.fragmentFor phase)).map Slot.bare := by
  rw [← (Block.bare_inj alike).1, ← (Block.bare_inj alike).2.2,
    ← Block.fragmentFor_eq_of_bare alike]
  exact Graph.map_bare_slots (agreesOn.feeds found isKnown) _ _

/-- Both graphs ask for the same before the calls of alike blocks. -/
theorem map_bare_preparation (alike : block.bare = twin.bare) (phase : Phase)
    (priority : Priority) :
    (graph.preparation block phase priority).map Step.bare =
      (other.preparation twin phase priority).map Step.bare := by
  have bared : ∀ slots : List Slot, (slots.flatMap (Slot.steps phase priority)).map Step.bare =
      (slots.map Slot.bare).flatMap (Slot.steps phase priority) := by
    intro slots
    rw [List.map_flatMap, List.flatMap_map]
    exact List.flatMap_congr fun slot _ => slot.map_bare_steps phase priority
  rw [preparation, preparation, bared, bared, agreesOn.map_bare_slots found isKnown alike]

/-- The calls of alike blocks are the same. -/
theorem blockCall_eq (alike : block.bare = twin.bare) (phase : Phase) (priority : Priority) :
    graph.blockCall block phase priority = other.blockCall twin phase priority := by
  have sameSlots := agreesOn.map_bare_slots found isKnown alike phase
  have arguments : ∀ slots : List Slot,
      slots.filterMap Slot.argument? = (slots.map Slot.bare).filterMap Slot.argument? := by
    intro slots
    rw [List.filterMap_map]
    exact List.filterMap_congr fun slot _ => slot.argument?_bare.symm
  have replacements : ∀ slots : List Slot,
      slots.filterMap Slot.replaced? = (slots.map Slot.bare).filterMap Slot.replaced? := by
    intro slots
    rw [List.filterMap_map]
    exact List.filterMap_congr fun slot _ => slot.replaced?_bare.symm
  simp only [blockCall, call]
  rw [arguments, arguments (other.slots _ _ _), replacements, replacements (other.slots _ _ _),
    sameSlots, Block.fragmentFor_eq_of_bare alike, (Block.bare_inj alike).1]

end AgreesOn

end Graph

namespace Emission

/-- Steps that are alike are followed alike, if alike blocks are put in alike. -/
theorem follow_eq_of_bare {demand twinDemand : Block → Phase → Priority → Emission Unit}
    {steps twins : List Step} (same : steps.map Step.bare = twins.map Step.bare)
    (alike : ∀ block twin phase priority, .demand block phase priority ∈ steps →
      block.bare = twin.bare → demand block phase priority = twinDemand twin phase priority) :
    follow demand steps = follow twinDemand twins := by
  induction steps generalizing twins with
  | nil =>
    obtain rfl := List.map_eq_nil_iff.mp same.symm
    rfl
  | cons step rest ih =>
    obtain ⟨twin, others, rfl, sameStep, sameRest⟩ := List.map_eq_cons_iff.mp same.symm
    have performed : perform demand step = perform twinDemand twin := by
      cases step with
      | demand block phase priority =>
        cases twin with
        | demand other twinPhase twinPriority =>
          simp only [Step.bare, Step.demand.injEq] at sameStep
          obtain ⟨sameBlock, rfl, rfl⟩ := sameStep
          exact alike block other _ _ List.mem_cons_self sameBlock.symm
        | declare | declareExternal | fail | add => simp [Step.bare] at sameStep
      | declare | declareExternal | fail | add =>
        cases twin <;> simp [Step.bare] at sameStep
        simp [perform, sameStep]
    have followed := ih sameRest.symm fun block other phase priority member =>
      alike block other phase priority (List.mem_cons_of_mem _ member)
    rw [follow, follow, performed, followed]

/-- A path without repetition through a graph is at most twice as long as the graph is large. -/
theorem length_le_of_within {graph : Graph} {path : List Key} (distinct : path.Nodup)
    (within : ∀ key ∈ path, key.1 ∈ graph.blocks.map (·.index)) :
    path.length ≤ 2 * graph.size := by
  have short := length_le_of_nodup distinct within
  rw [List.length_map] at short
  exact short

/-- Alike blocks are put in alike, at any two depths that cover all paths. -/
theorem ensureWithin_eq_of_agreesOn {graph other : Graph} {known : List BlockIndex}
    (agreesOn : graph.AgreesOn other known) {depth twinDepth : Nat} {path : List Key}
    (distinct : path.Nodup) (within : ∀ key ∈ path, key.1 ∈ graph.blocks.map (·.index))
    (twinWithin : ∀ key ∈ path, key.1 ∈ other.blocks.map (·.index))
    (deep : 2 * graph.size < depth + path.length)
    (twinDeep : 2 * other.size < twinDepth + path.length) {block twin : Block}
    (found : graph.find? block.index = some block) (isKnown : block.index ∈ known)
    (alike : block.bare = twin.bare) (phase : Phase) (priority : Priority) :
    ensureWithin graph depth path block phase priority =
      ensureWithin other twinDepth path twin phase priority := by
  induction depth generalizing twinDepth path block twin phase priority with
  | zero =>
    have short := length_le_of_within distinct within
    omega
  | succ depth ih =>
    cases twinDepth with
    | zero =>
      have short := length_le_of_within distinct twinWithin
      omega
    | succ twinDepth =>
      have sameIndex := (Block.bare_inj alike).1
      funext program
      rw [ensureWithin_succ, ensureWithin_succ, ← sameIndex]
      by_cases inside : (block.index, phase) ∈ path
      · rw [if_pos inside, if_pos inside]
      · rw [if_neg inside, if_neg inside,
          ← agreesOn.blockCall_eq found isKnown alike phase priority]
        -- Both paths grow by the same key, and the blocks that are asked for are known.
        have followed : follow (ensureWithin graph depth ((block.index, phase) :: path))
            (graph.preparation block phase priority) =
              follow (ensureWithin other twinDepth ((block.index, phase) :: path))
                (other.preparation twin phase priority) := by
          apply follow_eq_of_bare (agreesOn.map_bare_preparation found isKnown alike phase priority)
          intro producer producerTwin asked rank member producerAlike
          apply ih
          · exact List.nodup_cons.mpr ⟨inside, distinct⟩
          · exact List.forall_mem_cons.mpr ⟨Graph.index_mem_of_find? found, within⟩
          · obtain ⟨held, twinFound, -⟩ := (agreesOn.agrees block.index isKnown).twin found
            exact List.forall_mem_cons.mpr ⟨Graph.index_mem_of_find? twinFound, twinWithin⟩
          · rw [List.length_cons]
            omega
          · rw [List.length_cons]
            omega
          · exact Graph.find?_of_demand_mem member
          · exact agreesOn.known_of_demand_mem found isKnown member
          · exact producerAlike
        rw [followed]

end Emission

namespace Graph

/-- Alike blocks are put into a program alike. -/
theorem AgreesOn.compileInto_eq {graph other : Graph} {known : List BlockIndex}
    (agreesOn : graph.AgreesOn other known) {block twin : Block}
    (found : graph.find? block.index = some block) (isKnown : block.index ∈ known)
    (alike : block.bare = twin.bare) (program : Program) :
    block.compileInto graph program = twin.compileInto other program := by
  obtain ⟨sameIndex, sameKind, -⟩ := Block.bare_inj alike
  have sameSink : block.checkSink = twin.checkSink := by
    rw [Block.checkSink, Block.checkSink, Block.isMaterial, Block.isMaterial, sameKind, sameIndex,
      (Block.bare_inj alike).2.2]
  have sameRun : ensureAll graph block Phase.all program =
      ensureAll other twin Phase.all program := by
    rw [ensureAll_eq, ensureAll_eq]
    apply congrFun
    apply follow_eq_of_bare
    · simp only [List.map_map]
      exact List.map_congr_left fun phase _ => congrArg (Step.demand · phase 0) alike
    · intro asked askedTwin phase priority member askedAlike
      obtain ⟨_, -, same⟩ := List.mem_map.mp member
      injection same with sameBlock
      subst sameBlock
      apply ensureWithin_eq_of_agreesOn agreesOn List.nodup_nil (by simp) (by simp)
      · simp only [depthOf, List.length_nil]
        omega
      · simp only [depthOf, List.length_nil]
        omega
      · exact found
      · exact isKnown
      · exact askedAlike
  simp only [Block.compileInto, sameSink, EStateM.run, sameRun]

/-- A material compiles alike in graphs that agree on all that it reaches. -/
theorem AgreesUpstream.compile_eq {graph other : Graph} {material : BlockIndex}
    (agrees : graph.AgreesUpstream other material) :
    graph.compile material = other.compile material := by
  have agreesOn : graph.AgreesOn other (graph.reach material) :=
    ⟨closedUpstream_reach graph material, agrees⟩
  have reached : material ∈ graph.reach material := start_mem_reach graph material
  cases found : graph.find? material with
  | none =>
    have twinAbsent := (agrees material reached).none found
    simp [compile, get, found, twinAbsent, bind, Except.bind]
  | some block =>
    obtain ⟨twin, twinFound, alike⟩ := (agrees material reached).twin found
    have numbered : block.index = material := (find?_eq_some.mp found).2
    subst numbered
    have put := agreesOn.compileInto_eq found reached alike .empty
    simp [compile, get, found, twinFound, Block.compile, put, bind, Except.bind]

/-- Whatever a material needs, it reaches. -/
theorem Needed.mem_reach {graph : Graph} {material : BlockIndex} {key : Key}
    (needed : graph.Needed material key) : key.1 ∈ graph.reach material := by
  have closed := closedUpstream_reach graph material
  induction needed with
  | root phase => exact start_mem_reach graph material
  | step needed needs ih =>
    cases needs with
    | feeder found fedBy => exact closed _ ih _ (mem_feeders_of_fedBy found fedBy)
    | vertexStage found fedBy feederFound isMaterial =>
      exact closed _ ih _ (mem_feeders_of_fedBy found fedBy)

/-! ## Edits elsewhere -/

/-- A changed block is found in its place. -/
theorem find?_modify (graph : Graph) (index : BlockIndex) {change : Block → Block}
    (numbered : ∀ block, (change block).index = block.index) (other : BlockIndex) :
    (graph.modify index change numbered).find? other =
      (graph.find? other).map (modifyBlock index change) :=
  find?_of_blocks_map rfl (modifyBlock_index numbered index) other

/-- A change of one block makes no difference at another. -/
theorem AgreesAt.modify_of_ne {graph : Graph} {index other : BlockIndex} (apart : index ≠ other)
    {change : Block → Block} (numbered : ∀ block, (change block).index = block.index) :
    graph.AgreesAt (graph.modify index change numbered) other := by
  unfold AgreesAt
  rw [find?_modify]
  cases found : graph.find? other with
  | none => rfl
  | some block =>
    have numbered : block.index = other := (find?_eq_some.mp found).2
    have untouched : modifyBlock index change block = block := by
      rw [modifyBlock, if_neg (numbered ▸ apart.symm)]
    simp [untouched]

/-- A change of grouping or kept values makes no difference anywhere. -/
theorem AgreesAt.update_of_bare {graph after : Graph} {index : BlockIndex} {change : Block → Block}
    {numbered : ∀ block, (change block).index = block.index}
    (done : graph.update index change numbered = .ok after)
    (kept : ∀ block, (change block).bare = block.bare) (other : BlockIndex) :
    graph.AgreesAt after other := by
  obtain ⟨-, rfl⟩ := update_eq_ok.mp done
  unfold AgreesAt
  rw [find?_modify, Option.map_map]
  congr 1
  funext block
  show block.bare = (modifyBlock index change block).bare
  unfold modifyBlock
  split
  · exact (kept block).symm
  · rfl

/-- An edit that leaves what a material reaches as it is, up to grouping and kept values. -/
inductive EditedElsewhere (material : BlockIndex) (graph : Graph) : Graph → Prop
  | insert {block : Block} (apart : block.index ∉ graph.reach material) :
      EditedElsewhere material graph (graph.insert block)
  | connect {source target : Endpoint} {after : Graph}
      (apart : target.block ∉ graph.reach material)
      (done : graph.connect source target = .ok after) : EditedElsewhere material graph after
  | disconnect {target : Endpoint} {feed : Option Endpoint} {after : Graph}
      (apart : target.block ∉ graph.reach material)
      (done : graph.disconnect target = .ok (after, feed)) : EditedElsewhere material graph after
  | adopt {parent child : BlockIndex} {after : Graph}
      (done : graph.adopt parent child = .ok after) : EditedElsewhere material graph after
  | editProperties {index : BlockIndex} {change : List (String × Json) → List (String × Json)}
      {after : Graph} (done : graph.editProperties index change = .ok after) :
      EditedElsewhere material graph after

/-- Grouping a block makes no difference anywhere. -/
theorem AgreesAt.adopt {graph after : Graph} {parent child : BlockIndex}
    (done : graph.adopt parent child = .ok after) (index : BlockIndex) :
    graph.AgreesAt after index := by
  obtain ⟨block, detached, -, took, attached⟩ := detach_attach_of_adopt done
  obtain ⟨listed, put, named⟩ := bind_eq_ok.mp attached
  have left : graph.AgreesAt detached index := by
    unfold detach at took
    split at took
    · exact .update_of_bare took (fun _ => rfl) index
    · cases took
      rfl
  have joined : detached.AgreesAt listed index := .update_of_bare put (fun _ => rfl) index
  have placed : listed.AgreesAt after index := .update_of_bare named (fun _ => rfl) index
  exact left.trans (joined.trans placed)

/-- An edit elsewhere leaves all that a material reaches. -/
theorem EditedElsewhere.agreesUpstream {material : BlockIndex} {graph after : Graph}
    (edited : EditedElsewhere material graph after) : graph.AgreesUpstream after material := by
  intro index reached
  cases edited with
  | @insert block apart =>
    have other : block.index ≠ index := fun same => apart (same ▸ reached)
    rw [AgreesAt, find?_insert, if_neg other]
  | @connect source target after apart done =>
    obtain ⟨output, input, -, -, -, -, rfl⟩ := connect_eq_ok done
    have other : target.block ≠ index := fun same => apart (same ▸ reached)
    exact .modify_of_ne other _
  | @disconnect target feed after apart done =>
    simp only [Graph.disconnect, bind, Except.bind] at done
    split at done
    · contradiction
    · cases done
      have other : target.block ≠ index := fun same => apart (same ▸ reached)
      exact .modify_of_ne other _
  | adopt done => exact .adopt done index
  | editProperties done => exact .update_of_bare done (fun _ => rfl) index

end Graph

/-- The sample with one more wave, to which no link leads. -/
def Sample.beside : Graph :=
  Sample.graph.insert { Sample.wave with
    index := 4
    node := ⟨some 4, Sample.wave.outlets⟩
    owned := rfl }

namespace Graph

/-- Compilation depends on what is upstream only. A material compiles to the same program, or
fails with the same error, in any graph that agrees on all that the material reaches. Whatever
is added or linked elsewhere, grouped or kept with blocks, one edit after the other, changes
nothing; and every call of the compiled program is of a block that the material reaches. -/
theorem compile_depends_on_upstream (graph : Graph) (material : BlockIndex) :
    (∀ other, graph.AgreesUpstream other material →
      graph.compile material = other.compile material) ∧
    (∀ edited, Relation.ReflTransGen (EditedElsewhere material) graph edited →
      graph.compile material = edited.compile material) ∧
    ∀ compiled, graph.compile material = .ok compiled →
      ∀ call ∈ compiled.calls, call.origin ∈ graph.reach material := by
  refine ⟨fun other agrees => agrees.compile_eq, fun edited edits => ?_, ?_⟩
  · induction edits with
    | refl => rfl
    | tail edits edit ih => exact ih.trans edit.agreesUpstream.compile_eq
  · intro compiled compiles call member
    obtain ⟨block, program, found, sink, emitted, rfl⟩ := emitted_of_compile compiles
    exact (emitted.needed call.key (List.mem_map_of_mem member)).mem_reach

/-- A second wave is added beside the sample, the surface is grouped under it, and a value is
kept with the first wave. The surface still compiles to the calls of the blocks it reaches. -/
theorem compile_depends_on_upstream_sample :
    Sample.graph.reach 3 = [3, 1, 2] ∧
      Sample.graph.AgreesUpstream Sample.beside 3 ∧
      Sample.graph.compile 3 = Sample.beside.compile 3 ∧
      ∃ grouped noted, Sample.beside.adopt 4 3 = .ok grouped ∧
        grouped.setProperty 1 "label" .null = .ok noted ∧
        Sample.graph.compile 3 = noted.compile 3 ∧
        ∃ compiled, Sample.graph.compile 3 = .ok compiled ∧
          ∀ call ∈ compiled.calls, call.origin ∈ Sample.graph.reach 3 := by
  have added : EditedElsewhere 3 Sample.graph Sample.beside :=
    .insert (show (4 : BlockIndex) ∉ Sample.graph.reach 3 by decide)
  have grouped : ∃ grouped, Sample.beside.adopt 4 3 = .ok grouped := ⟨_, rfl⟩
  obtain ⟨grouped, isGrouped⟩ := grouped
  have noted : ∃ noted, grouped.setProperty 1 "label" .null = .ok noted := by
    cases isGrouped
    exact ⟨_, rfl⟩
  obtain ⟨noted, isNoted⟩ := noted
  obtain ⟨compiled, compiles, -⟩ := Sample.graph_compiles
  obtain ⟨alike, undisturbed, within⟩ := compile_depends_on_upstream Sample.graph 3
  have edits : Relation.ReflTransGen (EditedElsewhere 3) Sample.graph noted :=
    ((Relation.ReflTransGen.single added).tail (.adopt isGrouped)).tail (.editProperties isNoted)
  exact ⟨rfl, added.agreesUpstream, alike _ added.agreesUpstream, grouped, noted, isGrouped,
    isNoted, undisturbed noted edits, compiled, compiles, within compiled compiles⟩

end Graph

end ShaderBlocks
