import Mathlib.Data.List.Forall2
import ShaderBlocks.Proofs.CompileSuccess
import ShaderBlocks.Proofs.DocumentMeaning

/-!
# Numbers do not matter

Blocks are numbered in the order they are made, and the numbers go into the names of variables and
of functions. Yet two graphs whose blocks have the same identifiers and differ in their numbers only
are compiled alike: emission goes through steps that correspond one by one, both succeed or both
fail, and the programs correspond call by call. A call can be told without numbers, by the
identifier of its block and the outlets whose variables it passes; corresponding calls are told
alike. This rests on two things. A variable tells the block and the outlet, so that two variables
are the same in one program if their counterparts are in the other. And emission takes the
parameters of a fragment one by one, whatever the numbers of the blocks that feed them.
-/

namespace ShaderBlocks

open Emission

/-- Values that correspond are both missing or both there. -/
theorem cases_of_rel {α β : Type} {related : α → β → Prop} {left : Option α} {right : Option β}
    (alike : Option.Rel related left right) :
    left = none ∧ right = none ∨
      ∃ value other, left = some value ∧ right = some other ∧ related value other := by
  cases alike with
  | none => exact .inl ⟨rfl, rfl⟩
  | some values => exact .inr ⟨_, _, rfl, rfl, values⟩

/-- Of lists that correspond, the first elements that fit correspond. -/
theorem rel_find? {α β : Type} {related : α → β → Prop} {fits : α → Bool} {otherFits : β → Bool}
    (alike : ∀ left right, related left right → fits left = otherFits right)
    {lefts : List α} {rights : List β} (all : List.Forall₂ related lefts rights) :
    Option.Rel related (lefts.find? fits) (rights.find? otherFits) := by
  induction all with
  | nil => exact .none
  | @cons left right lefts rights first rest ih =>
    cases isFit : fits left with
    | true =>
      rw [List.find?_cons_of_pos isFit, List.find?_cons_of_pos (alike left right first ▸ isFit)]
      exact .some first
    | false =>
      have otherFit : otherFits right = false := alike left right first ▸ isFit
      rw [List.find?_cons_of_neg (by simp [isFit]), List.find?_cons_of_neg (by simp [otherFit])]
      exact ih

/-- Two lists that can be told alike element by element can be told alike. -/
theorem exists_forall₂_of_exists {α β γ : Type} {tells : γ → α → Prop} {tellsOther : γ → β → Prop}
    {lefts : List α} {rights : List β}
    (all : List.Forall₂ (fun left right => ∃ sketch, tells sketch left ∧ tellsOther sketch right)
      lefts rights) :
    ∃ sketches, List.Forall₂ tells sketches lefts ∧ List.Forall₂ tellsOther sketches rights := by
  induction all with
  | nil => exact ⟨[], .nil, .nil⟩
  | cons first rest ih =>
    obtain ⟨sketch, isFirst, isOther⟩ := first
    obtain ⟨sketches, areRest, areOthers⟩ := ih
    exact ⟨sketch :: sketches, .cons isFirst areRest, .cons isOther areOthers⟩

/-- Lists that are made of one list place by place correspond if their elements do. -/
theorem forall₂_mapIdx {α β γ : Type} {related : β → γ → Prop} {left : Nat → α → β}
    {right : Nat → α → γ} (each : ∀ slot value, related (left slot value) (right slot value))
    (values : List α) : List.Forall₂ related (values.mapIdx left) (values.mapIdx right) := by
  induction values generalizing left right with
  | nil => exact .nil
  | cons value rest ih =>
    rw [List.mapIdx_cons, List.mapIdx_cons]
    exact .cons (each 0 value) (ih fun slot => each (slot + 1))

/-- A call told without numbers: by the identifier of its block, and with the outlets whose
variables it passes in place of the variables. -/
structure CallSketch where
  /-- The phase it is made in. -/
  phase : Phase
  /-- The identifier of the block it is made for. -/
  blockId : String
  /-- How deep below the compiled block it was first asked for. -/
  priority : Priority
  /-- The fragment that is called. -/
  fragment : Fragment
  /-- The uniforms that are fed by other blocks. -/
  replaced : List String
  /-- The outlets whose variables are passed, in order. -/
  arguments : List ConnectionEnd

/-- An endpoint whose outlet is missing leads nowhere. -/
theorem Graph.resolve_of_absent {graph : Graph} {endpoint : Endpoint} {block : Block}
    (held : graph.find? endpoint.block = some block)
    (absent : block.outlet? endpoint.outlet = none) :
    ∃ error, graph.resolve endpoint = .error error := by
  refine ⟨.unknownOutlet (some block.index) endpoint.outlet, ?_⟩
  simp [resolve, get_eq_ok.mpr held, get_node_of_absent absent, bind, Except.bind]

namespace BuiltGraph

/-- The variable of an outlet, which is given by the identifier of its block and its name. -/
def Denotes (built : BuiltGraph) (place : ConnectionEnd) (cell : String) : Prop :=
  ∃ index block outlet, numberOf built.ids place.blockId = some index ∧
    built.graph.find? index = some block ∧ block.outlet? place.outlet = some outlet ∧
      outlet.id = cell

/-- A call is the one that is told. -/
structure Renders (built : BuiltGraph) (sketch : CallSketch) (call : Call) : Prop where
  /-- The phase is the same. -/
  phase : call.phase = sketch.phase
  /-- It is made for the block of the identifier. -/
  origin : numberOf built.ids sketch.blockId = some call.origin
  /-- The priority is the same. -/
  priority : call.priority = sketch.priority
  /-- The fragment is that of the block for the phase, and the uniforms are those that its links
  feed. -/
  fragment : ∃ block, built.graph.find? call.origin = some block ∧
    block.fragmentFor sketch.phase = sketch.fragment ∧
      (built.graph.slots call.origin block.node sketch.fragment).filterMap Slot.replaced? =
        sketch.replaced
  /-- The function is named after the fragment and the block. -/
  name : call.name = callName sketch.phase sketch.fragment.name call.origin
  /-- The function is the fragment with the uniforms replaced. -/
  body : call.body = sketch.fragment.render call.name sketch.replaced
  /-- The variables passed are those of the outlets. -/
  args : List.Forall₂ built.Denotes sketch.arguments call.args

/-- An outlet has one variable. -/
theorem Denotes.unique {built : BuiltGraph} {place : ConnectionEnd} {cell other : String}
    (denotes : built.Denotes place cell) (denotesOther : built.Denotes place other) :
    cell = other := by
  obtain ⟨index, block, outlet, numbered, found, outletFound, rfl⟩ := denotes
  obtain ⟨_, _, _, otherNumbered, otherFound, otherOutlet, rfl⟩ := denotesOther
  obtain rfl := Option.some.inj (numbered.symm.trans otherNumbered)
  obtain rfl := Option.some.inj (found.symm.trans otherFound)
  obtain rfl := Option.some.inj (outletFound.symm.trans otherOutlet)
  rfl

/-- No number has two identifiers. -/
def NamesApart (built : BuiltGraph) : Prop :=
  ∀ id other index, numberOf built.ids id = some index → numberOf built.ids other = some index →
    id = other

/-- In a lawful graph a variable belongs to one outlet. -/
theorem Denotes.place_eq {built : BuiltGraph} (lawful : built.graph.Lawful)
    (apart : built.NamesApart) {place other : ConnectionEnd} {cell : String}
    (denotes : built.Denotes place cell) (denotesOther : built.Denotes other cell) :
    place = other := by
  obtain ⟨index, block, outlet, numbered, found, outletFound, isCell⟩ := denotes
  obtain ⟨otherIndex, second, twin, otherNumbered, otherFound, twinFound, isOther⟩ := denotesOther
  obtain ⟨rfl, sameOutlet⟩ := lawful.eq_of_id_eq found otherFound outletFound twinFound
    (isCell.trans isOther.symm)
  have sameIndex : index = otherIndex :=
    (Graph.find?_eq_some.mp found).2.symm.trans (Graph.find?_eq_some.mp otherFound).2
  obtain ⟨blockId, name⟩ := place
  obtain ⟨otherId, otherName⟩ := other
  have sameId : blockId = otherId :=
    apart blockId otherId otherIndex (sameIndex ▸ numbered) otherNumbered
  exact ConnectionEnd.mk.injEq .. ▸ ⟨sameId, sameOutlet⟩

/-- Two numbers belong to blocks of one identifier. -/
def SameBlock (built twin : BuiltGraph) (index other : BlockIndex) : Prop :=
  ∃ id, numberOf built.ids id = some index ∧ numberOf twin.ids id = some other

/-- Two variables belong to outlets of one name in blocks of one identifier. -/
def SameCell (built twin : BuiltGraph) (cell other : String) : Prop :=
  ∃ place, built.Denotes place cell ∧ twin.Denotes place other

/-- Two outlets lead to the same place. -/
def SameEndpoint (built twin : BuiltGraph) (endpoint other : Endpoint) : Prop :=
  built.SameBlock twin endpoint.block other.block ∧ endpoint.outlet = other.outlet

/-- Two outlets are described alike and fed from the same place. -/
structure OutletTwin (built twin : BuiltGraph) (outlet other : Outlet) : Prop where
  /-- The descriptions are the same. -/
  spec : outlet.toOutletSpec = other.toOutletSpec
  /-- They are fed from the same place, or both not fed. -/
  feed : Option.Rel (built.SameEndpoint twin) outlet.feed other.feed

/-- Two blocks of the graphs have one identifier, one source, and outlets that correspond. -/
structure BlockTwin (built twin : BuiltGraph) (block other : Block) : Prop where
  /-- The one block is in its graph. -/
  held : built.graph.find? block.index = some block
  /-- The other block is in its graph. -/
  twinHeld : twin.graph.find? other.index = some other
  /-- The identifier is the same. -/
  index : built.SameBlock twin block.index other.index
  /-- The source is the same. -/
  kind : block.kind = other.kind
  /-- The outlets correspond. -/
  outlets : List.Forall₂ (built.OutletTwin twin) block.outlets other.outlets

/-- Two graphs are the same but for the numbers of their blocks, up to grouping and kept values. -/
structure Renumbered (built twin : BuiltGraph) : Prop where
  /-- The one graph is lawful. -/
  lawful : built.graph.Lawful
  /-- The other graph is lawful. -/
  twinLawful : twin.graph.Lawful
  /-- No number of the one has two identifiers. -/
  apart : built.NamesApart
  /-- No number of the other has two identifiers. -/
  twinApart : twin.NamesApart
  /-- Blocks of one identifier correspond. -/
  blocks : ∀ index other, built.SameBlock twin index other → ∃ block second,
    block.index = index ∧ second.index = other ∧ built.BlockTwin twin block second
  /-- There are as many blocks in both. -/
  size : built.graph.size = twin.graph.size
  /-- The material is the same. -/
  material : built.SameBlock twin built.material twin.material

section Twins

variable {built twin : BuiltGraph}

namespace BlockTwin

variable {block other : Block} (twins : built.BlockTwin twin block other)

include twins

/-- Twins find corresponding outlets by name. -/
theorem outlet? (name : String) :
    Option.Rel (built.OutletTwin twin) (block.outlet? name) (other.outlet? name) :=
  rel_find? (fun outlet second alike => by rw [alike.spec]) twins.outlets

/-- The outlets that twins find by a name have the same variable. -/
theorem sameCell {name : String} {outlet second : Outlet}
    (found : block.outlet? name = some outlet) (otherFound : other.outlet? name = some second) :
    built.SameCell twin outlet.id second.id := by
  obtain ⟨id, numbered, otherNumbered⟩ := twins.index
  exact ⟨⟨id, name⟩, ⟨_, _, _, numbered, twins.held, found, rfl⟩,
    ⟨_, _, _, otherNumbered, twins.twinHeld, otherFound, rfl⟩⟩

/-- Twins are both materials or both not. -/
theorem isMaterial : block.isMaterial = other.isMaterial :=
  congrArg BlockKind.isMaterial twins.kind

/-- Twins have the same fragments. -/
theorem fragmentFor (phase : Phase) : block.fragmentFor phase = other.fragmentFor phase :=
  congrArg (·.fragmentFor phase) twins.kind

/-- Twins can both be compiled or both not. -/
theorem checkSink : block.checkSink = .ok () ↔ other.checkSink = .ok () := by
  have directions : block.outlets.map (·.direction) = other.outlets.map (·.direction) := by
    rw [← List.forall₂_eq_eq_eq, List.forall₂_map_left_iff, List.forall₂_map_right_iff]
    exact twins.outlets.imp fun _ _ alike => congrArg OutletSpec.direction alike.spec
  have sinks : (∀ outlet ∈ block.outlets, outlet.direction ≠ .output) ↔
      ∀ outlet ∈ other.outlets, outlet.direction ≠ .output := by
    simpa using congrArg (∀ direction ∈ ·, direction ≠ Direction.output) directions
  rw [Block.checkSink_eq_ok, Block.checkSink_eq_ok, twins.isMaterial, sinks]

end BlockTwin

/-- Endpoints of one place lead to twins, or both to nothing. -/
theorem Renumbered.resolve (alike : built.Renumbered twin) {endpoint other : Endpoint}
    (same : built.SameEndpoint twin endpoint other) :
    (∃ error second, built.graph.resolve endpoint = .error error ∧
      twin.graph.resolve other = .error second) ∨
    ∃ producer source second outlet, built.graph.resolve endpoint = .ok (producer, source) ∧
      twin.graph.resolve other = .ok (second, outlet) ∧ built.BlockTwin twin producer second ∧
        built.SameCell twin source.id outlet.id := by
  obtain ⟨sameBlock, sameName⟩ := same
  obtain ⟨producer, second, numbered, otherNumbered, twins⟩ := alike.blocks _ _ sameBlock
  have held := numbered ▸ twins.held
  have otherHeld := otherNumbered ▸ twins.twinHeld
  rcases cases_of_rel (twins.outlet? endpoint.outlet) with
    ⟨absent, otherAbsent⟩ | ⟨source, outlet, found, otherFound, -⟩
  · obtain ⟨error, failed⟩ := Graph.resolve_of_absent held absent
    obtain ⟨otherError, otherFailed⟩ :=
      Graph.resolve_of_absent otherHeld (sameName ▸ otherAbsent)
    exact .inl ⟨error, otherError, failed, otherFailed⟩
  · exact .inr ⟨producer, source, second, outlet, Graph.resolve_eq_ok.mpr ⟨held, found⟩,
      Graph.resolve_eq_ok.mpr ⟨otherHeld, sameName ▸ otherFound⟩, twins,
      twins.sameCell found otherFound⟩

/-- What two calls do about a parameter or uniform corresponds. -/
inductive SlotTwin (built twin : BuiltGraph) : Slot → Slot → Prop
  | output {cell other : String} {type : ValueType} (cells : built.SameCell twin cell other) :
      SlotTwin built twin (.output cell type) (.output other type)
  | input {producer second : Block} {cell other : String} {type : ValueType}
      (twins : built.BlockTwin twin producer second) (cells : built.SameCell twin cell other) :
      SlotTwin built twin (.input producer cell type) (.input second other type)
  | replaced {uniform : Uniform} {producer second : Block} {cell other : String}
      (twins : built.BlockTwin twin producer second) (cells : built.SameCell twin cell other) :
      SlotTwin built twin (.replaced uniform producer cell) (.replaced uniform second other)
  | external {uniform : Uniform} : SlotTwin built twin (.external uniform) (.external uniform)
  | broken {error other : GraphError} : SlotTwin built twin (.broken error) (.broken other)

/-- Two steps correspond. -/
inductive StepTwin (built twin : BuiltGraph) : Step → Step → Prop
  | demand {block other : Block} {phase : Phase} {priority : Priority}
      (twins : built.BlockTwin twin block other) :
      StepTwin built twin (.demand block phase priority) (.demand other phase priority)
  | declare {phase : Phase} {cell other : String} {type : ValueType}
      (cells : built.SameCell twin cell other) :
      StepTwin built twin (.declare phase cell type) (.declare phase other type)
  | declareExternal {uniform : Uniform} :
      StepTwin built twin (.declareExternal uniform) (.declareExternal uniform)
  | fail {error other : GraphError} : StepTwin built twin (.fail error) (.fail other)

/-- Twins do the same about a parameter. -/
theorem Renumbered.parameterSlot (alike : built.Renumbered twin) {block other : Block}
    (twins : built.BlockTwin twin block other) (parameter : Parameter) :
    SlotTwin built twin (built.graph.parameterSlot block.index block.node parameter)
      (twin.graph.parameterSlot other.index other.node parameter) := by
  unfold Graph.parameterSlot
  rcases cases_of_rel (twins.outlet? parameter.name) with
    ⟨absent, otherAbsent⟩ | ⟨outlet, second, found, otherFound, outlets⟩
  · rw [Graph.get_node_of_absent absent, Graph.get_node_of_absent otherAbsent]
    exact .broken
  · rw [Block.get_node_eq_ok.mpr found, Block.get_node_eq_ok.mpr otherFound]
    cases parameter.direction with
    | output => exact .output (twins.sameCell found otherFound)
    | input =>
      rcases cases_of_rel outlets.feed with
        ⟨unfed, otherUnfed⟩ | ⟨feed, otherFeed, fed, otherFed, same⟩
      · simp only [unfed, otherUnfed]
        exact .broken
      · rcases alike.resolve same with
          ⟨error, otherError, failed, otherFailed⟩ |
            ⟨producer, source, twinProducer, twinSource, resolved, otherResolved, producers, cells⟩
        · simp only [fed, otherFed, failed, otherFailed]
          exact .broken
        · simp only [fed, otherFed, resolved, otherResolved]
          exact .input producers cells

/-- Twins do the same about a uniform. -/
theorem Renumbered.uniformSlot (alike : built.Renumbered twin) {block other : Block}
    (twins : built.BlockTwin twin block other) (uniform : Uniform) :
    SlotTwin built twin (built.graph.uniformSlot block.node uniform)
      (twin.graph.uniformSlot other.node uniform) := by
  unfold Graph.uniformSlot
  rcases cases_of_rel (twins.outlet? uniform.name) with
    ⟨absent, otherAbsent⟩ | ⟨outlet, second, found, otherFound, outlets⟩
  · rw [Graph.get_node_of_absent absent, Graph.get_node_of_absent otherAbsent]
    exact .broken
  · rw [Block.get_node_eq_ok.mpr found, Block.get_node_eq_ok.mpr otherFound]
    rcases cases_of_rel outlets.feed with
      ⟨unfed, otherUnfed⟩ | ⟨feed, otherFeed, fed, otherFed, same⟩
    · simp only [unfed, otherUnfed]
      exact .external
    · rcases alike.resolve same with
        ⟨error, otherError, failed, otherFailed⟩ |
          ⟨producer, source, twinProducer, twinSource, resolved, otherResolved, producers, cells⟩
      · simp only [fed, otherFed, failed, otherFailed]
        exact .broken
      · simp only [fed, otherFed, resolved, otherResolved]
        exact .replaced producers cells

/-- Twins do the same about all parameters and uniforms. -/
theorem Renumbered.slots (alike : built.Renumbered twin) {block other : Block}
    (twins : built.BlockTwin twin block other) (fragment : Fragment) :
    List.Forall₂ (SlotTwin built twin) (built.graph.slots block.index block.node fragment)
      (twin.graph.slots other.index other.node fragment) := by
  refine List.rel_append ?_ ?_
  · rw [List.forall₂_map_left_iff, List.forall₂_map_right_iff, List.forall₂_same]
    exact fun parameter _ => alike.parameterSlot twins parameter
  · rw [List.forall₂_map_left_iff, List.forall₂_map_right_iff, List.forall₂_same]
    exact fun uniform _ => alike.uniformSlot twins uniform

/-- Twins ask for twins. -/
theorem BlockTwin.demands {block other : Block} (twins : built.BlockTwin twin block other)
    (phase : Phase) (priority : Priority) :
    List.Forall₂ (StepTwin built twin) (block.demands phase priority)
      (other.demands phase priority) := by
  rw [Block.demands, Block.demands, ← twins.isMaterial]
  refine .cons (.demand twins) ?_
  split
  · exact .cons (.demand twins) .nil
  · exact .nil

/-- What corresponds takes corresponding steps. -/
theorem SlotTwin.steps {slot other : Slot} (slots : SlotTwin built twin slot other)
    (phase : Phase) (priority : Priority) :
    List.Forall₂ (StepTwin built twin) (slot.steps phase priority)
      (other.steps phase priority) := by
  cases slots with
  | output cells => exact .cons (.declare cells) .nil
  | input twins cells => exact List.rel_append (twins.demands _ _) (.cons (.declare cells) .nil)
  | replaced twins cells => exact List.rel_append (twins.demands _ _) (.cons (.declare cells) .nil)
  | external => exact .cons .declareExternal .nil
  | broken => exact .cons .fail .nil

/-- Twins are prepared by corresponding steps. -/
theorem Renumbered.preparation (alike : built.Renumbered twin) {block other : Block}
    (twins : built.BlockTwin twin block other) (phase : Phase) (priority : Priority) :
    List.Forall₂ (StepTwin built twin) (built.graph.preparation block phase priority)
      (twin.graph.preparation other phase priority) := by
  rw [Graph.preparation, Graph.preparation, ← twins.fragmentFor]
  exact List.rel_flatMap (alike.slots twins _) fun _ _ slots => slots.steps phase priority

/-- Two calls can be told alike. -/
def SameCall (built twin : BuiltGraph) (call other : Call) : Prop :=
  ∃ sketch, built.Renders sketch call ∧ twin.Renders sketch other

/-- The calls of twins can be told alike. -/
theorem Renumbered.sameCall (alike : built.Renumbered twin) {block other : Block}
    (twins : built.BlockTwin twin block other) (phase : Phase) (priority : Priority) :
    built.SameCall twin (built.graph.blockCall block phase priority)
      (twin.graph.blockCall other phase priority) := by
  -- The fragments are equal, so the slots correspond place by place; the arguments and the replaced
  -- uniforms are read off them, whether the call can be made or not.
  have slots := alike.slots twins (block.fragmentFor phase)
  have cells : List.Forall₂ (built.SameCell twin)
      (built.graph.blockCall block phase priority).args
      (twin.graph.blockCall other phase priority).args := by
    rw [Graph.blockCall, Graph.blockCall, ← twins.fragmentFor]
    refine List.rel_filterMap (fun slot second same => ?_) slots
    cases same with
    | output cells => exact .some cells
    | input twins cells => exact .some cells
    | replaced twins cells => exact .some cells
    | external => exact .none
    | broken => exact .none
  have replaced : (built.graph.slots block.index block.node (block.fragmentFor phase)).filterMap
      Slot.replaced? = (twin.graph.slots other.index other.node (block.fragmentFor phase)).filterMap
        Slot.replaced? := by
    rw [← List.forall₂_eq_eq_eq]
    refine List.rel_filterMap (fun slot second same => ?_) slots
    cases same with
    | replaced twins cells => exact .some rfl
    | output | input | external | broken => exact .none
  obtain ⟨places, arePlaces, areOthers⟩ := exists_forall₂_of_exists cells
  obtain ⟨id, numbered, otherNumbered⟩ := twins.index
  refine ⟨⟨phase, id, priority, block.fragmentFor phase, _, places⟩,
    ⟨rfl, numbered, rfl, ⟨block, twins.held, rfl, rfl⟩, rfl, rfl, arePlaces⟩,
    ⟨rfl, otherNumbered, rfl, ⟨other, twins.twinHeld, (twins.fragmentFor phase).symm,
      replaced.symm⟩, ?_, ?_, areOthers⟩⟩
  · rw [twins.fragmentFor]
    rfl
  · rw [replaced, twins.fragmentFor]
    rfl

end Twins

end BuiltGraph

end ShaderBlocks
