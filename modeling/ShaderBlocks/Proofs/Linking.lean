import ShaderBlocks.Proofs.GraphEdits
import ShaderBlocks.Proofs.Grouping

/-!
# Links one after the other

Whether two outlets can be linked depends on their directions alone, and no link changes a
direction. So links can be made one after the other exactly if each of them can be made at the
start. An outlet takes its value from the last of the links that lead to it. A link leads to a name,
and of several outlets of one name only the first can be linked.
-/

namespace ShaderBlocks

/-- Where the last of the links that lead to an endpoint comes from. Each link is given by its
source and its target. -/
def lastSource (links : List (Endpoint × Endpoint)) (target : Endpoint) : Option Endpoint :=
  (links.reverse.find? (·.2 == target)).map (·.1)

/-- A link counts if no later one leads to the same endpoint. -/
theorem lastSource_cons (link : Endpoint × Endpoint) (rest : List (Endpoint × Endpoint))
    (target : Endpoint) :
    lastSource (link :: rest) target =
      (lastSource rest target).or (if link.2 = target then some link.1 else none) := by
  rw [lastSource, List.reverse_cons, List.find?_append, lastSource]
  cases rest.reverse.find? (·.2 == target) with
  | some later => rfl
  | none => by_cases hit : link.2 = target <;> simp [hit]

namespace Outlet

/-- The outlets of a block after some links were made. -/
def linkedBy (links : List (Endpoint × Endpoint)) (index : BlockIndex) (outlets : List Outlet) :
    List Outlet :=
  outlets.mapIdx fun slot outlet =>
    if (outlets.map (·.name)).idxOf outlet.name = slot then
      { outlet with feed := (lastSource links ⟨index, outlet.name⟩).or outlet.feed }
    else outlet

/-- Linking changes the outlet at the first place of the name. -/
theorem getElem?_setFeed_eq (name : String) (feed : Option Endpoint) (outlets : List Outlet)
    (slot : Nat) :
    (setFeed name feed outlets)[slot]? = outlets[slot]?.map fun outlet =>
      if (outlets.map (·.name)).idxOf name = slot then { outlet with feed } else outlet := by
  induction outlets generalizing slot with
  | nil => simp [setFeed]
  | cons outlet rest ih =>
    rw [setFeed]
    by_cases named : outlet.name = name
    · cases slot with
      | zero => simp [named]
      | succ slot => simp [named]
    · cases slot with
      | zero => simp [named]
      | succ slot => simp [named, ih]

/-- Links change no description. -/
theorem map_toOutletSpec_linkedBy (links : List (Endpoint × Endpoint)) (index : BlockIndex)
    (outlets : List Outlet) :
    (linkedBy links index outlets).map toOutletSpec = outlets.map toOutletSpec := by
  refine List.ext_getElem? fun slot => ?_
  simp only [linkedBy, List.getElem?_map, List.getElem?_mapIdx, Option.map_map]
  congr 1
  funext outlet
  simp only [Function.comp]
  split <;> rfl

/-- Links change no name. -/
theorem map_name_linkedBy (links : List (Endpoint × Endpoint)) (index : BlockIndex)
    (outlets : List Outlet) :
    (linkedBy links index outlets).map (·.name) = outlets.map (·.name) := by
  have specs := congrArg (List.map OutletSpec.name) (map_toOutletSpec_linkedBy links index outlets)
  simpa only [List.map_map, Function.comp_def] using specs

/-- Making one link is the same as making the list of it. -/
theorem setFeed_eq_linkedBy (source : Endpoint) (index : BlockIndex) (name : String)
    (outlets : List Outlet) :
    setFeed name (some source) outlets = linkedBy [(source, ⟨index, name⟩)] index outlets := by
  refine List.ext_getElem? fun slot => ?_
  rw [getElem?_setFeed_eq, linkedBy, List.getElem?_mapIdx]
  cases place : outlets[slot]? with
  | none => rfl
  | some outlet =>
    have here : (outlets.map (·.name))[slot]? = some outlet.name := by simp [place]
    simp only [Option.map_some, Option.some.injEq, lastSource_cons]
    by_cases named : outlet.name = name
    · simp [named, lastSource]
    · -- The first place of another name is not this one.
      have elsewhere : (outlets.map (·.name)).idxOf name ≠ slot := by
        intro first
        obtain ⟨inside, isName⟩ := List.getElem?_eq_some_iff.mp here
        have found := List.getElem_idxOf (first ▸ inside)
        exact named (isName.symm.trans (by simpa only [first] using found))
      simp [Ne.symm named, elsewhere, lastSource]

/-- Links made in two parts. -/
theorem linkedBy_linkedBy (link : Endpoint × Endpoint) (rest : List (Endpoint × Endpoint))
    (index : BlockIndex) (outlets : List Outlet) :
    linkedBy rest index (linkedBy [link] index outlets) =
      linkedBy (link :: rest) index outlets := by
  refine List.ext_getElem? fun slot => ?_
  rw [linkedBy, List.getElem?_mapIdx, map_name_linkedBy]
  simp only [linkedBy, List.getElem?_mapIdx, Option.map_map]
  congr 1
  funext outlet
  simp only [Function.comp]
  by_cases first : (outlets.map (·.name)).idxOf outlet.name = slot
  · simp only [first, if_true, lastSource_cons, Option.or_assoc]
    rfl
  · simp only [first, if_false]

end Outlet

/-- A block after some links were made. -/
def Block.linkedBy (links : List (Endpoint × Endpoint)) (block : Block) : Block :=
  block.withOutlets (Outlet.linkedBy links block.index block.outlets)

namespace Graph

/-- The direction of the outlet at an endpoint. -/
def direction? (graph : Graph) (endpoint : Endpoint) : Option Direction :=
  (graph.find? endpoint.block).bind fun block =>
    (block.outlet? endpoint.outlet).map (·.direction)

/-- The direction at an endpoint is that of the outlet to which it leads. -/
theorem direction?_eq_some {graph : Graph} {endpoint : Endpoint} {direction : Direction} :
    graph.direction? endpoint = some direction ↔
      ∃ outlet, graph.outlet endpoint = .ok outlet ∧ outlet.direction = direction := by
  simp only [direction?, Option.bind_eq_some_iff, Option.map_eq_some_iff, outlet_eq_ok]
  constructor
  · rintro ⟨block, found, outlet, outletFound, way⟩
    exact ⟨outlet, ⟨block, found, outletFound⟩, way⟩
  · rintro ⟨outlet, ⟨block, found, outletFound⟩, way⟩
    exact ⟨block, found, outlet, outletFound, way⟩

/-- Changes that leave the numbers and the descriptions of outlets change no direction. -/
theorem direction?_of_blocks_map {graph after : Graph} {change : Block → Block}
    (changed : after.blocks = graph.blocks.map change)
    (numbered : ∀ block, (change block).index = block.index)
    (specs : ∀ block, (change block).outlets.map Outlet.toOutletSpec =
      block.outlets.map Outlet.toOutletSpec) :
    after.direction? = graph.direction? := by
  funext endpoint
  have sameOutlet : ∀ block : Block, ((change block).outlet? endpoint.outlet).map (·.direction) =
      (block.outlet? endpoint.outlet).map (·.direction) := by
    intro block
    have found := congrArg (fun specs => (specs.find? (·.name == endpoint.outlet)).map
      OutletSpec.direction) (specs block)
    simpa only [Block.outlet?, List.find?_map, Option.map_map, Function.comp_def] using found
  rw [direction?, find?_of_blocks_map changed numbered, direction?, Option.bind_map]
  congr 1
  funext block
  exact sameOutlet block

/-- Two outlets can be linked exactly if their directions are right, and linking them is making
the list of one link. -/
theorem connect_eq_ok_linkedBy {graph after : Graph} {source target : Endpoint} :
    graph.connect source target = .ok after ↔
      (graph.direction? source = some .output ∧ graph.direction? target = some .input) ∧
        after.blocks = graph.blocks.map (Block.linkedBy [(source, target)]) := by
  have made : (graph.setFeed target (some source)).blocks =
      graph.blocks.map (Block.linkedBy [(source, target)]) := by
    refine List.map_congr_left fun block _ => ?_
    by_cases here : block.index = target.block
    · rw [modifyBlock, if_pos here, Block.linkedBy, here,
        Outlet.setFeed_eq_linkedBy source target.block target.outlet]
    · have nothing : Outlet.linkedBy [(source, target)] block.index block.outlets =
          block.outlets := by
        refine List.ext_getElem? fun slot => ?_
        have apart : ∀ name, target ≠ ⟨block.index, name⟩ := fun name same =>
          here (congrArg Endpoint.block same).symm
        simp [Outlet.linkedBy, lastSource, apart]
      rw [modifyBlock, if_neg here, Block.linkedBy, nothing, Block.withOutlets_outlets]
  rw [connect_eq_ok_iff, direction?_eq_some, direction?_eq_some, ← made]
  constructor
  · rintro ⟨output, input, outputFound, outputWay, inputFound, inputWay, rfl⟩
    exact ⟨⟨⟨output, outputFound, outputWay⟩, ⟨input, inputFound, inputWay⟩⟩, rfl⟩
  · rintro ⟨⟨⟨output, outputFound, outputWay⟩, ⟨input, inputFound, inputWay⟩⟩, blocks⟩
    exact ⟨output, input, outputFound, outputWay, inputFound, inputWay, eq_of_blocks_eq blocks⟩

/-- Make links one after the other, each given by its source and its target. -/
def connectAll : List (Endpoint × Endpoint) → Graph → Except GraphError Graph
  | [], graph => .ok graph
  | link :: rest, graph => do
    let graph ← graph.connect link.1 link.2
    connectAll rest graph

/-- Links can be made one after the other exactly if each leads from an output to an input, and
every outlet then takes its value from the last link that leads to it. -/
theorem connectAll_eq_ok {graph after : Graph} {links : List (Endpoint × Endpoint)} :
    connectAll links graph = .ok after ↔
      (∀ link ∈ links, graph.direction? link.1 = some .output ∧
        graph.direction? link.2 = some .input) ∧
        after.blocks = graph.blocks.map (Block.linkedBy links) := by
  induction links generalizing graph with
  | nil =>
    have kept : graph.blocks.map (Block.linkedBy []) = graph.blocks := by
      refine (List.map_congr_left fun block _ => ?_).trans (List.map_id' _)
      have nothing : Outlet.linkedBy [] block.index block.outlets = block.outlets := by
        refine List.ext_getElem? fun slot => ?_
        simp [Outlet.linkedBy, lastSource]
      rw [Block.linkedBy, nothing, Block.withOutlets_outlets]
    simp only [connectAll, Except.ok.injEq, kept, List.not_mem_nil, false_implies, implies_true,
      true_and]
    exact ⟨fun isAfter => isAfter ▸ rfl, fun blocks => (eq_of_blocks_eq blocks).symm⟩
  | cons link rest ih =>
    -- The rest of the links is about the graph that comes of the first.
    have step : ∀ {middle : Graph},
        middle.blocks = graph.blocks.map (Block.linkedBy [link]) →
        (connectAll rest middle = .ok after ↔
          (∀ link ∈ rest, graph.direction? link.1 = some .output ∧
            graph.direction? link.2 = some .input) ∧
            after.blocks = graph.blocks.map (Block.linkedBy (link :: rest))) := by
      intro middle blocks
      have twice : ∀ block : Block, (block.linkedBy [link]).linkedBy rest =
          block.linkedBy (link :: rest) := fun block =>
        congrArg block.withOutlets
          (Outlet.linkedBy_linkedBy link rest block.index block.outlets)
      rw [ih, blocks, List.map_map, direction?_of_blocks_map blocks (fun _ => rfl) fun block =>
        Outlet.map_toOutletSpec_linkedBy [link] block.index block.outlets]
      simp only [Function.comp_def, twice]
    rw [connectAll, List.forall_mem_cons]
    constructor
    · intro done
      cases connected : graph.connect link.1 link.2 with
      | error error =>
        rw [connected] at done
        contradiction
      | ok middle =>
        rw [connected] at done
        obtain ⟨ways, blocks⟩ := connect_eq_ok_linkedBy.mp connected
        obtain ⟨restWays, afterBlocks⟩ := (step blocks).mp done
        exact ⟨⟨ways, restWays⟩, afterBlocks⟩
    · rintro ⟨⟨ways, restWays⟩, afterBlocks⟩
      obtain ⟨output, outputFound, outputWay⟩ := direction?_eq_some.mp ways.1
      obtain ⟨input, inputFound, inputWay⟩ := direction?_eq_some.mp ways.2
      have connected := connect_eq_ok_iff.mpr
        ⟨output, input, outputFound, outputWay, inputFound, inputWay, rfl⟩
      rw [connected]
      exact (step (connect_eq_ok_linkedBy.mp connected).2).mpr ⟨restWays, afterBlocks⟩

end Graph

end ShaderBlocks
