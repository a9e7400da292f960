import Mathlib.Data.List.Nodup
import ShaderBlocks.Graph.Grouping
import ShaderBlocks.Proofs.Outcome
import ShaderBlocks.Proofs.Outlets

/-!
# What linking changes

Blocks of a graph are found by number and outlets by name. Whatever is done to the
blocks that a graph holds, linking, grouping or keeping a value with one of them, every
block keeps its shape: its number, its source, and the descriptions and identifiers of
its outlets. Links alone may change, and a new link leads from an output to an input. So
blocks stay lawful, and links that lead from outputs go on doing so.
-/

namespace ShaderBlocks

/-- What is left when repetitions are dropped is distinct. -/
theorem nodup_eraseDups {α : Type} [BEq α] [LawfulBEq α] : (list : List α) → list.eraseDups.Nodup
  | [] => by simp
  | first :: rest => by
    rw [List.eraseDups_cons, List.nodup_cons]
    exact ⟨by simp [List.mem_eraseDups], nodup_eraseDups _⟩
termination_by list => list.length
decreasing_by exact Nat.lt_succ_of_le (List.length_filter_le _ _)

namespace Graph

/-- The numbers of the blocks of a graph are distinct. -/
theorem nodup_index (graph : Graph) : (graph.blocks.map (·.index)).Nodup := by
  rw [List.nodup_iff_pairwise_ne, List.pairwise_map]
  exact graph.ordered.imp Nat.ne_of_lt

/-- A block of a graph is determined by its number. -/
theorem eq_of_index_eq {graph : Graph} {first second : Block} (inGraph : first ∈ graph.blocks)
    (secondInGraph : second ∈ graph.blocks) (same : first.index = second.index) :
    first = second :=
  List.inj_on_of_nodup_map graph.nodup_index inGraph secondInGraph same

/-- The block of a number is the one that has it. -/
theorem find?_eq_some {graph : Graph} {index : BlockIndex} {block : Block} :
    graph.find? index = some block ↔ block ∈ graph.blocks ∧ block.index = index := by
  constructor
  · intro found
    exact ⟨List.mem_of_find?_eq_some found, by simpa using List.find?_some found⟩
  · rintro ⟨member, rfl⟩
    have hit : (graph.find? block.index).isSome :=
      List.find?_isSome.mpr ⟨block, member, beq_self_eq_true _⟩
    obtain ⟨other, found⟩ := Option.isSome_iff_exists.mp hit
    have named : other.index = block.index := by simpa using List.find?_some found
    rw [found, eq_of_index_eq (List.mem_of_find?_eq_some found) member named]

/-- The block of a number is obtained exactly when it is there. -/
theorem get_eq_ok {graph : Graph} {index : BlockIndex} {block : Block} :
    graph.get index = .ok block ↔ graph.find? index = some block := by
  unfold get
  cases graph.find? index <;> simp

/-- The node of a block that is found under a number belongs to the block of that number. -/
theorem owner_of_find? {graph : Graph} {index : BlockIndex} {block : Block}
    (found : graph.find? index = some block) : block.node.owner = some index :=
  (find?_eq_some.mp found).2 ▸ block.owned

/-- The block that the node at an endpoint belongs to is the one that was found there. -/
theorem resolve_eq (graph : Graph) (endpoint : Endpoint) :
    graph.resolve endpoint = (do
      let block ← graph.get endpoint.block
      let outlet ← block.node.get endpoint.outlet
      return (block, outlet)) := by
  simp only [resolve, bind, Except.bind]
  cases held : graph.get endpoint.block with
  | error error => rfl
  | ok block =>
    simp only [owner_of_find? (get_eq_ok.mp held), held]

/-- An endpoint leads to a block and an outlet exactly when both are there. -/
theorem resolve_eq_ok {graph : Graph} {endpoint : Endpoint} {block : Block} {outlet : Outlet} :
    graph.resolve endpoint = .ok (block, outlet) ↔
      graph.find? endpoint.block = some block ∧
        block.outlet? endpoint.outlet = some outlet := by
  rw [resolve_eq]
  constructor
  · intro resolved
    simp only [bind, Except.bind] at resolved
    split at resolved
    · contradiction
    · rename_i owner held
      split at resolved
      · contradiction
      · rename_i source got
        simp only [pure, Except.pure, Except.ok.injEq, Prod.mk.injEq] at resolved
        obtain ⟨rfl, rfl⟩ := resolved
        exact ⟨get_eq_ok.mp held, Block.get_node_eq_ok.mp got⟩
  · rintro ⟨found, outletFound⟩
    simp [bind, Except.bind, get_eq_ok.mpr found, Block.get_node_eq_ok.mpr outletFound,
      pure, Except.pure]

/-- The outlet at an endpoint is the one to which the endpoint leads. -/
theorem outlet_eq_ok {graph : Graph} {endpoint : Endpoint} {outlet : Outlet} :
    graph.outlet endpoint = .ok outlet ↔
      ∃ block, graph.find? endpoint.block = some block ∧
        block.outlet? endpoint.outlet = some outlet := by
  simp only [Graph.outlet, bind, Except.bind]
  cases held : graph.get endpoint.block with
  | error error =>
    simp only [reduceCtorEq, false_iff, not_exists, not_and]
    intro block found
    rw [get_eq_ok.mpr found] at held
    contradiction
  | ok block =>
    simp only [get_eq_ok.mp held, Option.some.injEq, Block.get_node_eq_ok]
    exact ⟨fun found => ⟨block, rfl, found⟩, fun ⟨_, same, found⟩ => same ▸ found⟩

/-- The block of a number can be changed exactly when it is there. -/
theorem update_eq_ok {graph after : Graph} {index : BlockIndex} {change : Block → Block}
    {numbered : ∀ block, (change block).index = block.index} :
    graph.update index change numbered = .ok after ↔
      (graph.find? index).isSome ∧ after = graph.modify index change numbered := by
  simp only [update, get, bind, Except.bind]
  cases graph.find? index with
  | none => simp
  | some block => simp [pure, Except.pure, eq_comm]

/-- If every block is changed but keeps its number, a block is found by number and then changed. -/
theorem find?_of_blocks_map {graph after : Graph} {change : Block → Block}
    (changed : after.blocks = graph.blocks.map change)
    (numbered : ∀ block, (change block).index = block.index) (index : BlockIndex) :
    after.find? index = (graph.find? index).map change := by
  rw [find?, changed, List.find?_map]
  congr 2
  funext block
  exact congrArg (· == index) (numbered block)

/-- The block that was added is found, and every other block is found as before. -/
theorem find?_insert (graph : Graph) (block : Block) (index : BlockIndex) :
    (graph.insert block).find? index =
      if block.index = index then some block else graph.find? index := by
  obtain ⟨blocks, ordered⟩ := graph
  simp only [find?, insert]
  induction blocks with
  | nil => by_cases same : block.index = index <;> simp [insertBlock, same]
  | cons first rest ih =>
    have restFound := ih (List.pairwise_cons.mp ordered).2
    simp only [insertBlock]
    split
    · by_cases same : block.index = index <;> simp [same]
    · split
      · rename_i replaced
        by_cases same : block.index = index
        · simp [same]
        · simp [same, ← replaced]
      · rename_i apart
        by_cases same : block.index = index
        · have firstApart : first.index ≠ index := fun hit => apart (same.trans hit.symm)
          simp [restFound, same, firstApart]
        · simp [List.find?_cons, restFound, same]

end Graph

namespace Block

/-- The block of a number before and after a change that at most links outlets. -/
structure SameShape (before after : Block) : Prop where
  /-- The number stays. -/
  index : after.index = before.index
  /-- The source stays. -/
  kind : after.kind = before.kind
  /-- The descriptions of the outlets stay. -/
  specs : after.outlets.map Outlet.toOutletSpec = before.outlets.map Outlet.toOutletSpec
  /-- The identifiers of the outlets stay. -/
  ids : after.outlets.map Outlet.id = before.outlets.map Outlet.id

namespace SameShape

/-- A block has its own shape. -/
theorem refl (block : Block) : SameShape block block := ⟨rfl, rfl, rfl, rfl⟩

/-- The shape after several changes. -/
theorem trans {first second third : Block} (early : SameShape first second)
    (late : SameShape second third) : SameShape first third :=
  ⟨late.index.trans early.index, late.kind.trans early.kind, late.specs.trans early.specs,
    late.ids.trans early.ids⟩

/-- A change that keeps the shape can be taken back. -/
theorem symm {before after : Block} (shape : SameShape before after) :
    SameShape after before :=
  ⟨shape.index.symm, shape.kind.symm, shape.specs.symm, shape.ids.symm⟩

/-- Linking keeps the shape. -/
theorem setFeed (block : Block) (name : String) (feed : Option Endpoint) :
    SameShape block (block.withOutlets (Outlet.setFeed name feed block.outlets)) where
  index := rfl
  kind := rfl
  specs := Outlet.map_toOutletSpec_setFeed name feed block.outlets
  ids := by
    refine List.ext_getElem? fun slot => ?_
    simp only [outlets_withOutlets, List.getElem?_map]
    cases place : (Outlet.setFeed name feed block.outlets)[slot]? with
    | none =>
      have lengths := congrArg List.length
        (Outlet.map_toOutletSpec_setFeed name feed block.outlets)
      simp only [List.length_map] at lengths
      rw [List.getElem?_eq_none_iff, lengths, ← List.getElem?_eq_none_iff] at place
      rw [place]
    | some outlet =>
      obtain ⟨before, beforePlace, -, sameId⟩ := Outlet.getElem?_setFeed place
      simp [beforePlace, sameId]

/-- What is found by name keeps its description. -/
theorem outlet? {before after : Block} (shape : SameShape before after) {name : String}
    {outlet : Outlet} (found : before.outlet? name = some outlet) :
    ∃ now, after.outlet? name = some now ∧ now.toOutletSpec = outlet.toOutletSpec := by
  have specs := congrArg (List.find? (·.name == name)) shape.specs
  simp only [List.find?_map] at specs
  have hit : (after.outlets.find? (·.name == name)).map Outlet.toOutletSpec =
      some outlet.toOutletSpec :=
    specs.trans (congrArg (Option.map Outlet.toOutletSpec) found)
  exact Option.map_eq_some_iff.mp hit

/-- A block of the shape of a lawful block is lawful as long as it feeds inputs only. -/
theorem lawful {before after : Block} (shape : SameShape before after)
    (beforeLawful : before.Lawful)
    (fedInput : ∀ outlet ∈ after.outlets, outlet.feed ≠ none → outlet.direction = .input) :
    after.Lawful where
  described := by rw [shape.kind, shape.specs, beforeLawful.described]
  identified := by
    intro slot outlet place
    have specs := congrArg (fun specs => specs[slot]?) shape.specs
    have ids := congrArg (fun ids => ids[slot]?) shape.ids
    simp only [List.getElem?_map, place, Option.map_some] at specs ids
    obtain ⟨old, oldPlace, oldSpec⟩ := Option.map_eq_some_iff.mp specs.symm
    rw [oldPlace, Option.map_some, Option.some.injEq] at ids
    rw [ids, beforeLawful.identified slot old oldPlace, shape.index, oldSpec]
  fedInput := fedInput

end SameShape

/-- Making a block takes a number, whether the outlets can be had or not. -/
theorem run_make (kind : BlockKind) (supply : Supply) :
    (Block.make kind).run supply =
      match kind.outlets with
      | .ok specs =>
        .ok ⟨supply.next, kind, ⟨some supply.next, Outlet.seed supply.next 0 specs⟩, none, [], [],
          rfl⟩ ⟨supply.next + 1⟩
      | .error error => .error error ⟨supply.next + 1⟩ := by
  have look : (get : Making Supply) supply = .ok supply supply := rfl
  have take : ∀ next : Supply, (set next : Making Unit) supply = .ok () next := fun _ => rfl
  simp only [make, EStateM.run, bind, EStateM.bind, look, take]
  cases kind.outlets <;> rfl

/-- A block that was just made is lawful, is not fed and has the number that was next. -/
theorem lawful_of_make {kind : BlockKind} {supply rest : Supply} {block : Block}
    (made : (Block.make kind).run supply = .ok block rest) :
    block.Lawful ∧ (∀ outlet ∈ block.outlets, outlet.feed = none) ∧
      block.index = supply.next ∧ rest.next = supply.next + 1 := by
  rw [run_make] at made
  split at made
  · rename_i specs outlets
    simp only [EStateM.Result.ok.injEq] at made
    obtain ⟨rfl, rfl⟩ := made
    refine ⟨⟨?_, ?_, ?_⟩, fun outlet member => Outlet.feed_of_mem_seed member, rfl, rfl⟩
    · exact outlets.trans (congrArg Except.ok (Outlet.map_toOutletSpec_seed ..).symm)
    · intro slot outlet place
      simpa using Outlet.id_of_seed place
    · intro outlet member fed
      exact absurd (Outlet.feed_of_mem_seed member) fed
  · contradiction

/-- A block that fails to be made takes a number all the same. -/
theorem next_of_make_error {kind : BlockKind} {supply rest : Supply} {error : GraphError}
    (failed : (Block.make kind).run supply = .error error rest) :
    rest.next = supply.next + 1 := by
  rw [run_make] at failed
  split at failed
  · contradiction
  · simp only [EStateM.Result.error.injEq] at failed
    rw [← failed.2]

end Block

namespace Graph

/-- Every block of the graph is lawful. -/
def Lawful (graph : Graph) : Prop :=
  ∀ block ∈ graph.blocks, block.Lawful

/-- An endpoint leads to an output. -/
def LeadsToOutput (graph : Graph) (endpoint : Endpoint) : Prop :=
  ∃ block outlet, graph.resolve endpoint = .ok (block, outlet) ∧ outlet.direction = .output

/-- Every link leads from an output. -/
def Linked (graph : Graph) : Prop :=
  ∀ block ∈ graph.blocks, ∀ outlet ∈ block.outlets, ∀ feed,
    outlet.feed = some feed → graph.LeadsToOutput feed

/-- A graph before and after a change that keeps the shape of every block, and links
inputs to outputs if it links anything. -/
structure Relinked (before after : Graph) : Prop where
  /-- Every block was there before. -/
  origin : ∀ block ∈ after.blocks, ∃ old ∈ before.blocks, old.SameShape block ∧
    ∀ outlet ∈ block.outlets, ∀ feed, outlet.feed = some feed →
      outlet ∈ old.outlets ∨ outlet.direction = .input ∧ before.LeadsToOutput feed
  /-- Every block is still there. -/
  kept : ∀ old ∈ before.blocks, ∃ block ∈ after.blocks, old.SameShape block

namespace Relinked

/-- An endpoint that led to an output still does. -/
theorem leadsToOutput {before after : Graph} (relinked : Relinked before after)
    {endpoint : Endpoint} (leads : before.LeadsToOutput endpoint) :
    after.LeadsToOutput endpoint := by
  obtain ⟨old, outlet, resolved, way⟩ := leads
  obtain ⟨found, outletFound⟩ := resolve_eq_ok.mp resolved
  obtain ⟨member, named⟩ := find?_eq_some.mp found
  obtain ⟨block, blockMember, shape⟩ := relinked.kept old member
  obtain ⟨now, nowFound, spec⟩ := shape.outlet? outletFound
  refine ⟨block, now, resolve_eq_ok.mpr ⟨?_, nowFound⟩, by rw [spec, way]⟩
  exact find?_eq_some.mpr ⟨blockMember, shape.index.trans named⟩

/-- Lawful blocks stay lawful. -/
theorem lawful {before after : Graph} (relinked : Relinked before after)
    (beforeLawful : before.Lawful) : after.Lawful := by
  intro block member
  obtain ⟨old, oldMember, shape, feeds⟩ := relinked.origin block member
  refine shape.lawful (beforeLawful old oldMember) fun outlet outletMember fed => ?_
  obtain ⟨feed, isFeed⟩ := Option.ne_none_iff_exists'.mp fed
  rcases feeds outlet outletMember feed isFeed with inOld | ⟨way, -⟩
  · exact (beforeLawful old oldMember).fedInput outlet inOld fed
  · exact way

/-- Links that led from outputs still do. -/
theorem linked {before after : Graph} (relinked : Relinked before after)
    (beforeLinked : before.Linked) : after.Linked := by
  intro block member outlet outletMember feed isFeed
  obtain ⟨old, oldMember, -, feeds⟩ := relinked.origin block member
  apply relinked.leadsToOutput
  rcases feeds outlet outletMember feed isFeed with inOld | ⟨-, leads⟩
  · exact beforeLinked old oldMember outlet inOld feed isFeed
  · exact leads

/-- A graph that has not changed. -/
theorem refl (graph : Graph) : Relinked graph graph where
  origin block member := ⟨block, member, .refl block, fun _ outlet _ _ => .inl outlet⟩
  kept block member := ⟨block, member, .refl block⟩

/-- An endpoint that leads to an output led to one before. -/
theorem leadsToOutput_of_after {before after : Graph} (relinked : Relinked before after)
    {endpoint : Endpoint} (leads : after.LeadsToOutput endpoint) :
    before.LeadsToOutput endpoint := by
  obtain ⟨block, outlet, resolved, way⟩ := leads
  obtain ⟨found, outletFound⟩ := resolve_eq_ok.mp resolved
  obtain ⟨member, named⟩ := find?_eq_some.mp found
  obtain ⟨old, oldMember, shape, -⟩ := relinked.origin block member
  obtain ⟨earlier, earlierFound, spec⟩ := shape.symm.outlet? outletFound
  refine ⟨old, earlier, resolve_eq_ok.mpr ⟨?_, earlierFound⟩, by rw [spec, way]⟩
  exact find?_eq_some.mpr ⟨oldMember, shape.index.symm.trans named⟩

/-- Two changes in a row. -/
theorem trans {first second third : Graph} (early : Relinked first second)
    (late : Relinked second third) : Relinked first third where
  origin block member := by
    obtain ⟨middle, middleMember, lateShape, lateFeeds⟩ := late.origin block member
    obtain ⟨old, oldMember, earlyShape, earlyFeeds⟩ := early.origin middle middleMember
    refine ⟨old, oldMember, earlyShape.trans lateShape, fun outlet outletMember feed isFeed => ?_⟩
    rcases lateFeeds outlet outletMember feed isFeed with inMiddle | ⟨way, leads⟩
    · exact earlyFeeds outlet inMiddle feed isFeed
    · exact .inr ⟨way, early.leadsToOutput_of_after leads⟩
  kept old member := by
    obtain ⟨middle, middleMember, earlyShape⟩ := early.kept old member
    obtain ⟨block, blockMember, lateShape⟩ := late.kept middle middleMember
    exact ⟨block, blockMember, earlyShape.trans lateShape⟩

/-- A change of the block of one number that keeps its shape. -/
theorem modify {graph : Graph} {index : BlockIndex} {change : Block → Block}
    (shape : ∀ block : Block, block.SameShape (change block))
    (feeds : ∀ block ∈ graph.blocks, block.index = index → ∀ outlet ∈ (change block).outlets,
      ∀ feed, outlet.feed = some feed →
        outlet ∈ block.outlets ∨ outlet.direction = .input ∧ graph.LeadsToOutput feed) :
    Relinked graph (graph.modify index change fun block => (shape block).index) := by
  have changed : ∀ block : Block, block.SameShape (modifyBlock index change block) := by
    intro block
    unfold modifyBlock
    split
    · exact shape block
    · exact .refl block
  constructor
  · intro block member
    obtain ⟨old, oldMember, rfl⟩ := List.mem_map.mp member
    refine ⟨old, oldMember, changed old, fun outlet outletMember feed isFeed => ?_⟩
    unfold modifyBlock at outletMember
    split at outletMember
    · rename_i here
      exact feeds old oldMember here outlet outletMember feed isFeed
    · exact .inl outletMember
  · intro old member
    exact ⟨_, List.mem_map_of_mem member, changed old⟩

/-- A change that leaves the source and the outlets alone. -/
theorem modify_of_eq {graph : Graph} {index : BlockIndex} {change : Block → Block}
    (numbered : ∀ block, (change block).index = block.index)
    (kind : ∀ block, (change block).kind = block.kind)
    (outlets : ∀ block, (change block).outlets = block.outlets) :
    Relinked graph (graph.modify index change numbered) := by
  refine modify (fun block => ⟨numbered block, kind block, ?_, ?_⟩)
    fun block _ _ outlet member _ _ => ?_
  · exact congrArg (List.map Outlet.toOutletSpec) (outlets block)
  · exact congrArg (List.map Outlet.id) (outlets block)
  · exact .inl (outlets block ▸ member)

/-- A change of a block that is there and keeps its source and outlets. -/
theorem update {graph after : Graph} {index : BlockIndex} {change : Block → Block}
    {numbered : ∀ block, (change block).index = block.index}
    (kind : ∀ block, (change block).kind = block.kind)
    (outlets : ∀ block, (change block).outlets = block.outlets)
    (done : graph.update index change numbered = .ok after) : Relinked graph after := by
  obtain ⟨-, rfl⟩ := update_eq_ok.mp done
  exact .modify_of_eq numbered kind outlets

/-- Linking an input to an output, or taking its link off. -/
theorem setFeed {graph : Graph} {target : Endpoint} {feed : Option Endpoint} {outlet : Outlet}
    (held : graph.outlet target = .ok outlet)
    (allowed : ∀ source, feed = some source →
      outlet.direction = .input ∧ graph.LeadsToOutput source) :
    Relinked graph (graph.setFeed target feed) := by
  refine modify (fun block => .setFeed block target.outlet feed)
    fun block member here other otherMember source isSource => ?_
  obtain ⟨owner, found, outletFound⟩ := outlet_eq_ok.mp held
  obtain ⟨ownerMember, ownerNamed⟩ := find?_eq_some.mp found
  have same : block = owner := eq_of_index_eq member ownerMember (here.trans ownerNamed.symm)
  subst same
  rcases Outlet.mem_of_mem_setFeed outletFound otherMember with inBlock | linked
  · exact .inl inBlock
  · subst linked
    exact .inr (allowed source isSource)

end Relinked

/-- What it takes to link two outlets, and what comes of it. -/
theorem connect_eq_ok {graph after : Graph} {source target : Endpoint}
    (connected : graph.connect source target = .ok after) :
    ∃ output input, graph.outlet source = .ok output ∧ output.direction = .output ∧
      graph.outlet target = .ok input ∧ input.direction = .input ∧
        after = graph.setFeed target (some source) := by
  simp only [connect, bind, Except.bind] at connected
  split at connected
  · contradiction
  · rename_i output outputHeld
    split at connected
    · simp [throw, throwThe, MonadExceptOf.throw] at connected
    · rename_i outputWay
      simp only [pure, Except.pure] at connected
      split at connected
      · contradiction
      · rename_i input inputHeld
        split at connected
        · simp [throw, throwThe, MonadExceptOf.throw] at connected
        · rename_i inputWay
          simp only [Except.ok.injEq] at connected
          exact ⟨output, input, outputHeld, not_not.mp outputWay, inputHeld,
            not_not.mp inputWay, connected.symm⟩

/-- Linking changes links only. -/
theorem relinked_connect {graph after : Graph} {source target : Endpoint}
    (connected : graph.connect source target = .ok after) : Relinked graph after := by
  obtain ⟨output, input, outputHeld, outputWay, inputHeld, inputWay, rfl⟩ :=
    connect_eq_ok connected
  obtain ⟨block, found, outletFound⟩ := outlet_eq_ok.mp outputHeld
  refine .setFeed inputHeld fun other isSource => ?_
  obtain rfl := Option.some.inj isSource
  exact ⟨inputWay, block, output, resolve_eq_ok.mpr ⟨found, outletFound⟩, outputWay⟩

/-- Taking a link off changes links only. -/
theorem relinked_disconnect {graph after : Graph} {target : Endpoint} {feed : Option Endpoint}
    (disconnected : graph.disconnect target = .ok (after, feed)) : Relinked graph after := by
  simp only [disconnect, bind, Except.bind] at disconnected
  split at disconnected
  · contradiction
  · rename_i outlet held
    simp only [pure, Except.pure, Except.ok.injEq, Prod.mk.injEq] at disconnected
    rw [← disconnected.1]
    exact .setFeed held fun _ isSource => by simp at isSource

/-- A block that was grouped left its old group and joined the new one. -/
theorem detach_attach_of_adopt {graph after : Graph} {parent child : BlockIndex}
    (adopted : graph.adopt parent child = .ok after) :
    ∃ block detached, graph.get child = .ok block ∧ graph.detach block = .ok detached ∧
      detached.attach parent child = .ok after := by
  obtain ⟨block, held, checked⟩ := bind_eq_ok.mp adopted
  obtain ⟨-, -, moved⟩ := bind_eq_ok.mp checked
  obtain ⟨detached, took, attached⟩ := bind_eq_ok.mp moved
  exact ⟨block, detached, held, took, attached⟩

/-- Taking a block out of its group changes no link. -/
theorem relinked_detach {graph after : Graph} {child : Block}
    (detached : graph.detach child = .ok after) : Relinked graph after := by
  unfold detach at detached
  split at detached
  · refine .update ?_ ?_ detached <;> exact fun _ => rfl
  · cases detached
    exact .refl graph

/-- Putting a block into a group changes no link. -/
theorem relinked_attach {graph after : Graph} {parent child : BlockIndex}
    (attached : graph.attach parent child = .ok after) : Relinked graph after := by
  obtain ⟨listed, put, named⟩ := bind_eq_ok.mp attached
  refine Relinked.trans (.update ?_ ?_ put) (.update ?_ ?_ named) <;> exact fun _ => rfl

/-- Grouping changes no link. -/
theorem relinked_adopt {graph after : Graph} {parent child : BlockIndex}
    (adopted : graph.adopt parent child = .ok after) : Relinked graph after := by
  obtain ⟨block, detached, -, took, attached⟩ := detach_attach_of_adopt adopted
  exact (relinked_detach took).trans (relinked_attach attached)

/-- Changing the values kept with a block changes no link. -/
theorem relinked_editProperties {graph after : Graph} {index : BlockIndex}
    {change : List (String × Json) → List (String × Json)}
    (edited : graph.editProperties index change = .ok after) : Relinked graph after := by
  refine .update ?_ ?_ edited <;> exact fun _ => rfl

end Graph

end ShaderBlocks
