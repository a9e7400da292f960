import Mathlib.Data.Finset.Card
import Mathlib.Logic.Relation
import ShaderBlocks.Proofs.Relinking

/-!
# Groups form a forest

A block is grouped under at most one other. Before a block is grouped, a walk goes up from the block
it is to go under and makes sure that it is not met on the way. In a forest the walk comes to an end
within its limit, since every step leaves fewer blocks above, and so grouping fails exactly if a
block is missing or if it would close a loop. Some blocks can be grouped one after the other exactly
if the links up, all taken together, have no loop: what the walks see one at a time adds up.
-/

namespace ShaderBlocks

/-- A block after some blocks were grouped. Each comes with the block that it goes under, and what
goes under this block is added to its children in order. -/
def Block.groupedBy (pairs : List (BlockIndex × BlockIndex)) (block : Block) : Block :=
  { block with
    parent := (pairs.lookup block.index).or block.parent
    children := block.children ++ (pairs.filter (·.2 == block.index)).map (·.1) }

/-- A block after another one was taken out of its group. What lists the moved block is its
parent. -/
def Block.afterLeave (moved block : Block) : Block :=
  { block with
    children := if some block.index = moved.parent then
      block.children.filter (· ≠ moved.index) else block.children }

/-- A block after another one, grouped under `old` if it was grouped, was moved under `parent`. The
moved block names its new parent. The old parent lists it no more and keeps its other children in
order; the new parent lists it last. -/
def Block.afterMove (old : Option BlockIndex) (parent child : BlockIndex) (block : Block) : Block :=
  { block with
    parent := if block.index = child then some parent else block.parent
    children :=
      (if some block.index = old then block.children.filter (· ≠ child) else block.children) ++
        if block.index = parent then [child] else [] }

/-- To move a block is to take it out of its group and to put it into another. -/
theorem Block.groupedBy_afterLeave (moved block : Block) (parent : BlockIndex) :
    (Block.afterLeave moved block).groupedBy [(moved.index, parent)] =
      block.afterMove moved.parent parent moved.index := by
  have isLast : ([(moved.index, parent)].filter (·.2 == block.index)).map (·.1) =
      if block.index = parent then [moved.index] else [] := by
    by_cases isParent : block.index = parent
    · simp [isParent]
    · simp [isParent, Ne.symm isParent]
  have names : ([(moved.index, parent)].lookup block.index).or block.parent =
      if block.index = moved.index then some parent else block.parent := by
    by_cases isMoved : block.index = moved.index
    · simp [isMoved]
    · simp [isMoved, List.lookup_cons, beq_false_of_ne isMoved]
  simp only [groupedBy, afterLeave, afterMove, isLast, names]

namespace Graph

/-- Graphs of the same blocks are the same. -/
theorem eq_of_blocks_eq {graph other : Graph} (same : graph.blocks = other.blocks) :
    graph = other := by
  cases graph
  cases other
  cases same
  rfl

/-- Blocks can be changed if they keep their numbers. -/
theorem exists_blocks_map (graph : Graph) (change : Block → Block)
    (numbered : ∀ block, (change block).index = block.index) :
    ∃ after : Graph, after.blocks = graph.blocks.map change := by
  refine ⟨⟨graph.blocks.map change, ?_⟩, rfl⟩
  rw [List.pairwise_map]
  simpa only [numbered] using graph.ordered

/-- A block is grouped under another one. -/
def GroupedUnder (graph : Graph) (child parent : BlockIndex) : Prop :=
  ∃ block, graph.find? child = some block ∧ block.parent = some parent

/-- Every link up leads to a block of the graph, and there is no loop. -/
structure Forest (graph : Graph) : Prop where
  /-- The block that a block is grouped under is there. -/
  held : ∀ child parent, graph.GroupedUnder child parent → (graph.find? parent).isSome
  /-- No block is met again on the way up from it. -/
  loopless : ∀ index, ¬ Relation.TransGen graph.GroupedUnder index index

open scoped Classical in
/-- The blocks that are met on the way up from a block, itself included. -/
noncomputable def above (graph : Graph) (cursor : BlockIndex) : Finset BlockIndex :=
  (graph.blocks.map (·.index)).toFinset.filter (Relation.ReflTransGen graph.GroupedUnder cursor)

/-- What is above a block can be reached from it and is there. -/
theorem mem_above {graph : Graph} {cursor index : BlockIndex} :
    index ∈ graph.above cursor ↔
      (graph.find? index).isSome ∧ Relation.ReflTransGen graph.GroupedUnder cursor index := by
  classical
  rw [above, Finset.mem_filter, List.mem_toFinset, List.mem_map, Option.isSome_iff_exists]
  simp only [find?_eq_some]

/-- No more blocks are above a block than there are. -/
theorem card_above_le (graph : Graph) (cursor : BlockIndex) :
    (graph.above cursor).card ≤ graph.size := by
  classical
  calc (graph.above cursor).card
    _ ≤ (graph.blocks.map (·.index)).toFinset.card := Finset.card_filter_le _ _
    _ ≤ (graph.blocks.map (·.index)).length := List.toFinset_card_le _
    _ = graph.size := List.length_map _

/-- A step up leaves fewer blocks above. -/
theorem Forest.card_above_lt {graph : Graph} (forest : graph.Forest) {cursor next : BlockIndex}
    (up : graph.GroupedUnder cursor next) :
    (graph.above next).card < (graph.above cursor).card := by
  refine Finset.card_lt_card ((Finset.ssubset_iff_of_subset ?_).mpr ⟨cursor, ?_, ?_⟩)
  · intro index reached
    obtain ⟨held, path⟩ := mem_above.mp reached
    exact mem_above.mpr ⟨held, path.head up⟩
  · obtain ⟨block, found, -⟩ := up
    exact mem_above.mpr ⟨by simp [found], .refl⟩
  · intro again
    exact forest.loopless cursor (.head' up (mem_above.mp again).2)

/-- The walk up in a forest succeeds exactly if it does not meet the child. -/
theorem Forest.checkAncestors_eq_ok {graph : Graph} (forest : graph.Forest)
    (child parent : BlockIndex) {limit : Nat} {cursor : BlockIndex}
    (enough : (graph.above cursor).card < limit) (held : (graph.find? cursor).isSome) :
    graph.checkAncestors child parent limit cursor = .ok () ↔
      ¬ Relation.ReflTransGen graph.GroupedUnder cursor child := by
  induction limit generalizing cursor with
  | zero => exact absurd enough (Nat.not_lt_zero _)
  | succ limit ih =>
    obtain ⟨block, found⟩ := Option.isSome_iff_exists.mp held
    rw [checkAncestors]
    by_cases met : cursor = child
    · subst met
      simp [Relation.ReflTransGen.refl]
    · rw [if_neg met, get_eq_ok.mpr found]
      -- A path to the child starts with the one step up that there is.
      have step : Relation.ReflTransGen graph.GroupedUnder cursor child ↔
          ∃ next, block.parent = some next ∧
            Relation.ReflTransGen graph.GroupedUnder next child := by
        constructor
        · intro path
          obtain same | ⟨next, ⟨other, otherFound, isParent⟩, rest⟩ := path.cases_head
          · exact absurd same met
          · obtain rfl := Option.some.inj (found.symm.trans otherFound)
            exact ⟨next, isParent, rest⟩
        · rintro ⟨next, isParent, rest⟩
          exact .head ⟨block, found, isParent⟩ rest
      rw [step]
      cases isParent : block.parent with
      | none => simp [bind, Except.bind, pure, Except.pure, isParent]
      | some next =>
        have up : graph.GroupedUnder cursor next := ⟨block, found, isParent⟩
        have fewer := Nat.lt_of_lt_of_le (forest.card_above_lt up) (Nat.le_of_lt_succ enough)
        simp only [bind, Except.bind, isParent, Option.some.injEq, exists_eq_left']
        exact ih fewer (forest.held cursor next up)

/-- A block can be taken out of its group exactly if its parent is there, if it has one. -/
theorem detach_eq_ok {graph after : Graph} {moved : Block} :
    graph.detach moved = .ok after ↔
      (∀ old, moved.parent = some old → (graph.find? old).isSome) ∧
        after.blocks = graph.blocks.map (Block.afterLeave moved) := by
  unfold detach
  cases isParent : moved.parent with
  | none =>
    have kept : graph.blocks.map (Block.afterLeave moved) = graph.blocks := by
      refine (List.map_congr_left fun block _ => ?_).trans (List.map_id' _)
      simp [Block.afterLeave, isParent]
    simp only [Except.ok.injEq, reduceCtorEq, false_implies, implies_true, true_and, kept]
    exact ⟨fun same => same ▸ rfl, fun same => (eq_of_blocks_eq same).symm⟩
  | some old =>
    have left : ∀ block : Block, Block.afterLeave moved block = modifyBlock old (fun block =>
        { block with children := block.children.filter (· ≠ moved.index) }) block := by
      intro block
      by_cases isOld : block.index = old
      · simp [Block.afterLeave, modifyBlock, isParent, isOld]
      · simp [Block.afterLeave, modifyBlock, isParent, isOld]
    simp only [update_eq_ok, Option.some.injEq, forall_eq', List.map_congr_left fun block _ =>
      left block]
    exact and_congr_right fun _ => ⟨fun same => same ▸ rfl, fun same => eq_of_blocks_eq same⟩

/-- In a forest every block of the graph can be taken out of its group: the block that it is grouped
under is there. -/
theorem Forest.exists_detach {graph : Graph} (forest : graph.Forest) {index : BlockIndex}
    {moved : Block} (found : graph.find? index = some moved) :
    ∃ after, graph.detach moved = .ok after := by
  obtain ⟨after, blocks⟩ := graph.exists_blocks_map (Block.afterLeave moved) fun _ => rfl
  exact ⟨after, detach_eq_ok.mpr ⟨fun old isParent => forest.held index old
    ⟨moved, found, isParent⟩, blocks⟩⟩

/-- A block can be put into a group exactly if it and the parent are there. -/
theorem attach_eq_ok {graph after : Graph} {parent child : BlockIndex} (apart : parent ≠ child) :
    graph.attach parent child = .ok after ↔
      (graph.find? parent).isSome ∧ (graph.find? child).isSome ∧
        after.blocks = graph.blocks.map (Block.groupedBy [(child, parent)]) := by
  have inTwo : graph.blocks.map (Block.groupedBy [(child, parent)]) =
      (graph.blocks.map (modifyBlock parent fun group =>
        { group with children := group.children ++ [child] })).map (modifyBlock child fun block =>
          { block with parent := some parent }) := by
    rw [List.map_map]
    refine List.map_congr_left fun block _ => ?_
    simp only [Function.comp, modifyBlock, Block.groupedBy, List.lookup_cons, List.lookup_nil]
    by_cases isChild : block.index = child
    · simp [isChild, apart, apart.symm]
    · by_cases isParent : block.index = parent
      · simp [isParent, apart, beq_false_of_ne apart]
      · simp [isParent, isChild, Ne.symm isParent, beq_false_of_ne isChild]
  have numbered : ∀ block : Block, (modifyBlock parent (fun group =>
      { group with children := group.children ++ [child] }) block).index = block.index := by
    refine modifyBlock_index ?_ parent
    exact fun _ => rfl
  rw [attach, bind_eq_ok, inTwo]
  constructor
  · rintro ⟨listed, put, named⟩
    obtain ⟨parentHeld, rfl⟩ := update_eq_ok.mp put
    obtain ⟨childHeld, rfl⟩ := update_eq_ok.mp named
    rw [find?_of_blocks_map rfl numbered, Option.isSome_map] at childHeld
    exact ⟨parentHeld, childHeld, rfl⟩
  · rintro ⟨parentHeld, childHeld, blocks⟩
    refine ⟨_, update_eq_ok.mpr ⟨parentHeld, rfl⟩, update_eq_ok.mpr ⟨?_, eq_of_blocks_eq blocks⟩⟩
    rw [find?_of_blocks_map rfl numbered, Option.isSome_map]
    exact childHeld

/-- In a forest a block can leave its group and join that of another block: nothing that either
needs is missing. -/
theorem Forest.exists_move {graph : Graph} (forest : graph.Forest) {parent child : BlockIndex}
    {moved : Block} (found : graph.find? child = some moved)
    (held : (graph.find? parent).isSome) (apart : parent ≠ child) :
    ∃ detached after, graph.detach moved = .ok detached ∧
      detached.attach parent child = .ok after := by
  obtain ⟨detached, took⟩ := forest.exists_detach found
  have kept : ∀ index, (detached.find? index).isSome = (graph.find? index).isSome := by
    intro index
    rw [find?_of_blocks_map (detach_eq_ok.mp took).2 fun _ => rfl, Option.isSome_map]
  obtain ⟨after, blocks⟩ :=
    detached.exists_blocks_map (Block.groupedBy [(child, parent)]) fun _ => rfl
  have joins := (attach_eq_ok apart).mpr
    ⟨(kept parent).trans held, (kept child).trans (found ▸ rfl), blocks⟩
  exact ⟨detached, after, took, joins⟩

/-- Grouping in a forest succeeds exactly if both blocks are there and the child is neither the
parent nor above it. One block is then moved, and nothing else changes. -/
theorem Forest.adopt_eq_ok {graph after : Graph} (forest : graph.Forest)
    {parent child : BlockIndex} :
    graph.adopt parent child = .ok after ↔
      ∃ moved, graph.find? child = some moved ∧ (graph.find? parent).isSome ∧
        ¬ Relation.ReflTransGen graph.GroupedUnder parent child ∧
        after.blocks = graph.blocks.map (Block.afterMove moved.parent parent child) := by
  have enough : (graph.above parent).card < graph.size + 1 :=
    Nat.lt_succ_of_le (graph.card_above_le parent)
  simp only [adopt, bind, Except.bind]
  cases childHeld : graph.get child with
  | error error =>
    simp only [reduceCtorEq, false_iff, not_exists, not_and]
    intro block found
    rw [get_eq_ok.mpr found] at childHeld
    contradiction
  | ok block =>
    simp only [get_eq_ok.mp childHeld, Option.some.injEq, exists_eq_left']
    cases checked : graph.checkAncestors child parent (graph.size + 1) parent with
    | error error =>
      simp only [reduceCtorEq, false_iff, not_and]
      intro held apart
      rw [(forest.checkAncestors_eq_ok child parent enough held).mpr apart] at checked
      contradiction
    | ok _ =>
      have held : (graph.find? parent).isSome := by
        by_contra missing
        rw [Option.not_isSome_iff_eq_none] at missing
        have apart : parent ≠ child := by
          rintro rfl
          rw [get_eq_ok.mp childHeld] at missing
          contradiction
        rw [checkAncestors, if_neg apart, get, missing] at checked
        contradiction
      have apart := (forest.checkAncestors_eq_ok child parent enough held).mp checked
      have found := get_eq_ok.mp childHeld
      obtain rfl : block.index = child := (find?_eq_some.mp found).2
      obtain ⟨detached, took⟩ := forest.exists_detach found
      have blocks := (detach_eq_ok.mp took).2
      have distinct : parent ≠ block.index := fun same => apart (same ▸ .refl)
      simp only [took, attach_eq_ok distinct, find?_of_blocks_map blocks fun _ => rfl,
        Option.isSome_map, held, found, Option.isSome_some, blocks, List.map_map,
        Function.comp_def, Block.groupedBy_afterLeave, apart, not_false_eq_true, true_and]

/-- A path that may use one more edge either does without it, or leads to its start, and on from
its end. -/
theorem path_or_through {α : Type} {edge : α → α → Prop} {start stop first last : α}
    (path : Relation.TransGen (fun a b => edge a b ∨ a = start ∧ b = stop) first last) :
    Relation.TransGen edge first last ∨
      Relation.ReflTransGen edge first start ∧ Relation.ReflTransGen edge stop last := by
  induction path with
  | single step =>
    rcases step with old | ⟨rfl, rfl⟩
    · exact .inl (.single old)
    · exact .inr ⟨.refl, .refl⟩
  | tail path step ih =>
    rcases step with old | ⟨rfl, rfl⟩
    · exact ih.imp (·.tail old) (fun through => ⟨through.1, through.2.tail old⟩)
    · refine .inr ⟨?_, .refl⟩
      exact ih.elim (·.to_reflTransGen) (·.1)

/-- Group some blocks one after the other, each given with the block that it goes under. -/
def adoptAll : List (BlockIndex × BlockIndex) → Graph → Except GraphError Graph
  | [], graph => .ok graph
  | pair :: rest, graph => do
    let graph ← graph.adopt pair.2 pair.1
    adoptAll rest graph

/-- The links up of a graph together with those still to be made. -/
def UpWith (graph : Graph) (pairs : List (BlockIndex × BlockIndex))
    (child parent : BlockIndex) : Prop :=
  graph.GroupedUnder child parent ∨ (child, parent) ∈ pairs

/-- A block that goes under no other yet is grouped by changing it and its new parent alone. -/
theorem Forest.adopt_eq_ok_of_ungrouped {graph after : Graph} (forest : graph.Forest)
    {parent child : BlockIndex}
    (ungrouped : ∀ block, graph.find? child = some block → block.parent = none) :
    graph.adopt parent child = .ok after ↔
      (graph.find? child).isSome ∧ (graph.find? parent).isSome ∧
        ¬ Relation.ReflTransGen graph.GroupedUnder parent child ∧
        after.blocks = graph.blocks.map (Block.groupedBy [(child, parent)]) := by
  -- What was in no group is grouped by being moved.
  have grouped : ∀ moved, graph.find? child = some moved →
      Block.afterMove moved.parent parent child = Block.groupedBy [(child, parent)] := by
    intro moved found
    obtain rfl : moved.index = child := (find?_eq_some.mp found).2
    funext block
    rw [← Block.groupedBy_afterLeave, Block.afterLeave, ungrouped moved found, if_neg (by simp)]
  rw [forest.adopt_eq_ok]
  constructor
  · rintro ⟨moved, found, held, apart, blocks⟩
    exact ⟨by simp [found], held, apart, grouped moved found ▸ blocks⟩
  · rintro ⟨childHeld, held, apart, blocks⟩
    obtain ⟨moved, found⟩ := Option.isSome_iff_exists.mp childHeld
    exact ⟨moved, found, held, apart, (grouped moved found).symm ▸ blocks⟩

/-- After one block was grouped there is one more link up. -/
theorem groupedUnder_iff_of_groupedBy {graph after : Graph} {parent child : BlockIndex}
    (held : (graph.find? child).isSome)
    (ungrouped : ∀ block, graph.find? child = some block → block.parent = none)
    (blocks : after.blocks = graph.blocks.map (Block.groupedBy [(child, parent)]))
    (low high : BlockIndex) :
    after.GroupedUnder low high ↔ graph.GroupedUnder low high ∨ low = child ∧ high = parent := by
  unfold GroupedUnder
  rw [find?_of_blocks_map blocks fun _ => rfl]
  obtain ⟨childBlock, childFound⟩ := Option.isSome_iff_exists.mp held
  cases found : graph.find? low with
  | none =>
    have apart : low ≠ child := by
      rintro rfl
      rw [found] at childFound
      contradiction
    simp [apart]
  | some block =>
    have numbered : block.index = low := (find?_eq_some.mp found).2
    by_cases same : low = child
    · have alone : block.parent = none := ungrouped block (same ▸ found)
      simp [Block.groupedBy, numbered, same, alone, @eq_comm _ high]
    · simp [Block.groupedBy, numbered, same, List.lookup_cons, beq_false_of_ne same]

/-- Grouping one more block keeps the forest. -/
theorem Forest.groupedBy {graph after : Graph} (forest : graph.Forest)
    {parent child : BlockIndex} (childHeld : (graph.find? child).isSome)
    (held : (graph.find? parent).isSome)
    (ungrouped : ∀ block, graph.find? child = some block → block.parent = none)
    (apart : ¬ Relation.ReflTransGen graph.GroupedUnder parent child)
    (blocks : after.blocks = graph.blocks.map (Block.groupedBy [(child, parent)])) :
    after.Forest where
  held low high up := by
    rw [find?_of_blocks_map blocks fun _ => rfl, Option.isSome_map]
    rcases (groupedUnder_iff_of_groupedBy childHeld ungrouped blocks low high).mp up with
      old | ⟨-, rfl⟩
    · exact forest.held low high old
    · exact held
  loopless index loop := by
    have steps : Relation.TransGen
        (fun low high => graph.GroupedUnder low high ∨ low = child ∧ high = parent) index index :=
      Relation.TransGen.mono (fun low high up =>
        (groupedUnder_iff_of_groupedBy childHeld ungrouped blocks low high).mp up) _ _ loop
    rcases path_or_through steps with old | ⟨toChild, fromParent⟩
    · exact forest.loopless index old
    · exact apart (fromParent.trans toChild)

/-- Grouping more blocks changes what was grouped before. -/
theorem groupedBy_groupedBy {child parent : BlockIndex} {rest : List (BlockIndex × BlockIndex)}
    (once : child ∉ rest.map (·.1)) (block : Block) :
    (block.groupedBy [(child, parent)]).groupedBy rest =
      block.groupedBy ((child, parent) :: rest) := by
  have children : (block.children ++ ([(child, parent)].filter (·.2 == block.index)).map (·.1)) ++
      (rest.filter (·.2 == block.index)).map (·.1) =
        block.children ++ (((child, parent) :: rest).filter (·.2 == block.index)).map (·.1) := by
    rw [List.append_assoc, ← List.map_append, ← List.filter_append]
    rfl
  have parents : (rest.lookup block.index).or (([(child, parent)].lookup block.index).or
      block.parent) = (((child, parent) :: rest).lookup block.index).or block.parent := by
    by_cases same : block.index = child
    · have absent : rest.lookup child = none := by
        rw [List.lookup_eq_none_iff]
        intro pair member
        exact bne_iff_ne.mpr fun hit => once (List.mem_map.mpr ⟨pair, member, hit.symm⟩)
      simp [same, absent]
    · simp [List.lookup_cons, beq_false_of_ne same]
  simp only [Block.groupedBy, children, parents]

/-- A link up that is made is no longer to be made. -/
theorem upWith_cons {graph after : Graph} {parent child : BlockIndex}
    (held : (graph.find? child).isSome)
    (ungrouped : ∀ block, graph.find? child = some block → block.parent = none)
    (blocks : after.blocks = graph.blocks.map (Block.groupedBy [(child, parent)]))
    (rest : List (BlockIndex × BlockIndex)) :
    graph.UpWith ((child, parent) :: rest) = after.UpWith rest := by
  funext low high
  simp only [UpWith, groupedUnder_iff_of_groupedBy held ungrouped blocks, List.mem_cons,
    Prod.mk.injEq, or_assoc]

/-- A block that was not grouped goes under no other still. -/
theorem ungrouped_of_groupedBy {graph after : Graph} {parent child index : BlockIndex}
    (apart : index ≠ child)
    (ungrouped : ∀ block, graph.find? index = some block → block.parent = none)
    (blocks : after.blocks = graph.blocks.map (Block.groupedBy [(child, parent)])) :
    ∀ block, after.find? index = some block → block.parent = none := by
  intro block found
  rw [find?_of_blocks_map blocks fun _ => rfl] at found
  obtain ⟨old, oldFound, rfl⟩ := Option.map_eq_some_iff.mp found
  have numbered : old.index = index := (find?_eq_some.mp oldFound).2
  simp [Block.groupedBy, List.lookup_cons, numbered, beq_false_of_ne apart, ungrouped old oldFound]

/-- Blocks that go under no other can be grouped one after the other exactly if all of them and
their parents are there and no loop comes about. Each then has its parent, and each parent has its
children in the order in which they were grouped. -/
theorem Forest.adoptAll_eq_ok {graph after : Graph} (forest : graph.Forest)
    {pairs : List (BlockIndex × BlockIndex)} (once : (pairs.map (·.1)).Nodup)
    (ungrouped : ∀ pair ∈ pairs, ∀ block, graph.find? pair.1 = some block → block.parent = none) :
    adoptAll pairs graph = .ok after ↔
      (∀ pair ∈ pairs, (graph.find? pair.1).isSome ∧ (graph.find? pair.2).isSome) ∧
        (∀ index, ¬ Relation.TransGen (graph.UpWith pairs) index index) ∧
        after.blocks = graph.blocks.map (Block.groupedBy pairs) := by
  induction pairs generalizing graph with
  | nil =>
    have same : graph.UpWith [] = graph.GroupedUnder := by
      funext low high
      simp [UpWith]
    have kept : graph.blocks.map (Block.groupedBy []) = graph.blocks := by
      refine (List.map_congr_left fun block _ => ?_).trans (List.map_id' _)
      simp [Block.groupedBy]
    simp only [adoptAll, Except.ok.injEq, same, kept, List.not_mem_nil, false_implies,
      implies_true, true_and, forest.loopless, not_false_eq_true]
    exact ⟨fun isAfter => isAfter ▸ rfl, fun blocks => (eq_of_blocks_eq blocks).symm⟩
  | cons pair rest ih =>
    obtain ⟨child, parent⟩ := pair
    obtain ⟨notAgain, onceRest⟩ := List.nodup_cons.mp once
    obtain ⟨childUngrouped, restUngrouped⟩ := List.forall_mem_cons.mp ungrouped
    -- Once the first block is grouped, the rest is about the graph that comes of it.
    have step : ∀ {middle : Graph}, (graph.find? child).isSome → (graph.find? parent).isSome →
        ¬ Relation.ReflTransGen graph.GroupedUnder parent child →
        middle.blocks = graph.blocks.map (Block.groupedBy [(child, parent)]) →
        (adoptAll rest middle = .ok after ↔
          (∀ pair ∈ rest, (graph.find? pair.1).isSome ∧ (graph.find? pair.2).isSome) ∧
            (∀ index, ¬ Relation.TransGen (graph.UpWith ((child, parent) :: rest)) index index) ∧
            after.blocks = graph.blocks.map (Block.groupedBy ((child, parent) :: rest))) := by
      intro middle childHeld held apart blocks
      have middleForest := forest.groupedBy childHeld held childUngrouped apart blocks
      have stillUngrouped : ∀ pair ∈ rest, ∀ block, middle.find? pair.1 = some block →
          block.parent = none := by
        intro pair member
        have notChild : pair.1 ≠ child := fun same =>
          notAgain (List.mem_map.mpr ⟨pair, member, same⟩)
        exact ungrouped_of_groupedBy notChild (restUngrouped pair member) blocks
      rw [ih middleForest onceRest stillUngrouped, upWith_cons childHeld childUngrouped blocks,
        blocks, List.map_map]
      simp only [find?_of_blocks_map blocks fun _ => rfl, Option.isSome_map, Function.comp_def,
        groupedBy_groupedBy notAgain]
    rw [adoptAll]
    constructor
    · intro done
      cases adopted : graph.adopt parent child with
      | error error =>
        rw [adopted] at done
        contradiction
      | ok middle =>
        rw [adopted] at done
        obtain ⟨childHeld, held, apart, blocks⟩ :=
          (forest.adopt_eq_ok_of_ungrouped childUngrouped).mp adopted
        obtain ⟨restHeld, result⟩ := (step childHeld held apart blocks).mp done
        exact ⟨List.forall_mem_cons.mpr ⟨⟨childHeld, held⟩, restHeld⟩, result⟩
    · rintro ⟨allHeld, loopless, afterBlocks⟩
      obtain ⟨⟨childHeld, held⟩, restHeld⟩ := List.forall_mem_cons.mp allHeld
      have apart : ¬ Relation.ReflTransGen graph.GroupedUnder parent child := by
        intro path
        have up : graph.UpWith ((child, parent) :: rest) child parent := .inr List.mem_cons_self
        exact loopless child (.head' up (Relation.ReflTransGen.mono (fun _ _ => .inl) _ _ path))
      obtain ⟨middle, blocks⟩ :=
        graph.exists_blocks_map (Block.groupedBy [(child, parent)]) fun _ => rfl
      rw [(forest.adopt_eq_ok_of_ungrouped childUngrouped).mpr ⟨childHeld, held, apart, blocks⟩]
      exact (step childHeld held apart blocks).mpr ⟨restHeld, loopless, afterBlocks⟩

end Graph

end ShaderBlocks
