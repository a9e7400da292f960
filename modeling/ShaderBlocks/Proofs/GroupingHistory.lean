import ShaderBlocks.Proofs.GraphEdits
import ShaderBlocks.Proofs.Grouping

/-!
# Groups over the history of a graph

Grouping is kept twice: a block names the block it is grouped under, and that block lists it among
its children. Moving a block changes both sides, in three places, after a walk up that relies on the
very links that are about to change. Here both sides are followed through any history of a graph:
blocks of new numbers are added, outlets linked, values kept and blocks grouped, and what fails
leaves the graph as it is. The two sides always agree, the links up form a forest, and so the walk
up comes to its end and grouping is refused for exactly the reasons that would spoil the forest.
-/

namespace ShaderBlocks

/-- A new block is not grouped. -/
theorem Block.IsNew.ungrouped {block : Block} (new : block.IsNew) :
    block.parent = none ∧ block.children = [] := by
  induction new with
  | make read made =>
    rw [run_make] at made
    split at made
    · cases made
      exact ⟨rfl, rfl⟩
    · contradiction
  | editProperties new change ih => exact ih

namespace Graph

/-- A change to the blocks that a graph holds. -/
inductive Edit
  /-- Link an output to an input. -/
  | connect (source target : Endpoint)
  /-- Take a link off. -/
  | disconnect (target : Endpoint)
  /-- Group a block under another one. -/
  | adopt (parent child : BlockIndex)
  /-- Change the values kept with a block. -/
  | editProperties (index : BlockIndex) (change : List (String × Json) → List (String × Json))

/-- What an edit comes to. -/
def outcome (graph : Graph) : Edit → Except GraphError Graph
  | .connect source target => graph.connect source target
  | .disconnect target => (graph.disconnect target).map (·.1)
  | .adopt parent child => graph.adopt parent child
  | .editProperties index change => graph.editProperties index change

/-- The graph after an edit; an edit that fails changes nothing. -/
def edited (graph : Graph) (edit : Edit) : Graph :=
  match graph.outcome edit with
  | .ok after => after
  | .error _ => graph

/-- A graph with a history: blocks of numbers that were not there yet were added, from whatever
supplies, and edits were tried. -/
inductive Grown : Graph → Prop
  | empty : Grown .empty
  | add {graph : Graph} {block : Block} (before : Grown graph) (new : block.IsNew)
      (fresh : graph.find? block.index = none) : Grown (graph.insert block)
  | edit {graph : Graph} (before : Grown graph) (edit : Edit) : Grown (graph.edited edit)

/-- Both sides of the grouping agree, and the links up form a forest. -/
structure WellGrouped (graph : Graph) : Prop where
  /-- Links up lead to blocks of the graph and never around. -/
  forest : graph.Forest
  /-- What a block lists are the blocks of the graph that are grouped under it. -/
  agrees : ∀ group ∈ graph.blocks, ∀ child,
    child ∈ group.children ↔ graph.GroupedUnder child group.index
  /-- No block is listed twice. -/
  once : ∀ group ∈ graph.blocks, group.children.Nodup

/-- From every block the links up lead to a block that is not grouped. -/
theorem Forest.exists_root {graph : Graph} (forest : graph.Forest) {block : Block}
    (member : block ∈ graph.blocks) :
    ∃ root ∈ graph.blocks, root.parent = none ∧
      Relation.ReflTransGen graph.GroupedUnder block.index root.index := by
  -- Every step up leaves fewer blocks above.
  induction count : (graph.above block.index).card using Nat.strong_induction_on
    generalizing block with
  | _ count ih =>
    subst count
    cases isParent : block.parent with
    | none => exact ⟨block, member, isParent, .refl⟩
    | some next =>
      have up : graph.GroupedUnder block.index next :=
        ⟨block, find?_eq_some.mpr ⟨member, rfl⟩, isParent⟩
      obtain ⟨above, found⟩ := Option.isSome_iff_exists.mp (forest.held _ _ up)
      obtain ⟨aboveMember, rfl⟩ := find?_eq_some.mp found
      obtain ⟨root, rootMember, isRoot, path⟩ :=
        ih _ (forest.card_above_lt up) aboveMember rfl
      exact ⟨root, rootMember, isRoot, path.head up⟩

/-- The walk up comes to its end before the limit: a limit above the number of blocks on the way
makes no difference. -/
theorem Forest.checkAncestors_of_enough {graph : Graph} (forest : graph.Forest)
    (child parent : BlockIndex) {limit other : Nat} {cursor : BlockIndex}
    (enough : (graph.above cursor).card < limit) (otherEnough : (graph.above cursor).card < other) :
    graph.checkAncestors child parent limit cursor =
      graph.checkAncestors child parent other cursor := by
  induction limit generalizing other cursor with
  | zero => omega
  | succ limit ih =>
    obtain ⟨other, rfl⟩ : ∃ less, other = less + 1 := ⟨other - 1, by omega⟩
    rw [checkAncestors, checkAncestors]
    by_cases met : cursor = child
    · rw [if_pos met, if_pos met]
    · rw [if_neg met, if_neg met]
      cases held : graph.get cursor with
      | error error => rfl
      | ok block =>
        simp only [bind, Except.bind]
        cases isParent : block.parent with
        | none => rfl
        | some next =>
          have fewer := forest.card_above_lt ⟨block, get_eq_ok.mp held, isParent⟩
          exact ih (by omega) (by omega)

/-- Grouping in a forest is refused exactly if a block is missing or the child is the parent or
above it. -/
theorem Forest.exists_adopt_error_iff {graph : Graph} (forest : graph.Forest)
    (parent child : BlockIndex) :
    (∃ error, graph.adopt parent child = .error error) ↔
      graph.find? child = none ∨ graph.find? parent = none ∨ child = parent ∨
        Relation.TransGen graph.GroupedUnder parent child := by
  have reached : Relation.ReflTransGen graph.GroupedUnder parent child ↔
      child = parent ∨ Relation.TransGen graph.GroupedUnder parent child :=
    Relation.reflTransGen_iff_eq_or_transGen
  have succeeds : (∃ after, graph.adopt parent child = .ok after) ↔
      ¬ (graph.find? child = none ∨ graph.find? parent = none ∨ child = parent ∨
        Relation.TransGen graph.GroupedUnder parent child) := by
    simp only [forest.adopt_eq_ok, reached, not_or, ← Option.isSome_iff_ne_none,
      Option.isSome_iff_exists]
    constructor
    · rintro ⟨after, block, found, held, apart, -⟩
      exact ⟨⟨block, found⟩, held, apart⟩
    · rintro ⟨⟨moved, found⟩, held, apart⟩
      obtain ⟨after, blocks⟩ :=
        graph.exists_blocks_map (Block.afterMove moved.parent parent child) fun _ => rfl
      exact ⟨after, moved, found, held, apart, blocks⟩
  rw [← not_iff_not, ← succeeds]
  cases graph.adopt parent child <;> simp

/-- After a move the moved block is grouped under its new parent, and every other block as it
was. -/
theorem groupedUnder_afterMove {graph after : Graph} {old : Option BlockIndex}
    {parent child : BlockIndex} (childHeld : (graph.find? child).isSome)
    (blocks : after.blocks = graph.blocks.map (Block.afterMove old parent child))
    (low high : BlockIndex) :
    after.GroupedUnder low high ↔
      if low = child then high = parent else graph.GroupedUnder low high := by
  unfold GroupedUnder
  rw [find?_of_blocks_map blocks fun _ => rfl]
  by_cases isChild : low = child
  · obtain ⟨block, found⟩ := Option.isSome_iff_exists.mp childHeld
    have numbered : block.index = child := (find?_eq_some.mp found).2
    simp [isChild, found, Block.afterMove, numbered, eq_comm]
  · rw [if_neg isChild]
    cases found : graph.find? low with
    | none => simp
    | some block =>
      have numbered : block.index = low := (find?_eq_some.mp found).2
      simp [Block.afterMove, numbered, isChild]

/-- Moving a block under one that is not below it keeps the forest. -/
theorem Forest.afterMove {graph after : Graph} (forest : graph.Forest) {old : Option BlockIndex}
    {parent child : BlockIndex} (childHeld : (graph.find? child).isSome)
    (held : (graph.find? parent).isSome)
    (apart : ¬ Relation.ReflTransGen graph.GroupedUnder parent child)
    (blocks : after.blocks = graph.blocks.map (Block.afterMove old parent child)) :
    after.Forest where
  held low high up := by
    rw [find?_of_blocks_map blocks fun _ => rfl, Option.isSome_map]
    rw [groupedUnder_afterMove childHeld blocks] at up
    by_cases isChild : low = child
    · rw [if_pos isChild] at up
      rw [up]
      exact held
    · rw [if_neg isChild] at up
      exact forest.held low high up
  loopless index loop := by
    have steps : Relation.TransGen
        (fun low high => graph.GroupedUnder low high ∨ low = child ∧ high = parent)
        index index := by
      refine Relation.TransGen.mono (fun low high up => ?_) _ _ loop
      rw [groupedUnder_afterMove childHeld blocks] at up
      by_cases isChild : low = child
      · exact .inr ⟨isChild, by rwa [if_pos isChild] at up⟩
      · exact .inl (by rwa [if_neg isChild] at up)
    rcases path_or_through steps with before | ⟨toChild, fromParent⟩
    · exact forest.loopless index before
    · exact apart (fromParent.trans toChild)

/-- After a move a block lists the moved block exactly if it is the new parent, and every other
block as before. -/
theorem WellGrouped.mem_children_afterMove {graph : Graph} (grouped : graph.WellGrouped)
    {moved block : Block} {parent child : BlockIndex} (found : graph.find? child = some moved)
    (member : block ∈ graph.blocks) (index : BlockIndex) :
    index ∈ (block.afterMove moved.parent parent child).children ↔
      if index = child then block.index = parent else index ∈ block.children := by
  by_cases isChild : index = child
  · -- What lists the moved block before is its old parent.
    have listed : child ∈ block.children ↔ some block.index = moved.parent := by
      rw [grouped.agrees block member, GroupedUnder, found]
      simp [eq_comm]
    by_cases isOld : some block.index = moved.parent
    · simp [Block.afterMove, isChild, isOld]
    · simp [Block.afterMove, isChild, isOld, listed]
  · simp only [Block.afterMove, isChild, List.mem_append, if_false]
    have notLast : index ∉ (if block.index = parent then [child] else []) := by
      split
      · simpa using isChild
      · simp
    simp only [notLast, or_false]
    split
    · simp [isChild]
    · rfl

/-- Grouping keeps both sides in agreement. -/
theorem WellGrouped.adopt {graph after : Graph} (grouped : graph.WellGrouped)
    {parent child : BlockIndex} (done : graph.adopt parent child = .ok after) :
    after.WellGrouped := by
  obtain ⟨moved, found, held, apart, blocks⟩ := grouped.forest.adopt_eq_ok.mp done
  have childHeld : (graph.find? child).isSome := by simp [found]
  refine ⟨grouped.forest.afterMove childHeld held apart blocks, ?_, ?_⟩
  · intro group member index
    rw [blocks] at member
    obtain ⟨block, blockMember, rfl⟩ := List.mem_map.mp member
    rw [grouped.mem_children_afterMove found blockMember,
      groupedUnder_afterMove childHeld blocks, grouped.agrees block blockMember]
    rfl
  · intro group member
    rw [blocks] at member
    obtain ⟨block, blockMember, rfl⟩ := List.mem_map.mp member
    have before := grouped.once block blockMember
    have listed : child ∈ block.children → some block.index = moved.parent := by
      intro isListed
      obtain ⟨other, otherFound, isParent⟩ := (grouped.agrees block blockMember child).mp isListed
      obtain rfl := Option.some.inj (found.symm.trans otherFound)
      exact isParent.symm
    refine List.Nodup.append ?_ ?_ ?_
    · split
      · exact before.filter _
      · exact before
    · split <;> simp
    · intro index early last
      split at last
      · rw [List.mem_singleton.mp last] at early
        split at early
        · simp at early
        · rename_i notOld
          exact notOld (listed early)
      · simp at last

/-- A change of blocks that leaves numbers, parents and children alone leaves the groups alone. -/
theorem WellGrouped.blocks_map {graph after : Graph} (grouped : graph.WellGrouped)
    {change : Block → Block} (blocks : after.blocks = graph.blocks.map change)
    (numbered : ∀ block, (change block).index = block.index)
    (parents : ∀ block, (change block).parent = block.parent)
    (children : ∀ block, (change block).children = block.children) : after.WellGrouped := by
  have same : after.GroupedUnder = graph.GroupedUnder := by
    funext low high
    unfold GroupedUnder
    rw [find?_of_blocks_map blocks numbered]
    cases graph.find? low with
    | none => simp
    | some block => simp [parents]
  refine ⟨⟨?_, ?_⟩, ?_, ?_⟩
  · intro low high up
    rw [find?_of_blocks_map blocks numbered, Option.isSome_map]
    exact grouped.forest.held low high (same ▸ up)
  · rw [same]
    exact grouped.forest.loopless
  · intro group member child
    rw [blocks] at member
    obtain ⟨block, blockMember, rfl⟩ := List.mem_map.mp member
    rw [children, numbered, same]
    exact grouped.agrees block blockMember child
  · intro group member
    rw [blocks] at member
    obtain ⟨block, blockMember, rfl⟩ := List.mem_map.mp member
    rw [children]
    exact grouped.once block blockMember

/-- Changing a block without regard to its group leaves the groups alone. -/
theorem WellGrouped.modify {graph : Graph} (grouped : graph.WellGrouped) (index : BlockIndex)
    {change : Block → Block} (numbered : ∀ block, (change block).index = block.index)
    (parents : ∀ block, (change block).parent = block.parent)
    (children : ∀ block, (change block).children = block.children) :
    (graph.modify index change numbered).WellGrouped := by
  refine grouped.blocks_map rfl (modifyBlock_index numbered index) ?_ ?_
  · intro block
    unfold modifyBlock
    split
    · exact parents block
    · rfl
  · intro block
    unfold modifyBlock
    split
    · exact children block
    · rfl

/-- Adding a block of a new number that is not grouped leaves the groups alone. -/
theorem WellGrouped.insert {graph : Graph} (grouped : graph.WellGrouped) {block : Block}
    (fresh : graph.find? block.index = none) (noParent : block.parent = none)
    (noChildren : block.children = []) : (graph.insert block).WellGrouped := by
  have same : (graph.insert block).GroupedUnder = graph.GroupedUnder := by
    funext low high
    unfold GroupedUnder
    rw [find?_insert]
    by_cases isNew : block.index = low
    · rw [if_pos isNew, ← isNew, fresh]
      simp [noParent]
    · rw [if_neg isNew]
  refine ⟨⟨?_, ?_⟩, ?_, ?_⟩
  · intro low high up
    rw [find?_insert]
    split
    · rfl
    · exact grouped.forest.held low high (same ▸ up)
  · rw [same]
    exact grouped.forest.loopless
  · intro group member child
    rw [same]
    rcases eq_or_mem_of_mem_insertBlock member with isNew | before
    · -- Nothing is grouped under a number that was not there.
      have nothing : ¬ graph.GroupedUnder child block.index := by
        intro up
        have held := grouped.forest.held child block.index up
        rw [fresh] at held
        contradiction
      simp [isNew, noChildren, nothing]
    · exact grouped.agrees group before child
  · intro group member
    rcases eq_or_mem_of_mem_insertBlock member with isNew | before
    · simp [isNew, noChildren]
    · exact grouped.once group before

/-- Every edit keeps both sides of the grouping in agreement. -/
theorem WellGrouped.edited {graph : Graph} (grouped : graph.WellGrouped) (edit : Edit) :
    (graph.edited edit).WellGrouped := by
  unfold Graph.edited
  split
  · rename_i after done
    cases edit with
    | connect source target =>
      obtain ⟨output, input, -, -, -, -, rfl⟩ := connect_eq_ok_iff.mp done
      exact grouped.modify target.block _ (fun _ => rfl) fun _ => rfl
    | disconnect target =>
      cases result : graph.disconnect target with
      | error error =>
        rw [outcome, result] at done
        contradiction
      | ok pair =>
        rw [outcome, result] at done
        obtain rfl := Except.ok.inj done
        obtain ⟨held, -, -, after⟩ := disconnect_eq_ok_iff.mp result
        change pair.1.WellGrouped
        rw [after]
        exact grouped.modify target.block _ (fun _ => rfl) fun _ => rfl
    | adopt parent child => exact grouped.adopt done
    | editProperties index change =>
      obtain ⟨-, rfl⟩ := update_eq_ok.mp done
      exact grouped.modify index _ (fun _ => rfl) fun _ => rfl
  · exact grouped

/-- Over any history both sides of the grouping agree. -/
theorem Grown.wellGrouped {graph : Graph} (grown : graph.Grown) : graph.WellGrouped := by
  induction grown with
  | empty =>
    refine ⟨⟨?_, ?_⟩, ?_, ?_⟩
    · rintro low high ⟨block, found, -⟩
      simp [find?, Graph.empty] at found
    · intro index loop
      obtain ⟨next, ⟨block, found, -⟩, -⟩ := Relation.TransGen.head'_iff.mp loop
      simp [find?, Graph.empty] at found
    · intro group member
      simp [Graph.empty] at member
    · intro group member
      simp [Graph.empty] at member
  | add before new fresh ih => exact ih.insert fresh new.ungrouped.1 new.ungrouped.2
  | edit before edit ih => exact ih.edited edit

/-- An edit that succeeds is part of a history. -/
theorem Grown.of_outcome {graph after : Graph} (grown : graph.Grown) (edit : Edit)
    (done : graph.outcome edit = .ok after) : after.Grown := by
  have next := grown.edit edit
  rwa [edited, done] at next

/-- A graph that was built has a history. -/
theorem Built.grown {graph : Graph} (built : graph.Built) : graph.Grown := by
  obtain ⟨workshop, reachable, rfl⟩ := built
  induction reachable with
  | refl => exact .empty
  | tail reachable step ih =>
    have sound := Workshop.sound_of_reachable reachable
    cases step with
    | make | spoil | annotate => exact ih
    | @add supply front back block graph =>
      have waits : block ∈ front ++ block :: back := List.mem_append_right _ List.mem_cons_self
      refine ih.add (sound.spareNew block waits) ?_
      cases found : graph.find? block.index with
      | none => rfl
      | some held =>
        obtain ⟨member, numbered⟩ := find?_eq_some.mp found
        exact absurd numbered.symm (sound.spareFresh block waits held member)
    | connect done => exact ih.of_outcome (.connect _ _) done
    | disconnect done => exact ih.of_outcome (.disconnect _) (by rw [outcome, done]; rfl)
    | adopt done => exact ih.of_outcome (.adopt _ _) done
    | editProperties done => exact ih.of_outcome (.editProperties _ _) done

/-- Over any history the groups form a forest that both sides agree on, and from every block the
links up end at a block that is not grouped. So the walk before grouping ends within its limit, and
grouping is refused exactly if a block is missing, or if the child is the parent or above it. What
is refused changes nothing. Otherwise the child names its new parent, the old parent lists it no
more and the new one lists it last; the other children keep their order, and nothing else
changes. Both steps of this move find the blocks they change, so nothing is refused half way. -/
theorem groups_over_history {graph : Graph} (grown : graph.Grown) :
    graph.WellGrouped ∧
      (∀ block ∈ graph.blocks, ∃ root ∈ graph.blocks, root.parent = none ∧
        Relation.ReflTransGen graph.GroupedUnder block.index root.index) ∧
      ∀ parent child,
        (∀ limit, graph.size < limit → graph.checkAncestors child parent limit parent =
          graph.checkAncestors child parent (graph.size + 1) parent) ∧
        ((∃ error, graph.adopt parent child = .error error) ↔
          graph.find? child = none ∨ graph.find? parent = none ∨ child = parent ∨
            Relation.TransGen graph.GroupedUnder parent child) ∧
        (∀ error, graph.adopt parent child = .error error →
          graph.edited (.adopt parent child) = graph) ∧
        (∀ after, graph.adopt parent child = .ok after →
          graph.edited (.adopt parent child) = after ∧
            ∃ moved, graph.find? child = some moved ∧
              after.blocks = graph.blocks.map (Block.afterMove moved.parent parent child)) ∧
        ∀ moved, graph.find? child = some moved → (graph.find? parent).isSome → parent ≠ child →
          ∃ detached after, graph.detach moved = .ok detached ∧
            detached.attach parent child = .ok after := by
  have grouped := grown.wellGrouped
  refine ⟨grouped, fun block member => grouped.forest.exists_root member, fun parent child =>
    ⟨?_, grouped.forest.exists_adopt_error_iff parent child, ?_, ?_,
      fun moved => grouped.forest.exists_move⟩⟩
  · intro limit enough
    have few := graph.card_above_le parent
    exact grouped.forest.checkAncestors_of_enough child parent (by omega) (by omega)
  · intro error failed
    rw [edited, outcome, failed]
  · intro after done
    obtain ⟨moved, found, -, -, blocks⟩ := grouped.forest.adopt_eq_ok.mp done
    exact ⟨by rw [edited, outcome, done], moved, found, blocks⟩

end Graph

namespace Sample

/-- The wave and the scaling are grouped under the surface, in this order. -/
def grouped : Graph :=
  ((graphWith none none none none).edited (.adopt 3 1)).edited (.adopt 3 2)

/-- The blocks of the sample can be grouped. -/
theorem grouped_grown : grouped.Grown :=
  (graphWith_built.grown.edit _).edit _

end Sample

/-- The surface cannot go under the wave, which is below it; the wave can move under the scaling,
and leaves the scaling as the only child of the surface. -/
theorem Graph.groups_over_history_sample :
    Sample.grouped.WellGrouped ∧
      Relation.TransGen Sample.grouped.GroupedUnder 1 3 ∧
      Sample.grouped.edited (.adopt 1 3) = Sample.grouped ∧
      ∃ after, Sample.grouped.adopt 2 1 = .ok after ∧
        after.blocks = Sample.grouped.blocks.map (Block.afterMove (some 3) 2 1) ∧
        after.blocks.map (·.children) = [[], [1], [2]] := by
  obtain ⟨grouped, -, moves⟩ := groups_over_history Sample.grouped_grown
  have below : Relation.TransGen Sample.grouped.GroupedUnder 1 3 := .single ⟨_, rfl, rfl⟩
  obtain ⟨error, refused⟩ := (moves 1 3).2.1.mpr (.inr (.inr (.inr below)))
  have done : ∃ after, Sample.grouped.adopt 2 1 = .ok after ∧
      after.blocks.map (·.children) = [[], [1], [2]] := ⟨_, rfl, rfl⟩
  obtain ⟨after, adopted, children⟩ := done
  obtain ⟨-, moved, found, blocks⟩ := (moves 2 1).2.2.2.1 after adopted
  have isParent : moved.parent = some 3 := by
    have held : Sample.grouped.find? 1 = some { Sample.wave with parent := some 3 } := rfl
    rw [Option.some.inj (found.symm.trans held)]
  exact ⟨grouped, below, (moves 1 3).2.2.1 error refused, after, adopted, isParent ▸ blocks,
    children⟩

end ShaderBlocks
