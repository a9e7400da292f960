import ShaderBlocks.Proofs.DocumentMeaning
import ShaderBlocks.Proofs.Linking
import ShaderBlocks.Proofs.Outcome

/-!
# The passes over a document

A graph is built in three passes over the document. The first makes the blocks one by one, the
second groups them and the third links them, and each pass ends at its first problem. For each pass
it is said here when it comes to its end, and what it has then done: blocks are made as they are
described and get the next numbers, and the two other passes group and link the blocks of these
numbers one after the other.
-/

namespace ShaderBlocks

/-- A block is made exactly if its outlets go together, and it has the next number. -/
theorem Block.run_make_eq_ok {kind : BlockKind} {before after : Supply} {block : Block} :
    (Block.make kind).run before = .ok block after ↔
      ∃ specs, kind.outlets = .ok specs ∧ after = ⟨before.next + 1⟩ ∧
        block = ⟨before.next, kind, ⟨some before.next, Outlet.seed before.next 0 specs⟩, none, [],
          [], rfl⟩ := by
  rw [Block.run_make]
  cases kind.outlets with
  | error error => simp
  | ok specs =>
    simp only [EStateM.Result.ok.injEq, Except.ok.injEq, exists_eq_left']
    exact ⟨fun same => ⟨same.2.symm, same.1.symm⟩, fun same => ⟨same.2.symm, same.1.symm⟩⟩

namespace BlockDefinition

/-- A block as it is made: not linked, not grouped, with its values. -/
def blank (definition : BlockDefinition) (index : BlockIndex) (kind : BlockKind)
    (specs : List OutletSpec) : Block :=
  ⟨index, kind, ⟨some index, Outlet.seed index 0 specs⟩, none, [], definition.keptValues, rfl⟩

/-- Keeping values with a block changes nothing else of it. -/
theorem foldl_setProperty (values : List (String × Json)) (block : Block) :
    values.foldl (fun block entry => block.setProperty entry.1 entry.2) block =
      { block with
        properties := values.foldl (fun kept entry => Json.insertField entry.1 entry.2 kept)
          block.properties } := by
  induction values generalizing block with
  | nil => rfl
  | cons entry values ih => rw [List.foldl_cons, ih, List.foldl_cons]; rfl

/-- The block of a definition can be made exactly if it is described, and has the next number. -/
theorem run_make_eq_ok {definition : BlockDefinition} {before after : Supply} {block : Block} :
    definition.make.run before = .ok block after ↔
      ∃ kind specs, definition.Describes kind specs ∧ after = ⟨before.next + 1⟩ ∧
        block = definition.blank before.next kind specs := by
  have kept : ∀ kind : BlockKind,
      (∃ bare middle, (Block.make kind).run before = .ok bare middle ∧
        (pure (definition.properties.foldl
          (fun block entry => block.setProperty entry.1 entry.2) bare) : Making Block).run middle =
            .ok block after) ↔
      ∃ specs, kind.outlets = .ok specs ∧ after = ⟨before.next + 1⟩ ∧
        block = definition.blank before.next kind specs := by
    intro kind
    simp only [run_pure_eq_ok, Block.run_make_eq_ok, foldl_setProperty]
    constructor
    · rintro ⟨bare, middle, ⟨specs, outlets, rfl, rfl⟩, rfl, rfl⟩
      exact ⟨specs, outlets, rfl, rfl⟩
    · rintro ⟨specs, outlets, rfl, rfl⟩
      exact ⟨_, _, ⟨specs, outlets, rfl, rfl⟩, rfl, rfl⟩
  rw [make]
  cases isSource : definition.source with
  | snippet code =>
    simp only [Block.makeSnippet, bind_assoc, run_bind_eq_ok, Making.run_ofSource_eq_ok]
    constructor
    · rintro ⟨fragment, middle, ⟨read, rfl⟩, made⟩
      obtain ⟨specs, outlets, result⟩ := (kept _).mp made
      exact ⟨_, specs, ⟨.snippet isSource read, outlets⟩, result⟩
    · rintro ⟨kind, specs, ⟨reads, outlets⟩, result⟩
      cases reads with
      | snippet isOther read =>
        cases isSource.symm.trans isOther
        exact ⟨_, before, ⟨read, rfl⟩, (kept _).mpr ⟨specs, outlets, result⟩⟩
      | material isOther => cases isSource.symm.trans isOther
  | material vertexCode fragmentCode =>
    simp only [Block.makeMaterial, bind_assoc, run_bind_eq_ok, Making.run_ofSource_eq_ok]
    constructor
    · rintro ⟨vertex, _, ⟨readVertex, rfl⟩, fragment, _, ⟨readFragment, rfl⟩, made⟩
      obtain ⟨specs, outlets, result⟩ := (kept _).mp made
      exact ⟨_, specs, ⟨.material isSource readVertex readFragment, outlets⟩, result⟩
    · rintro ⟨kind, specs, ⟨reads, outlets⟩, result⟩
      cases reads with
      | snippet isOther => cases isSource.symm.trans isOther
      | material isOther readVertex readFragment =>
        cases isSource.symm.trans isOther
        exact ⟨_, before, ⟨readVertex, rfl⟩, _, before, ⟨readFragment, rfl⟩,
          (kept _).mpr ⟨specs, outlets, result⟩⟩

/-- The block is made of the definition with the number beside it. -/
def Makes (entry : BlockDefinition × BlockIndex) (block : Block) : Prop :=
  ∃ kind specs, entry.1.Describes kind specs ∧ block = entry.1.blank entry.2 kind specs

end BlockDefinition

/-- A block of a greater number than all others goes to the end. -/
theorem Graph.blocks_insert_of_below {graph : Graph} {block : Block}
    (below : ∀ held ∈ graph.blocks, held.index < block.index) :
    (graph.insert block).blocks = graph.blocks ++ [block] := by
  obtain ⟨blocks, ordered⟩ := graph
  change insertBlock block blocks = blocks ++ [block]
  induction blocks with
  | nil => rfl
  | cons first rest ih =>
    obtain ⟨firstBelow, restBelow⟩ := List.forall_mem_cons.mp below
    rw [insertBlock, if_neg (Nat.lt_asymm firstBelow), if_neg (Nat.ne_of_gt firstBelow),
      ih (List.pairwise_cons.mp ordered).2 restBelow]
    rfl

namespace Document

/-- The making of a block counts as part of the work if it succeeds. -/
theorem run_ofMaking_eq_ok {α : Type} {reason : GraphError → BuildError} {making : Making α}
    {before after : Supply} {result : α} :
    (Building.ofMaking reason making).run before = .ok result after ↔
      making.run before = .ok result after := by
  simp only [EStateM.run, Building.ofMaking]
  cases making before <;> simp

/-- A further identifier is fresh among those listed and those still to come. -/
theorem fresh_cons (next : BlockIndex) {definition : BlockDefinition}
    {rest : List BlockDefinition} {ids : List (String × BlockIndex)} :
    ((definition :: rest).map (·.id)).Nodup ∧
        (∀ other ∈ definition :: rest, other.id ∉ ids.map (·.1)) ↔
      definition.id ∉ ids.map (·.1) ∧ (rest.map (·.id)).Nodup ∧
        ∀ other ∈ rest, other.id ∉ (ids ++ [(definition.id, next)]).map (·.1) := by
  rw [List.map_cons, List.nodup_cons, List.forall_mem_cons, List.map_append]
  constructor
  · rintro ⟨⟨alone, nodup⟩, unlisted, othersUnlisted⟩
    refine ⟨unlisted, nodup, fun other member listed => ?_⟩
    rcases List.mem_append.mp listed with early | same
    · exact othersUnlisted other member early
    · exact alone (List.mem_map.mpr ⟨other, member, List.mem_singleton.mp same⟩)
  · rintro ⟨unlisted, nodup, othersUnlisted⟩
    refine ⟨⟨fun again => ?_, nodup⟩, unlisted, fun other member listed => ?_⟩
    · obtain ⟨other, member, same⟩ := List.mem_map.mp again
      exact othersUnlisted other member (List.mem_append_right _ (List.mem_singleton.mpr same))
    · exact othersUnlisted other member (List.mem_append_left _ listed)

/-- Making blocks succeeds exactly if no identifier comes twice and all blocks are described. They
get the next numbers in order. -/
theorem run_makeBlocks_eq_ok {definitions : List BlockDefinition} {graph : Graph}
    {ids : List (String × BlockIndex)} {next : BlockIndex} {after : Supply}
    {result : Graph × List (String × BlockIndex)}
    (below : ∀ held ∈ graph.blocks, held.index < next) :
    (makeBlocks definitions graph ids).run ⟨next⟩ = .ok result after ↔
      ((definitions.map (·.id)).Nodup ∧ ∀ definition ∈ definitions,
        definition.id ∉ ids.map (·.1)) ∧
      (∃ made, List.Forall₂ BlockDefinition.Makes (definitions.zipIdx next) made ∧
        result.1.blocks = graph.blocks ++ made) ∧
      result.2 = ids ++ (definitions.zipIdx next).map (fun entry => (entry.1.id, entry.2)) ∧
      after = ⟨next + definitions.length⟩ := by
  induction definitions generalizing graph ids next with
  | nil =>
    rw [makeBlocks, run_pure_eq_ok]
    simp only [List.zipIdx_nil, List.forall₂_nil_left_iff, exists_eq_left, List.append_nil,
      List.map_nil, List.nodup_nil, List.not_mem_nil, false_implies, implies_true, and_self,
      true_and, List.length_nil, Nat.add_zero]
    constructor
    · rintro ⟨rfl, rfl⟩
      exact ⟨rfl, rfl, rfl⟩
    · rintro ⟨blocks, isIds, rfl⟩
      exact ⟨Prod.ext (Graph.eq_of_blocks_eq blocks).symm isIds.symm, rfl⟩
  | cons definition rest ih =>
    -- The rest of the blocks is made after the first one was added at the end.
    have step : ∀ kind specs,
        (makeBlocks rest (graph.insert (definition.blank next kind specs))
          (ids ++ [(definition.id, next)])).run ⟨next + 1⟩ = .ok result after ↔
        ((rest.map (·.id)).Nodup ∧ ∀ other ∈ rest,
          other.id ∉ (ids ++ [(definition.id, next)]).map (·.1)) ∧
        (∃ made, List.Forall₂ BlockDefinition.Makes (rest.zipIdx (next + 1)) made ∧
          result.1.blocks = graph.blocks ++ definition.blank next kind specs :: made) ∧
        result.2 = ids ++ ((definition :: rest).zipIdx next).map
          (fun entry => (entry.1.id, entry.2)) ∧
        after = ⟨next + (definition :: rest).length⟩ := by
      intro kind specs
      have atEnd : (graph.insert (definition.blank next kind specs)).blocks =
          graph.blocks ++ [definition.blank next kind specs] := Graph.blocks_insert_of_below below
      have stillBelow : ∀ held ∈ (graph.insert (definition.blank next kind specs)).blocks,
          held.index < next + 1 := by
        intro held member
        rw [atEnd] at member
        rcases List.mem_append.mp member with old | new
        · exact Nat.lt_succ_of_lt (below held old)
        · rw [List.mem_singleton.mp new]
          exact Nat.lt_succ_self next
      rw [ih stillBelow, atEnd]
      simp only [List.append_assoc, List.singleton_append, List.zipIdx_cons, List.map_cons,
        List.length_cons, Nat.add_assoc, Nat.add_comm 1]
    rw [makeBlocks, fresh_cons next]
    by_cases again : ids.any (·.1 == definition.id)
    · have listed : definition.id ∈ ids.map (·.1) := by
        obtain ⟨pair, member, same⟩ := List.any_eq_true.mp again
        exact List.mem_map.mpr ⟨pair, member, beq_iff_eq.mp same⟩
      rw [if_pos again]
      constructor
      · intro done
        obtain ⟨_, _, failed, -⟩ := run_bind_eq_ok.mp done
        contradiction
      · exact fun result => absurd listed result.1.1
    · have unlisted : definition.id ∉ ids.map (·.1) := by
        intro listed
        obtain ⟨pair, member, same⟩ := List.mem_map.mp listed
        exact again (List.any_eq_true.mpr ⟨pair, member, beq_iff_eq.mpr same⟩)
      rw [if_neg again]
      simp only [run_bind_eq_ok, run_ofMaking_eq_ok, BlockDefinition.run_make_eq_ok]
      constructor
      · rintro ⟨block, _, ⟨kind, specs, describes, rfl, rfl⟩, done⟩
        obtain ⟨restFresh, ⟨made, makes, blocks⟩, rest⟩ := (step kind specs).mp done
        exact ⟨⟨unlisted, restFresh⟩,
          ⟨_ :: made, .cons ⟨kind, specs, describes, rfl⟩ makes, blocks⟩, rest⟩
      · rintro ⟨⟨-, restFresh⟩, ⟨made, makes, blocks⟩, rest⟩
        rw [List.zipIdx_cons] at makes
        obtain ⟨block, others, ⟨kind, specs, describes, rfl⟩, restMakes, rfl⟩ :=
          List.forall₂_cons_left_iff.mp makes
        exact ⟨_, _, ⟨kind, specs, describes, rfl, rfl⟩,
          (step kind specs).mpr ⟨restFresh, ⟨others, restMakes, blocks⟩, rest⟩⟩

/-- A block is found by identifier if it has a number. -/
theorem findBlock_eq_ok {ids : List (String × BlockIndex)} {id : String} {index : BlockIndex} :
    findBlock ids id = .ok index ↔ numberOf ids id = some index := by
  rw [findBlock, numberOf]
  cases ids.find? (·.1 == id) <;> simp

/-- Other words for an error do not matter where there is none. -/
theorem wrap_eq_ok {α : Type} {reason : GraphError → BuildError} {outcome : Except GraphError α}
    {value : α} : BuildError.wrap reason outcome = .ok value ↔ outcome = .ok value := by
  cases outcome <;> simp [BuildError.wrap]

/-- What is to be grouped: the number of each block that names a parent, and that of the parent. -/
def groupings (document : Document) (first : BlockIndex)
    (entries : List (BlockDefinition × BlockIndex)) : List (BlockIndex × BlockIndex) :=
  entries.filterMap fun entry => (entry.1.parent.bind (document.number? first)).map (entry.2, ·)

/-- A block that names no parent of the document is not grouped. -/
theorem groupings_cons_of_none {document : Document} {first : BlockIndex}
    {entry : BlockDefinition × BlockIndex} (rest : List (BlockDefinition × BlockIndex))
    (none : entry.1.parent.bind (document.number? first) = none) :
    document.groupings first (entry :: rest) = document.groupings first rest :=
  List.filterMap_cons_none (by rw [none, Option.map_none])

/-- A block that names a parent is grouped under it. -/
theorem groupings_cons_of_some {document : Document} {first parent : BlockIndex}
    {entry : BlockDefinition × BlockIndex} (rest : List (BlockDefinition × BlockIndex))
    (some : entry.1.parent.bind (document.number? first) = some parent) :
    document.groupings first (entry :: rest) =
      (entry.2, parent) :: document.groupings first rest :=
  List.filterMap_cons_some (by rw [some, Option.map_some])

/-- Grouping the blocks of a document is grouping the blocks of their numbers, if all parents are
there. -/
theorem group_eq_ok {document : Document} {first : BlockIndex}
    {entries : List (BlockDefinition × BlockIndex)} {graph after : Graph}
    (numbered : ∀ entry ∈ entries, document.number? first entry.1.id = some entry.2) :
    group (document.ids first) (entries.map (·.1)) graph = .ok after ↔
      (∀ entry ∈ entries, ∀ parent, entry.1.parent = some parent →
        (document.number? first parent).isSome) ∧
      Graph.adoptAll (document.groupings first entries) graph = .ok after := by
  induction entries generalizing graph with
  | nil => simp [group, groupings, Graph.adoptAll]
  | cons entry rest ih =>
    obtain ⟨entryNumbered, restNumbered⟩ := List.forall_mem_cons.mp numbered
    rw [List.map_cons, group, List.forall_mem_cons]
    cases isParent : entry.1.parent with
    | none =>
      rw [groupings_cons_of_none rest (by rw [isParent, Option.bind_none])]
      simp only [reduceCtorEq, false_implies, implies_true, true_and]
      exact ih restNumbered
    | some parent =>
      simp only [bind_eq_ok, findBlock_eq_ok, wrap_eq_ok, Option.some.injEq, forall_eq']
      cases parentNumbered : document.number? first parent with
      | none =>
        simp only [Option.isSome_none, Bool.false_eq_true, false_and, iff_false]
        rintro ⟨index, isIndex, -⟩
        rw [number?, isIndex] at parentNumbered
        contradiction
      | some index =>
        rw [groupings_cons_of_some rest (by rw [isParent, Option.bind_some, parentNumbered])]
        simp only [Option.isSome_some, true_and, Graph.adoptAll, bind_eq_ok]
        constructor
        · rintro ⟨_, isIndex, _, isChild, middle, adopted, done⟩
          obtain rfl := Option.some.inj (isIndex.symm.trans parentNumbered)
          obtain rfl := Option.some.inj (isChild.symm.trans entryNumbered)
          obtain ⟨parents, restDone⟩ := (ih restNumbered).mp done
          exact ⟨parents, middle, adopted, restDone⟩
        · rintro ⟨parents, middle, adopted, restDone⟩
          exact ⟨index, parentNumbered, entry.2, entryNumbered, middle, adopted,
            (ih restNumbered).mpr ⟨parents, restDone⟩⟩

/-- What is to be linked: the source and the target of each link of the document. -/
def linkings (document : Document) (first : BlockIndex) (connections : List Connection) :
    List (Endpoint × Endpoint) :=
  connections.filterMap fun connection =>
    (document.endpoint? first connection.source).bind fun source =>
      (document.endpoint? first connection.target).map (source, ·)

/-- Linking the blocks of a document is linking the blocks of their numbers, if all blocks are
there. -/
theorem link_eq_ok {document : Document} {first : BlockIndex} {place : Nat}
    {connections : List Connection} {graph after : Graph} :
    link (document.ids first) place connections graph = .ok after ↔
      (∀ connection ∈ connections, (document.endpoint? first connection.source).isSome ∧
        (document.endpoint? first connection.target).isSome) ∧
      Graph.connectAll (document.linkings first connections) graph = .ok after := by
  induction connections generalizing graph place with
  | nil => simp [link, linkings, Graph.connectAll]
  | cons connection rest ih =>
    rw [link, List.forall_mem_cons, linkings, List.filterMap_cons]
    simp only [bind_eq_ok, findBlock_eq_ok, wrap_eq_ok, ih, endpoint?, number?]
    cases numberOf (document.ids first) connection.source.blockId with
    | none => simp
    | some source =>
      cases numberOf (document.ids first) connection.target.blockId with
      | none => simp
      | some target =>
        simp only [Option.some.injEq, exists_eq_left', Option.map_some, Option.isSome_some,
          true_and, Option.bind_some, Graph.connectAll, bind_eq_ok]
        constructor
        · rintro ⟨middle, connected, known, done⟩
          exact ⟨known, middle, connected, done⟩
        · rintro ⟨known, middle, connected, done⟩
          exact ⟨middle, connected, known, done⟩

end Document

end ShaderBlocks
