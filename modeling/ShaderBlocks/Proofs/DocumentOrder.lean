import ShaderBlocks.Proofs.Construction
import ShaderBlocks.Proofs.DocumentBuild
import ShaderBlocks.Proofs.Lockstep

/-!
# The order of a document

The order in which a document lists its blocks decides their numbers and nothing else. Whether the
document is in order speaks of its blocks and links by identifier only, so it does not change when
they are listed in another order; the last link to an outlet stays the last one if it is the only
one, or if the links are not touched. The graphs that are built therefore differ in the numbers of
their blocks alone, and so do their programs.
-/

namespace ShaderBlocks

namespace BlockDefinition

/-- A block is still new when values are kept with it. -/
theorem isNew_foldl_setProperty (values : List (String × Json)) {block : Block}
    (new : block.IsNew) :
    (values.foldl (fun block entry => block.setProperty entry.1 entry.2) block).IsNew := by
  induction values generalizing block with
  | nil => exact new
  | cons entry rest ih => exact ih (new.editProperties _)

/-- The block of a definition is new. -/
theorem isNew_of_make {definition : BlockDefinition} {before after : Supply} {block : Block}
    (made : definition.make.run before = .ok block after) : block.IsNew := by
  obtain ⟨kind, specs, ⟨reads, outlets⟩, -, rfl⟩ := run_make_eq_ok.mp made
  have isRead : kind.IsRead := by
    cases reads with
    | snippet _ read => exact ⟨_, _, read⟩
    | material _ readVertex readFragment => exact ⟨⟨_, _, readVertex⟩, ⟨_, _, readFragment⟩⟩
  have bare : (Block.make kind).run before = .ok _ _ :=
    Block.run_make_eq_ok.mpr ⟨specs, outlets, rfl, rfl⟩
  have kept := isNew_foldl_setProperty definition.properties (.make isRead bare)
  rwa [foldl_setProperty] at kept

end BlockDefinition

namespace Document

/-- Making blocks only adds new ones to a graph. -/
theorem obtainable_of_makeBlocks {definitions : List BlockDefinition} {graph : Graph}
    {ids : List (String × BlockIndex)} {before after : Supply}
    {result : Graph × List (String × BlockIndex)} (obtainable : graph.Obtainable)
    (done : (makeBlocks definitions graph ids).run before = .ok result after) :
    result.1.Obtainable := by
  induction definitions generalizing graph ids before with
  | nil =>
    obtain ⟨rfl, -⟩ := run_pure_eq_ok.mp done
    exact obtainable
  | cons definition rest ih =>
    rw [makeBlocks] at done
    split at done
    · obtain ⟨_, _, failed, -⟩ := run_bind_eq_ok.mp done
      contradiction
    · obtain ⟨block, _, made, restDone⟩ := run_bind_eq_ok.mp done
      exact ih (obtainable.insertNew
        (BlockDefinition.isNew_of_make (run_ofMaking_eq_ok.mp made))) restDone

/-- Grouping blocks only groups blocks of the graph. -/
theorem obtainable_of_group {ids : List (String × BlockIndex)} {definitions : List BlockDefinition}
    {graph after : Graph} (obtainable : graph.Obtainable)
    (done : group ids definitions graph = .ok after) : after.Obtainable := by
  induction definitions generalizing graph with
  | nil =>
    cases done
    exact obtainable
  | cons definition rest ih =>
    rw [group] at done
    cases isParent : definition.parent with
    | none =>
      rw [isParent] at done
      exact ih obtainable done
    | some parent =>
      simp only [isParent, bind_eq_ok, wrap_eq_ok] at done
      obtain ⟨_, -, _, -, middle, adopted, restDone⟩ := done
      exact ih (obtainable.adopt adopted) restDone

/-- Making links only links blocks of the graph. -/
theorem obtainable_of_link {ids : List (String × BlockIndex)} {place : Nat}
    {connections : List Connection} {graph after : Graph} (obtainable : graph.Obtainable)
    (done : link ids place connections graph = .ok after) : after.Obtainable := by
  induction connections generalizing graph place with
  | nil =>
    cases done
    exact obtainable
  | cons connection rest ih =>
    simp only [link, bind_eq_ok, wrap_eq_ok] at done
    obtain ⟨_, -, _, -, middle, connected, restDone⟩ := done
    exact ih (obtainable.connect connected) restDone

/-- The graph of a document comes about as any other graph does. -/
theorem obtainable_of_build {document : Document} {before after : Supply} {built : BuiltGraph}
    (done : document.build.run before = .ok built after) : built.graph.Obtainable := by
  simp only [build, run_bind_eq_ok, run_ofExcept_eq_ok, run_pure_eq_ok] at done
  obtain ⟨_, _, made, _, _, ⟨grouped, -⟩, _, _, ⟨linked, -⟩, _, _, -, rfl, -⟩ := done
  exact obtainable_of_link (obtainable_of_group (obtainable_of_makeBlocks .empty made) grouped)
    linked

/-- Two documents list the same blocks and links, and name the same material. The links are listed
in the same order, or else no two of them lead to one outlet. -/
structure Rearranged (document other : Document) : Prop where
  /-- The blocks are the same in some order. -/
  blocks : document.blocks.Perm other.blocks
  /-- The links are the same, in some order if no two have one target. -/
  connections : document.connections = other.connections ∨
    document.connections.Perm other.connections ∧ (document.connections.map (·.target)).Nodup
  /-- The material is the same. -/
  material : document.material = other.material

/-- If no two links have one target, a link to it is the one that is found. -/
theorem find?_target_eq_some {connections : List Connection}
    (apart : (connections.map (·.target)).Nodup) {place : ConnectionEnd} {connection : Connection} :
    connections.find? (·.target == place) = some connection ↔
      connection ∈ connections ∧ connection.target = place := by
  constructor
  · intro found
    exact ⟨List.mem_of_find?_eq_some found, by simpa using List.find?_some found⟩
  · rintro ⟨member, rfl⟩
    have some : (connections.find? (·.target == connection.target)).isSome :=
      List.find?_isSome.mpr ⟨connection, member, beq_self_eq_true _⟩
    obtain ⟨other, found⟩ := Option.isSome_iff_exists.mp some
    have same : other.target = connection.target := by simpa using List.find?_some found
    rw [found, List.inj_on_of_nodup_map apart (List.mem_of_find?_eq_some found) member same]

namespace Rearranged

variable {document other : Document} (rearranged : document.Rearranged other)

include rearranged

/-- Documents are rearranged in both directions. -/
theorem symm : other.Rearranged document where
  blocks := rearranged.blocks.symm
  connections := rearranged.connections.imp Eq.symm fun both =>
    ⟨both.1.symm, (both.1.map _).nodup_iff.mp both.2⟩
  material := rearranged.material.symm

/-- The links are the same. -/
theorem mem_connections {connection : Connection} :
    connection ∈ document.connections ↔ connection ∈ other.connections := by
  rcases rearranged.connections with same | ⟨perm, -⟩
  · rw [same]
  · exact perm.mem_iff

/-- The last link to an outlet is the same. -/
theorem lastLink (place : ConnectionEnd) :
    document.connections.reverse.find? (·.target == place) =
      other.connections.reverse.find? (·.target == place) := by
  rcases rearranged.connections with same | ⟨perm, apart⟩
  · rw [same]
  · have both : document.connections.reverse.Perm other.connections.reverse :=
      (List.reverse_perm _).trans (perm.trans (List.reverse_perm _).symm)
    have reversed : (document.connections.reverse.map (·.target)).Nodup := by
      rwa [List.map_reverse, List.nodup_reverse]
    refine Option.ext fun connection => ?_
    rw [find?_target_eq_some reversed,
      find?_target_eq_some ((both.map _).nodup_iff.mp reversed), both.mem_iff]

/-- Blocks are grouped alike. -/
theorem groupsUnder : document.GroupsUnder = other.GroupsUnder := by
  funext child parent
  simp only [GroupsUnder, rearranged.blocks.mem_iff]

/-- The same outlets are there. -/
theorem hasOutlet {place : ConnectionEnd} {direction : Direction} :
    document.HasOutlet place direction ↔ other.HasOutlet place direction := by
  simp only [HasOutlet, rearranged.blocks.mem_iff]

/-- The same material is to be compiled. -/
theorem selects {definition : BlockDefinition} :
    document.Selects definition ↔ other.Selects definition := by
  have materials := rearranged.blocks.filter (·.source.isMaterial)
  rw [Selects, Selects, ← rearranged.material]
  cases document.material with
  | some id => simp only [rearranged.blocks.mem_iff]
  | none =>
    constructor
    · intro only
      exact List.perm_singleton.mp (only ▸ materials.symm)
    · intro only
      exact List.perm_singleton.mp (only ▸ materials)

/-- A document is in order however it is arranged. -/
theorem buildable (inOrder : document.Buildable) : other.Buildable where
  distinct := (rearranged.blocks.map _).nodup_iff.mp inOrder.distinct
  described definition member := inOrder.described definition (rearranged.blocks.mem_iff.mpr member)
  parents child parent groups := by
    obtain ⟨definition, member, named⟩ :=
      inOrder.parents child parent (rearranged.groupsUnder ▸ groups)
    exact ⟨definition, rearranged.blocks.mem_iff.mp member, named⟩
  loopless := rearranged.groupsUnder ▸ inOrder.loopless
  linked connection member := by
    rw [← rearranged.hasOutlet, ← rearranged.hasOutlet]
    exact inOrder.linked connection (rearranged.mem_connections.mpr member)
  selected := by
    obtain ⟨definition, selects⟩ := inOrder.selected
    exact ⟨definition, rearranged.selects.mp selects⟩

end Rearranged

/-- The material to compile has one identifier. -/
theorem Selects.id_eq {document : Document} {definition second : BlockDefinition}
    (selects : document.Selects definition) (selectsSecond : document.Selects second) :
    definition.id = second.id := by
  unfold Selects at selects selectsSecond
  split at selects
  · rename_i isMaterial
    rw [isMaterial] at selectsSecond
    exact selects.2.1.trans selectsSecond.2.1.symm
  · rename_i noMaterial
    rw [noMaterial] at selectsSecond
    obtain ⟨rfl, -⟩ := List.cons.inj (selects.symm.trans selectsSecond)
    rfl

/-- The block of an entry is found in the graph. -/
theorem Draws.find?_of_mem {document : Document} {first : BlockIndex} {built : BuiltGraph}
    (draws : document.Draws first built) {entry : BlockDefinition × BlockIndex}
    (member : entry ∈ document.entries first) :
    ∃ block, built.graph.find? entry.2 = some block ∧
      document.DrawsBlock first entry.1 entry.2 block := by
  obtain ⟨block, inGraph, drawn⟩ := exists_of_forall₂_left draws.blocks member
  exact ⟨block, Graph.find?_eq_some.mpr ⟨inGraph, drawn.numbered⟩, drawn⟩

section Drawn

variable {document other : Document} {first second : BlockIndex} {built twin : BuiltGraph}
  (rearranged : document.Rearranged other) (draws : document.Draws first built)
  (otherDraws : other.Draws second twin)

include rearranged draws otherDraws

/-- An identifier has numbers that correspond, or no number. -/
theorem rel_number? (id : String) :
    Option.Rel (built.SameBlock twin) (document.number? first id) (other.number? second id) := by
  have known : (document.number? first id).isSome ↔ (other.number? second id).isSome := by
    simp only [isSome_number?, rearranged.blocks.mem_iff]
  cases numbered : document.number? first id with
  | none =>
    rw [numbered, Option.isSome_none, Bool.false_eq_true, false_iff, Option.not_isSome_iff_eq_none]
      at known
    rw [known]
    exact .none
  | some index =>
    obtain ⟨otherIndex, otherNumbered⟩ :=
      Option.isSome_iff_exists.mp (known.mp (by simp [numbered]))
    rw [otherNumbered]
    exact .some ⟨id, draws.ids ▸ numbered, otherDraws.ids ▸ otherNumbered⟩

/-- An outlet is fed from the same place. -/
theorem rel_feed? (place : ConnectionEnd) :
    Option.Rel (built.SameEndpoint twin) (document.feed? first place)
      (other.feed? second place) := by
  rw [feed?, feed?, rearranged.lastLink]
  cases other.connections.reverse.find? (·.target == place) with
  | none => exact .none
  | some connection =>
    have numbers := rel_number? rearranged draws otherDraws connection.source.blockId
    simp only [Option.bind_some, endpoint?]
    generalize document.number? first connection.source.blockId = number at numbers ⊢
    generalize other.number? second connection.source.blockId = otherNumber at numbers ⊢
    cases numbers with
    | none => exact .none
    | some same => exact .some ⟨same, rfl⟩

/-- The outlets of a block correspond. -/
theorem forall₂_outletsOf (id : String) (index otherIndex : BlockIndex)
    (specs : List OutletSpec) :
    List.Forall₂ (built.OutletTwin twin) (document.outletsOf first id index specs)
      (other.outletsOf second id otherIndex specs) := by
  refine forall₂_mapIdx (fun slot spec => ⟨rfl, ?_⟩) specs
  dsimp only
  split
  · exact rel_feed? rearranged draws otherDraws ⟨id, spec.name⟩
  · exact .none

/-- Blocks of one identifier correspond. -/
theorem exists_blockTwin (distinct : (document.blocks.map (·.id)).Nodup)
    {index otherIndex : BlockIndex} (same : built.SameBlock twin index otherIndex) :
    ∃ block otherBlock, block.index = index ∧ otherBlock.index = otherIndex ∧
      built.BlockTwin twin block otherBlock := by
  obtain ⟨id, numbered, otherNumbered⟩ := id same
  rw [draws.ids] at numbered
  rw [otherDraws.ids] at otherNumbered
  obtain ⟨definition, member, rfl⟩ := exists_of_number? numbered
  obtain ⟨otherDefinition, otherMember, sameId⟩ := exists_of_number? otherNumbered
  -- Both documents hold both definitions, and no two blocks of one document share an identifier.
  obtain rfl : otherDefinition = definition := List.inj_on_of_nodup_map distinct
    (rearranged.blocks.mem_iff.mpr (mem_of_mem_entries otherMember)) (mem_of_mem_entries member)
    sameId
  obtain ⟨block, held, drawn⟩ := draws.find?_of_mem member
  obtain ⟨otherBlock, otherHeld, otherDrawn⟩ := otherDraws.find?_of_mem otherMember
  obtain rfl := drawn.numbered
  obtain rfl := otherDrawn.numbered
  have kinds := drawn.reads.unique otherDrawn.reads
  obtain ⟨specs, described, outlets⟩ := drawn.outlets
  obtain ⟨otherSpecs, otherDescribed, otherOutlets⟩ := otherDrawn.outlets
  obtain rfl : specs = otherSpecs :=
    Except.ok.inj (described.symm.trans (kinds ▸ otherDescribed))
  refine ⟨block, otherBlock, rfl, rfl, held, otherHeld, same, kinds, ?_⟩
  rw [outlets, otherOutlets]
  exact forall₂_outletsOf rearranged draws otherDraws _ _ _ specs

end Drawn

/-- A graph of a document has as many blocks as the document. -/
theorem Draws.size_eq {document : Document} {first : BlockIndex} {built : BuiltGraph}
    (draws : document.Draws first built) : built.graph.size = document.blocks.length := by
  rw [Graph.size, ← draws.blocks.length_eq, entries, List.length_zipIdx]

/-- In a graph of a document no number has two identifiers. -/
theorem Draws.namesApart {document : Document} {first : BlockIndex} {built : BuiltGraph}
    (draws : document.Draws first built) : built.NamesApart := by
  intro id other index numbered otherNumbered
  rw [draws.ids] at numbered otherNumbered
  exact number?_inj numbered otherNumbered

/-- The graphs of two arrangements of a document differ in the numbers of their blocks only. -/
theorem Rearranged.renumbered {document other : Document} {first second : BlockIndex}
    {built twin : BuiltGraph} {after otherAfter : Supply} (rearranged : document.Rearranged other)
    (done : document.build.run ⟨first⟩ = .ok built after)
    (otherDone : other.build.run ⟨second⟩ = .ok twin otherAfter) : built.Renumbered twin := by
  obtain ⟨inOrder, draws, -⟩ := draws_of_build done
  obtain ⟨otherInOrder, otherDraws, -⟩ := draws_of_build otherDone
  obtain ⟨definition, selects, member⟩ := draws.material
  obtain ⟨otherDefinition, otherSelects, otherMember⟩ := otherDraws.material
  have sameId := (rearranged.selects.mp selects).id_eq otherSelects
  have numbered := number?_of_mem inOrder.distinct member
  have otherNumbered := number?_of_mem otherInOrder.distinct otherMember
  exact {
    lawful := (obtainable_of_build done).lawful
    twinLawful := (obtainable_of_build otherDone).lawful
    apart := draws.namesApart
    twinApart := otherDraws.namesApart
    blocks := fun _ _ same => exists_blockTwin rearranged draws otherDraws inOrder.distinct same
    size := by rw [draws.size_eq, otherDraws.size_eq, rearranged.blocks.length_eq]
    material := ⟨definition.id, draws.ids ▸ numbered, otherDraws.ids ▸ sameId ▸ otherNumbered⟩ }

/-- A document is built from a number on, and its material is compiled. -/
def CompilesTo (document : Document) (first : BlockIndex) (built : BuiltGraph)
    (compiled : CompiledProgram) : Prop :=
  (∃ after, document.build.run ⟨first⟩ = .ok built after) ∧ built.compile = .ok compiled

/-- What compiles in one arrangement compiles in every other one. -/
theorem Rearranged.exists_compilesTo {document other : Document} {first : BlockIndex}
    {built : BuiltGraph} {compiled : CompiledProgram} (rearranged : document.Rearranged other)
    (compiles : document.CompilesTo first built compiled) (second : BlockIndex) :
    ∃ twin otherCompiled, other.CompilesTo second twin otherCompiled := by
  obtain ⟨⟨after, done⟩, isCompiled⟩ := compiles
  obtain ⟨twin, otherAfter, otherDone⟩ :=
    exists_build (rearranged.buildable (draws_of_build done).1) second
  rcases (rearranged.renumbered done otherDone).compile with
    ⟨_, _, failed, -⟩ | ⟨_, otherCompiled, -, isOther, -⟩
  · cases failed.symm.trans isCompiled
  · exact ⟨twin, otherCompiled, ⟨otherAfter, otherDone⟩, isOther⟩

/-- The order of a document and the number that comes next do not matter. Two arrangements of a
document both build and compile or both do not. The programs correspond: call by call in the same
order they have the same phase, block, priority, fragment, replaced uniforms and outlets to pass,
and they have the same uniforms. -/
theorem order_immaterial {document other : Document} (rearranged : document.Rearranged other)
    (first second : BlockIndex) :
    ((∃ built compiled, document.CompilesTo first built compiled) ↔
      ∃ twin otherCompiled, other.CompilesTo second twin otherCompiled) ∧
    ∀ built compiled twin otherCompiled, document.CompilesTo first built compiled →
      other.CompilesTo second twin otherCompiled →
        built.Correspond twin compiled otherCompiled := by
  refine ⟨⟨?_, ?_⟩, ?_⟩
  · rintro ⟨built, compiled, compiles⟩
    exact rearranged.exists_compilesTo compiles second
  · rintro ⟨twin, compiled, compiles⟩
    exact rearranged.symm.exists_compilesTo compiles first
  · rintro built compiled twin otherCompiled ⟨⟨_, done⟩, isCompiled⟩ ⟨⟨_, otherDone⟩, isOther⟩
    rcases (rearranged.renumbered done otherDone).compile with
      ⟨_, _, failed, -⟩ | ⟨_, _, found, otherFound, correspond⟩
    · cases failed.symm.trans isCompiled
    · cases found.symm.trans isCompiled
      cases otherFound.symm.trans isOther
      exact correspond

end Document

namespace Sample

/-- The sample without the link that is given up. -/
def listed : Document :=
  { document with connections := document.connections.drop 1 }

/-- The sample from the last block and link to the first. -/
def backwards : Document :=
  { listed with blocks := listed.blocks.reverse, connections := listed.connections.reverse }

/-- The sample compiles. -/
theorem listed_compiles : ∃ built compiled, listed.CompilesTo 0 built compiled := by
  have succeeds : ∃ built after, listed.build.run ⟨0⟩ = .ok built after ∧
      built.compile.toOption.isSome = true := ⟨_, _, rfl, by decide +kernel⟩
  obtain ⟨built, after, done, isSome⟩ := succeeds
  cases compiled : built.compile with
  | error error =>
    rw [compiled] at isSome
    cases isSome
  | ok program => exact ⟨built, program, ⟨after, done⟩, compiled⟩

end Sample

/-- The sample compiles backwards as well, from another number on, to a corresponding program. -/
theorem Document.order_immaterial_sample :
    Sample.listed.Rearranged Sample.backwards ∧
      ∃ built compiled twin otherCompiled, Sample.listed.CompilesTo 0 built compiled ∧
        Sample.backwards.CompilesTo 7 twin otherCompiled ∧
          built.Correspond twin compiled otherCompiled := by
  have rearranged : Sample.listed.Rearranged Sample.backwards :=
    ⟨(List.reverse_perm _).symm, .inr ⟨(List.reverse_perm _).symm, by decide⟩, rfl⟩
  obtain ⟨bothCompile, correspond⟩ := order_immaterial rearranged 0 7
  obtain ⟨built, compiled, compiles⟩ := Sample.listed_compiles
  obtain ⟨twin, otherCompiled, otherCompiles⟩ := bothCompile.mp ⟨built, compiled, compiles⟩
  exact ⟨rearranged, built, compiled, twin, otherCompiled, compiles, otherCompiles,
    correspond _ _ _ _ compiles otherCompiles⟩

end ShaderBlocks
