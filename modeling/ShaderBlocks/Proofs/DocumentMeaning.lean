import Mathlib.Data.List.Forall2
import Mathlib.Data.List.Nodup
import Mathlib.Logic.Relation
import ShaderBlocks.Document.Build

/-!
# What a document means

A document that is in order describes one graph. It is in order if every block has an identifier of
its own and can be made, if the blocks that others are grouped under are there and no block is
grouped below itself, if every link leads from an output to an input, and if there is a material to
compile. The graph then has one block for each block of the document, numbered in order. Every
outlet takes its value from the last link that leads to it.

Nothing here says how a graph is built. Blocks are referred to by identifier, and the numbers that
they get are read off their places.
-/

namespace ShaderBlocks

namespace BlockDefinition

/-- The sources of a block are read into its fragments. A material that is not named is called by
the name of all such materials; a snippet is then called after its entry function. -/
inductive Reads (definition : BlockDefinition) : BlockKind → Prop
  | snippet {code : String} {fragment : Fragment} (isSource : definition.source = .snippet code)
      (read : Fragment.read definition.name code = .ok fragment) :
      Reads definition (.snippet fragment)
  | material {vertexCode fragmentCode : String} {vertex fragment : Fragment}
      (isSource : definition.source = .material vertexCode fragmentCode)
      (readVertex : Fragment.read (definition.name.getD Block.defaultMaterialName) vertexCode =
        .ok vertex)
      (readFragment : Fragment.read (definition.name.getD Block.defaultMaterialName) fragmentCode =
        .ok fragment) :
      Reads definition (.material vertex fragment)

/-- Sources are read in one way. -/
theorem Reads.unique {definition : BlockDefinition} {kind other : BlockKind}
    (reads : definition.Reads kind) (readsOther : definition.Reads other) : kind = other := by
  cases reads with
  | snippet isSource read =>
    cases readsOther with
    | snippet isOther readOther =>
      cases isSource.symm.trans isOther
      cases read.symm.trans readOther
      rfl
    | material isOther => cases isSource.symm.trans isOther
  | material isSource readVertex readFragment =>
    cases readsOther with
    | snippet isOther => cases isSource.symm.trans isOther
    | material isOther readVertexOther readFragmentOther =>
      cases isSource.symm.trans isOther
      cases readVertex.symm.trans readVertexOther
      cases readFragment.symm.trans readFragmentOther
      rfl

/-- A block is a material if its source is that of one. -/
theorem Reads.isMaterial {definition : BlockDefinition} {kind : BlockKind}
    (reads : definition.Reads kind) : kind.isMaterial = definition.source.isMaterial := by
  cases reads with
  | snippet isSource => rw [isSource]; rfl
  | material isSource => rw [isSource]; rfl

/-- The sources can be read, and the outlets of both phases go together. -/
structure Describes (definition : BlockDefinition) (kind : BlockKind)
    (specs : List OutletSpec) : Prop where
  /-- The sources are read. -/
  reads : definition.Reads kind
  /-- The outlets of the fragments are merged. -/
  outlets : kind.outlets = .ok specs

/-- A block is described in one way. -/
theorem Describes.unique {definition : BlockDefinition} {kind other : BlockKind}
    {specs otherSpecs : List OutletSpec} (describes : definition.Describes kind specs)
    (describesOther : definition.Describes other otherSpecs) :
    kind = other ∧ specs = otherSpecs := by
  obtain rfl := describes.reads.unique describesOther.reads
  exact ⟨rfl, Except.ok.inj (describes.outlets.symm.trans describesOther.outlets)⟩

/-- The values that are kept with a block. Of several values for one key the last is kept. -/
def keptValues (definition : BlockDefinition) : List (String × Json) :=
  definition.properties.foldl (fun kept entry => Json.insertField entry.1 entry.2 kept) []

end BlockDefinition

/-- The number that is listed for an identifier. -/
def numberOf (ids : List (String × BlockIndex)) (id : String) : Option BlockIndex :=
  (ids.find? (·.1 == id)).map (·.2)

namespace Document

/-- The blocks of a document with the numbers that they get if `first` is the next number. -/
def entries (document : Document) (first : BlockIndex) : List (BlockDefinition × BlockIndex) :=
  document.blocks.zipIdx first

/-- The number of each block, by identifier. -/
def ids (document : Document) (first : BlockIndex) : List (String × BlockIndex) :=
  (document.entries first).map fun entry => (entry.1.id, entry.2)

/-- The number of the block of an identifier. -/
def number? (document : Document) (first : BlockIndex) (id : String) : Option BlockIndex :=
  numberOf (document.ids first) id

/-- The document groups a block under another one, both given by identifier. -/
def GroupsUnder (document : Document) (child parent : String) : Prop :=
  ∃ definition ∈ document.blocks, definition.id = child ∧ definition.parent = some parent

/-- The end of a link is at an outlet of the given direction. Of several outlets of one name the
first counts. -/
def HasOutlet (document : Document) (place : ConnectionEnd) (direction : Direction) : Prop :=
  ∃ definition ∈ document.blocks, definition.id = place.blockId ∧
    ∃ kind specs spec, definition.Describes kind specs ∧
      specs.find? (·.name == place.outlet) = some spec ∧ spec.direction = direction

/-- The block is the material to compile: the one that is named, or the only one. -/
def Selects (document : Document) (definition : BlockDefinition) : Prop :=
  match document.material with
  | some id => definition ∈ document.blocks ∧ definition.id = id ∧ definition.source.isMaterial
  | none => document.blocks.filter (·.source.isMaterial) = [definition]

/-- The document is in order. -/
structure Buildable (document : Document) : Prop where
  /-- No two blocks have one identifier. -/
  distinct : (document.blocks.map (·.id)).Nodup
  /-- The sources of every block can be read, and its outlets go together. -/
  described : ∀ definition ∈ document.blocks, ∃ kind specs, definition.Describes kind specs
  /-- A block that another one is grouped under is there. -/
  parents : ∀ child parent, document.GroupsUnder child parent →
    ∃ definition ∈ document.blocks, definition.id = parent
  /-- No block is grouped below itself. -/
  loopless : ∀ id, ¬ Relation.TransGen document.GroupsUnder id id
  /-- Every link leads from an output to an input. -/
  linked : ∀ connection ∈ document.connections,
    document.HasOutlet connection.source .output ∧ document.HasOutlet connection.target .input
  /-- There is a material to compile. -/
  selected : ∃ definition, document.Selects definition

/-- The endpoint at one end of a link. -/
def endpoint? (document : Document) (first : BlockIndex) (place : ConnectionEnd) :
    Option Endpoint :=
  (document.number? first place.blockId).map (⟨·, place.outlet⟩)

/-- Where the value of an outlet comes from: from the source of the last link that leads to it. -/
def feed? (document : Document) (first : BlockIndex) (place : ConnectionEnd) : Option Endpoint :=
  (document.connections.reverse.find? (·.target == place)).bind fun connection =>
    document.endpoint? first connection.source

/-- The outlets of a block with their identifiers and links. Only the first outlet of a name can be
linked. -/
def outletsOf (document : Document) (first : BlockIndex) (id : String) (index : BlockIndex)
    (specs : List OutletSpec) : List Outlet :=
  specs.mapIdx fun slot spec =>
    { spec with
      id := Outlet.idFor spec.hint index slot
      feed := if (specs.map (·.name)).idxOf spec.name = slot then
        document.feed? first ⟨id, spec.name⟩ else none }

/-- A block of a graph is what the document says of it. -/
structure DrawsBlock (document : Document) (first : BlockIndex) (definition : BlockDefinition)
    (index : BlockIndex) (block : Block) : Prop where
  /-- It has its number. -/
  numbered : block.index = index
  /-- Its fragments are read from its sources. -/
  reads : definition.Reads block.kind
  /-- Its outlets are those of its fragments, with the links of the document. -/
  outlets : ∃ specs, block.kind.outlets = .ok specs ∧
    block.outlets = document.outletsOf first definition.id index specs
  /-- It is grouped under the block that it names. -/
  parent : block.parent = definition.parent.bind (document.number? first)
  /-- The blocks that name it are grouped under it, in order. -/
  children : block.children =
    ((document.entries first).filter (·.1.parent == some definition.id)).map (·.2)
  /-- The values of the document are kept with it. -/
  properties : block.properties = definition.keptValues

/-- A graph is the one that the document describes. -/
structure Draws (document : Document) (first : BlockIndex) (built : BuiltGraph) : Prop where
  /-- Every identifier leads to the number of its block. -/
  ids : built.ids = document.ids first
  /-- The graph has the blocks of the document and no others. -/
  blocks : List.Forall₂ (fun entry block => document.DrawsBlock first entry.1 entry.2 block)
    (document.entries first) built.graph.blocks
  /-- The material is the one to compile. -/
  material : ∃ definition, document.Selects definition ∧
    (definition, built.material) ∈ document.entries first

/-- The material to compile is a block of the document. -/
theorem Selects.mem {document : Document} {definition : BlockDefinition}
    (selects : document.Selects definition) : definition ∈ document.blocks := by
  unfold Selects at selects
  split at selects
  · exact selects.1
  · have inFilter : definition ∈ document.blocks.filter (·.source.isMaterial) := by
      rw [selects]
      exact List.mem_singleton_self definition
    exact List.mem_of_mem_filter inFilter

/-- The blocks of a document are those that get a number. -/
theorem map_fst_entries (document : Document) (first : BlockIndex) :
    (document.entries first).map (·.1) = document.blocks :=
  List.zipIdx_map_fst first document.blocks

/-- The numbers are handed out in order. -/
theorem map_snd_entries (document : Document) (first : BlockIndex) :
    (document.entries first).map (·.2) = List.range' first document.blocks.length :=
  List.zipIdx_map_snd first document.blocks

/-- Numbers are distinct. -/
theorem nodup_snd_entries (document : Document) (first : BlockIndex) :
    ((document.entries first).map (·.2)).Nodup := by
  rw [map_snd_entries]
  exact List.nodup_range'

/-- Every block of a document gets a number. -/
theorem exists_entry {document : Document} {definition : BlockDefinition}
    (member : definition ∈ document.blocks) (first : BlockIndex) :
    ∃ index, (definition, index) ∈ document.entries first := by
  rw [← document.map_fst_entries first] at member
  obtain ⟨entry, inEntries, rfl⟩ := List.mem_map.mp member
  exact ⟨entry.2, inEntries⟩

/-- What gets a number is a block of the document. -/
theorem mem_of_mem_entries {document : Document} {first : BlockIndex}
    {entry : BlockDefinition × BlockIndex} (member : entry ∈ document.entries first) :
    entry.1 ∈ document.blocks := by
  rw [← document.map_fst_entries first]
  exact List.mem_map_of_mem member

/-- The number of an identifier is that of a block that has it. -/
theorem exists_of_number? {document : Document} {first : BlockIndex} {id : String}
    {index : BlockIndex} (numbered : document.number? first id = some index) :
    ∃ definition, (definition, index) ∈ document.entries first ∧ definition.id = id := by
  obtain ⟨pair, found, rfl⟩ := Option.map_eq_some_iff.mp numbered
  obtain ⟨entry, member, rfl⟩ := List.mem_map.mp (List.mem_of_find?_eq_some found)
  exact ⟨entry.1, member, by simpa using List.find?_some found⟩

/-- An identifier has a number exactly if a block has it. -/
theorem isSome_number? {document : Document} (first : BlockIndex) {id : String} :
    (document.number? first id).isSome ↔ ∃ definition ∈ document.blocks, definition.id = id := by
  constructor
  · intro some
    obtain ⟨index, numbered⟩ := Option.isSome_iff_exists.mp some
    obtain ⟨definition, member, named⟩ := exists_of_number? numbered
    exact ⟨definition, mem_of_mem_entries member, named⟩
  · rintro ⟨definition, member, rfl⟩
    obtain ⟨index, inEntries⟩ := exists_entry member first
    rw [number?, numberOf, Option.isSome_map, List.find?_isSome]
    exact ⟨_, List.mem_map_of_mem inEntries, by simp⟩

/-- Two blocks of one identifier are one block with one number. -/
theorem entry_eq_of_id_eq {document : Document}
    (distinct : (document.blocks.map (·.id)).Nodup) {first : BlockIndex}
    {entry other : BlockDefinition × BlockIndex} (member : entry ∈ document.entries first)
    (otherMember : other ∈ document.entries first) (same : entry.1.id = other.1.id) :
    entry = other := by
  have nodup : ((document.entries first).map fun entry => entry.1.id).Nodup := by
    rw [← document.map_fst_entries first, List.map_map] at distinct
    exact distinct
  exact List.inj_on_of_nodup_map nodup member otherMember same

/-- The number of a block is listed for its identifier. -/
theorem number?_of_mem {document : Document} (distinct : (document.blocks.map (·.id)).Nodup)
    {first : BlockIndex} {entry : BlockDefinition × BlockIndex}
    (member : entry ∈ document.entries first) :
    document.number? first entry.1.id = some entry.2 := by
  have known : (document.number? first entry.1.id).isSome :=
    (isSome_number? first).mpr ⟨entry.1, mem_of_mem_entries member, rfl⟩
  obtain ⟨index, numbered⟩ := Option.isSome_iff_exists.mp known
  obtain ⟨definition, otherMember, same⟩ := exists_of_number? numbered
  rw [numbered, entry_eq_of_id_eq distinct member otherMember same.symm]

/-- Identifiers of one number are the same. -/
theorem number?_inj {document : Document} {first : BlockIndex} {id other : String}
    {index : BlockIndex} (numbered : document.number? first id = some index)
    (otherNumbered : document.number? first other = some index) : id = other := by
  obtain ⟨definition, member, rfl⟩ := exists_of_number? numbered
  obtain ⟨otherDefinition, otherMember, rfl⟩ := exists_of_number? otherNumbered
  have same := List.inj_on_of_nodup_map (document.nodup_snd_entries first) member otherMember rfl
  exact congrArg (fun entry => entry.1.id) same

end Document

end ShaderBlocks
