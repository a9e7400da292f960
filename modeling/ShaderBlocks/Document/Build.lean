import ShaderBlocks.Document.Basic
import ShaderBlocks.Emission
import ShaderBlocks.Graph.Grouping

/-!
# From a document to a graph

The blocks are made in the order of the document, then they are grouped, then they
are linked, and then the material is found: the one that the document names, or the
only one there is. The first problem ends the work. Numbers that were taken from the
supply stay taken.
-/

namespace ShaderBlocks

/-- Why a document describes no graph. -/
inductive BuildError
  /-- Two blocks have one identifier. -/
  | duplicateId (id : String)
  /-- A block cannot be made. -/
  | block (id : String) (error : GraphError)
  /-- No block has the identifier. -/
  | unknownId (id : String)
  /-- A block cannot be grouped. -/
  | grouping (error : GraphError)
  /-- A link cannot be made. -/
  | connection (label : String) (error : GraphError)
  /-- The block to compile is not a material. -/
  | notMaterial (id : String)
  /-- No block to compile is named, and there is not exactly one material. -/
  | materialCount (count : Nat)
  deriving DecidableEq, Repr

/-- The words for why a document describes no graph. -/
def BuildError.message : BuildError → String
  | duplicateId id => "duplicate block id: " ++ id
  | block id error => "failed to build block `" ++ id ++ "`: " ++ error.message
  | unknownId id => "block not found: " ++ id
  | grouping error => error.message
  | connection label error => "invalid connection " ++ label ++ ": " ++ error.message
  | notMaterial id => "block `" ++ id ++ "` is not a material"
  | materialCount count =>
    "expected exactly 1 material block (or an explicit `material`), got " ++ toString count

/-- A graph that was described by a document. -/
structure BuiltGraph where
  /-- The graph. -/
  graph : Graph
  /-- The number of each block, by identifier. -/
  ids : List (String × BlockIndex)
  /-- The material to compile. -/
  material : BlockIndex

/-- The number of the block with the given identifier. -/
def findBlock (ids : List (String × BlockIndex)) (id : String) :
    Except BuildError BlockIndex :=
  match ids.find? (·.1 == id) with
  | some (_, index) => .ok index
  | none => .error (.unknownId id)

/-- A result with its error put into words of a document. -/
def BuildError.wrap {α : Type} (reason : GraphError → BuildError) :
    Except GraphError α → Except BuildError α
  | .ok value => .ok value
  | .error error => .error (reason error)

/-- Work on a document. Numbers that were taken stay taken if it fails. -/
abbrev Building := EStateM BuildError Supply

/-- The making of a block as part of the work on a document. -/
def Building.ofMaking {α : Type} (reason : GraphError → BuildError) (making : Making α) :
    Building α := fun supply =>
  match making supply with
  | .ok value supply => .ok value supply
  | .error error supply => .error (reason error) supply

/-- Make the block that a definition describes. -/
def BlockDefinition.make (definition : BlockDefinition) : Making Block := do
  let block ←
    match definition.source with
    | .snippet code => Block.makeSnippet definition.name code
    | .material vertex fragment => Block.makeMaterial definition.name vertex fragment
  return definition.properties.foldl (fun block (key, value) => block.setProperty key value) block

namespace Document

/-- Make blocks, adding to a graph and to the numbers by identifier. -/
def makeBlocks : List BlockDefinition → Graph → List (String × BlockIndex) →
    Building (Graph × List (String × BlockIndex))
  | [], graph, ids => return (graph, ids)
  | definition :: rest, graph, ids => do
    if ids.any (·.1 == definition.id) then
      throw (.duplicateId definition.id)
    let block ← Building.ofMaking (.block definition.id) definition.make
    makeBlocks rest (graph.insert block) (ids ++ [(definition.id, block.index)])

/-- Group the blocks. -/
def group (ids : List (String × BlockIndex)) : List BlockDefinition → Graph →
    Except BuildError Graph
  | [], graph => .ok graph
  | definition :: rest, graph => do
    match definition.parent with
    | none => group ids rest graph
    | some parent =>
      let parent ← findBlock ids parent
      let child ← findBlock ids definition.id
      let graph ← BuildError.wrap .grouping (graph.adopt parent child)
      group ids rest graph

/-- What a link is called in messages: its identifier, or its place. -/
def connectionLabel (place : Nat) (connection : Connection) : String :=
  connection.id.getD ("#" ++ toString place)

/-- Make links, the first of them at the given place. -/
def link (ids : List (String × BlockIndex)) : (place : Nat) → List Connection → Graph →
    Except BuildError Graph
  | _, [], graph => .ok graph
  | place, connection :: rest, graph => do
    let source ← findBlock ids connection.source.blockId
    let target ← findBlock ids connection.target.blockId
    let graph ← BuildError.wrap (.connection (connectionLabel place connection))
      (graph.connect ⟨source, connection.source.outlet⟩ ⟨target, connection.target.outlet⟩)
    link ids (place + 1) rest graph

/-- Find the material to compile. -/
def findMaterial (document : Document) (graph : Graph) (ids : List (String × BlockIndex)) :
    Except BuildError BlockIndex := do
  match document.material with
  | some id =>
    let index ← findBlock ids id
    match graph.find? index with
    | some block => if block.isMaterial then return index else throw (.notMaterial id)
    | none => throw (.unknownId id)
  | none =>
    match document.blocks.filter (·.source.isMaterial) with
    | [definition] => findBlock ids definition.id
    | materials => throw (.materialCount materials.length)

/-- Build the graph that a document describes. -/
def build (document : Document) : Building BuiltGraph := do
  let (graph, ids) ← makeBlocks document.blocks .empty []
  let grouped ← MonadExcept.ofExcept (group ids document.blocks graph)
  let linked ← MonadExcept.ofExcept (link ids 0 document.connections grouped)
  let material ← MonadExcept.ofExcept (findMaterial document linked ids)
  return { graph := linked, ids, material }

/-- The same document with another material to compile, if one is given. -/
def withMaterial (document : Document) : Option String → Document
  | some id => { document with material := some id }
  | none => document

end Document

/-- Compile the material of a graph. -/
def BuiltGraph.compile (built : BuiltGraph) : Except GraphError CompiledProgram :=
  built.graph.compile built.material

end ShaderBlocks
