import ShaderBlocks.Json.Basic
import ShaderBlocks.Node

/-!
# Blocks

A block is a node of a graph together with the source it stands for. A snippet has
one fragment, which goes into every phase that asks for it. A material has one
fragment for each phase and one set of outlets for both: the outlets of the vertex
fragment, then those of the other fragment that are not among them. The node of a
block belongs to it from the start and for good.

Blocks take their numbers from a supply. A source that cannot be read takes none;
a material whose fragments disagree has already taken one. Numbers go up without end
here; they are words of 32 bits as long as a supply hands out fewer than 2 ^ 32 - 1 of
them.
-/

namespace ShaderBlocks

/-- The source that a block stands for. -/
inductive BlockKind
  /-- One fragment for every phase. -/
  | snippet (fragment : Fragment)
  /-- A fragment for each phase. -/
  | material (vertex fragment : Fragment)
  deriving DecidableEq, Repr

namespace BlockKind

/-- The fragment for a phase. -/
def fragmentFor : BlockKind → Phase → Fragment
  | snippet fragment, _ => fragment
  | material vertex _, .vertex => vertex
  | material _ fragment, .fragment => fragment

/-- The block is a material. -/
def isMaterial : BlockKind → Bool
  | snippet _ => false
  | material _ _ => true

/-- The names of the fragments. -/
def names : BlockKind → List String
  | snippet fragment => [fragment.name]
  | material vertex fragment => [vertex.name, fragment.name]

/-- Add outlets to some outlets, leaving out those whose name is there already. The
two descriptions must then agree. -/
def mergeOutlets (merged : List OutletSpec) :
    List OutletSpec → Except GraphError (List OutletSpec)
  | [] => .ok merged
  | spec :: rest =>
    match merged.find? (·.name == spec.name) with
    | some held =>
      if held.agrees spec then mergeOutlets merged rest else .error (.outletConflict spec.name)
    | none => mergeOutlets (merged ++ [spec]) rest

/-- The outlets of a block of this kind. -/
def outlets : BlockKind → Except GraphError (List OutletSpec)
  | snippet fragment => .ok fragment.outlets
  | material vertex fragment => mergeOutlets vertex.outlets fragment.outlets

end BlockKind

/-- A block of a graph. -/
structure Block where
  /-- The number of the block. -/
  index : BlockIndex
  /-- The source it stands for. -/
  kind : BlockKind
  /-- Its node. -/
  node : Node
  /-- The block it is grouped under. -/
  parent : Option BlockIndex
  /-- The blocks grouped under it. -/
  children : List BlockIndex
  /-- Values kept with the block, in order of their keys. -/
  properties : List (String × Json)
  /-- The node belongs to the block. -/
  owned : node.owner = some index

namespace Block

/-- The outlets of a block. -/
def outlets (block : Block) : List Outlet :=
  block.node.outlets

/-- The block with other outlets. -/
def withOutlets (block : Block) (outlets : List Outlet) : Block :=
  { block with node := { block.node with outlets } }

/-- A block keeps its number when it is given other outlets. -/
theorem index_withOutlets (block : Block) (outlets : List Outlet) :
    (block.withOutlets outlets).index = block.index := rfl

/-- The outlets of a block that was given others. -/
@[simp] theorem outlets_withOutlets (block : Block) (outlets : List Outlet) :
    (block.withOutlets outlets).outlets = outlets := rfl

/-- A block with its own outlets. -/
@[simp] theorem withOutlets_outlets (block : Block) : block.withOutlets block.outlets = block :=
  rfl

/-- The block is a material. -/
def isMaterial (block : Block) : Bool :=
  block.kind.isMaterial

/-- The fragment of a block for a phase. -/
def fragmentFor (block : Block) (phase : Phase) : Fragment :=
  block.kind.fragmentFor phase

/-- Change the values kept with a block. -/
def editProperties (block : Block) (change : List (String × Json) → List (String × Json)) :
    Block :=
  { block with properties := change block.properties }

/-- A block keeps its number when the values kept with it change. -/
theorem index_editProperties (block : Block)
    (change : List (String × Json) → List (String × Json)) :
    (block.editProperties change).index = block.index := rfl

/-- Keep a value with a block. -/
def setProperty (block : Block) (key : String) (value : Json) : Block :=
  block.editProperties (Json.insertField key value)

/-- Only a material without outputs can be compiled. -/
def checkSink (block : Block) : Except GraphError Unit :=
  if !block.isMaterial then .error (.notMaterial block.index)
  else if block.node.outputCount = 0 then .ok ()
  else .error (.hasOutputs block.index block.node.outputCount)

end Block

/-- Hands out the numbers of blocks. -/
structure Supply where
  /-- The number that is handed out next. -/
  next : BlockIndex
  deriving DecidableEq, Repr

/-- The first block has the number one. -/
def Supply.start : Supply := ⟨1⟩

/-- A step that may take numbers from a supply. What it took stays taken if it
fails. -/
abbrev Making := EStateM GraphError Supply

/-- The result of reading a source. -/
def Making.ofSource {α : Type} : Except SourceError α → Making α
  | .ok value => pure value
  | .error error => throw (.source error)

namespace Block

/-- Make a block with the next number. Its node is given to it before it gets outlets, so
that their identifiers hold the number. -/
def make (kind : BlockKind) : Making Block := do
  let supply ← get
  set (Supply.mk (supply.next + 1))
  match bound : Node.empty.bind supply.next with
  | .error error => throw error
  | .ok node =>
    let specs ← MonadExcept.ofExcept kind.outlets
    return {
      index := supply.next
      kind
      node := node.setOutlets specs
      parent := none
      children := []
      properties := []
      owned := (node.owner_setOutlets specs).trans (Node.owner_of_bind bound) }

/-- Make a snippet, named after its entry function if no name is given. -/
def makeSnippet (name : Option String) (code : String) : Making Block := do
  let fragment ← Making.ofSource (Fragment.read name code)
  make (.snippet fragment)

/-- The name of a material that is not given one. -/
def defaultMaterialName : String := "material"

/-- Make a material. The vertex source is read first. -/
def makeMaterial (name : Option String) (vertex fragment : String) : Making Block := do
  let name := name.getD defaultMaterialName
  let vertex ← Making.ofSource (Fragment.read (some name) vertex)
  let fragment ← Making.ofSource (Fragment.read (some name) fragment)
  make (.material vertex fragment)

end Block

end ShaderBlocks
