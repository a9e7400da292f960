import ShaderBlocks.Json.Basic

/-!
# Documents

A document describes a graph: its blocks, which have identifiers chosen by the
author, the links between them, and the material to compile. It is saved as JSON.
-/

namespace ShaderBlocks

/-- What a document says about itself. -/
structure Metadata where
  /-- The name, which compiled files are called after. -/
  name : String
  /-- When the document was made. -/
  created : Option String
  /-- When the document was last changed. -/
  modified : Option String
  deriving DecidableEq, Repr

/-- The source of a block in a document. -/
inductive BlockSource
  /-- One source for every phase. -/
  | snippet (code : String)
  /-- A source for each phase. -/
  | material (vertex fragment : String)
  deriving DecidableEq, Repr

/-- The source is that of a material. -/
def BlockSource.isMaterial : BlockSource → Bool
  | snippet _ => false
  | material _ _ => true

/-- A block in a document. -/
structure BlockDefinition where
  /-- The identifier of the block in the document. -/
  id : String
  /-- The source. -/
  source : BlockSource
  /-- The base of the names of its calls. -/
  name : Option String
  /-- The identifier of the block it is grouped under. -/
  parent : Option String
  /-- Values kept with the block, in order of their keys. -/
  properties : List (String × Json)

/-- One end of a link in a document. -/
structure ConnectionEnd where
  /-- The identifier of the block. -/
  blockId : String
  /-- The name of the outlet. -/
  outlet : String
  deriving DecidableEq, Repr

/-- A link in a document. -/
structure Connection where
  /-- The identifier of the link. -/
  id : Option String
  /-- The output that the value comes from. -/
  source : ConnectionEnd
  /-- The input that the value goes to. -/
  target : ConnectionEnd
  deriving DecidableEq, Repr

/-- The description of a graph. -/
structure Document where
  /-- The version of the format. -/
  version : String
  /-- What the document says about itself. -/
  metadata : Metadata
  /-- The blocks, in the order they are made. -/
  blocks : List BlockDefinition
  /-- The links, in the order they are made. -/
  connections : List Connection
  /-- The identifier of the material to compile. -/
  material : Option String

end ShaderBlocks
