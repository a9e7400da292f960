import ShaderBlocks.Document.Basic
import ShaderBlocks.Json.Writer

/-!
# Saving documents

All fields are written, in a fixed order; what is absent is written as `null`.
-/

namespace ShaderBlocks

open ShaderBlocks.Json

/-- What a document says about itself, as a value. -/
def Metadata.toJson (metadata : Metadata) : Json :=
  .object [
    ("name", .string metadata.name),
    ("created", stringOrNull metadata.created),
    ("modified", stringOrNull metadata.modified)]

/-- The fields that hold the source of a block. -/
def BlockSource.fields : BlockSource → List (String × Json)
  | snippet code => [("type", .string "snippet"), ("code", .string code)]
  | material vertex fragment =>
    [("type", .string "material"), ("vertex", .string vertex), ("fragment", .string fragment)]

/-- A block as a value. -/
def BlockDefinition.toJson (block : BlockDefinition) : Json :=
  .object ([("id", .string block.id)] ++ block.source.fields ++ [
    ("name", stringOrNull block.name),
    ("parent", stringOrNull block.parent),
    ("properties", .object block.properties)])

/-- One end of a link as a value. -/
def ConnectionEnd.toJson (endpoint : ConnectionEnd) : Json :=
  .object [("blockId", .string endpoint.blockId), ("outlet", .string endpoint.outlet)]

/-- A link as a value. -/
def Connection.toJson (connection : Connection) : Json :=
  .object [
    ("id", stringOrNull connection.id),
    ("from", connection.source.toJson),
    ("to", connection.target.toJson)]

/-- A document as a value. -/
def Document.toJson (document : Document) : Json :=
  .object [
    ("version", .string document.version),
    ("metadata", document.metadata.toJson),
    ("blocks", .array (document.blocks.map BlockDefinition.toJson)),
    ("connections", .array (document.connections.map Connection.toJson)),
    ("material", stringOrNull document.material)]

/-- The text of a document. -/
def Document.write (document : Document) : String :=
  document.toJson.compact

end ShaderBlocks
