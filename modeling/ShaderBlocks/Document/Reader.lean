import ShaderBlocks.Document.Basic
import ShaderBlocks.Json.Decoder

/-!
# Loading documents

Each record of a document is gathered field by field. Fields that are not known are
passed over. A block is different: the fields that hold its source depend on its
type, which may come last, so all its other fields are kept until the block ends.
The type may also be given by its number.
-/

namespace ShaderBlocks

open ShaderBlocks.Json

/-- The fields of metadata that have been read. -/
structure MetadataParts where
  name : Option String := none
  created : Option (Option String) := none
  modified : Option (Option String) := none

namespace Metadata

/-- The fields of metadata. -/
def knownFields : List (RecordField MetadataParts) := [
  ⟨"name", (·.name.isSome), fun parts room => do
    return { parts with name := some (← Decoder.text room) }⟩,
  ⟨"created", (·.created.isSome), fun parts room => do
    return { parts with created := some (← Decoder.optionalText room) }⟩,
  ⟨"modified", (·.modified.isSome), fun parts room => do
    return { parts with modified := some (← Decoder.optionalText room) }⟩]

/-- Metadata from its fields. -/
def ofParts? (parts : MetadataParts) : Option Metadata := do
  return {
    name := ← parts.name
    created := parts.created.getD none
    modified := parts.modified.getD none }

/-- Read metadata. -/
def decoder : Decoder Metadata :=
  Decoder.record knownFields {} ofParts?

end Metadata

/-- The fields of an end of a link that have been read. -/
structure ConnectionEndParts where
  blockId : Option String := none
  outlet : Option String := none

namespace ConnectionEnd

/-- The fields of an end of a link. -/
def knownFields : List (RecordField ConnectionEndParts) := [
  ⟨"blockId", (·.blockId.isSome), fun parts room => do
    return { parts with blockId := some (← Decoder.text room) }⟩,
  ⟨"outlet", (·.outlet.isSome), fun parts room => do
    return { parts with outlet := some (← Decoder.text room) }⟩]

/-- An end of a link from its fields. -/
def ofParts? (parts : ConnectionEndParts) : Option ConnectionEnd := do
  return { blockId := ← parts.blockId, outlet := ← parts.outlet }

/-- Read an end of a link. -/
def decoder : Decoder ConnectionEnd :=
  Decoder.record knownFields {} ofParts?

end ConnectionEnd

/-- The fields of a link that have been read. -/
structure ConnectionParts where
  id : Option (Option String) := none
  source : Option ConnectionEnd := none
  target : Option ConnectionEnd := none

namespace Connection

/-- The fields of a link. -/
def knownFields : List (RecordField ConnectionParts) := [
  ⟨"id", (·.id.isSome), fun parts room => do
    return { parts with id := some (← Decoder.optionalText room) }⟩,
  ⟨"from", (·.source.isSome), fun parts room => do
    return { parts with source := some (← ConnectionEnd.decoder room) }⟩,
  ⟨"to", (·.target.isSome), fun parts room => do
    return { parts with target := some (← ConnectionEnd.decoder room) }⟩]

/-- A link from its fields. -/
def ofParts? (parts : ConnectionParts) : Option Connection := do
  return { id := parts.id.getD none, source := ← parts.source, target := ← parts.target }

/-- Read a link. -/
def decoder : Decoder Connection :=
  Decoder.record knownFields {} ofParts?

end Connection

/-- The fields of a block that have been read. -/
structure BlockParts where
  id : Option String := none
  name : Option (Option String) := none
  parent : Option (Option String) := none
  properties : Option (List (String × Json)) := none
  /-- All other fields, in order. -/
  others : List (String × Json) := []

/-- The value of a field that is there exactly once. -/
def onlyField? (key : String) (fields : List (String × Json)) : Option Json :=
  match fields.filter (·.1 == key) with
  | [(_, value)] => some value
  | _ => none

/-- The text of a field that is there exactly once. -/
def onlyText? (key : String) (fields : List (String × Json)) : Option String :=
  match onlyField? key fields with
  | some (.string text) => some text
  | _ => none

namespace BlockSource

/-- The type of a block. -/
inductive Tag
  | snippet
  | material
  deriving DecidableEq, Repr

/-- The type that a value stands for. -/
def Tag.ofJson? : Json → Option Tag
  | .string word =>
    if word = "snippet" then some .snippet
    else if word = "material" then some .material
    else none
  | .number (.integer place) =>
    if place = 0 then some .snippet
    else if place = 1 then some .material
    else none
  | _ => none

/-- The source of a block from the fields of the block. The fields of the other type
may hold anything. -/
def ofFields? (fields : List (String × Json)) : Option BlockSource := do
  match ← Tag.ofJson? (← onlyField? "type" fields) with
  | .snippet => return .snippet (← onlyText? "code" fields)
  | .material => return .material (← onlyText? "vertex" fields) (← onlyText? "fragment" fields)

end BlockSource

namespace BlockDefinition

/-- The fields of a block apart from those that hold its source. -/
def knownFields : List (RecordField BlockParts) := [
  ⟨"id", (·.id.isSome), fun parts room => do
    return { parts with id := some (← Decoder.text room) }⟩,
  ⟨"name", (·.name.isSome), fun parts room => do
    return { parts with name := some (← Decoder.optionalText room) }⟩,
  ⟨"parent", (·.parent.isSome), fun parts room => do
    return { parts with parent := some (← Decoder.optionalText room) }⟩,
  ⟨"properties", (·.properties.isSome), fun parts room => do
    return { parts with properties := some (← Decoder.map room) }⟩]

/-- Keep a field until the block ends. -/
def keepField (parts : BlockParts) (key : String) : Decoder BlockParts := fun room => do
  return { parts with others := parts.others ++ [(key, ← value room)] }

/-- A block from its fields. -/
def ofParts? (parts : BlockParts) : Option BlockDefinition := do
  return {
    id := ← parts.id
    source := ← BlockSource.ofFields? parts.others
    name := parts.name.getD none
    parent := parts.parent.getD none
    properties := parts.properties.getD [] }

/-- Read a block. It cannot be written as an array. -/
def decoder : Decoder BlockDefinition := fun room => do
  match ← peek? with
  | none => throw .ended
  | some c =>
    if c = '{' then Decoder.object knownFields keepField {} ofParts? room
    else Decoder.mismatch

end BlockDefinition

/-- The fields of a document that have been read. -/
structure DocumentParts where
  version : Option String := none
  metadata : Option Metadata := none
  blocks : Option (List BlockDefinition) := none
  connections : Option (List Connection) := none
  material : Option (Option String) := none

namespace Document

/-- The fields of a document. -/
def knownFields : List (RecordField DocumentParts) := [
  ⟨"version", (·.version.isSome), fun parts room => do
    return { parts with version := some (← Decoder.text room) }⟩,
  ⟨"metadata", (·.metadata.isSome), fun parts room => do
    return { parts with metadata := some (← Metadata.decoder room) }⟩,
  ⟨"blocks", (·.blocks.isSome), fun parts room => do
    return { parts with blocks := some (← Decoder.list BlockDefinition.decoder room) }⟩,
  ⟨"connections", (·.connections.isSome), fun parts room => do
    return { parts with connections := some (← Decoder.list Connection.decoder room) }⟩,
  ⟨"material", (·.material.isSome), fun parts room => do
    return { parts with material := some (← Decoder.optionalText room) }⟩]

/-- A document from its fields. -/
def ofParts? (parts : DocumentParts) : Option Document := do
  return {
    version := ← parts.version
    metadata := ← parts.metadata
    blocks := ← parts.blocks
    connections := parts.connections.getD []
    material := parts.material.getD none }

/-- Read a document. -/
def decoder : Decoder Document :=
  Decoder.record knownFields {} ofParts?

/-- Load a document from its text. -/
def read (text : String) : Except Fault Document :=
  readWhole (decoder documentRoom) text

end Document

end ShaderBlocks
