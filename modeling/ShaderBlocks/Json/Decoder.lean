import ShaderBlocks.Json.Reader

/-!
# Reading JSON text: values of a known shape

A record is an object with known fields, each at most once, and may also be written
as an array of its fields in order. A field that is there twice is noticed at its
second key, a field that is not there at the end of the record.
-/

namespace ShaderBlocks.Json

/-- Reads a value of a known shape, with arrays and objects nested at most as deep
as the given number says. -/
abbrev Decoder (α : Type) := (room : Nat) → Reader α

/-- A known field of a record that is gathered in a `σ`. -/
structure RecordField (σ : Type) where
  /-- The key. -/
  key : String
  /-- The field has been read. -/
  isFilled : σ → Bool
  /-- Read the value of the field. -/
  fill : σ → Decoder σ

namespace Decoder

/-- Fail because the value that comes next has another shape. A value that is not an
array or an object is read first, so that a fault in it comes before its shape. -/
def mismatch {α : Type} : Reader α := do
  let _ ← scalarOr (throw .mismatched) (throw .mismatched)
  throw .mismatched

/-- Go into an array or object. -/
def descend {α : Type} (inner : Decoder α) : Decoder α
  | 0 => throw .malformed
  | room + 1 => do advance; inner room

/-- Read a text. -/
def text : Decoder String := fun _ => do
  match ← peek? with
  | none => throw .ended
  | some c => if c = '"' then do advance; keepString else mismatch

/-- Read a text or the absence of one. -/
def optionalText : Decoder (Option String) := fun room => do
  if (← peek?) = some 'n' then do
    expect "null".toList
    return none
  else
    return some (← text room)

/-- Read an array. -/
def list {α : Type} (element : Decoder α) : Decoder (List α) := fun room => do
  match ← peek? with
  | none => throw .ended
  | some c =>
    if c = '[' then descend (fun room => elements (element room)) room else mismatch

/-- Read an object as a map. -/
def map : Decoder (List (String × Json)) := fun room => do
  match ← peek? with
  | none => throw .ended
  | some c =>
    if c = '{' then descend (fun room => mapFields (value room)) room else mismatch

/-- Read one field of an object from behind its key. A known field must not have
been read before; `other` reads any other field. -/
def readField {σ : Type} (known : List (RecordField σ)) (other : σ → String → Decoder σ)
    (room : Nat) (state : σ) (key : String) : Reader σ := do
  match known.find? (·.key == key) with
  | some field =>
    if field.isFilled state then
      throw .mismatched
    else
      takeMark ':'
      field.fill state room
  | none =>
    takeMark ':'
    other state key room

/-- Read the elements of an array as the values of the known fields, in order. -/
def readInOrder {σ : Type} (room : Nat) (first : Bool) (state : σ) :
    List (RecordField σ) → Reader σ
  | [] => return state
  | field :: others => do
    if ← nextElement first then
      let state ← field.fill state room
      readInOrder room false state others
    else
      return state

/-- Pass over the value of a field that is not known. -/
def passField {σ : Type} : σ → String → Decoder σ := fun state _ _ => do
  passValue
  return state

/-- The record, or the fault that it is not complete. -/
def complete {α : Type} : Option α → Reader α
  | some record => return record
  | none => throw .mismatched

/-- Read an object with known fields, gathered from `start`. -/
def object {σ α : Type} (known : List (RecordField σ)) (other : σ → String → Decoder σ) (start : σ)
    (finish : σ → Option α) : Decoder α :=
  descend fun room => do
    let state ← fields (readField known other room) start
    let record ← complete (finish state)
    takeMark '}'
    return record

/-- Read a record: an object with known fields, or an array of them. -/
def record {σ α : Type} (known : List (RecordField σ)) (start : σ) (finish : σ → Option α) :
    Decoder α := fun room => do
  match ← peek? with
  | none => throw .ended
  | some c =>
    if c = '{' then
      object known passField start finish room
    else if c = '[' then
      descend
        (fun room => do
          let state ← readInOrder room true start known
          let record ← complete (finish state)
          takeMark ']'
          return record)
        room
    else
      mismatch

end Decoder

/-- The nesting that a document may have. -/
def documentRoom : Nat := 127

end ShaderBlocks.Json
