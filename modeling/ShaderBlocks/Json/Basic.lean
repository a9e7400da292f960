/-!
# JSON values

A number is a whole number if it is written without fraction and exponent and fits
into 64 bits, signed or not; every other number is a 64-bit floating-point number.
An object is the list of its fields. Maps keep their fields in ascending order of
their keys, by code point, with one field for each key.
-/

namespace ShaderBlocks

/-- A JSON number. -/
inductive Json.Number
  /-- A whole number. -/
  | integer (value : Int)
  /-- A finite floating-point number. -/
  | real (value : Float)

/-- A JSON value. -/
inductive Json
  | null
  | bool (value : Bool)
  | number (value : Json.Number)
  | string (value : String)
  | array (elements : List Json)
  | object (fields : List (String × Json))

namespace Json

/-- A natural number as a value. -/
def nat (n : Nat) : Json := .number (.integer n)

/-- A text as a value, or nothing. -/
def stringOrNull : Option String → Json
  | some text => .string text
  | none => .null

/-- A list of texts as a value. -/
def strings (texts : List String) : Json :=
  .array (texts.map .string)

/-- Put a field into a map. A field with the same key is replaced. -/
def insertField (key : String) (value : Json) :
    List (String × Json) → List (String × Json)
  | [] => [(key, value)]
  | (first, held) :: rest =>
    if key < first then (key, value) :: (first, held) :: rest
    else if key = first then (key, value) :: rest
    else (first, held) :: insertField key value rest

/-- The first value with the given key. -/
def field? (key : String) (fields : List (String × Json)) : Option Json :=
  (fields.find? fun (name, _) => name == key).map (·.2)

end Json

end ShaderBlocks
