import ShaderBlocks.Decimal.Shortest
import ShaderBlocks.Json.Basic

/-!
# The text of a JSON value

Text is written in one of two ways: compact, without any blanks, or indented, with
one element or field to a line. Quotes, backslashes and control characters are
escaped, and nothing else is. A whole number is written with all its digits. A
floating-point number is written with the fewest digits that read back, by place if
its leading digit stands between the places `-5` and `15`, with an exponent
otherwise.
-/

namespace ShaderBlocks.Json

/-- The last four bits of a number as a digit. -/
def hexDigit (n : Nat) : Char :=
  if n < 10 then Char.ofNat ('0'.toNat + n) else Char.ofNat ('a'.toNat + (n - 10))

/-- A character as it stands inside quotes. -/
def escape (c : Char) : List Char :=
  if c = '"' then ['\\', '"']
  else if c = '\\' then ['\\', '\\']
  else if c = '\x08' then ['\\', 'b']
  else if c = '\x0c' then ['\\', 'f']
  else if c = '\n' then ['\\', 'n']
  else if c = '\r' then ['\\', 'r']
  else if c = '\t' then ['\\', 't']
  else if c.toNat < 0x20 then
    ['\\', 'u', '0', '0', hexDigit (c.toNat / 16), hexDigit (c.toNat % 16)]
  else [c]

/-- A text in quotes. -/
def quote (text : String) : String :=
  "\"" ++ String.ofList (text.toList.flatMap escape) ++ "\""

/-- How the digits of a floating-point number are laid out. -/
structure RealLayout where
  /-- The lowest place of a leading digit that is written by place. -/
  lowest : Int
  /-- The highest place of a leading digit that is written by place. -/
  highest : Int

/-- The layout of floating-point numbers: `0.00001` and `1000000000000000.0` are
written by place, `1e-6` and `1e+16` are not. -/
def realLayout : RealLayout := ⟨-5, 15⟩

/-- Zeros. -/
def zeros (count : Nat) : String :=
  String.ofList (List.replicate count '0')

/-- An exponent with its sign. -/
def exponentText (exponent : Int) : String :=
  (if exponent < 0 then "e-" else "e+") ++ toString exponent.natAbs

/-- The text of a decimal number. A number written by place shows at least one
digit on each side of the point. -/
def RealLayout.text (layout : RealLayout) (decimal : DecimalNumber) : String :=
  let digits := (toString decimal.digits).toList
  let place := decimal.exponent + digits.length - 1
  if layout.lowest ≤ place ∧ place ≤ layout.highest then
    if 0 ≤ decimal.exponent then
      String.ofList digits ++ zeros decimal.exponent.toNat ++ ".0"
    else if 0 ≤ place then
      let whole := (place + 1).toNat
      String.ofList (digits.take whole) ++ "." ++ String.ofList (digits.drop whole)
    else
      "0." ++ zeros (-place - 1).toNat ++ String.ofList digits
  else
    let mantissa :=
      match digits with
      | first :: second :: others => String.ofList (first :: '.' :: second :: others)
      | _ => String.ofList digits
    mantissa ++ exponentText place

/-- The text of a finite floating-point number. -/
def realText (value : Float) : String :=
  let bits := value.toBits
  let sign := if bits >>> 63 = 0 then "" else "-"
  let magnitude := BinaryNumber.ofBits bits
  if magnitude.significand = 0 then sign ++ "0.0"
  else sign ++ realLayout.text magnitude.shortest

/-- The text of a number. -/
def Number.text : Number → String
  | .integer value => toString value
  | .real value => realText value

mutual

/-- The compact text of a value. -/
def compact : Json → String
  | .null => "null"
  | .bool true => "true"
  | .bool false => "false"
  | .number value => value.text
  | .string text => quote text
  | .array elements => "[" ++ ",".intercalate (compactElements elements) ++ "]"
  | .object fields => "\x7b" ++ ",".intercalate (compactFields fields) ++ "\x7d"

/-- The compact texts of some values. -/
def compactElements : List Json → List String
  | [] => []
  | value :: rest => compact value :: compactElements rest

/-- The compact texts of some fields. -/
def compactFields : List (String × Json) → List String
  | [] => []
  | (key, value) :: rest => (quote key ++ ":" ++ compact value) :: compactFields rest

end

/-- The start of a line `depth` levels in. -/
def lineStart (depth : Nat) : String :=
  "\n" ++ String.join (List.replicate depth "  ")

/-- Some texts on lines of their own, between two brackets. -/
def lines (opening closing : String) (depth : Nat) : List String → String
  | [] => opening ++ closing
  | texts =>
    opening ++ lineStart (depth + 1) ++ ("," ++ lineStart (depth + 1)).intercalate texts ++
      lineStart depth ++ closing

mutual

/-- The indented text of a value that stands `depth` levels in. -/
def indented (depth : Nat) : Json → String
  | .array elements => lines "[" "]" depth (indentedElements (depth + 1) elements)
  | .object fields => lines "\x7b" "\x7d" depth (indentedFields (depth + 1) fields)
  | .null => compact .null
  | .bool value => compact (.bool value)
  | .number value => compact (.number value)
  | .string text => compact (.string text)

/-- The indented texts of some values. -/
def indentedElements (depth : Nat) : List Json → List String
  | [] => []
  | value :: rest => indented depth value :: indentedElements depth rest

/-- The indented texts of some fields. -/
def indentedFields (depth : Nat) : List (String × Json) → List String
  | [] => []
  | (key, value) :: rest =>
    (quote key ++ ": " ++ indented depth value) :: indentedFields depth rest

end

end ShaderBlocks.Json
