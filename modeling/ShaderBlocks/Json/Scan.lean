import ShaderBlocks.Json.Basic

/-!
# Reading JSON text: words, strings and numbers

A reader takes characters off the front of a text. It stops at the first problem
and says of which kind it is: the text ended too early, it is no JSON, or it is
JSON of another shape than the one asked for.

A string that is kept must spell whole characters: an escape for half of a
surrogate pair must be followed by the escape for the other half. A string that is
passed over need not. In the same way a number that is passed over may be out of
range.
-/

namespace ShaderBlocks.Json

/-- What can be wrong with a JSON text. -/
inductive Fault
  /-- The text ends before the value does. -/
  | ended
  /-- The text is not JSON, or exceeds a limit. -/
  | malformed
  /-- The value has another shape than the one asked for. -/
  | mismatched
  deriving DecidableEq, Repr

/-- Takes a value off the front of a text. -/
abbrev Reader := StateT (List Char) (Except Fault)

/-- The blanks of JSON. -/
def isJsonBlank (c : Char) : Bool :=
  c == ' ' || c == '\t' || c == '\n' || c == '\r'

/-- Pass over blanks, and say which character comes next. -/
def peek? : Reader (Option Char) := fun text =>
  let rest := text.dropWhile isJsonBlank
  .ok (rest.head?, rest)

/-- Take one character off. -/
def advance : Reader Unit :=
  modify List.tail

/-- Take the given characters off. -/
def expect : List Char → Reader Unit
  | [] => pure ()
  | wanted :: others => do
    match ← get with
    | [] => throw .ended
    | c :: rest =>
      if c = wanted then
        set rest
        expect others
      else
        throw .malformed

/-! ## Strings -/

/-- The value of a hexadecimal digit. -/
def hexValue? (c : Char) : Option Nat :=
  if c.isDigit then some (c.toNat - '0'.toNat)
  else if 'a' ≤ c ∧ c ≤ 'f' then some (c.toNat - 'a'.toNat + 10)
  else if 'A' ≤ c ∧ c ≤ 'F' then some (c.toNat - 'A'.toNat + 10)
  else none

/-- The value of four hexadecimal digits. -/
def codeUnit? (a b c d : Char) : Option Nat := do
  let a ← hexValue? a
  let b ← hexValue? b
  let c ← hexValue? c
  let d ← hexValue? d
  return ((a * 16 + b) * 16 + c) * 16 + d

/-- The first half of a surrogate pair. -/
def isLeading (unit : Nat) : Bool := 0xD800 ≤ unit && unit ≤ 0xDBFF

/-- The second half of a surrogate pair. -/
def isTrailing (unit : Nat) : Bool := 0xDC00 ≤ unit && unit ≤ 0xDFFF

/-- The character that a surrogate pair stands for. -/
def pairedChar (leading trailing : Nat) : Char :=
  Char.ofNat ((leading - 0xD800) * 0x400 + (trailing - 0xDC00) + 0x10000)

/-- The character that a backslash and a letter stand for. -/
def shortEscape? (c : Char) : Option Char :=
  if c = '"' ∨ c = '\\' ∨ c = '/' then some c
  else if c = 'b' then some '\x08'
  else if c = 'f' then some '\x0c'
  else if c = 'n' then some '\n'
  else if c = 'r' then some '\r'
  else if c = 't' then some '\t'
  else none

/-- What is wrong with a numeric escape that has no four digits: the text ends
within the next four bytes, or a byte is no digit. -/
def brokenEscape (rest : List Char) : Fault :=
  if (rest.take 4).foldl (fun bytes c => bytes + c.utf8Size) 0 < 4 then .ended else .malformed

/-- Put a character in front of the string that was read. -/
def prepend (c : Char) (result : Except Fault (List Char × List Char)) :
    Except Fault (List Char × List Char) :=
  result.map fun (letters, rest) => (c :: letters, rest)

/-- Read a string from behind its opening quote. If `paired`, halves of surrogate
pairs must come in pairs. -/
def stringTail (paired : Bool) : List Char → Except Fault (List Char × List Char)
  | [] => .error .ended
  | '"' :: rest => .ok ([], rest)
  | '\\' :: 'u' :: a :: b :: c :: d :: rest =>
    match codeUnit? a b c d with
    | none => .error .malformed
    | some unit =>
      if paired && isTrailing unit then
        .error .malformed
      else if paired && isLeading unit then
        match rest with
        | '\\' :: 'u' :: e :: f :: g :: h :: rest =>
          match codeUnit? e f g h with
          | none => .error .malformed
          | some second =>
            if isTrailing second then prepend (pairedChar unit second) (stringTail paired rest)
            else .error .malformed
        | '\\' :: 'u' :: rest => .error (brokenEscape rest)
        | ['\\'] => .error .ended
        | [] => .error .ended
        | _ => .error .malformed
      else
        prepend (Char.ofNat unit) (stringTail paired rest)
  | '\\' :: 'u' :: rest => .error (brokenEscape rest)
  | ['\\'] => .error .ended
  | '\\' :: c :: rest =>
    match shortEscape? c with
    | some c => prepend c (stringTail paired rest)
    | none => .error .malformed
  | c :: rest =>
    if c.toNat < 0x20 then .error .malformed else prepend c (stringTail paired rest)

/-- Read a string from behind its opening quote, and keep it. -/
def keepString : Reader String := fun text =>
  (stringTail true text).map fun (letters, rest) => (String.ofList letters, rest)

/-- Pass over a string from behind its opening quote. -/
def passString : Reader Unit := fun text =>
  (stringTail false text).map fun (_, rest) => ((), rest)

/-! ## Numbers -/

/-- A number as it is written. -/
structure NumberText where
  /-- The digits before the point. -/
  whole : List Char
  /-- The digits after the point, if there is one. -/
  fraction : Option (List Char)
  /-- The exponent, if there is one: whether it is negative, and its digits. -/
  exponent : Option (Bool × List Char)
  deriving DecidableEq, Repr

/-- Take the digits off the front of a text. -/
def takeDigits : Reader (List Char) := fun text =>
  .ok (text.takeWhile Char.isDigit, text.dropWhile Char.isDigit)

/-- Take off at least one digit. -/
def takeSomeDigits : Reader (List Char) := do
  let digits ← takeDigits
  if digits.isEmpty then
    throw (if (← get).isEmpty then .ended else .malformed)
  return digits

/-- Take a number off, from behind its sign. The whole part has no zero in front of
another digit. -/
def scanNumber : Reader NumberText := do
  let whole ← takeSomeDigits
  if whole.head? = some '0' ∧ 1 < whole.length then
    throw .malformed
  let fraction ←
    if (← get).head? = some '.' then do
      advance
      pure (some (← takeSomeDigits))
    else
      pure none
  let next := (← get).head?
  let exponent ←
    if next = some 'e' ∨ next = some 'E' then do
      advance
      let sign := (← get).head?
      if sign = some '+' ∨ sign = some '-' then
        advance
      pure (some (sign == some '-', ← takeSomeDigits))
    else
      pure none
  return { whole, fraction, exponent }

/-- The greatest whole number that is kept exactly. -/
def greatestInteger : Nat := 0xFFFFFFFFFFFFFFFF

/-- The greatest exponent that is told apart from any greater one. -/
def greatestExponent : Nat := 0x7FFFFFFF

/-- The value of some digits. -/
def digitsValue (digits : List Char) : Nat :=
  digits.foldl (fun value c => value * 10 + (c.toNat - '0'.toNat)) 0

/-- Append digits to a significand as long as it stays within 64 bits, and say how
many are left over. -/
def absorb (significand : Nat) : List Char → Nat × Nat
  | [] => (significand, 0)
  | c :: rest =>
    let next := significand * 10 + (c.toNat - '0'.toNat)
    if greatestInteger < next then (significand, rest.length + 1) else absorb next rest

/-- A power of ten that a floating-point number can hold. -/
def powerOfTen (exponent : Nat) : Float :=
  Float.ofScientific 1 false exponent

/-- Divide by a power of ten, in steps of at most `10 ^ 308`. -/
def scaleDown : (steps : Nat) → Float → Nat → Float
  | 0, value, _ => value
  | steps + 1, value, exponent =>
    if exponent ≤ 308 then value / powerOfTen exponent
    else if value == 0.0 then value
    else scaleDown steps (value / powerOfTen 308) (exponent - 308)

/-- Round a significand to a floating-point number, and scale that by a power of
ten. Nothing comes out beyond the greatest number. -/
def scale? (significand : Nat) (exponent : Int) : Option Float :=
  let value := significand.toUInt64.toFloat
  match exponent with
  | .ofNat exponent =>
    if exponent ≤ 308 then
      let scaled := value * powerOfTen exponent
      if scaled.isInf then none else some scaled
    else if value == 0.0 then some value
    else none
  | .negSucc exponent => some (scaleDown (exponent / 308 + 2) value (exponent + 1))

/-- The floating-point number that is written, without its sign. -/
def NumberText.magnitude? (text : NumberText) : Option Float :=
  let fraction := text.fraction.getD []
  let (whole, wholeLeft) := absorb 0 text.whole
  let (significand, fractionLeft) := absorb whole fraction
  let place : Int := wholeLeft - (fraction.length - fractionLeft : Nat)
  match text.exponent with
  | none => scale? significand place
  | some (negative, digits) =>
    let exponent := digitsValue digits
    if greatestExponent < exponent then
      if significand ≠ 0 ∧ ¬negative then none else some 0.0
    else
      scale? significand (if negative then place - exponent else place + exponent)

/-- The number that is written. A whole number keeps its value if it fits into 64
bits; zero with a minus sign is a floating-point number. -/
def NumberText.number? (text : NumberText) (negative : Bool) : Option Number :=
  let real := text.magnitude?.map fun value => Number.real (if negative then -value else value)
  let whole := digitsValue text.whole
  if text.fraction.isSome || text.exponent.isSome || greatestInteger < whole then real
  else if !negative then some (.integer whole)
  else if 0 < whole ∧ whole ≤ 0x8000000000000000 then some (.integer (-whole))
  else real

/-- Read a number from behind its sign, and keep it. -/
def keepNumber (negative : Bool) : Reader Number := do
  match (← scanNumber).number? negative with
  | some value => return value
  | none => throw .malformed

/-- Pass over a number from behind its sign. A number that the text cuts off is
malformed. -/
def passNumber : Reader Unit := fun text =>
  match scanNumber text with
  | .ok (_, rest) => .ok ((), rest)
  | .error _ => .error .malformed

end ShaderBlocks.Json
