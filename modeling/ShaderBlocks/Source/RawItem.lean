import ShaderBlocks.Source.Error
import ShaderBlocks.Text.Blank

/-!
# Top-level items of a source text

Shader source without comments is a sequence of directives, statements and
functions. A directive takes a line that begins with a hash. A statement ends with
a semicolon. A header that holds a parenthesis and is followed by a brace group is
a function; any other header with a brace group is an aggregate, and runs on to
the semicolon behind the group. Braces alone decide where a group ends.
-/

namespace ShaderBlocks.Source

open ShaderBlocks.Text

/-- A top-level item as it stands in the text. -/
inductive RawItem
  /-- A line for the preprocessor, from its hash to its last character that is not blank. -/
  | directive (text : List Char)
  /-- A declaration up to its semicolon. -/
  | statement (text : List Char)
  /-- The header of a function and its brace group. -/
  | function (header body : List Char)
  deriving DecidableEq, Repr

/-- Read up to the closing brace that matches a brace opened before `text`, with
`depth` further groups open. The first part ends with that brace. -/
def closeGroup? : Nat → List Char → Option (List Char × List Char)
  | _, [] => none
  | depth, '{' :: rest =>
    (closeGroup? (depth + 1) rest).map fun (group, after) => ('{' :: group, after)
  | 0, '}' :: rest => some (['}'], rest)
  | depth + 1, '}' :: rest =>
    (closeGroup? depth rest).map fun (group, after) => ('}' :: group, after)
  | depth, c :: rest =>
    (closeGroup? depth rest).map fun (group, after) => (c :: group, after)

/-- The characters that end the header of an item. -/
def endsHeader (c : Char) : Bool :=
  c == ';' || c == '{' || c == '}'

/-- Read one item off a text that begins with it, and say what follows. -/
def readItem (text : List Char) : Except SourceError (RawItem × List Char) :=
  if text.head? = some '#' then
    .ok (.directive (trimEnd (text.takeWhile (· ≠ '\n'))), text.dropWhile (· ≠ '\n'))
  else
    let header := text.takeWhile (!endsHeader ·)
    match text.dropWhile (!endsHeader ·) with
    | ';' :: rest => .ok (.statement (trim (header ++ [';'])), rest)
    | '{' :: rest =>
      match closeGroup? 0 rest with
      | none => .error .unbalancedBraces
      | some (group, rest) =>
        if '(' ∈ header then
          .ok (.function (trim header) ('{' :: group), rest)
        else
          match splitOnce? ';' rest with
          | none => .error .unbalancedBraces
          | some (tail, rest) =>
            .ok (.statement (trim (header ++ '{' :: group ++ tail ++ [';'])), rest)
    | _ :: _ => .error .unbalancedBraces
    | [] => .error (.unterminatedStatement (String.ofList (trim header)))

/-- Read at most `limit` items. -/
def readItems : (limit : Nat) → List Char → Except SourceError (List RawItem)
  | 0, _ => .ok []
  | limit + 1, text =>
    match text.dropWhile isSpace with
    | [] => .ok []
    | text => do
      let (item, rest) ← readItem text
      let items ← readItems limit rest
      return item :: items

/-- The top-level items of a text, in order. No text holds more items than
characters. -/
def splitItems (text : List Char) : Except SourceError (List RawItem) :=
  readItems text.length text

end ShaderBlocks.Source
