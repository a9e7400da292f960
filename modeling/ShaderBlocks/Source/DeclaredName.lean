import ShaderBlocks.Source.Declaration

/-!
# Names that a statement or a directive introduces

A top-level statement introduces the names of its declarators: the last word of
each part between commas, before any `=` and any array bounds. A structure also
introduces its own name. A precision statement introduces nothing, and a `define`
directive introduces the macro it defines.
-/

namespace ShaderBlocks.Source

open ShaderBlocks.Text

/-- How an element of text changes the nesting of brackets. -/
def bracketStep (c : Char) : Int :=
  if c == '(' || c == '[' || c == '{' then 1
  else if c == ')' || c == ']' || c == '}' then -1
  else 0

/-- Cut a text at its commas outside any brackets, with `depth` brackets open
before it. Brackets of all kinds are counted alike. -/
def topLevelParts (depth : Int) : List Char → List (List Char)
  | [] => [[]]
  | c :: rest =>
    if c = ',' ∧ depth = 0 then
      [] :: topLevelParts depth rest
    else
      match topLevelParts (depth + bracketStep c) rest with
      | [] => [[c]]
      | part :: others => (c :: part) :: others

/-- The name that one part of a declaration introduces. The spelling of a type is
no name. -/
def declarator? (part : List Char) : Option String :=
  let subject := (part.takeWhile (· ≠ '=')).takeWhile (· ≠ '[')
  match (words subject).getLast? with
  | none => none
  | some name =>
    let name := String.ofList name
    if isIdentifier name.toList && (ValueType.ofSpelling? name).isNone then some name else none

/-- The names that the parts of a declaration introduce, in order. -/
def declarators (declaration : List Char) : List String :=
  (topLevelParts 0 declaration).filterMap declarator?

/-- The name a structure declaration gives to the structure: its second word. -/
def structureName? (declaration : List Char) : Option String :=
  match runs (fun c => isBlank c || c == '{') declaration with
  | _ :: name :: _ => if isIdentifier name then some (String.ofList name) else none
  | _ => none

/-- The names that a top-level statement introduces. -/
def declaredNames (statement : List Char) : List String :=
  let declaration := withoutSemicolon statement
  let first := firstWord? declaration
  if first = some "precision" then
    []
  else if first = some "struct" then
    let instances :=
      match splitLast? '}' declaration with
      | some (_, after) => declarators after
      | none => []
    (structureName? declaration).toList ++ instances
  else
    declarators declaration

/-- The macro that a directive defines. -/
def definedMacro? (directive : List Char) : Option String := do
  let afterHash ← stripStart? ['#'] directive
  let afterDefine ← stripStart? "define".toList (trimStart afterHash)
  let blank ← afterDefine.head?
  if isBlank blank then
    let name := (trimStart afterDefine).takeWhile isWordChar
    if isIdentifier name then some (String.ofList name) else none
  else
    none

end ShaderBlocks.Source
