import ShaderBlocks.Shader.ValueType
import ShaderBlocks.Source.Error
import ShaderBlocks.Text.Blank
import ShaderBlocks.Text.Identifier

/-!
# Parameters, uniforms and functions

How the three kinds of declaration that make up the interface of a fragment are
read from their text. Words may be divided by any blanks, and precision qualifiers
are passed over. A parameter that does not say its direction is an input.
-/

namespace ShaderBlocks

open ShaderBlocks.Text

/-- Whether a value goes into a block or comes out of it. -/
inductive Direction
  | input
  | output
  deriving DecidableEq, Repr

/-- The qualifier that says the direction of a parameter. -/
def Direction.qualifier : Direction → String
  | input => "in"
  | output => "out"

/-- A parameter of an entry function. -/
structure Parameter where
  /-- The name, as the body of the function uses it. -/
  name : String
  /-- The type of the value passed. -/
  type : ValueType
  /-- Which way the value is passed. -/
  direction : Direction
  deriving DecidableEq, Repr

/-- A uniform declared by a fragment. -/
structure Uniform where
  /-- The name, shared by all fragments that declare it. -/
  name : String
  /-- The type of the value. -/
  type : ValueType
  /-- The text of the initial value, if one is given. -/
  value : Option String
  deriving DecidableEq, Repr

/-- A function, with its parameters and its body as text. -/
structure Function where
  /-- Everything before the name, with single spaces between the words. -/
  returnType : String
  /-- The name. -/
  name : String
  /-- The text between the parentheses. -/
  parameters : String
  /-- The brace group. -/
  body : String
  deriving DecidableEq, Repr

namespace Source

/-- A word that states a precision. -/
def isPrecision (word : String) : Bool :=
  word == "lowp" || word == "mediump" || word == "highp"

/-- A parameter qualifier that rules a function out as an entry. -/
def isUnsupportedQualifier (word : String) : Bool :=
  word == "inout" || word == "flat" || word == "smooth" || word == "noperspective" ||
    word == "centroid"

/-- The type with the given spelling, or the error that there is none. -/
def readType (spelling : String) : Except SourceError ValueType :=
  match ValueType.ofSpelling? spelling with
  | some type => .ok type
  | none => .error (.unknownType spelling)

/-- The type and the name that two words state, or `malformed`. The name is
checked before the type. -/
def readTypedName (malformed : SourceError) :
    List String → Except SourceError (ValueType × String)
  | [spelling, name] =>
    if isIdentifier name.toList then do
      let type ← readType spelling
      return (type, name)
    else
      .error malformed
  | _ => .error malformed

/-- The first word of a statement, where a semicolon ends a word too. -/
def firstWord? (text : List Char) : Option String :=
  (runs (fun c => isBlank c || c == ';') text).head?.map String.ofList

/-- The text of a statement without its semicolons at the end. -/
def withoutSemicolon (statement : List Char) : List Char :=
  trim (dropEndWhile (· == ';') statement)

/-- Read a statement that begins with the word `uniform`. An initial value that is
announced must not be empty. -/
def readUniform (statement : List Char) : Except SourceError Uniform :=
  let malformed := SourceError.malformedUniform (String.ofList statement)
  match stripStart? "uniform".toList (withoutSemicolon statement) with
  | none => .error malformed
  | some declaration =>
    let (subject, value) :=
      match splitOnce? '=' declaration with
      | some (subject, value) => (subject, some (trim value))
      | none => (declaration, none)
    if value = some [] then
      .error malformed
    else do
      let words := ((words subject).map String.ofList).filter (!isPrecision ·)
      let (type, name) ← readTypedName malformed words
      return { name, type, value := value.map String.ofList }

/-- Read the header of a function. The parameters reach from the first opening
parenthesis to the last closing one; what follows them is passed over. -/
def readFunction (header body : List Char) : Except SourceError Function :=
  let malformed := SourceError.malformedParameter (String.ofList header)
  match splitOnce? '(' header with
  | none => .error malformed
  | some (head, rest) =>
    match splitLast? ')' rest with
    | none => .error malformed
    | some (parameters, _) =>
      match (words head).reverse with
      | name :: first :: others =>
        if isIdentifier name then
          .ok {
            returnType := " ".intercalate ((first :: others).reverse.map String.ofList)
            name := String.ofList name
            parameters := String.ofList (trim parameters)
            body := String.ofList body }
        else
          .error malformed
      | _ => .error malformed

/-- What the words of a parameter say so far: its direction, and the words that
are not qualifiers. -/
structure ParameterWords where
  /-- The direction stated last. -/
  direction : Direction
  /-- The other words, in order. -/
  others : List String

/-- Sort the words of a parameter, from left to right. -/
def sortParameterWords (text : String) (sofar : ParameterWords) :
    List String → Except SourceError ParameterWords
  | [] => .ok sofar
  | word :: rest =>
    if word = "in" then sortParameterWords text { sofar with direction := .input } rest
    else if word = "out" then sortParameterWords text { sofar with direction := .output } rest
    else if word = "const" || isPrecision word then sortParameterWords text sofar rest
    else if isUnsupportedQualifier word then .error (.unsupportedQualifier text word)
    else sortParameterWords text { sofar with others := sofar.others ++ [word] } rest

/-- Read the text of one parameter. -/
def readParameter (text : List Char) : Except SourceError Parameter := do
  let text := trim text
  let sorted ←
    sortParameterWords (String.ofList text) ⟨.input, []⟩ ((words text).map String.ofList)
  let (type, name) ← readTypedName (.malformedParameter (String.ofList text)) sorted.others
  return { name, type, direction := sorted.direction }

/-- Read the text between the parentheses of a function. The word `void` alone
stands for no parameters. -/
def readParameters (text : String) : Except SourceError (List Parameter) :=
  let text := trim text.toList
  if text = [] ∨ text = "void".toList then
    .ok []
  else
    (pieces (· == ',') text).mapM readParameter

end Source

end ShaderBlocks
