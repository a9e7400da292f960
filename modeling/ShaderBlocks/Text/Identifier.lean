/-!
# Identifiers

An identifier is a letter or an underscore followed by letters, digits and
underscores, all of ASCII. Names that come from outside are made fit to stand
inside a generated identifier by replacing every other character.
-/

namespace ShaderBlocks.Text

/-- The characters an identifier is made of. -/
def isWordChar (c : Char) : Bool :=
  c.isAlphanum || c == '_'

/-- The characters an identifier begins with. -/
def isWordStart (c : Char) : Bool :=
  c.isAlpha || c == '_'

/-- A word that can name something in shader text. -/
def isIdentifier : List Char → Bool
  | [] => false
  | c :: rest => isWordStart c && rest.all isWordChar

/-- Replace every character that cannot stand in an identifier by an underscore.
An empty name becomes one underscore; a leading digit stays. -/
def sanitize (name : String) : String :=
  match name.toList with
  | [] => "_"
  | text => String.ofList (text.map fun c => if isWordChar c then c else '_')

end ShaderBlocks.Text
