/-!
# Comments

A line comment reaches up to the end of its line, which stays. A block comment
reaches up to the first closing mark after its opening mark, or to the end of the
text; it leaves its line feeds, so that later text keeps its line, and then one
space, so that the words around it stay apart.
-/

namespace ShaderBlocks.Text

/-- Drop every carriage return that stands right before a line feed. -/
def unifyLineEnds : List Char → List Char
  | '\r' :: '\n' :: rest => '\n' :: unifyLineEnds rest
  | c :: rest => c :: unifyLineEnds rest
  | [] => []

/-- Where a text being cleared of comments stands. -/
inductive CommentState
  /-- Outside any comment. -/
  | code
  /-- Inside a comment that ends with its line. -/
  | line
  /-- Inside a comment that ends with its closing mark. -/
  | block
  deriving DecidableEq, Repr

/-- Clear the rest of a text of comments, reading on from `state`. -/
def dropComments : CommentState → List Char → List Char
  | .code, '/' :: '/' :: rest => dropComments .line rest
  | .code, '/' :: '*' :: rest => dropComments .block rest
  | .code, c :: rest => c :: dropComments .code rest
  | .code, [] => []
  | .line, '\n' :: rest => '\n' :: dropComments .code rest
  | .line, _ :: rest => dropComments .line rest
  | .line, [] => []
  | .block, '*' :: '/' :: rest => ' ' :: dropComments .code rest
  | .block, '\n' :: rest => '\n' :: dropComments .block rest
  | .block, _ :: rest => dropComments .block rest
  | .block, [] => [' ']

/-- The text with line ends unified and comments cleared. -/
def stripComments (text : List Char) : List Char :=
  dropComments .code (unifyLineEnds text)

end ShaderBlocks.Text
