import ShaderBlocks.Text.Identifier

/-!
# Words and marks

Shader text is a sequence of words, the maximal runs of identifier characters,
and of marks, the single characters between them. Renaming works on this view:
it replaces whole words and nothing else. A word that begins with a digit is a
number and keeps its spelling; a word right after a point is the name of a member
or a swizzle and keeps its spelling too.
-/

namespace ShaderBlocks.Text

/-- One element of a text. -/
inductive Token
  /-- A maximal run of identifier characters. -/
  | word (letters : List Char)
  /-- A character that is in no word. -/
  | mark (c : Char)
  deriving DecidableEq, Repr

namespace Token

/-- The characters of one element. -/
def text : Token → List Char
  | word letters => letters
  | mark c => [c]

/-- Put a character in front of a sequence of elements, joining it to a word that
stands first if it belongs to one. -/
def push (c : Char) (tokens : List Token) : List Token :=
  if isWordChar c then
    match tokens with
    | word letters :: rest => word (c :: letters) :: rest
    | _ => word [c] :: tokens
  else
    mark c :: tokens

/-- The elements of a text, in order. -/
def ofText : List Char → List Token
  | [] => []
  | c :: rest => push c (ofText rest)

end Token

/-- New spellings for some words; a word without one stays as it is. -/
abbrev Renaming := String → Option String

/-- The spelling of a word after renaming. -/
def Renaming.apply (spellings : Renaming) (word : String) : String :=
  (spellings word).getD word

/-- A word that names something, as opposed to a number. -/
def isName : List Char → Bool
  | [] => false
  | c :: _ => !c.isDigit

/-- The text of a sequence of elements after renaming. `member` says that the
element before the first was a point. -/
def Renaming.renderTokens (spellings : Renaming) : Bool → List Token → List Char
  | _, [] => []
  | member, .word letters :: rest =>
    let spelling :=
      if !member && isName letters then (spellings.apply (String.ofList letters)).toList
      else letters
    spelling ++ spellings.renderTokens false rest
  | _, .mark c :: rest => c :: spellings.renderTokens (c == '.') rest

/-- Rename the words of a text. -/
def Renaming.rename (spellings : Renaming) (text : String) : String :=
  String.ofList (spellings.renderTokens false (Token.ofText text.toList))

end ShaderBlocks.Text
