/-!
# Blanks, trimming and pieces of text

Shader text is taken apart as a list of characters. Two sets of blanks matter.
The wide one, `isBlank`, holds every white-space character of Unicode; it decides
what trimming removes and where one word ends and the next begins. The narrow
one, `isSpace`, holds the five white-space characters of ASCII that may stand
between two top-level items. A vertical tab is in the first set only.
-/

namespace ShaderBlocks.Text

/-- The white-space characters of Unicode. -/
def isBlank (c : Char) : Bool :=
  let code := c.toNat
  (0x09 ≤ code && code ≤ 0x0D) || code == 0x20 || code == 0x85 || code == 0xA0 ||
    code == 0x1680 || (0x2000 ≤ code && code ≤ 0x200A) || code == 0x2028 ||
    code == 0x2029 || code == 0x202F || code == 0x205F || code == 0x3000

/-- The white-space characters of ASCII: space, tab, line feed, form feed and
carriage return. -/
def isSpace (c : Char) : Bool :=
  c == ' ' || c == '\t' || c == '\n' || c == '\x0c' || c == '\r'

/-- Every ASCII space is a blank. -/
theorem isBlank_of_isSpace {c : Char} (space : isSpace c = true) : isBlank c = true := by
  simp only [isSpace, Bool.or_eq_true, beq_iff_eq] at space
  rcases space with (((rfl | rfl) | rfl) | rfl) | rfl <;> rfl

/-- Drop the longest run of characters in `drop` at the end of the text. -/
def dropEndWhile (drop : Char → Bool) (text : List Char) : List Char :=
  (text.reverse.dropWhile drop).reverse

/-- Drop the blanks at the start. -/
def trimStart (text : List Char) : List Char :=
  text.dropWhile isBlank

/-- Drop the blanks at the end. -/
def trimEnd (text : List Char) : List Char :=
  dropEndWhile isBlank text

/-- Drop the blanks at both ends. -/
def trim (text : List Char) : List Char :=
  trimEnd (trimStart text)

/-- Cut the text at every separator. There is one more piece than there are
separators, and pieces may be empty. -/
def pieces (separates : Char → Bool) : List Char → List (List Char)
  | [] => [[]]
  | c :: rest =>
    if separates c then
      [] :: pieces separates rest
    else
      match pieces separates rest with
      | [] => [[c]]
      | piece :: others => (c :: piece) :: others

/-- The nonempty pieces: the maximal runs of characters that do not separate. -/
def runs (separates : Char → Bool) (text : List Char) : List (List Char) :=
  (pieces separates text).filter (· ≠ [])

/-- The words of a text: its maximal runs of characters that are not blank. -/
def words (text : List Char) : List (List Char) :=
  runs isBlank text

/-- What follows `start` in `text`, if `text` begins with it. -/
def stripStart? : List Char → List Char → Option (List Char)
  | [], text => some text
  | _ :: _, [] => none
  | expected :: start, c :: text => if expected = c then stripStart? start text else none

/-- What precedes `ending` in `text`, if `text` ends with it. -/
def stripEnd? (ending text : List Char) : Option (List Char) :=
  (stripStart? ending.reverse text.reverse).map List.reverse

/-- The text before the first `separator` and the text after it, if there is one. -/
def splitOnce? (separator : Char) : List Char → Option (List Char × List Char)
  | [] => none
  | c :: rest =>
    if c = separator then
      some ([], rest)
    else
      (splitOnce? separator rest).map fun (before, after) => (c :: before, after)

/-- The text before the last `separator` and the text after it, if there is one. -/
def splitLast? (separator : Char) (text : List Char) : Option (List Char × List Char) :=
  (splitOnce? separator text.reverse).map fun (after, before) => (before.reverse, after.reverse)

end ShaderBlocks.Text
