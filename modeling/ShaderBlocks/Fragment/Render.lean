import ShaderBlocks.Fragment.Basic
import ShaderBlocks.Text.Token

/-!
# The text of a fragment at one call

Every call of a fragment gets its own copy of the source, so all that the fragment
defines is renamed after the call: the entry function takes the name of the call,
everything else the name of the call, an underscore and its own name.

A uniform that stays outside is declared by the program, so the copy does not
declare it. A uniform that is replaced by an argument becomes a variable of the
copy, and the entry function, which gets one more input for it, begins by filling
that variable.
-/

namespace ShaderBlocks

open ShaderBlocks.Text

namespace Fragment

/-- The name inside one call of something the fragment defines. -/
def localName (call name : String) : String :=
  call ++ "_" ++ name

/-- The uniforms that are replaced by arguments. -/
def replacedUniforms (fragment : Fragment) (replaced : List String) : List Uniform :=
  fragment.uniforms.filter (·.name ∈ replaced)

/-- The names that belong to one call, apart from the name of the entry function. -/
def localNames (fragment : Fragment) (replaced : List String) : List String :=
  fragment.others.flatMap Item.definedNames ++
    (fragment.replacedUniforms replaced).map (·.name)

/-- The new spellings of the names that the fragment defines. -/
def spellings (fragment : Fragment) (call : String) (replaced : List String) : Renaming :=
  fun word =>
    if word = fragment.entry.name then some call
    else if word ∈ fragment.localNames replaced then some (localName call word)
    else none

/-- The text of an item other than the entry function; none if it is left out. -/
def renderItem (call : String) (replaced : List String) (spellings : Renaming) :
    Item → Option String
  | .directive text => some (spellings.rename text)
  | .global text => some (spellings.rename text)
  | .uniform u =>
    if u.name ∈ replaced then some (u.type.spelling ++ " " ++ localName call u.name ++ ";")
    else none
  | .function f =>
    some (f.returnType ++ " " ++ spellings.apply f.name ++ "(" ++
      spellings.rename f.parameters ++ ") " ++ spellings.rename f.body)

/-- The declaration of one parameter. -/
def renderParameter (parameter : Parameter) : String :=
  parameter.direction.qualifier ++ " " ++ parameter.type.spelling ++ " " ++ parameter.name

/-- The name of the parameter that feeds a replaced uniform. -/
def feedName (call : String) (u : Uniform) : String :=
  localName call u.name ++ "_in"

/-- The declaration of the parameter that feeds a replaced uniform. -/
def renderFeed (call : String) (u : Uniform) : String :=
  "in " ++ u.type.spelling ++ " " ++ feedName call u

/-- The assignment that fills a replaced uniform, on a line of its own. -/
def renderCopy (call : String) (u : Uniform) : String :=
  "\n    " ++ localName call u.name ++ " = " ++ feedName call u ++ ";"

/-- The body of the entry function with the assignments in front. -/
def fillUniforms (call : String) (fed : List Uniform) (body : String) : String :=
  if fed.isEmpty then
    body
  else
    let inner := (stripStart? ['{'] body.toList).getD body.toList
    "\x7b" ++ String.join (fed.map (renderCopy call)) ++ String.ofList inner

/-- The text of the entry function. -/
def renderEntry (fragment : Fragment) (call : String) (replaced : List String) : String :=
  let fed := fragment.replacedUniforms replaced
  let parameters := fragment.parameters.map renderParameter ++ fed.map (renderFeed call)
  let body := (fragment.spellings call replaced).rename fragment.entry.body
  fragment.entry.returnType ++ " " ++ call ++ "(" ++ ", ".intercalate parameters ++ ") " ++
    fillUniforms call fed body

/-- The text of a fragment for the call named `call`, with the uniforms named in
`replaced` fed by arguments. -/
def render (fragment : Fragment) (call : String) (replaced : List String) : String :=
  let item := renderItem call replaced (fragment.spellings call replaced)
  "\n".intercalate
    (fragment.before.filterMap item ++ fragment.renderEntry call replaced ::
      fragment.after.filterMap item)

end Fragment

end ShaderBlocks
