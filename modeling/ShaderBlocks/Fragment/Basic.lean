import ShaderBlocks.Source.DeclaredName
import ShaderBlocks.Source.RawItem
import ShaderBlocks.Text.Comment

/-!
# Fragments

A fragment is a reusable piece of shader source. It has one entry function, the
first function named `main` or else the last function, whose parameters together
with the uniforms of the fragment are its interface. The other items keep their
places before and after the entry.
-/

namespace ShaderBlocks

open ShaderBlocks.Text ShaderBlocks.Source

/-- A top-level item of a fragment. -/
inductive Item
  /-- A preprocessor line. -/
  | directive (text : String)
  /-- A statement that declares no uniform. -/
  | global (text : String)
  /-- The declaration of a uniform. -/
  | uniform (uniform : Uniform)
  /-- A function. -/
  | function (function : Function)
  deriving DecidableEq, Repr

namespace Item

/-- Read an item from its text. -/
def ofRaw : RawItem → Except SourceError Item
  | .directive text => .ok (.directive (String.ofList text))
  | .statement text =>
    if firstWord? text = some "uniform" then do
      return .uniform (← readUniform text)
    else
      .ok (.global (String.ofList text))
  | .function header body => do
    return .function (← readFunction header body)

/-- The uniform that an item declares. -/
def uniform? : Item → Option Uniform
  | .uniform u => some u
  | _ => none

/-- The names that an item defines for the fragment alone. Uniforms are shared and
are not among them. -/
def definedNames : Item → List String
  | .directive text => (definedMacro? text.toList).toList
  | .global text => declaredNames text.toList
  | .uniform _ => []
  | .function f => [f.name]

/-- Cut a list of items at the first function that `wanted` accepts. -/
def cutAtFunction? (wanted : Function → Bool) :
    List Item → Option (List Item × Function × List Item)
  | [] => none
  | item :: rest =>
    let further := (cutAtFunction? wanted rest).map fun (before, f, after) =>
      (item :: before, f, after)
    match item with
    | .function f => if wanted f then some ([], f, rest) else further
    | _ => further

/-- Cut a list of items at its last function. -/
def cutAtLastFunction? (items : List Item) : Option (List Item × Function × List Item) :=
  (cutAtFunction? (fun _ => true) items.reverse).map fun (after, f, before) =>
    (before.reverse, f, after.reverse)

/-- Cut a list of items at the entry function. -/
def cutAtEntry? (items : List Item) : Option (List Item × Function × List Item) :=
  (cutAtFunction? (·.name == "main") items).or (cutAtLastFunction? items)

end Item

/-- The entry function of a fragment, with its parameters read. -/
structure Entry where
  /-- The return type as it stands in the source. -/
  returnType : String
  /-- The name in the source. -/
  name : String
  /-- The parameters, in order. -/
  parameters : List Parameter
  /-- The brace group. -/
  body : String
  deriving DecidableEq, Repr

/-- A reusable piece of shader source. -/
structure Fragment where
  /-- The base of the names of its calls. -/
  name : String
  /-- The items before the entry function. -/
  before : List Item
  /-- The entry function. -/
  entry : Entry
  /-- The items after the entry function. -/
  after : List Item
  deriving DecidableEq, Repr

namespace Fragment

/-- Every item but the entry function, in order. -/
def others (fragment : Fragment) : List Item :=
  fragment.before ++ fragment.after

/-- The parameters of the entry function. -/
def parameters (fragment : Fragment) : List Parameter :=
  fragment.entry.parameters

/-- The uniforms declared by the fragment, in order. -/
def uniforms (fragment : Fragment) : List Uniform :=
  fragment.others.filterMap Item.uniform?

/-- Read a fragment from its source. It takes the given name, or the name of its
entry function. All items are divided before the first of them is read. -/
def read (name : Option String) (source : String) : Except SourceError Fragment := do
  let raw ← splitItems (stripComments source.toList)
  let items ← raw.mapM Item.ofRaw
  match Item.cutAtEntry? items with
  | none => .error .noEntryFunction
  | some (before, function, after) =>
    let parameters ← readParameters function.parameters
    return {
      name := sanitize (name.getD function.name)
      before
      entry := {
        returnType := function.returnType
        name := function.name
        parameters
        body := function.body }
      after }

end Fragment

end ShaderBlocks
