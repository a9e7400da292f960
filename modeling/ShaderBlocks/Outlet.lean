import ShaderBlocks.Fragment.Basic

/-!
# Outlets

An outlet is a place where a block takes a value or gives one. A fragment has one
outlet for each parameter of its entry function and one for each uniform, in this
order. A parameter must be fed; a uniform that is not fed keeps its value from
outside. Every outlet of a block has an identifier, the name of the variable that
holds its value in the program.
-/

namespace ShaderBlocks

open ShaderBlocks.Text

/-- The number of a block. Blocks are numbered in the order they are made, from one. Numbers have
no bound here; they are meant to stay below `2 ^ 32`, where a supply runs out. -/
abbrev BlockIndex := Nat

/-- An outlet of a block, by name. -/
structure Endpoint where
  /-- The block. -/
  block : BlockIndex
  /-- The name of the outlet. -/
  outlet : String
  deriving DecidableEq, Repr

/-- What an outlet stands for. -/
inductive OutletCategory
  | parameter
  | uniform
  deriving DecidableEq, Repr

/-- The word for what an outlet stands for. -/
def OutletCategory.name : OutletCategory → String
  | parameter => "parameter"
  | uniform => "uniform"

/-- A name without the ending `In`, or else without the ending `Out`. A name that is
nothing but the ending is kept. -/
def hintFor (name : String) : String :=
  let text := name.toList
  match (stripEnd? "In".toList text).or (stripEnd? "Out".toList text) with
  | some (c :: stem) => String.ofList (c :: stem)
  | _ => name

/-- An outlet as a fragment describes it. -/
structure OutletSpec where
  /-- The name of the parameter or uniform. -/
  name : String
  /-- The type of the value. -/
  type : ValueType
  /-- Which way the value goes. -/
  direction : Direction
  /-- What the outlet stands for. -/
  category : OutletCategory
  /-- The text of the initial value of a uniform. -/
  value : Option String
  deriving DecidableEq, Repr

namespace OutletSpec

/-- The outlet of a parameter. -/
def ofParameter (parameter : Parameter) : OutletSpec where
  name := parameter.name
  type := parameter.type
  direction := parameter.direction
  category := .parameter
  value := none

/-- The outlet of a uniform. -/
def ofUniform (uniform : Uniform) : OutletSpec where
  name := uniform.name
  type := uniform.type
  direction := .input
  category := .uniform
  value := uniform.value

/-- The outlet must be fed if it is an input. -/
def isRequired (spec : OutletSpec) : Bool :=
  spec.category = .parameter

/-- The part of the name that goes into the identifier. -/
def hint (spec : OutletSpec) : String :=
  hintFor spec.name

/-- Two descriptions can stand for one outlet. The initial value does not matter. -/
def agrees (spec other : OutletSpec) : Bool :=
  spec.type = other.type ∧ spec.direction = other.direction ∧ spec.category = other.category

end OutletSpec

/-- The outlets of a fragment: its parameters, then its uniforms. -/
def Fragment.outlets (fragment : Fragment) : List OutletSpec :=
  fragment.parameters.map .ofParameter ++ fragment.uniforms.map .ofUniform

/-- An outlet of a block. -/
structure Outlet extends OutletSpec where
  /-- The variable that holds the value in the program. -/
  id : String
  /-- The outlet that the value comes from. -/
  feed : Option Endpoint
  deriving DecidableEq, Repr

namespace Outlet

/-- The identifier of the outlet at a place of a block. -/
def idFor (hint : String) (owner : BlockIndex) (slot : Nat) : String :=
  "v_" ++ hint ++ "_" ++ toString owner ++ "_" ++ toString slot

/-- The outlets of a block, not fed, from their descriptions, the first at the place
`slot`. -/
def seed (owner : BlockIndex) (slot : Nat) : List OutletSpec → List Outlet
  | [] => []
  | spec :: rest =>
    { spec with id := idFor spec.hint owner slot, feed := none } :: seed owner (slot + 1) rest

/-- Feed the first outlet of a name, or stop feeding it. -/
def setFeed (name : String) (feed : Option Endpoint) : List Outlet → List Outlet
  | [] => []
  | outlet :: rest =>
    if outlet.name = name then { outlet with feed } :: rest
    else outlet :: setFeed name feed rest

end Outlet

end ShaderBlocks
