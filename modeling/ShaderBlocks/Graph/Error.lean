import ShaderBlocks.Outlet
import ShaderBlocks.Shader.Phase

/-!
# Errors in a graph

What can go wrong when blocks are made, linked, grouped and compiled, and the words
that say so.
-/

namespace ShaderBlocks

/-- Where a name is declared. -/
inductive Scope
  /-- Among the variables of a phase. -/
  | phase (phase : Phase)
  /-- Among the declarations that both phases share. -/
  | externals
  deriving DecidableEq, Repr

/-- The words for a scope. -/
def Scope.name : Scope → String
  | phase p => p.name ++ " scope"
  | externals => "program externals"

/-- Why two outlets cannot be linked. -/
inductive ConnectionFlaw
  | sourceNotOutput
  | targetNotInput
  deriving DecidableEq, Repr

/-- The words for why two outlets cannot be linked. -/
def ConnectionFlaw.reason : ConnectionFlaw → String
  | sourceNotOutput => "source outlet is not an output"
  | targetNotInput => "target outlet is not an input"

/-- What can go wrong with a graph. -/
inductive GraphError
  /-- The source of a fragment cannot be read. -/
  | source (error : SourceError)
  /-- An input parameter is not fed. -/
  | missingConnection (block : BlockIndex) (parameter outlet : String)
  /-- A material that is to be compiled has outputs. -/
  | hasOutputs (block : BlockIndex) (count : Nat)
  /-- A block depends on itself. -/
  | cycle (block : BlockIndex) (phase : Phase)
  /-- One name would have two types. -/
  | typeMismatch (scope : Scope) (name : String) (declared requested : ValueType)
  /-- A node has no outlet of that name. -/
  | unknownOutlet (owner : Option BlockIndex) (outlet : String)
  /-- The graph has no block of that number. -/
  | unknownBlock (block : BlockIndex)
  /-- The two sources of a material describe an outlet differently. -/
  | outletConflict (outlet : String)
  /-- Only a material can be compiled. -/
  | notMaterial (block : BlockIndex)
  /-- A node belongs to one block. -/
  | alreadyOwned (owner : BlockIndex)
  /-- Two outlets cannot be linked. -/
  | invalidConnection (source target : Endpoint) (flaw : ConnectionFlaw)
  /-- A node that belongs to no block cannot be called. -/
  | unowned (fragment : String)
  /-- A block cannot be grouped below itself. -/
  | groupingLoop (child parent : BlockIndex)
  deriving DecidableEq, Repr

/-- A block in a message. -/
def blockText (block : BlockIndex) : String :=
  "#" ++ toString block

/-- The owner of a node in a message. -/
def ownerText : Option BlockIndex → String
  | some block => "Some(BlockIndex(" ++ toString block ++ "))"
  | none => "None"

/-- An outlet in a message. -/
def Endpoint.text (endpoint : Endpoint) : String :=
  blockText endpoint.block ++ "." ++ endpoint.outlet

/-- The words for what went wrong. -/
def GraphError.message : GraphError → String
  | source error => error.message
  | missingConnection block parameter outlet =>
    "missing connection on outlet `" ++ outlet ++ "` for parameter `" ++ parameter ++
      "` of block " ++ blockText block
  | hasOutputs block count =>
    "can't compile material block " ++ blockText block ++ " with " ++ toString count ++
      " output outlet(s)"
  | cycle block phase =>
    "connection cycle re-enters block " ++ blockText block ++ " during " ++ phase.name ++
      " emission"
  | typeMismatch scope name declared requested =>
    "`" ++ name ++ "` declared as " ++ declared.spelling ++ " in " ++ scope.name ++
      ", requested as " ++ requested.spelling
  | unknownOutlet owner outlet =>
    "no outlet named `" ++ outlet ++ "` on block " ++ ownerText owner
  | unknownBlock block => "block " ++ blockText block ++ " is not part of the graph"
  | outletConflict outlet =>
    "vertex and fragment sources disagree on outlet `" ++ outlet ++ "`"
  | notMaterial block => "block " ++ blockText block ++ " is not a material"
  | alreadyOwned owner => "node is already owned by block " ++ blockText owner
  | invalidConnection output input flaw =>
    "can't connect " ++ output.text ++ " to " ++ input.text ++ ": " ++ flaw.reason
  | unowned fragment => "node of fragment `" ++ fragment ++ "` has no owning block"
  | groupingLoop child parent =>
    "block " ++ blockText child ++ " can't be grouped under its own descendant " ++
      blockText parent

end ShaderBlocks
