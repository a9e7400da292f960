import ShaderBlocks.Fragment.Render
import ShaderBlocks.Graph.Basic
import ShaderBlocks.Program.Render

/-!
# Emission

To put a block into a program for a phase means to call its fragment there. What
the call takes for each parameter and uniform is read off the graph: an output is
written to a variable of the block's own, a linked input is read from the variable
of the output that feeds it, a uniform that is not linked is fed from outside. The
blocks that feed the call are put into the program before it, each only once for a
phase. A material that feeds a call of the fragment phase also runs in the vertex
phase, whether anything reads it there or not.

A block that is met again while it is still being put in depends on itself. The
blocks being put in at any time form a path, which never holds a block twice for one
phase; this bounds how deep emission goes.

A call has a priority, and what feeds it gets the next one. Nothing checks that there is
a next one: zero comes after the last.

When emission fails, what was put into the program before stays there. Only
`compileInto` and `compile` give the whole program up.
-/

namespace ShaderBlocks

/-- What a call does about one parameter or uniform. -/
inductive Slot
  /-- An output is written to the block's own variable. -/
  | output (name : String) (type : ValueType)
  /-- An input is read from the variable of another block. -/
  | input (producer : Block) (name : String) (type : ValueType)
  /-- A uniform is read from the variable of another block. -/
  | replaced (uniform : Uniform) (producer : Block) (name : String)
  /-- A uniform is fed from outside. -/
  | external (uniform : Uniform)
  /-- The call cannot be made. -/
  | broken (error : GraphError)

/-- One step on the way to a call. -/
inductive Step
  /-- Put another block into the program first. -/
  | demand (block : Block) (phase : Phase) (priority : Priority)
  /-- Declare a variable. -/
  | declare (phase : Phase) (name : String) (type : ValueType)
  /-- Declare a uniform that is fed from outside. -/
  | declareExternal (uniform : Uniform)
  /-- Give up. -/
  | fail (error : GraphError)
  /-- Add the call. -/
  | add (call : Call)

/-- The name of the function that a block calls in a phase. -/
def callName (phase : Phase) (fragment : String) (owner : BlockIndex) : String :=
  "sg_" ++ phase.name ++ "_" ++ fragment ++ "_" ++ toString owner

namespace Slot

/-- The variable that the call passes. -/
def argument? : Slot → Option String
  | output name _ => some name
  | input _ name _ => some name
  | replaced _ _ name => some name
  | external _ => none
  | broken _ => none

/-- The name of the uniform that the call replaces. -/
def replaced? : Slot → Option String
  | replaced uniform _ _ => some uniform.name
  | _ => none

end Slot

/-- What must be in the program before an outlet of a block can be read in a phase. -/
def Block.demands (block : Block) (phase : Phase) (priority : Priority) : List Step :=
  .demand block phase priority ::
    if block.isMaterial && phase = .fragment then [.demand block .vertex 0] else []

/-- The steps that one parameter or uniform asks for. -/
def Slot.steps (phase : Phase) (priority : Priority) : Slot → List Step
  | output name type => [.declare phase name type]
  | input producer name type =>
    producer.demands phase (priority + 1) ++ [.declare phase name type]
  | replaced uniform producer name =>
    producer.demands phase (priority + 1) ++ [.declare phase name uniform.type]
  | external uniform => [.declareExternal uniform]
  | broken error => [.fail error]

namespace Graph

/-- What a call for a node does about a parameter. -/
def parameterSlot (graph : Graph) (owner : BlockIndex) (node : Node) (parameter : Parameter) :
    Slot :=
  match node.get parameter.name with
  | .error error => .broken error
  | .ok outlet =>
    match parameter.direction with
    | .output => .output outlet.id parameter.type
    | .input =>
      match outlet.feed with
      | none => .broken (.missingConnection owner parameter.name outlet.name)
      | some feed =>
        match graph.resolve feed with
        | .error error => .broken error
        | .ok (producer, source) => .input producer source.id parameter.type

/-- What a call for a node does about a uniform. -/
def uniformSlot (graph : Graph) (node : Node) (uniform : Uniform) : Slot :=
  match node.get uniform.name with
  | .error error => .broken error
  | .ok outlet =>
    match outlet.feed with
    | none => .external uniform
    | some feed =>
      match graph.resolve feed with
      | .error error => .broken error
      | .ok (producer, source) => .replaced uniform producer source.id

/-- What a call for a node does about each parameter and uniform, in order. -/
def slots (graph : Graph) (owner : BlockIndex) (node : Node) (fragment : Fragment) :
    List Slot :=
  fragment.parameters.map (graph.parameterSlot owner node) ++
    fragment.uniforms.map (graph.uniformSlot node)

/-- The call of a fragment for a node. -/
def call (graph : Graph) (owner : BlockIndex) (node : Node) (fragment : Fragment)
    (phase : Phase) (priority : Priority) : Call :=
  let slots := graph.slots owner node fragment
  let name := callName phase fragment.name owner
  { phase
    origin := owner
    name
    args := slots.filterMap Slot.argument?
    priority
    body := fragment.render name (slots.filterMap Slot.replaced?) }

/-- The steps to a call of a fragment for a node. -/
def steps (graph : Graph) (node : Node) (fragment : Fragment) (phase : Phase)
    (priority : Priority) : List Step :=
  match node.owner with
  | none => [.fail (.unowned fragment.name)]
  | some owner =>
    (graph.slots owner node fragment).flatMap (Slot.steps phase priority) ++
      [.add (graph.call owner node fragment phase priority)]

/-- The steps to the call of a block in a phase. -/
def blockSteps (graph : Graph) (block : Block) (phase : Phase) (priority : Priority) : List Step :=
  graph.steps block.node (block.fragmentFor phase) phase priority

end Graph

/-- Work on a program. What was done to the program before a failure stays done. -/
abbrev Emission := EStateM GraphError Program

namespace Emission

/-- Change the program, or fail and leave it. -/
def change (step : Program → Except GraphError Program) : Emission Unit := do
  match step (← get) with
  | .ok program => set program
  | .error error => throw error

/-- Carry out one step, with `demand` for a step that demands another block. -/
def perform (demand : Block → Phase → Priority → Emission Unit) : Step → Emission Unit
  | .demand block phase priority => demand block phase priority
  | .declare phase name type => change (·.declare phase name type)
  | .declareExternal uniform => change (·.declareExternal uniform)
  | .fail error => throw error
  | .add call => modify (·.addCall call)

/-- Carry out some steps, in order. -/
def follow (demand : Block → Phase → Priority → Emission Unit) : List Step → Emission Unit
  | [] => pure ()
  | step :: rest => do
    perform demand step
    follow demand rest

/-- Make sure that the program holds a block for a phase. `path` holds the blocks
that are being put in, and `depth` bounds how many more may join them. -/
def ensureWithin (graph : Graph) :
    (depth : Nat) → (path : List Key) → Block → Phase → Priority → Emission Unit
  | 0, _, block, phase, _ => throw (.cycle block.index phase)
  | depth + 1, path, block, phase, priority => do
    let key := (block.index, phase)
    if key ∈ path then
      throw (.cycle block.index phase)
    else if (← get).includes key then
      pure ()
    else
      modify (·.markIncluded key)
      follow (ensureWithin graph depth (key :: path)) (graph.blockSteps block phase priority)

/-- More than the length of any path through a graph and one block beside it: every
block appears at most once for each phase. -/
def depthOf (graph : Graph) : Nat :=
  2 * graph.size + 3

/-- Make sure that the program holds a block for a phase. -/
def ensure (graph : Graph) (block : Block) (phase : Phase) (priority : Priority) : Emission Unit :=
  ensureWithin graph (depthOf graph) [] block phase priority

/-- Call a fragment for a node, whether the program holds its block or not. -/
def emit (graph : Graph) (node : Node) (fragment : Fragment) (phase : Phase) (priority : Priority) :
    Emission Unit :=
  follow (ensure graph) (graph.steps node fragment phase priority)

/-- Call a block in a phase, whether the program holds it or not. -/
def insert (graph : Graph) (block : Block) (phase : Phase) (priority : Priority) : Emission Unit :=
  emit graph block.node (block.fragmentFor phase) phase priority

/-- Make sure that an outlet of a block can be read in a phase, and say from which
variable. -/
def fetch (graph : Graph) (block : Block) (phase : Phase) (outlet : Outlet) (priority : Priority) :
    Emission String := do
  follow (ensure graph) (block.demands phase priority)
  return outlet.id

/-- Put a block into the program for every phase. -/
def ensureAll (graph : Graph) (block : Block) : List Phase → Emission Unit
  | [] => pure ()
  | phase :: rest => do
    ensure graph block phase 0
    ensureAll graph block rest

end Emission

namespace Block

/-- Put a material and all it depends on into a program. -/
def compileInto (block : Block) (graph : Graph) (program : Program) :
    Except GraphError Program := do
  block.checkSink
  match (Emission.ensureAll graph block Phase.all).run program with
  | .ok _ program => return program
  | .error error _ => throw error

/-- Compile a material with all it depends on in a graph. -/
def compile (block : Block) (graph : Graph) : Except GraphError CompiledProgram := do
  return (← block.compileInto graph .empty).compile

end Block

/-- Compile a material of a graph. -/
def Graph.compile (graph : Graph) (material : BlockIndex) : Except GraphError CompiledProgram := do
  (← graph.get material).compile graph

end ShaderBlocks
