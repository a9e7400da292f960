import ShaderBlocks.Graph.Error

/-!
# Programs under construction

A program gathers, for both phases, the calls in the order they were added, the
variables they pass values through, and the declarations that are fed from outside.
A name has one type within its scope: to declare it again with the same type changes
nothing, and to declare it with another type fails. A program also remembers which
blocks it holds for which phase.
-/

namespace ShaderBlocks

/-- A block in a phase. -/
abbrev Key := BlockIndex × Phase

/-- How deep below the compiled block a block was first asked for. Priorities are words of
32 bits, added without a check: after the last one comes zero. -/
abbrev Priority := UInt32

/-- A variable of a phase. -/
structure Variable where
  /-- The phase it belongs to. -/
  phase : Phase
  /-- The name. -/
  name : String
  /-- The type of the value. -/
  type : ValueType
  deriving DecidableEq, Repr

/-- One call of a fragment. -/
structure Call where
  /-- The phase it is made in. -/
  phase : Phase
  /-- The block it is made for. -/
  origin : BlockIndex
  /-- The name of the function called. -/
  name : String
  /-- The variables passed, in order. -/
  args : List String
  /-- How deep below the compiled block it was first asked for. -/
  priority : Priority
  /-- The text that defines the function. -/
  body : String
  deriving DecidableEq, Repr

/-- A program under construction. -/
structure Program where
  /-- The blocks held so far. -/
  included : List Key
  /-- The variables of both phases, in the order they were declared. -/
  locals : List Variable
  /-- The calls of both phases, in the order they were added. -/
  calls : List Call
  /-- The uniforms that are fed from outside, in the order they were declared. -/
  externals : List Uniform
  deriving DecidableEq, Repr

namespace Program

/-- A program without anything in it. -/
def empty : Program := ⟨[], [], [], []⟩

/-- Nothing has been put into the program. -/
def isEmpty (program : Program) : Bool :=
  program.included.isEmpty && program.locals.isEmpty && program.calls.isEmpty &&
    program.externals.isEmpty

/-- The program holds a block for a phase. -/
def includes (program : Program) (key : Key) : Bool :=
  program.included.contains key

/-- Remember that the program holds a block for a phase. -/
def markIncluded (program : Program) (key : Key) : Program :=
  if program.includes key then program else { program with included := key :: program.included }

/-- The variables of a phase. -/
def localsOf (program : Program) (phase : Phase) : List Variable :=
  program.locals.filter (·.phase = phase)

/-- The calls of a phase. -/
def callsOf (program : Program) (phase : Phase) : List Call :=
  program.calls.filter (·.phase = phase)

/-- Declare a variable. -/
def declare (program : Program) (phase : Phase) (name : String) (type : ValueType) :
    Except GraphError Program :=
  match (program.localsOf phase).find? (·.name == name) with
  | some held =>
    if held.type = type then .ok program
    else .error (.typeMismatch (.phase phase) name held.type type)
  | none => .ok { program with locals := program.locals ++ [⟨phase, name, type⟩] }

/-- Declare a uniform that is fed from outside. The initial value given first is
kept. -/
def declareExternal (program : Program) (uniform : Uniform) : Except GraphError Program :=
  match program.externals.find? (·.name == uniform.name) with
  | some held =>
    if held.type = uniform.type then .ok program
    else .error (.typeMismatch .externals uniform.name held.type uniform.type)
  | none => .ok { program with externals := program.externals ++ [uniform] }

/-- Add a call. -/
def addCall (program : Program) (call : Call) : Program :=
  { program with calls := program.calls ++ [call] }

end Program

end ShaderBlocks
