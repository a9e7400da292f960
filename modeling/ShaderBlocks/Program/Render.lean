import ShaderBlocks.Program.Basic
import ShaderBlocks.Text.Blank

/-!
# The text of a program

The text of a phase has three parts: the declarations of all uniforms, the functions
that the calls of the phase need, and a main function that declares the variables of
the phase and makes the calls.
-/

namespace ShaderBlocks

open ShaderBlocks.Text

/-- A finished program. -/
structure CompiledProgram where
  /-- The text of the vertex phase. -/
  vertex : String
  /-- The text of the fragment phase. -/
  fragment : String
  /-- The uniforms that are fed from outside. -/
  uniforms : List Uniform
  /-- The calls of both phases. -/
  calls : List Call
  deriving DecidableEq, Repr

namespace Program

/-- The line that declares a uniform. -/
def renderExternal (uniform : Uniform) : String :=
  "uniform " ++ uniform.type.spelling ++ " " ++ uniform.name ++ ";\n"

/-- The line that declares a variable. -/
def renderVariable (cell : Variable) : String :=
  "    " ++ cell.type.spelling ++ " " ++ cell.name ++ ";\n"

/-- The line that makes a call. -/
def renderCall (call : Call) : String :=
  "    " ++ call.name ++ "(" ++ ", ".intercalate call.args ++ ");\n"

/-- The function that a call needs, and an empty line. -/
def renderBody (call : Call) : String :=
  String.ofList (trimEnd call.body.toList) ++ "\n\n"

/-- The text of a phase. -/
def renderPhase (program : Program) (phase : Phase) : String :=
  String.join (program.externals.map renderExternal) ++
    (if program.externals.isEmpty then "" else "\n") ++
    String.join ((program.callsOf phase).map renderBody) ++
    "void main() \x7b\n" ++
    String.join ((program.localsOf phase).map renderVariable) ++
    String.join ((program.callsOf phase).map renderCall) ++
    "\x7d\n"

/-- The finished program. -/
def compile (program : Program) : CompiledProgram where
  vertex := program.renderPhase .vertex
  fragment := program.renderPhase .fragment
  uniforms := program.externals
  calls := program.calls

end Program

namespace CompiledProgram

/-- The place of a block among the calls of a phase, counted from zero. -/
def position? (compiled : CompiledProgram) (block : BlockIndex) (phase : Phase) : Option Nat :=
  (compiled.calls.filter (·.phase = phase)).findIdx? (·.origin == block)

end CompiledProgram

end ShaderBlocks
