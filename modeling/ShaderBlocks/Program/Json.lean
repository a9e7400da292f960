import ShaderBlocks.Json.Writer
import ShaderBlocks.Program.Render

/-!
# Finished programs as JSON

The texts of both phases, the uniforms to feed and the calls, for tools that go on
from there. The functions that the calls need are part of the texts and are not
repeated.
-/

namespace ShaderBlocks

/-- A uniform that is fed from outside, as a value. -/
def Uniform.toJson (uniform : Uniform) : Json :=
  .object [
    ("kind", .string "uniform"),
    ("name", .string uniform.name),
    ("type", .string uniform.type.spelling),
    ("value", Json.stringOrNull uniform.value)]

/-- A call as a value. -/
def Call.toJson (call : Call) : Json :=
  .object [
    ("phase", .string call.phase.name),
    ("origin", Json.nat call.origin),
    ("name", .string call.name),
    ("args", Json.strings call.args),
    ("priority", Json.nat call.priority.toNat)]

/-- A finished program as a value. -/
def CompiledProgram.toJson (compiled : CompiledProgram) : Json :=
  .object [
    ("vertex", .string compiled.vertex),
    ("fragment", .string compiled.fragment),
    ("uniforms", .array (compiled.uniforms.map Uniform.toJson)),
    ("calls", .array (compiled.calls.map Call.toJson))]

end ShaderBlocks
