/-!
# Phases

A program has two phases. Vertices are processed first, fragments second, and the
two are compiled side by side from one graph.
-/

namespace ShaderBlocks

/-- A phase of a program. -/
inductive Phase
  | vertex
  | fragment
  deriving DecidableEq, Repr

namespace Phase

/-- The phases in the order they are compiled. -/
def all : List Phase := [vertex, fragment]

/-- The word for a phase in generated names and in messages. -/
def name : Phase → String
  | vertex => "vertex"
  | fragment => "fragment"

/-- The phase a word stands for. -/
def ofName? (word : String) : Option Phase :=
  all.find? fun phase => phase.name == word

/-- Every phase is compiled. -/
theorem mem_all (phase : Phase) : phase ∈ all := by
  cases phase <;> decide

/-- The word for a phase stands for that phase. -/
@[simp] theorem ofName?_name (phase : Phase) : ofName? phase.name = some phase := by
  cases phase <;> decide

end Phase

end ShaderBlocks
