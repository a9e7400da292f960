/-!
# Value types

The types a parameter or a uniform may have, with their spelling in shader text.
Every other spelling is unknown.
-/

namespace ShaderBlocks

/-- The type of a value passed between blocks or fed from outside. -/
inductive ValueType
  | bool
  | int
  | uint
  | float
  | vec2
  | vec3
  | vec4
  | ivec2
  | ivec3
  | ivec4
  | bvec2
  | bvec3
  | bvec4
  | mat2
  | mat3
  | mat4
  | sampler2D
  | samplerCube
  deriving DecidableEq, Repr

namespace ValueType

/-- The types, each once. -/
def all : List ValueType :=
  [bool, int, uint, float, vec2, vec3, vec4, ivec2, ivec3, ivec4, bvec2, bvec3, bvec4,
    mat2, mat3, mat4, sampler2D, samplerCube]

/-- The spelling of a type in shader text. -/
def spelling : ValueType → String
  | bool => "bool"
  | int => "int"
  | uint => "uint"
  | float => "float"
  | vec2 => "vec2"
  | vec3 => "vec3"
  | vec4 => "vec4"
  | ivec2 => "ivec2"
  | ivec3 => "ivec3"
  | ivec4 => "ivec4"
  | bvec2 => "bvec2"
  | bvec3 => "bvec3"
  | bvec4 => "bvec4"
  | mat2 => "mat2"
  | mat3 => "mat3"
  | mat4 => "mat4"
  | sampler2D => "sampler2D"
  | samplerCube => "samplerCube"

/-- The type with the given spelling. Case matters. -/
def ofSpelling? (word : String) : Option ValueType :=
  all.find? fun type => type.spelling == word

/-- No type is left out. -/
theorem mem_all (type : ValueType) : type ∈ all := by
  cases type <;> decide

/-- The spelling of a type stands for that type. -/
@[simp] theorem ofSpelling?_spelling (type : ValueType) :
    ofSpelling? type.spelling = some type := by
  cases type <;> decide

/-- Only the spelling of a type stands for it. -/
theorem spelling_of_ofSpelling? {word : String} {type : ValueType}
    (found : ofSpelling? word = some type) : type.spelling = word := by
  simpa using List.find?_some found

end ValueType

end ShaderBlocks
