/-!
# Errors in shader source

What can be wrong with the text of a fragment, and the words that say so.
-/

namespace ShaderBlocks

/-- Why a text is not the source of a fragment. -/
inductive SourceError
  /-- A closing brace without an opening one, or the other way round. -/
  | unbalancedBraces
  /-- The text ends inside a statement. -/
  | unterminatedStatement (text : String)
  /-- No function is defined. -/
  | noEntryFunction
  /-- A parameter, or the head of a function, that cannot be read. -/
  | malformedParameter (text : String)
  /-- A parameter carries a qualifier that cannot be passed through a call. -/
  | unsupportedQualifier (parameter qualifier : String)
  /-- A type that no value can have. -/
  | unknownType (spelling : String)
  /-- The declaration of a uniform that cannot be read. -/
  | malformedUniform (text : String)
  deriving DecidableEq, Repr

/-- The words for an error in shader source. -/
def SourceError.message : SourceError → String
  | unbalancedBraces => "unbalanced braces in fragment source"
  | unterminatedStatement text => s!"statement `{text}` is missing its terminating `;`"
  | noEntryFunction => "fragment source defines no function"
  | malformedParameter text => s!"malformed parameter `{text}`"
  | unsupportedQualifier parameter qualifier =>
    s!"unsupported qualifier `{qualifier}` on parameter `{parameter}`"
  | unknownType spelling => s!"unknown type `{spelling}`"
  | malformedUniform text => s!"malformed uniform declaration `{text}`"

end ShaderBlocks
