/-!
# Command line options

Options may come in any order, and the last of several values counts. The level of
logging is accepted and has no effect on the results.
-/

namespace ShaderBlocks.CommandLine

/-- What the command line asks for. -/
structure Options where
  /-- The file that holds the document. -/
  graphJson : Option String
  /-- The identifier of the material to compile. -/
  material : Option String
  /-- The directory to write the compiled files to. -/
  outputDir : Option String
  /-- Write the compiled program as JSON. -/
  json : Bool
  /-- The level of logging. -/
  logLevel : Option String
  deriving DecidableEq, Repr

/-- What is asked for without any option. -/
def Options.default : Options := ⟨none, none, none, false, none⟩

/-- Why a command line cannot be understood. -/
inductive UsageError
  /-- An option lacks its value. -/
  | missingValue (option : String)
  /-- There is no such option. -/
  | unknownArgument (argument : String)
  /-- The program can be written in one way only. -/
  | conflictingOutputs
  deriving DecidableEq, Repr

/-- The words for why a command line cannot be understood. -/
def UsageError.message : UsageError → String
  | missingValue option => "missing value for " ++ option
  | unknownArgument argument =>
    "unknown argument: " ++ argument ++ " (supported: --graph-json <graph.json>, " ++
      "--material <id>, --output-dir <dir>, --json, --log-level <filter>)"
  | conflictingOutputs => "--json and --output-dir can't be combined"

/-- An option that takes a value. -/
inductive ValueOption
  | graphJson
  | material
  | outputDir
  | logLevel
  deriving DecidableEq, Repr

namespace ValueOption

/-- The option with the given spelling. -/
def ofArgument? (argument : String) : Option ValueOption :=
  if argument = "--graph-json" then some .graphJson
  else if argument = "--material" then some .material
  else if argument = "--outputdir" ∨ argument = "--output-dir" then some .outputDir
  else if argument = "--log-level" then some .logLevel
  else none

/-- The spelling of an option in messages. -/
def name : ValueOption → String
  | graphJson => "--graph-json"
  | material => "--material"
  | outputDir => "--output-dir"
  | logLevel => "--log-level"

/-- Give an option its value. -/
def assign (option : ValueOption) (value : String) (options : Options) : Options :=
  match option with
  | graphJson => { options with graphJson := some value }
  | material => { options with material := some value }
  | outputDir => { options with outputDir := some value }
  | logLevel => { options with logLevel := some value }

end ValueOption

namespace Options

/-- Read arguments from left to right, adding to what is asked for. -/
def readArguments (options : Options) : List String → Except UsageError Options
  | [] => .ok options
  | argument :: rest =>
    if argument = "--json" then
      readArguments { options with json := true } rest
    else
      match ValueOption.ofArgument? argument, rest with
      | none, _ => .error (.unknownArgument argument)
      | some option, [] => .error (.missingValue option.name)
      | some option, value :: rest => readArguments (option.assign value options) rest

/-- Read a command line. -/
def read (arguments : List String) : Except UsageError Options := do
  let options ← readArguments default arguments
  if options.json && options.outputDir.isSome then throw .conflictingOutputs
  return options

end Options

end ShaderBlocks.CommandLine
