import ShaderBlocks.CommandLine.Files
import ShaderBlocks.CommandLine.Options
import ShaderBlocks.Document.Build
import ShaderBlocks.Document.Reader
import ShaderBlocks.Program.Json

/-!
# The command line

One document is loaded, built and compiled. The program is then saved to two files,
or printed as JSON, or printed as plain text. What is printed before a failure stays
printed.
-/

namespace ShaderBlocks.CommandLine

/-- Why a run fails. -/
inductive RunError
  /-- No document is named. -/
  | noDocument
  /-- The document cannot be read from its file. -/
  | unreadable (path : String) (error : FileError)
  /-- The file holds no document. -/
  | invalidDocument (path : String) (fault : Json.Fault)
  /-- The document describes no graph. -/
  | build (error : BuildError)
  /-- The graph cannot be compiled. -/
  | compile (path : String) (error : GraphError)
  /-- The directory for the files cannot be made. -/
  | makeDirectory (path : String) (error : FileError)
  /-- A file cannot be written. -/
  | write (path : String) (error : FileError)

/-- The words for a text that is no document. -/
def invalidDocumentMessage : String := "failed to parse graph json"

/-- The words for why a run fails. -/
def RunError.message : RunError → String
  | noDocument => "--graph-json <graph.json> is required"
  | unreadable path error => "failed to read graph json at " ++ path ++ ": " ++ error.message
  | invalidDocument path _ => "in " ++ path ++ ": " ++ invalidDocumentMessage
  | build error => error.message
  | compile path error => "failed to compile " ++ path ++ ": " ++ error.message
  | makeDirectory path error => "failed to create " ++ path ++ ": " ++ error.message
  | write path error => "failed to write " ++ path ++ ": " ++ error.message

/-- What is written to the error output when a run fails. The line about a text that
is no document is left open, so that details of the fault can be put behind it. -/
def RunError.report (error : RunError) : String :=
  let line := "[compile] failed: " ++ error.message
  match error with
  | invalidDocument _ _ => line
  | _ => line ++ "\n"

/-- A run in progress, with what it has printed so far. -/
abbrev Run (m : Type → Type) := ExceptT RunError (StateT String m)

variable {m : Type → Type} [Monad m]

/-- Print a line. -/
def printLine (line : String) : Run m Unit :=
  modify (· ++ line ++ "\n")

/-- A result with its error put into words of a run. -/
def orFail {ε α : Type} (reason : ε → RunError) : Except ε α → Run m α
  | .ok value => pure value
  | .error error => throw (reason error)

/-- Load a document. -/
def load (files : Files m) (path : String) : Run m Document := do
  let text ← orFail (.unreadable path) (← files.read path)
  orFail (.invalidDocument path) (Document.read text)

/-- Build the graph of a document and compile it. -/
def compileDocument (path : String) (document : Document) : Run m CompiledProgram := do
  match document.build.run .start with
  | .ok built _ => orFail (.compile path) built.compile
  | .error error _ => throw (.build error)

/-- Save one text and say so. -/
def save (files : Files m) (directory name text : String) : Run m Unit := do
  let path := joinPath directory name
  orFail (.write path) (← files.write path text)
  printLine ("[compile] saved: " ++ path)

/-- Save a program to a directory, under the name of the document. -/
def saveProgram (files : Files m) (directory name : String) (program : CompiledProgram) :
    Run m Unit := do
  orFail (.makeDirectory directory) (← files.provideDirectories directory)
  save files directory (name ++ ".vert") program.vertex
  save files directory (name ++ ".frag") program.fragment

/-- Do what the options ask for. -/
def perform (files : Files m) (options : Options) : Run m Unit := do
  let path ← orFail (fun _ => .noDocument) (options.graphJson.elim (.error ()) .ok)
  let document := (← load files path).withMaterial options.material
  let program ← compileDocument path document
  match options.outputDir with
  | some directory => saveProgram files directory (Text.sanitize document.metadata.name) program
  | none =>
    if options.json then
      printLine (program.toJson.indented 0)
    else
      printLine ("// vertex\n" ++ program.vertex ++ "\n// fragment\n" ++ program.fragment)

/-- How a run ended. -/
structure Outcome where
  /-- The exit code: 0 for success, 1 for a failure, 2 for a command line that cannot
  be understood. -/
  exitCode : UInt8
  /-- What was printed. -/
  output : String
  /-- What was written to the error output. -/
  errors : String
  deriving DecidableEq, Repr

/-- Run a command line. -/
def run (files : Files m) (arguments : List String) : m Outcome := do
  match Options.read arguments with
  | .error error => return ⟨2, "", error.message ++ "\n"⟩
  | .ok options =>
    match ← (perform files options).run.run "" with
    | (.ok (), output) => return ⟨0, output, ""⟩
    | (.error error, output) => return ⟨1, output, error.report⟩

end ShaderBlocks.CommandLine
