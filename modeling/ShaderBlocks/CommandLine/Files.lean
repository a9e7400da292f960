import ShaderBlocks.Text.Blank

/-!
# Files

The command line reads one file and writes a few. What it needs of a file system is
described here: four accesses, and why they fail. A directory is made one at a time;
how a whole path of directories is made out of such steps is part of this module, so
that it is the same on every file system.
-/

namespace ShaderBlocks.CommandLine

open ShaderBlocks.Text

/-- Why an access to a file fails. -/
inductive FileError
  /-- A name in the path does not exist. -/
  | notFound
  /-- There is something where a directory is to be made. -/
  | alreadyExists
  /-- A name within the path is that of a file. -/
  | notDirectory
  /-- The path is that of a directory. -/
  | isDirectory
  /-- The path or a name in it is too long. -/
  | nameTooLong
  /-- The file holds no text. -/
  | notText
  /-- Any other reason the system gives. -/
  | other (reason : String)
  deriving DecidableEq, Repr

/-- The words for why an access to a file fails. -/
def FileError.message : FileError → String
  | notFound => "No such file or directory (os error 2)"
  | alreadyExists => "File exists (os error 17)"
  | notDirectory => "Not a directory (os error 20)"
  | isDirectory => "Is a directory (os error 21)"
  | nameTooLong => "File name too long (os error 36)"
  | notText => "stream did not contain valid UTF-8"
  | other reason => reason

/-- Access to files. -/
structure Files (m : Type → Type) where
  /-- Read a file as text. -/
  read : String → m (Except FileError String)
  /-- Make a directory in one that exists. -/
  makeDirectory : String → m (Except FileError Unit)
  /-- Whether there is a directory. -/
  isDirectory : String → m Bool
  /-- Write a text to a file, making the file if it does not exist. -/
  write : String → String → m (Except FileError Unit)

/-- The path of a name within a directory. -/
def joinPath (directory name : String) : String :=
  match directory.toList.getLast? with
  | none => name
  | some c => if c = '/' then directory ++ name else directory ++ "/" ++ name

/-- Whether a path starts from the root. -/
def isAbsolute (path : String) : Bool :=
  path.toList.head? = some '/'

/-- The names in a path, with empty names where slashes meet. -/
def pathNames (path : String) : List String :=
  (pieces (· == '/') path.toList).map String.ofList

/-- Whether a name leads to the directory it is looked up in. -/
def staysInPlace (name : String) : Bool :=
  name = "" ∨ name = "."

/-- The path of some names, innermost first, under `root`, and the paths above it. -/
def pathsUp (root : String) : List String → List String
  | [] => []
  | name :: outer => (root ++ "/".intercalate (name :: outer).reverse) :: pathsUp root outer

/-- A path and the paths of the directories above it, innermost first. Names that lead
nowhere else are not counted: only the path `a` is above `a/b/.`, and no path is
above `a/.`. -/
def ancestors (path : String) : List String :=
  let names := (pathNames path).filter fun name => !staysInPlace name
  if path = "" then []
  else path :: pathsUp (if isAbsolute path then "/" else "") names.reverse.tail

/-- The text that some bytes spell. -/
def textOfBytes (bytes : ByteArray) : Except FileError String :=
  match String.fromUTF8? bytes with
  | some text => .ok text
  | none => .error .notText

namespace Files

variable {m : Type → Type} [Monad m]

/-- Make a directory in one that exists, unless it exists itself. -/
def provideDirectory (files : Files m) (path : String) : m (Except FileError Unit) := do
  match ← files.makeDirectory path with
  | .ok () => return .ok ()
  | .error error => if ← files.isDirectory path then return .ok () else return .error error

/-- Make the first of some directories, each of which is in the next, unless it
exists. The others are made only if it is not found without them. -/
def provideInner (files : Files m) : List String → m (Except FileError Unit)
  | [] => return .ok ()
  | path :: outer => do
    match ← files.provideDirectory path with
    | .error .notFound =>
      match ← files.provideInner outer with
      | .ok () => files.provideDirectory path
      | .error error => return .error error
    | result => return result

/-- Make a directory and those above it, unless they exist. What was made before a
failure stays. -/
def provideDirectories (files : Files m) (path : String) : m (Except FileError Unit) :=
  files.provideInner (ancestors path)

end Files

end ShaderBlocks.CommandLine
