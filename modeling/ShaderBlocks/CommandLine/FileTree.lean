import ShaderBlocks.CommandLine.Files

/-!
# File trees

A file system that is a plain value: a tree of files and directories under one
working directory. Of what lies outside, only the directories on the way up to the
root are known to exist. Looking up a name needs a directory to look in, and the name
may have at most `nameLimit` bytes.
-/

namespace ShaderBlocks.CommandLine

/-- Something that a directory has under a name. -/
inductive Entry
  /-- A file with its bytes. -/
  | file (bytes : ByteArray)
  /-- A directory with its contents, each under its name. -/
  | directory (contents : List (String × Entry))

/-- How many bytes a name may have. -/
def nameLimit : Nat := 255

/-- How many bytes a path may have. -/
def pathLimit : Nat := 4095

/-- Whether a name leads outside: to the directory above or to the root. No file has
such a name. -/
def leadsOut (name : String) : Bool :=
  name = ".." ∨ name = "/"

namespace Entry

/-- What some contents have under a name. Directories outside are there even if
nothing is known about them. -/
def child? (name : String) (contents : List (String × Entry)) : Option Entry :=
  match contents.find? (·.1 == name) with
  | some (_, entry) => some entry
  | none => if leadsOut name then some (.directory []) else none

/-- Put something under a name, instead of what was there. -/
def setChild (name : String) (entry : Entry) : List (String × Entry) → List (String × Entry)
  | [] => [(name, entry)]
  | (other, held) :: rest =>
    if other = name then (name, entry) :: rest
    else (other, held) :: setChild name entry rest

/-- What some names lead to. -/
def descend? : Entry → List String → Option Entry
  | entry, [] => some entry
  | .file _, _ :: _ => none
  | .directory contents, name :: rest =>
    match child? name contents with
    | some entry => entry.descend? rest
    | none => none

/-- The contents of a directory. A file has none. -/
def contents : Entry → List (String × Entry)
  | .file _ => []
  | .directory contents => contents

/-- Put something where some names lead to. -/
def put (placed : Entry) : Entry → List String → Entry
  | _, [] => placed
  | entry, name :: rest =>
    let inner := (child? name entry.contents).getD (.directory [])
    .directory (setChild name (put placed inner rest) entry.contents)

end Entry

/-- The names that lead from the working directory to a place, innermost first. The
outermost name of a place outside is `..`, once for each level above the working
directory, or `/` for the root. -/
abbrev Location := List String

namespace Location

/-- Where a path starts. -/
def start (path : String) : Location :=
  if isAbsolute path then ["/"] else []

/-- Where the directory above a place is. The root is above itself. -/
def parent : Location → Location
  | [] => [".."]
  | name :: outer =>
    if name = "/" then name :: outer
    else if name = ".." then ".." :: name :: outer
    else outer

end Location

mutual

/-- The files in something at a place, each with its own place. Files outside the
working directory are left out. -/
def Entry.filesAt (location : Location) : Entry → List (Location × ByteArray)
  | .file bytes => [(location, bytes)]
  | .directory contents => filesIn location contents

/-- The files in the contents of a directory at a place. -/
def filesIn (location : Location) : List (String × Entry) → List (Location × ByteArray)
  | [] => []
  | (name, entry) :: rest =>
    if leadsOut name then filesIn location rest
    else entry.filesAt (name :: location) ++ filesIn location rest

end

/-- Files and directories under one working directory. -/
structure FileTree where
  /-- The working directory. -/
  working : Entry

/-- A place, with what is there. -/
structure Place where
  /-- Where the place is. -/
  location : Location
  /-- What is there, if there is something. -/
  found : Option Entry

namespace FileTree

/-- An empty working directory. -/
def empty : FileTree := ⟨.directory []⟩

/-- The place at a location. -/
def placeAt (tree : FileTree) (location : Location) : Place :=
  ⟨location, tree.working.descend? location.reverse⟩

/-- Put something at a location, instead of what was there. -/
def put (tree : FileTree) (location : Location) (entry : Entry) : FileTree :=
  ⟨entry.put tree.working location.reverse⟩

/-- Where a name leads from a place, which must be a directory. -/
def step (tree : FileTree) (place : Place) (name : String) : Except FileError Place :=
  match place.found with
  | none => .error .notFound
  | some (.file _) => .error .notDirectory
  | some (.directory contents) =>
    if nameLimit < name.utf8ByteSize then .error .nameTooLong
    else if staysInPlace name then .ok place
    else if name = ".." then .ok (tree.placeAt place.location.parent)
    else .ok ⟨name :: place.location, Entry.child? name contents⟩

/-- Where some names lead from a place. -/
def walk (tree : FileTree) (place : Place) : List String → Except FileError Place
  | [] => .ok place
  | name :: rest =>
    match tree.step place name with
    | .ok next => tree.walk next rest
    | .error error => .error error

/-- Where the names of a path lead, of which `select` says which ones count. -/
def locate (tree : FileTree) (path : String) (select : List String → List String) :
    Except FileError Place :=
  if path = "" then .error .notFound
  else if pathLimit < path.utf8ByteSize then .error .nameTooLong
  else tree.walk (tree.placeAt (.start path)) (select (pathNames path))

/-- Where a path leads. A path with a slash at its end leads through a directory. -/
def resolve (tree : FileTree) (path : String) : Except FileError Place :=
  tree.locate path id

/-- Some names without the empty ones at the end. -/
def dropEmptyEnd (names : List String) : List String :=
  (names.reverse.dropWhile (· = "")).reverse

/-- Read a file as text. -/
def read (tree : FileTree) (path : String) : Except FileError String := do
  match (← tree.resolve path).found with
  | none => throw .notFound
  | some (.directory _) => throw .isDirectory
  | some (.file bytes) => textOfBytes bytes

/-- Make a directory in one that exists. Slashes at the end of its path do not
matter. -/
def makeDirectory (tree : FileTree) (path : String) : Except FileError FileTree := do
  let place ← tree.locate path dropEmptyEnd
  match place.found with
  | some _ => throw .alreadyExists
  | none => return tree.put place.location (.directory [])

/-- Whether there is a directory. -/
def isDirectory (tree : FileTree) (path : String) : Bool :=
  match tree.resolve path with
  | .ok ⟨_, some (.directory _)⟩ => true
  | _ => false

/-- Write bytes to a file. -/
def write (tree : FileTree) (path : String) (bytes : ByteArray) : Except FileError FileTree := do
  let place ← tree.resolve path
  match place.found with
  | some (.directory _) => throw .isDirectory
  | _ => return tree.put place.location (.file bytes)

/-- A change of a tree, or a failure that leaves it. -/
def access (change : FileTree → Except FileError FileTree) :
    StateM FileTree (Except FileError Unit) := do
  match change (← get) with
  | .ok tree =>
    set tree
    return .ok ()
  | .error error => return .error error

/-- Access to the files of a tree. -/
def files : Files (StateM FileTree) where
  read path := do return (← get).read path
  makeDirectory path := access (·.makeDirectory path)
  isDirectory path := do return (← get).isDirectory path
  write path text := access (·.write path text.toUTF8)

/-- The files under the working directory that are not in another tree, with their
paths. -/
def newFiles (tree before : FileTree) : List (String × ByteArray) :=
  (tree.working.filesAt []).filterMap fun (location, bytes) =>
    if (before.placeAt location).found.isSome then none
    else some ("/".intercalate location.reverse, bytes)

end FileTree

end ShaderBlocks.CommandLine
