import ShaderBlocks.CommandLine.Run

/-!
# The program

The command line on the files of the system.
-/

namespace ShaderBlocks.CommandLine

/-- The number of an error of the system, which some accesses give as its negative. -/
def errorNumber (code : UInt32) : UInt32 :=
  if code < 0x80000000 then code else 0 - code

/-- Why the system refuses an access. -/
def fileError (error : IO.Error) : FileError :=
  match error with
  | .noFileOrDirectory .. => .notFound
  | .alreadyExists .. => .alreadyExists
  | .inappropriateType _ code _ =>
    if errorNumber code = 20 then .notDirectory
    else if errorNumber code = 21 then .isDirectory
    else .other (toString error)
  | .invalidArgument _ code _ =>
    if errorNumber code = 36 then .nameTooLong else .other (toString error)
  | _ => .other (toString error)

/-- An access to the system, with its refusal as a result. -/
def accessSystem {α : Type} (action : IO α) : IO (Except FileError α) := do
  try
    return .ok (← action)
  catch error =>
    return .error (fileError error)

/-- The files of the system. -/
def systemFiles : Files IO where
  read path := do
    match ← accessSystem (IO.FS.readBinFile path) with
    | .ok bytes => return textOfBytes bytes
    | .error error => return .error error
  makeDirectory path := accessSystem (IO.FS.createDir path)
  isDirectory path := do
    match ← accessSystem (IO.FS.realPath path) with
    | .ok place => place.isDir
    | .error _ => return false
  write path text := accessSystem (IO.FS.writeFile path text)

end ShaderBlocks.CommandLine

/-- Run the command line. -/
def main (arguments : List String) : IO UInt32 := do
  let outcome ← ShaderBlocks.CommandLine.run ShaderBlocks.CommandLine.systemFiles arguments
  IO.print outcome.output
  IO.eprint outcome.errors
  return outcome.exitCode.toUInt32
