import Rivulet.Command

/-!
The program: reads the file that a command names, and writes what the command leaves.
-/

namespace Rivulet.Command

/-- The number of a system error; a system call may also yield it with the opposite sign. -/
def errorNumber (code : UInt32) : Nat :=
  min code.toNat (-code).toNat

/-- Why the system did not let a file be read. -/
def fileError (error : IO.Error) : FileError :=
  match error with
  | .noFileOrDirectory .. => .notFound
  | .permissionDenied .. => .permissionDenied
  | .inappropriateType _ code _ => if errorNumber code = 20 then .notDirectory else .isDirectory
  | .invalidArgument _ code _ =>
    if errorNumber code = 36 then .nameTooLong else .other (toString error)
  | _ => .other (toString error)

/-- Reads a text file. -/
def readText (path : String) : IO (Except FileError String) := do
  try
    let bytes ← IO.FS.readBinFile path
    match String.fromUTF8? bytes with
    | some text => pure (.ok text)
    | none => pure (.error .notText)
  catch error =>
    pure (.error (fileError error))

/-- Runs a command and yields its exit code. -/
def perform (arguments : List String) : IO UInt32 := do
  let contents ←
    match file? arguments with
    | some path => readText path
    | none => pure (.error .notFound)
  let outcome := outcome arguments contents
  IO.print outcome.stdout
  IO.eprint outcome.stderr
  pure (UInt32.ofNat outcome.exit)

end Rivulet.Command

/-- Runs the command that the arguments name. -/
def main (arguments : List String) : IO UInt32 :=
  Rivulet.Command.perform arguments
