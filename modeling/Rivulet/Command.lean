import Rivulet.FileTree
import Rivulet.Project.Analyses
import Rivulet.Project.Evaluation

/-!
The command line: `check` reports the conflicts of a source and `run` evaluates it. The source is
the only one of a project that is named after the file without its last extension.
-/

namespace Rivulet.Command

/-- What a command leaves: its exit code and what it writes to both outputs. -/
structure Outcome where
  exit : Nat
  stdout : String
  stderr : String
deriving DecidableEq, Repr, Inhabited

/-- How the command is used. -/
def usage : String :=
  "Usage: rill <command> <file>\n\nCommands:\n" ++
  "  check    Report static conflicts\n" ++
  "  run      Evaluate and print the final value\n"

/-- The command failed with a message. -/
def failure (message : String) : Outcome :=
  ⟨1, "", message⟩

/-- The names that a path is made of. -/
def components (path : String) : List (List Char) :=
  (Text.splitAtEvery (· == '/') path.toList).filter fun part => !part.isEmpty && part != ['.']

/-- A file name without its last extension; a point in front starts no extension. -/
def withoutExtension (name : List Char) : List Char :=
  match name.reverse.dropWhile (· != '.') with
  | '.' :: c :: before => (c :: before).reverse
  | _ => name

/-- The name of the source in a file. -/
def sourceName (path : String) : String :=
  match (components path).getLast? with
  | none | some ['.', '.'] => "main"
  | some name => String.ofList (withoutExtension name)

/-- The project of the source in a file, or what is wrong. -/
def load (path : String) (contents : Except FileError String) : Except String Project :=
  match contents with
  | .error error => .error s!"{path}: {error.message}"
  | .ok text =>
    let name := sourceName path
    match Project.parse ⟨0⟩ name [(name, text)] (Line.parse false) with
    | .error error => .error error.message
    | .ok project => .ok project

/-- Writes a line for each conflict and fails if one of them blocks. -/
def check (project : Project) : Outcome :=
  let analyses := ((project.analyzeAll).run project.noAnalyses).1
  let lines := (project.sources.zip analyses).flatMap fun (source, analysis) =>
    analysis.conflicts.map fun conflict => s!"{source.name}: {conflict.toText}\n"
  ⟨if analyses.any Analysis.isBlocked then 1 else 0, String.join lines, ""⟩

/-- Writes the value of the project and fails if it is an exception. -/
def run (project : Project) : Outcome :=
  match project.evaluate ⟨{}, Streams.standard.bindings, none⟩ with
  | .ok value => ⟨if value.isException then 1 else 0, value.toText ++ "\n", ""⟩
  | .error error => failure s!"error: {error.message}\n"

/-- The file that a command reads, if it reads one. -/
def file? (arguments : List String) : Option String :=
  match arguments with
  | _ :: path :: _ => some path
  | _ => none

/-- What a command leaves, given the contents of its file. -/
def outcome (arguments : List String) (contents : Except FileError String) : Outcome :=
  match arguments with
  | command :: path :: _ =>
    match load path contents with
    | .error message => failure s!"error: {message}\n"
    | .ok project =>
      if command = "check" then check project
      else if command = "run" then run project
      else failure (s!"unknown command: {command}\n" ++ usage)
  | _ => failure usage

/-- What a command leaves when it runs in a folder. -/
def runIn (place : WorkingFolder) (arguments : List String) : Outcome :=
  outcome arguments (((file? arguments).map place.read).getD (.error .notFound))

end Rivulet.Command
