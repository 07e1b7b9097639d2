import Rivulet.Analysis
import Rivulet.Machine.Run
import Rivulet.Source
import Rivulet.Uuid

/-!
Projects: named sources that can borrow each other's values. The first source is the one that the
project evaluates. A project never changes; every edit makes a new one, with at least one source and
no name twice.
-/

namespace Rivulet

/-- Why something cannot be done with a project. Problems of a program are conflicts or exceptions
instead. -/
inductive ProjectError where
  | parse (source : String) (error : ParseError)
  | unknownSource (name : String)
  | duplicateSource (name : String)
  | empty
  | borrowCycle (source : String)
  | suspended (source : String)
  | fault (cause : Fault)
  /-- A saved project that is no valid JSON document of its form. -/
  | json
deriving DecidableEq, Repr

/-- An error in words. -/
def ProjectError.message : ProjectError → String
  | parse source error => s!"source `{source}` does not parse: {error.message}"
  | unknownSource name => s!"no source named `{name}`"
  | duplicateSource name => s!"a source named `{name}` already exists"
  | empty => "a project needs at least one source"
  | borrowCycle source => s!"source `{source}` borrows itself through other sources"
  | suspended source => s!"evaluation of `{source}` was suspended"
  | fault cause => cause.message
  | json => "project is not valid JSON"

/-- A project: its identity and name, its sources, and what their names can refer to. -/
structure Project (N : Type := String) where
  id : Uuid
  name : String
  sources : List (Source N)
  natives : Natives N
  streams : List (StreamSignature N)

namespace Project

variable {N : Type}

/-! ### Making projects -/

/-- The first name of a list that occurs earlier in it. -/
def firstRepeated? : List String → List String → Option String
  | _, [] => none
  | seen, name :: rest =>
    if seen.contains name then some name else firstRepeated? (name :: seen) rest

/-- A project with other sources, provided that there is one and that no name occurs twice. -/
def withSources (project : Project N) (sources : List (Source N)) : Except ProjectError (Project N) :=
  if sources.isEmpty then .error .empty
  else
    match firstRepeated? [] (sources.map Source.name) with
    | some name => .error (.duplicateSource name)
    | none => .ok { project with sources }

/-- A project of some sources with the standard natives and streams. -/
def create [DecidableEq N] [Naming N] (id : Uuid) (name : String) (sources : List (Source N)) :
    Except ProjectError (Project N) :=
  withSources ⟨id, name, [], Natives.standard, Streams.standard.signatures⟩ sources

/-- Reads a source, naming it if that fails. -/
def readSource (name text : String) (parser : SourceParser) : Except ProjectError Source :=
  match Source.parse name text parser with
  | .ok source => .ok source
  | .error error => .error (.parse name error)

/-- Reads names and texts into a project. -/
def parse (id : Uuid) (name : String) (texts : List (String × String)) (parser : SourceParser) :
    Except ProjectError Project := do
  let sources ← texts.mapM fun text => readSource text.1 text.2 parser
  create id name sources

/-- The project with other streams for its names to refer to. -/
def withStreams (project : Project N) (streams : List (StreamSignature N)) : Project N :=
  { project with streams }

/-! ### Looking up -/

/-- The place of the source of a name. -/
def indexOf? (project : Project N) (name : String) : Option Nat :=
  project.sources.findIdx? fun source => source.name == name

/-- The source of a name. -/
def source? (project : Project N) (name : String) : Option (Source N) :=
  project.sources.find? fun source => source.name == name

/-- The place of the source of a name, which must exist. -/
def indexOf (project : Project N) (name : String) : Except ProjectError Nat :=
  match project.indexOf? name with
  | some index => .ok index
  | none => .error (.unknownSource name)

/-- The source that the project evaluates. -/
def main (project : Project N) : Source N :=
  project.sources.head?.getD ⟨"", "", ⟨#[], #[], .missing⟩, 0⟩

/-- Whether a source borrows anything at all. -/
def hasBorrows (project : Project N) (name : String) : Bool :=
  (project.source? name).any fun source => !source.borrows.isEmpty

/-! ### Edits -/

/-- Changes the source at a place. -/
def modifySource (project : Project N) (index : Nat) (change : Source N → Source N) :
    Except ProjectError (Project N) :=
  project.withSources (project.sources.modify index change)

/-- Replaces the text of a source; the caret stays where it is if it can. -/
def withSource (project : Project) (name text : String) (parser : SourceParser) :
    Except ProjectError Project := do
  let index ← project.indexOf name
  let replacement ← readSource name text parser
  project.modifySource index fun source => replacement.withCaret source.caret

/-- Moves the caret of a source. -/
def withCaret (project : Project N) (name : String) (caret : Nat) : Except ProjectError (Project N) := do
  let index ← project.indexOf name
  project.modifySource index (Source.withCaret · caret)

/-- Adds a source at the end. -/
def withNewSource (project : Project) (name text : String) (parser : SourceParser) :
    Except ProjectError Project := do
  if (project.source? name).isSome then throw (.duplicateSource name)
  let source ← readSource name text parser
  project.withSources (project.sources ++ [source])

/-- Removes a source. -/
def withoutSource (project : Project N) (name : String) : Except ProjectError (Project N) := do
  let index ← project.indexOf name
  project.withSources (project.sources.eraseIdx index)

end Project

end Rivulet
