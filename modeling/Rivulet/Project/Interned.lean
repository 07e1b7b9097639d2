import Rivulet.Interner
import Rivulet.Project.Edit
import Rivulet.Project.Evaluation
import Rivulet.Project.Saved

/-!
Projects with numbers for names. All that a project reads puts its texts into one table, and the
trees, natives and streams of the project hold the numbers of the texts there. The edits of a
project go on with its table; a project that is loaded begins a table of its own, in which the same
texts may have other numbers.
-/

namespace Rivulet

/-- A project whose names are numbers, and the table of the texts that they stand for. -/
structure InternedProject extends Project Name where
  table : Interner

namespace InternedProject

/-! ### Reading -/

/-- Reading sources while their texts join a table. -/
abbrev Reading := StateT Interner (Except ProjectError)

/-- Reads a source. The texts of its tree join the table, and the tree holds their numbers. -/
def readSource (name text : String) (parser : SourceParser) : Reading (Source Name) := fun table =>
  (Project.readSource name text parser).map (Source.intern · table)

/-- The texts of the standard natives and streams, in the order in which they join a table. -/
def standardTexts : List String :=
  Natives.texts ++ Streams.texts

/-- A project of some sources with the standard natives and streams, whose names join the table
of the sources. -/
def create (id : Uuid) (name : String) (sources : List (Source Name)) (table : Interner) :
    Except ProjectError InternedProject := do
  let table := table.internAll standardTexts
  let project ← @Project.create Name _ table.naming id name sources
  .ok ⟨project, table⟩

/-- Reads names and texts into a project with a table of its own. -/
def parse (id : Uuid) (name : String) (texts : List (String × String)) (parser : SourceParser) :
    Except ProjectError InternedProject := do
  let (sources, table) ← (texts.mapM fun text => readSource text.1 text.2 parser).run .empty
  create id name sources table

/-! ### Edits -/

/-- Replaces the text of a source; the caret stays where it is if it can. -/
def withSource (project : InternedProject) (name text : String) (parser : SourceParser) :
    Except ProjectError InternedProject := do
  let index ← project.indexOf name
  let (replacement, table) ← (readSource name text parser).run project.table
  let changed ← project.modifySource index fun source => replacement.withCaret source.caret
  .ok ⟨changed, table⟩

/-- Moves the caret of a source. -/
def withCaret (project : InternedProject) (name : String) (caret : Nat) : Except ProjectError InternedProject := do
  let changed ← project.toProject.withCaret name caret
  .ok ⟨changed, project.table⟩

/-- Adds a source at the end. -/
def withNewSource (project : InternedProject) (name text : String) (parser : SourceParser) :
    Except ProjectError InternedProject := do
  if (project.source? name).isSome then throw (.duplicateSource name)
  let (source, table) ← (readSource name text parser).run project.table
  let changed ← project.withSources (project.sources ++ [source])
  .ok ⟨changed, table⟩

/-- Removes a source. -/
def withoutSource (project : InternedProject) (name : String) : Except ProjectError InternedProject := do
  let changed ← project.toProject.withoutSource name
  .ok ⟨changed, project.table⟩

/-- Other texts join the table, which all versions of a project share: those of an edit that failed,
or of an edit to another version. -/
def withTexts (project : InternedProject) (texts : List String) : InternedProject :=
  { project with table := project.table.internAll texts }

/-- What can happen to a project between reading and saving: an edit, or texts that join its table
from elsewhere. -/
inductive Change where
  | edit (edit : Project.Edit)
  | join (texts : List String)

/-- The edits among the changes. -/
def Change.edits : Change → List Project.Edit
  | .edit change => [change]
  | .join _ => []

/-- Makes a change. -/
def Change.apply (parser : SourceParser) (project : InternedProject) : Change → Except ProjectError InternedProject
  | .edit (.replace name text) => project.withSource name text parser
  | .edit (.moveCaret name caret) => project.withCaret name caret.toNat
  | .edit (.add name text) => project.withNewSource name text parser
  | .edit (.remove name) => project.withoutSource name
  | .join texts => .ok (project.withTexts texts)

/-- Makes changes one after the other, as long as they succeed. -/
def change (parser : SourceParser) (project : InternedProject) (changes : List Change) :
    Except ProjectError InternedProject :=
  changes.foldlM (Change.apply parser) project

/-! ### Loading -/

/-- Reads the sources of a saved project again, into a table of its own. -/
def load (saved : SavedProject) (parser : SourceParser) : Except ProjectError InternedProject := do
  let reread (source : SavedSource) : Reading (Source Name) := do
    let read ← readSource source.name source.code parser
    pure (read.withCaret source.caret)
  let (sources, table) ← (saved.sources.mapM reread).run .empty
  create saved.id saved.name sources table

/-- Loads a project from a document. -/
def ofJson (text : String) (parser : SourceParser) : Except ProjectError InternedProject :=
  match SavedProject.parse? text with
  | none => .error .json
  | some saved => load saved parser

/-! ### Evaluation -/

/-- An evaluation with the first values of the standard streams, caused by the stream of a number or
by none. -/
def initial (project : InternedProject) (limits : Limits) (trigger : Option Nat) : Occasion Name :=
  @Occasion.initial Name _ project.table.naming limits trigger

/-- Evaluates a source after the sources it borrows. -/
def evaluateSource (project : InternedProject) (name : String) (occasion : Occasion Name) :
    Except ProjectError (Value Name) :=
  @Project.evaluateSource Name _ project.table.naming project.toProject name occasion

end InternedProject

end Rivulet
