import Rivulet.Project

/-!
Edits of projects as data.
-/

namespace Rivulet.Project

/-- A change to the sources of a project. -/
inductive Edit where
  | replace (name text : String)
  | moveCaret (name : String) (caret : UInt64)
  | add (name text : String)
  | remove (name : String)

/-- Makes a change. -/
def Edit.apply (parser : SourceParser) (project : Project) : Edit → Except ProjectError Project
  | .replace name text => project.withSource name text parser
  | .moveCaret name caret => project.withCaret name caret.toNat
  | .add name text => project.withNewSource name text parser
  | .remove name => project.withoutSource name

/-- Makes changes one after the other, as long as they succeed. -/
def edit (parser : SourceParser) (project : Project) (edits : List Edit) : Except ProjectError Project :=
  edits.foldlM (Edit.apply parser) project

end Rivulet.Project
