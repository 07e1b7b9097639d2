import Rivulet.Project

/-!
Saved projects. Only what a person wrote is kept: the names, texts and carets of the sources, and
the identity and name of the project. Trees are read again on loading.
-/

namespace Rivulet

/-- What is kept of a source. -/
structure SavedSource where
  name : String
  code : String
  caret : Nat
deriving DecidableEq, Repr, Inhabited

/-- What is kept of a project. -/
structure SavedProject where
  id : Uuid
  name : String
  sources : List SavedSource
deriving DecidableEq, Repr, Inhabited

/-! ### Writing -/

namespace SavedSource

/-- The lines of a source in a document. -/
def render (source : SavedSource) : String :=
  "    \x7b\n" ++
  "      \"name\": " ++ Json.quote source.name ++ ",\n" ++
  "      \"code\": " ++ Json.quote source.code ++ ",\n" ++
  "      \"caret\": " ++ toString source.caret ++ "\n" ++
  "    \x7d"

end SavedSource

namespace SavedProject

/-- A document with two blanks of indentation per level, given how the identity is written. -/
def renderWith (saved : SavedProject) (id : String) : String :=
  let sources :=
    if saved.sources.isEmpty then "[]"
    else "[\n" ++ ",\n".intercalate (saved.sources.map SavedSource.render) ++ "\n  ]"
  "\x7b\n" ++
  "  \"id\": " ++ Json.quote id ++ ",\n" ++
  "  \"name\": " ++ Json.quote saved.name ++ ",\n" ++
  "  \"sources\": " ++ sources ++ "\n" ++
  "\x7d"

/-- The document of a saved project. -/
def render (saved : SavedProject) : String :=
  saved.renderWith saved.id.toText

/-! ### Reading -/

/-- The fields of a record in a document: an object whose members have these names, each at most
once and any others ignored, or an array with the fields in order. A field may be left out only at
the end of an array. -/
def fields? (names : List String) : Json → Option (List (Option Json))
  | .array items =>
    if names.length < items.length then none
    else some (items.map some ++ List.replicate (names.length - items.length) none)
  | .object members => do
    let members ← members.mapM fun member => member.1.map fun key => (key, member.2)
    names.mapM fun name =>
      match members.filter fun member => member.1 == name with
      | [] => some none
      | [member] => some (some member.2)
      | _ => none
  | _ => none

/-- Reads a source; the caret may be left out. -/
def readSource? (json : Json) : Option SavedSource := do
  match ← fields? ["name", "code", "caret"] json with
  | [some name, some code, caret] =>
    let name ← name.text?
    let code ← code.text?
    let caret ←
      match caret with
      | some value => value.natural?
      | none => some 0
    some ⟨name, code, caret⟩
  | _ => none

/-- Reads a saved project from a document. -/
def parse? (text : String) : Option SavedProject := do
  let json ← Json.parse? text
  match ← fields? ["id", "name", "sources"] json with
  | [some id, some name, some sources] =>
    let id ← Uuid.ofText? (← id.text?)
    let name ← name.text?
    let sources ← (← sources.items?).mapM readSource?
    some ⟨id, name, sources⟩
  | _ => none

end SavedProject

/-! ### Saving and loading -/

namespace Project

/-- What is kept of a project. -/
def save {N : Type} (project : Project N) : SavedProject :=
  ⟨project.id, project.name,
    project.sources.map fun source => ⟨source.name, source.text, source.caret⟩⟩

/-- Reads the sources of a saved project again. -/
def load (saved : SavedProject) (parser : SourceParser) : Except ProjectError Project := do
  let sources ← saved.sources.mapM fun source => do
    let read ← readSource source.name source.code parser
    pure (read.withCaret source.caret)
  create saved.id saved.name sources

/-- The document of a project. -/
def toJson {N : Type} (project : Project N) : String :=
  project.save.render

/-- Loads a project from a document. -/
def ofJson (text : String) (parser : SourceParser) : Except ProjectError Project :=
  match SavedProject.parse? text with
  | none => .error .json
  | some saved => load saved parser

end Project

end Rivulet
