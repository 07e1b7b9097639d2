import Rivulet.Line
import Rivulet.Tree.Renaming

/-!
Named sources: a text, the tree it was read into, and where the caret stands in the text.
-/

namespace Rivulet

/-- Reads the text of a source into a tree. -/
abbrev SourceParser := String → Except ParseError Tree

/-- A source of a project. The caret is a position in characters, at most the length of the
text. -/
structure Source (N : Type := String) where
  name : String
  text : String
  tree : Tree N
  caret : Nat
deriving Repr, Inhabited

namespace Source

/-- Reads a source, with the caret at its start. -/
def parse (name text : String) (parser : SourceParser) : Except ParseError Source :=
  match parser text with
  | .ok tree => .ok ⟨name, text, tree, 0⟩
  | .error error => .error error

variable {N : Type}

/-- Moves the caret, but not beyond the end of the text. -/
def withCaret (source : Source N) (caret : Nat) : Source N :=
  { source with caret := min caret source.text.length }

/-- A source whose tree holds other names. -/
def renamed {M : Type} (rename : N → M) (source : Source N) : Source M :=
  ⟨source.name, source.text, source.tree.renamed rename, source.caret⟩

/-- A source whose tree holds the numbers of its texts, which join the table. -/
def intern (source : Source) (table : Interner) : Source Name × Interner :=
  let (tree, table) := source.tree.intern table
  (⟨source.name, source.text, tree, source.caret⟩, table)

/-- The names of the sources that a source borrows, in walking order. -/
def borrows (source : Source N) : List N :=
  (source.tree.descendants source.tree.root).filterMap fun id =>
    match source.tree.form? id with
    | some (.borrow name) => some name
    | _ => none

end Source

end Rivulet
