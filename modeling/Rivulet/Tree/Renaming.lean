import Rivulet.Interner
import Rivulet.Tree

/-!
Trees under other names. A node holds at most one name or literal, and nothing else of a tree
depends on what names are, so a tree can be kept with texts for its names as well as with the
numbers of the texts in a table.
-/

namespace Rivulet

variable {N M : Type}

namespace Form

/-- The name or the literal that a form holds. -/
def name? : Form N → Option N
  | bind name .. | number name _ | text name | reference name | property _ name | function name ..
  | record name _ | borrow name | unparsable name => some name
  | _ => Option.none

/-- The literal that a form holds, which evaluation reads. -/
def literal? : Form N → Option N
  | number literal _ | text literal => some literal
  | _ => Option.none

/-- A form whose name or literal is changed. -/
def renamed (rename : N → M) : Form N → Form M
  | program body => program body
  | block statements => block statements
  | bind name value declared variadic => bind (rename name) value declared variadic
  | number literal measure => number (rename literal) measure
  | boolean value => boolean value
  | text value => text (rename value)
  | none => none
  | sequence items => sequence items
  | set items => set items
  | mapping entries => mapping entries
  | pair key value => pair key value
  | reference name => reference (rename name)
  | property owner name => property owner (rename name)
  | binary op left right => binary op left right
  | unary op operand => unary op operand
  | conditional condition yes no => conditional condition yes no
  | function name inputs body output => function (rename name) inputs body output
  | record name inputs => record (rename name) inputs
  | call callee arguments => call callee arguments
  | changed stream => changed stream
  | borrow source => borrow (rename source)
  | placeholder => placeholder
  | unparsable written => unparsable (rename written)

end Form

namespace Node

/-- A node whose name or literal is changed. -/
def renamed (rename : N → M) (node : Node N) : Node M :=
  ⟨node.form.renamed rename, node.span⟩

/-- A node that holds the number of its text, which joins the table. -/
def intern (node : Node) (table : Interner) : Node Name × Interner :=
  match node.form.name? with
  | some text =>
    let (name, table) := table.intern text
    (node.renamed fun _ => name, table)
  | none => (node.renamed table.name, table)

/-- Nodes that hold the numbers of their texts, which join the table one after the other. -/
def internAll : List Node → Interner → List (Node Name) × Interner
  | [], table => ([], table)
  | node :: rest, table =>
    let (node, table) := node.intern table
    let (rest, table) := internAll rest table
    (node :: rest, table)

end Node

namespace Tree

/-- The names and literals that a tree holds, in the order of its nodes. -/
def names (tree : Tree N) : List N :=
  tree.nodes.toList.filterMap fun node => node.form.name?

/-- A tree whose names and literals are changed. -/
def renamed (rename : N → M) (tree : Tree N) : Tree M :=
  ⟨tree.nodes.map (Node.renamed rename), tree.lists, tree.root⟩

/-- A tree that holds the numbers of its texts, which join the table in the order of the nodes. -/
def intern (tree : Tree) (table : Interner) : Tree Name × Interner :=
  let (nodes, table) := Node.internAll tree.nodes.toList table
  (⟨nodes.toArray, tree.lists, tree.root⟩, table)

end Tree

end Rivulet
