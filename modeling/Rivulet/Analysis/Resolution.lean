import Rivulet.Natives
import Rivulet.Streams
import Rivulet.Tree.Parents

/-!
What names refer to. Seen from a node, a name is sought from the inside out: among the earlier
statements of each block around the node, the inputs and the own name of each definition around it,
then among the streams, and last among the natives.
-/

namespace Rivulet

/-- What a name refers to. -/
inductive Definition where
  /-- A bind among the statements of a block. -/
  | bind (node : NodeId)
  /-- An input of a definition. -/
  | input (input definition : NodeId)
  | function (node : NodeId)
  | record (node : NodeId)
  /-- A borrow, which declares the name of its source. -/
  | borrow (node : NodeId)
  /-- A stream, by its place among the signatures. -/
  | stream (index : Nat)
  | native (index : Nat)
deriving DecidableEq, Repr

/-- The node that declares a name, unless it comes from outside the tree. -/
def Definition.node? : Definition → Option NodeId
  | bind node | input node _ | function node | record node | borrow node => some node
  | stream _ | native _ => none

/-- A definition in words. -/
def Definition.toText : Definition → String
  | bind node => s!"bind {node.number}"
  | input place definition => s!"input {place.number} of {definition.number}"
  | function node => s!"function {node.number}"
  | record node => s!"structure {node.number}"
  | borrow node => s!"borrow {node.number}"
  | stream index => s!"stream {index}"
  | native index => s!"native {index}"

/-- A tree together with everything its names may refer to. -/
structure Context where
  tree : Tree
  parents : Parents
  natives : Natives
  streams : List StreamSignature

namespace Context

/-- The context of a tree. -/
def ofTree (tree : Tree) (natives : Natives) (streams : List StreamSignature) : Context :=
  ⟨tree, .ofTree tree, natives, streams⟩

/-- Whether a node declares a name. -/
def declares (context : Context) (node : NodeId) (name : String) : Bool :=
  (context.tree.form? node).bind Form.declaredName? == some name

/-- Whether the own name of a statement is visible inside it: definitions may recurse, and so may a
bind of a function. -/
def mayRecurse (context : Context) (statement : NodeId) : Bool :=
  match context.tree.form? statement with
  | some (.function ..) | some (.record ..) => true
  | some (.bind _ value _ _) =>
    match context.tree.form? value with
    | some (.function ..) => true
    | _ => false
  | _ => false

/-- The definition that a declaring node makes. -/
def definitionOf (context : Context) (node : NodeId) : Definition :=
  match context.tree.form? node with
  | some (.function ..) => .function node
  | some (.record ..) => .record node
  | some (.borrow _) => .borrow node
  | _ => .bind node

/-- Looks a name up in a block from inside one of its statements. -/
def inBlock? (context : Context) (statements : List NodeId) (child : NodeId) (name : String) :
    Option Definition :=
  match statements.idxOf? child with
  | none => none
  | some position =>
    if context.declares child name && context.mayRecurse child then
      some (context.definitionOf child)
    else
      ((statements.take position).reverse.find? fun statement =>
        context.declares statement name).map context.definitionOf

/-- Looks a name up in a definition from inside one of its children. An input does not see
itself. -/
def inDefinition? (context : Context) (definition : NodeId) (own : String) (inputs : List NodeId)
    (child : NodeId) (name : String) : Option Definition :=
  match inputs.find? fun input => input != child && context.declares input name with
  | some input => some (.input input definition)
  | none => if own = name then some (context.definitionOf definition) else none

/-- Looks a name up in a node from inside one of its children. -/
def inParent? (context : Context) (parent child : NodeId) (name : String) : Option Definition :=
  match context.tree.form? parent with
  | some (.block statements) => context.inBlock? (context.tree.list statements) child name
  | some (.function own inputs _ _) | some (.record own inputs) =>
    context.inDefinition? parent own (context.tree.list inputs) child name
  | _ => none

/-- Looks a name up in the nodes around a node, nearest first. -/
def inAncestors? (context : Context) (name : String) (child : NodeId) :
    List NodeId → Option Definition
  | [] => none
  | parent :: outer =>
    match context.inParent? parent child name with
    | some found => some found
    | none => context.inAncestors? name parent outer

/-- The place of the last element of a list that satisfies a condition. -/
def lastIndex? {α : Type} (condition : α → Bool) (list : List α) : Option Nat :=
  (list.reverse.findIdx? condition).map fun position => list.length - 1 - position

/-- What a name refers to, seen from a node. -/
def resolve? (context : Context) (node : NodeId) (name : String) : Option Definition :=
  match context.inAncestors? name node (context.parents.ancestors node) with
  | some found => some found
  | none =>
    match lastIndex? (fun stream : StreamSignature => stream.name == name) context.streams with
    | some index => some (.stream index)
    | none => (context.natives.find? name).map .native

/-- The function or record that calling a definition runs, seen through a bind of one. -/
def callable? (context : Context) : Definition → Option NodeId
  | .function node | .record node => some node
  | .bind node =>
    match context.tree.form? node with
    | some (.bind _ value _ _) =>
      match context.tree.form? value with
      | some (.function ..) | some (.record ..) => some value
      | _ => none
    | _ => none
  | _ => none

end Context

end Rivulet
