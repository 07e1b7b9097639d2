import Rivulet.Tree

/-!
Building trees node by node. Every new node gets the next id, and unless a span is given it covers
its children and one position of its own.
-/

namespace Rivulet

/-- A tree under construction: its nodes and child lists so far, and the first position that no
span covers yet. -/
structure Builder where
  nodes : Array Node
  lists : Array NodeId
  offset : Nat
deriving Repr, Inhabited

namespace Builder

/-- Nothing built yet. -/
def empty : Builder :=
  ⟨#[], #[], 0⟩

/-- Adds a node that stands at a given place. -/
def allocAt (builder : Builder) (form : Form) (span : Span) : NodeId × Builder :=
  (.node builder.nodes.size,
    { builder with
      nodes := builder.nodes.push ⟨form, span⟩
      offset := max builder.offset span.stop })

/-- The span of a new node: one position of its own, and those of the children that exist. -/
def spanOf (builder : Builder) (form : Form) : Span :=
  let children := (form.links (Tree.readList builder.lists)).filterMap fun child =>
    match child with
    | .missing => none
    | .node index => builder.nodes[index]?
  children.foldl (fun span child => span.merge child.span) ⟨builder.offset, builder.offset + 1⟩

/-- Adds a node. -/
def alloc (builder : Builder) (form : Form) : NodeId × Builder :=
  builder.allocAt form (builder.spanOf form)

/-- Stores a child list. -/
def list (builder : Builder) (ids : List NodeId) : ChildList × Builder :=
  (⟨builder.lists.size, ids.length⟩, { builder with lists := builder.lists ++ ids })

/-- Adds a call of whatever a name stands for. -/
def call (builder : Builder) (name : String) (arguments : List NodeId) : NodeId × Builder :=
  let (callee, builder) := builder.alloc (.reference name)
  let (arguments, builder) := builder.list arguments
  builder.alloc (.call callee arguments)

/-- Adds one pair per key and value, in order. -/
def pairs (builder : Builder) : List (NodeId × NodeId) → List NodeId × Builder
  | [] => ([], builder)
  | (key, value) :: rest =>
    let (entry, builder) := builder.alloc (.pair key value)
    let (entries, builder) := builder.pairs rest
    (entry :: entries, builder)

/-- Adds a mapping, its pairs first. -/
def mapping (builder : Builder) (entries : List (NodeId × NodeId)) : NodeId × Builder :=
  let (entries, builder) := builder.pairs entries
  let (entries, builder) := builder.list entries
  builder.alloc (.mapping entries)

/-- Ends the construction with a root. -/
def finish (builder : Builder) (root : NodeId) : Tree :=
  ⟨builder.nodes, builder.lists, root⟩

/-- Ends the construction with a program whose body is a block of statements. -/
def program (builder : Builder) (statements : List NodeId) : Tree :=
  let (statements, builder) := builder.list statements
  let (body, builder) := builder.alloc (.block statements)
  let (root, builder) := builder.alloc (.program body)
  builder.finish root

end Builder

end Rivulet
