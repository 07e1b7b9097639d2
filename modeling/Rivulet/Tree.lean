import Rivulet.Tree.Form

/-!
Trees, and the two walks over them. A tree keeps its nodes in one array and never changes. Looking
up an id that names no node gives nothing, and reading a child list that reaches beyond the shared
list gives the empty list, so every question about a partial tree has an answer.

Each walk is a loop over an explicit stack (`Tree.descendants`, `Tree.postOrder`), stated beside
the recursive order it follows (`Tree.preorderFrom`, `Tree.postorderFrom`).
-/

namespace Rivulet

/-- A source as a tree: its nodes, the list that all child lists are runs of, and its root. -/
structure Tree (N : Type := String) where
  nodes : Array (Node N)
  lists : Array NodeId
  root : NodeId
deriving DecidableEq, Repr, Inhabited

namespace Tree

variable {N : Type}

/-! ### Looking up -/

/-- The node that an id names. -/
def node? (tree : Tree N) : NodeId → Option (Node N)
  | .missing => none
  | .node index => tree.nodes[index]?

/-- The form of the node that an id names. -/
def form? (tree : Tree N) (id : NodeId) : Option (Form N) :=
  (tree.node? id).map Node.form

/-- Where a node stands in its source. -/
def span (tree : Tree N) (id : NodeId) : Span :=
  ((tree.node? id).map Node.span).getD Span.none

/-- How many nodes a tree has. -/
def size (tree : Tree N) : Nat :=
  tree.nodes.size

/-- Whether a tree has no node. -/
def isEmpty (tree : Tree N) : Bool :=
  tree.nodes.isEmpty

/-- The run of a shared list that a child list names, or nothing when it reaches beyond the end. -/
def readList (lists : Array NodeId) (run : ChildList) : List NodeId :=
  if run.start + run.length ≤ lists.size then
    (lists.extract run.start (run.start + run.length)).toList
  else []

/-- The ids in a child list. -/
def list (tree : Tree N) (run : ChildList) : List NodeId :=
  readList tree.lists run

/-- Every id that names a node, in order. -/
def ids (tree : Tree N) : List NodeId :=
  (List.range tree.size).map NodeId.node

/-- The children of a node that are not missing, in the order of evaluation. -/
def children (tree : Tree N) (id : NodeId) : List NodeId :=
  match tree.form? id with
  | none => []
  | some form => (form.links tree.list).filter NodeId.isPresent

/-- The body of the root, if the root is a program that has one. -/
def body? (tree : Tree N) : Option NodeId :=
  match tree.form? tree.root with
  | some (.program body) => if body.isMissing then none else some body
  | _ => none

/-- How far down a path can lead before it comes to a node twice. -/
def height (tree : Tree N) : Nat :=
  tree.size + 1

/-! ### Recursive orders -/

/-- A node, then the orders of its children, down to a depth. -/
def preorderFrom (tree : Tree N) : Nat → NodeId → List NodeId
  | 0, _ => []
  | depth + 1, id => id :: (tree.children id).flatMap (tree.preorderFrom depth)

/-- The orders of the children of a node, then the node, down to a depth. -/
def postorderFrom (tree : Tree N) : Nat → NodeId → List NodeId
  | 0, _ => []
  | depth + 1, id => (tree.children id).flatMap (tree.postorderFrom depth) ++ [id]

/-- How many downward paths start at a node, down to a depth. -/
def pathsFrom (tree : Tree N) : Nat → NodeId → Nat
  | 0, _ => 0
  | depth + 1, id =>
    (tree.children id).foldr (fun child paths => tree.pathsFrom depth child + paths) 1

/-! ### Walks -/

/-- Visits the node on top of the stack and puts its children there instead. -/
def walkDown (tree : Tree N) : Nat → List NodeId → Array NodeId → Array NodeId
  | 0, _, visited => visited
  | _ + 1, [], visited => visited
  | steps + 1, id :: stack, visited =>
    tree.walkDown steps (tree.children id ++ stack) (visited.push id)

/-- A node and everything below it, parents before their children. -/
def descendants (tree : Tree N) (start : NodeId) : List NodeId :=
  if (tree.node? start).isNone then []
  else (tree.walkDown (tree.pathsFrom tree.height start) [start] #[]).toList

/-- Visits the node on top of the stack if its children are done; otherwise marks it as such and
puts its children above it. -/
def walkUp (tree : Tree N) : Nat → List (NodeId × Bool) → Array NodeId → Array NodeId
  | 0, _, visited => visited
  | _ + 1, [], visited => visited
  | steps + 1, (id, true) :: stack, visited => tree.walkUp steps stack (visited.push id)
  | steps + 1, (id, false) :: stack, visited =>
    tree.walkUp steps ((tree.children id).map (·, false) ++ (id, true) :: stack) visited

/-- A node and everything below it, children before their parents. -/
def postOrder (tree : Tree N) (start : NodeId) : List NodeId :=
  if (tree.node? start).isNone then []
  else (tree.walkUp (2 * tree.pathsFrom tree.height start) [(start, false)] #[]).toList

end Tree

end Rivulet
