import Rivulet.Tree

/-!
Parent links of a tree. Nodes know their children only; an index of parents lets a question be
asked from the inside out.
-/

namespace Rivulet

/-- The parent of every node that can be reached from the root, by position; the root and the nodes
out of reach have none. -/
structure Parents where
  parents : Array NodeId
deriving DecidableEq, Repr, Inhabited

namespace Parents

/-- Notes the parent of one child. -/
def note (parent : NodeId) (index : Parents) (child : NodeId) : Parents :=
  match child with
  | .missing => index
  | .node position => ⟨index.parents.setIfInBounds position parent⟩

/-- The parents in a tree. Of several parents of one node the last in walking order counts. -/
def ofTree (tree : Tree) : Parents :=
  (tree.descendants tree.root).foldl
    (fun index parent => (tree.children parent).foldl (note parent) index)
    ⟨Array.replicate tree.size .missing⟩

/-- The parent of a node. -/
def parent? (index : Parents) : NodeId → Option NodeId
  | .missing => none
  | .node position =>
    match index.parents[position]? with
    | some (.node parent) => some (.node parent)
    | _ => none

/-- The nodes around a node, nearest first, at most as many as given. -/
def ancestorsFrom (index : Parents) : Nat → NodeId → List NodeId
  | 0, _ => []
  | count + 1, id =>
    match index.parent? id with
    | none => []
    | some parent => parent :: index.ancestorsFrom count parent

/-- All nodes around a node, nearest first. -/
def ancestors (index : Parents) (id : NodeId) : List NodeId :=
  index.ancestorsFrom index.parents.size id

/-- Whether a node lies inside another one or is that one. -/
def isWithin (index : Parents) (id ancestor : NodeId) : Bool :=
  id == ancestor || (index.ancestors id).contains ancestor

end Parents

end Rivulet
