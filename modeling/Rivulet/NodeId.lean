/-!
Names of the nodes of a tree. A child that its author left out is named by `NodeId.missing`, which
is the name of no node in any tree.
-/

namespace Rivulet

/-- The position of a node in its tree, or no position at all. -/
inductive NodeId where
  | missing
  | node (index : Nat)
deriving DecidableEq, Repr, Inhabited

namespace NodeId

/-- Whether an id stands for a child that was left out. -/
def isMissing : NodeId → Bool
  | missing => true
  | node _ => false

/-- Whether an id may name a node. -/
def isPresent (id : NodeId) : Bool :=
  !id.isMissing

/-- The number an id is written with; a missing child has the largest number of 32 bits. -/
def number : NodeId → Nat
  | missing => 4294967295
  | node index => index

/-- The id that is written with a number. -/
def ofNumber (number : Nat) : NodeId :=
  if number = 4294967295 then missing else node number

/-- An id as it appears in messages. -/
def toText (id : NodeId) : String :=
  s!"#{id.number}"

/-- An id as it appears in descriptions of trees. -/
def describe : NodeId → String
  | missing => "NodeId::INVALID"
  | node index => s!"NodeId({index})"

end NodeId

end Rivulet
