import Rivulet.Tree

/-!
Steps, and the flat sequences of steps that nodes compile to. A sequence is run by a cursor that
moves on by one after every step; a jump adds its distance before that, so a jump by zero does
nothing and a jump by `n` skips the next `n` steps.

A sequence is put together from the sequences of the children of a node (`Tree.codeWith`); the
only recursion is over the depth of the tree (`Tree.codeTo`, `Tree.code`). What a call of a
definition runs is put together from the sequences of defaults and body (`Tree.entryWith`).
-/

namespace Rivulet

/-- The natives that call a function once per element of a collection. -/
inductive HigherOrder where
  | map | filter | fold
deriving DecidableEq, Repr

/-- The four steps of a loop over a collection, in order. -/
inductive LoopPhase where
  /-- Checks the inputs, and sets the index and the first result. -/
  | init
  /-- Leaves the loop when no element is left; otherwise calls the function on the next one. -/
  | next
  /-- Takes in what the function produced, moves the index and goes back. -/
  | collect
  /-- Yields the result. -/
  | done
deriving DecidableEq, Repr

/-- One step of an evaluation. -/
inductive Step where
  /-- Completes a node from the values that its children left on the stack. -/
  | finish (node : NodeId)
  /-- Opens a scope for the declarations of a block. -/
  | enter (node : NodeId)
  /-- Binds the value on top of the stack to the name of a bind and leaves it there. -/
  | bind (node : NodeId)
  | jump (distance : Int)
  /-- Takes a boolean off the stack and jumps if it is false. -/
  | jumpUnless (node : NodeId) (distance : Int)
  /-- Decides a logical operator early: a boolean on top of the stack that equals `whenValue` stays
  as the result and the rest is jumped over; another boolean is dropped. -/
  | branch (node : NodeId) (whenValue : Bool) (distance : Int)
  /-- Jumps over the default of an input that the caller supplied. -/
  | skipIfBound (input : NodeId) (distance : Int)
  /-- Takes arguments and a function off the stack and starts a frame for the function. -/
  | call (node : NodeId) (arity : Nat)
  /-- Builds an instance of a record from the inputs bound in the frame. -/
  | instantiate (node : NodeId)
  /-- A child is missing, so evaluation cannot go on. -/
  | expected (node : NodeId)
  /-- Runs a native that takes one step. -/
  | apply (native : Nat)
  | loop (op : HigherOrder) (phase : LoopPhase)
deriving DecidableEq, Repr

/-- A native by the word that calls it. -/
def HigherOrder.toText : HigherOrder → String
  | map => "map"
  | filter => "filter"
  | fold => "fold"

/-- The steps that a loop over a collection runs. -/
def HigherOrder.steps (op : HigherOrder) : List Step :=
  [.loop op .init, .loop op .next, .loop op .collect, .loop op .done]

/-- The name of a phase. -/
def LoopPhase.toText : LoopPhase → String
  | init => "init"
  | next => "next"
  | collect => "collect"
  | done => "done"

namespace Step

/-- A step as traces show it. -/
def toText : Step → String
  | finish node => s!"finish {node.number}"
  | enter node => s!"enter {node.number}"
  | bind node => s!"bind {node.number}"
  | jump distance => s!"jump {distance}"
  | jumpUnless node distance => s!"jump_unless {node.number} {distance}"
  | branch node whenValue distance => s!"branch {node.number} {whenValue} {distance}"
  | skipIfBound input distance => s!"skip_if_bound {input.number} {distance}"
  | call node arity => s!"call {node.number} {arity}"
  | instantiate node => s!"instantiate {node.number}"
  | expected node => s!"expected {node.number}"
  | apply native => s!"apply {native}"
  | loop op phase => s!"{op.toText} {phase.toText}"

/-- The node that a step works on, if it names one. -/
def node? : Step → Option NodeId
  | finish node | enter node | bind node | jumpUnless node _ | branch node _ _
  | skipIfBound node _ | call node _ | instantiate node | expected node => some node
  | jump _ | apply _ | loop _ _ => none

end Step

namespace Tree

variable {N : Type}

/-- Whether some statement of a block declares a name, which gives the block a scope of its own. -/
def declaresNames [DecidableEq N] [Naming N] (tree : Tree N) (statements : List NodeId) : Bool :=
  statements.any fun statement =>
    match tree.form? statement with
    | some form => form.declaredName?.isSome
    | none => false

/-- The sequence of a child, given how children compile; a child that is no node of the tree
leaves its parent without a value. -/
def childCode (tree : Tree N) (code : NodeId → List Step) (parent child : NodeId) : List Step :=
  if (tree.form? child).isSome then code child else [.expected parent]

/-- The sequences of some children, one after the other. -/
def childrenCode (tree : Tree N) (code : NodeId → List Step) (parent : NodeId)
    (children : List NodeId) : List Step :=
  children.flatMap (tree.childCode code parent)

/-- The sequence of a node, given how its children compile. -/
def codeWith [DecidableEq N] [Naming N] (tree : Tree N) (code : NodeId → List Step) (id : NodeId) : List Step :=
  let child := tree.childCode code id
  let children := tree.childrenCode code id
  match tree.form? id with
  | none => [.expected id]
  | some form =>
    match form with
    | .program body => child body ++ [.finish id]
    | .block statements =>
      let statements := tree.list statements
      (if tree.declaresNames statements then [.enter id] else []) ++
        children statements ++ [.finish id]
    | .bind _ value _ _ => child value ++ [.bind id]
    | .sequence items | .set items | .mapping items => children (tree.list items) ++ [.finish id]
    | .pair key value => child key ++ child value
    | .property owner _ => child owner ++ [.finish id]
    | .binary op left right =>
      if op.isLogical then
        let rest := child right
        child left ++ [.branch id (op == .or) (rest.length + 1)] ++ rest ++ [.finish id]
      else child left ++ child right ++ [.finish id]
    | .unary _ operand => child operand ++ [.finish id]
    | .conditional condition yes no =>
      let yesSteps := child yes
      let noSteps := child no
      child condition ++ [.jumpUnless id (yesSteps.length + 1)] ++ yesSteps ++
        [.jump noSteps.length] ++ noSteps ++ [.finish id]
    | .call callee arguments =>
      let arguments := tree.list arguments
      child callee ++ children arguments ++ [.call id arguments.length, .finish id]
    | .function .. | .record .. | .changed _ | .number .. | .boolean _ | .text _ | .none
    | .reference _ | .borrow _ | .placeholder | .unparsable _ => [.finish id]

/-- The sequence of a node, compiled down to a depth. -/
def codeTo [DecidableEq N] [Naming N] (tree : Tree N) : Nat → NodeId → List Step
  | 0, _ => []
  | depth + 1, id => tree.codeWith (tree.codeTo depth) id

/-- The sequence of a node. -/
def code [DecidableEq N] [Naming N] (tree : Tree N) (id : NodeId) : List Step :=
  tree.codeTo tree.height id

/-- The default of an input, if the input is a bind that has one. -/
def default? (tree : Tree N) (input : NodeId) : Option NodeId :=
  match tree.form? input with
  | some (.bind _ value _ _) => if value.isMissing then none else some value
  | _ => none

/-- The steps that evaluate the default of an input unless the caller supplied it, given how nodes
compile. -/
def defaultWith (tree : Tree N) (code : NodeId → List Step) (input : NodeId) : List Step :=
  match tree.default? input with
  | none => []
  | some value =>
    let steps := code value
    .skipIfBound input (steps.length + 1) :: steps ++ [.bind input]

/-- The sequence that a call of a definition runs, given how nodes compile: the defaults of omitted
inputs, then the body of the function or the construction of the instance. -/
def entryWith (tree : Tree N) (code : NodeId → List Step) (definition : NodeId) : List Step :=
  match tree.form? definition with
  | some (.function _ inputs body _) =>
    (tree.list inputs).flatMap (tree.defaultWith code) ++
      (if body.isMissing then [.expected definition] else code body)
  | some (.record _ inputs) =>
    (tree.list inputs).flatMap (tree.defaultWith code) ++ [.instantiate definition]
  | _ => [.expected definition]

/-- The steps of the default of an input. -/
def defaultCode [DecidableEq N] [Naming N] (tree : Tree N) (input : NodeId) : List Step :=
  tree.defaultWith tree.code input

/-- The sequence that a call of a definition runs. -/
def entryCode [DecidableEq N] [Naming N] (tree : Tree N) (definition : NodeId) : List Step :=
  tree.entryWith tree.code definition

/-! ### Which nodes are compiled -/

/-- The children whose sequences are parts of the sequence of a node. A definition only makes a
closure, and a question about a stream only looks at its name, so neither has any. -/
def codeChildren (tree : Tree N) (id : NodeId) : List NodeId :=
  match tree.form? id with
  | none | some (.function ..) | some (.record ..) | some (.changed _) => []
  | some form => (form.links tree.list).filter fun child => (tree.form? child).isSome

/-- The nodes whose sequences are parts of the entry of a definition. -/
def entryNodes (tree : Tree N) (definition : NodeId) : List NodeId :=
  match tree.form? definition with
  | some (.function _ inputs body _) =>
    (tree.list inputs).filterMap tree.default? ++ (if body.isMissing then [] else [body])
  | some (.record _ inputs) => (tree.list inputs).filterMap tree.default?
  | _ => []

end Tree

end Rivulet
