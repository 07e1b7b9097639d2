import Rivulet.Naming
import Rivulet.Ty
import Rivulet.Span

/-!
The forms that a node of a tree can have. A node names its children by id and holds its child
lists as runs of one list that the whole tree shares.
-/

namespace Rivulet

/-- The operators between two operands. -/
inductive BinaryOp where
  | add | subtract | multiply | divide | remainder
  | less | lessEqual | greater | greaterEqual
  | equal | notEqual
  | and | or
deriving DecidableEq, Repr

namespace BinaryOp

/-- An operator as its users read it. -/
def symbol : BinaryOp → String
  | add => "+"
  | subtract => "-"
  | multiply => "·"
  | divide => "÷"
  | remainder => "%"
  | less => "<"
  | lessEqual => "≤"
  | greater => ">"
  | greaterEqual => "≥"
  | equal => "="
  | notEqual => "≠"
  | and => "&"
  | or => "|"

/-- A logical operator evaluates its right operand only when the left does not decide. -/
def isLogical : BinaryOp → Bool
  | and | or => true
  | _ => false

/-- Whether an operator orders its operands. -/
def isComparison : BinaryOp → Bool
  | less | lessEqual | greater | greaterEqual => true
  | _ => false

end BinaryOp

/-- The operators before one operand. -/
inductive UnaryOp where
  | negate | not
deriving DecidableEq, Repr

/-- An operator as its users read it. -/
def UnaryOp.symbol : UnaryOp → String
  | negate => "-"
  | not => "~"

/-- A run of consecutive entries in the list of children that a tree shares. -/
structure ChildList where
  start : Nat
  length : Nat
deriving DecidableEq, Repr, Inhabited

/-- What a node is. -/
inductive Form (N : Type := String) where
  /-- The root of a source; its value is the value of its body. -/
  | program (body : NodeId)
  /-- Statements evaluated in order; the last one gives the value. -/
  | block (statements : ChildList)
  /-- Names a value. As an input of a definition the value is the default, and a missing value
  makes the input required. -/
  | bind (name : N) (value : NodeId) (declared : Option Ty) (variadic : Bool)
  /-- A numeric literal as it was written, with its measure. -/
  | number (literal : N) (measure : Measure)
  | boolean (value : Bool)
  | text (value : N)
  | none
  | sequence (items : ChildList)
  | set (items : ChildList)
  /-- The entries of a mapping are pairs. -/
  | mapping (entries : ChildList)
  | pair (key value : NodeId)
  | reference (name : N)
  /-- A field of an instance of a record. -/
  | property (owner : NodeId) (name : N)
  | binary (op : BinaryOp) (left right : NodeId)
  | unary (op : UnaryOp) (operand : NodeId)
  | conditional (condition yes no : NodeId)
  /-- Defines a function; without a body it is abstract. -/
  | function (name : N) (inputs : ChildList) (body : NodeId) (output : Option Ty)
  /-- Defines a record; calling it builds an instance from its inputs. -/
  | record (name : N) (inputs : ChildList)
  /-- Calls a function with arguments in order. -/
  | call (callee : NodeId) (arguments : ChildList)
  /-- True when the named stream triggered the evaluation. -/
  | changed (stream : NodeId)
  /-- The value of another source of the project. -/
  | borrow (source : N)
  /-- A place that its author has not filled in yet. -/
  | placeholder
  /-- Text that makes no sense. -/
  | unparsable (text : N)
deriving DecidableEq, Repr, Inhabited

namespace Form

variable {N : Type}

/-- The name that a node introduces into the scope around it. -/
def declaredName? [DecidableEq N] [Naming N] : Form N → Option N
  | bind name .. => some name
  | borrow source => some source
  | function name .. | record name .. => if name = Naming.anonymous then Option.none else some name
  | _ => Option.none

/-- Whether a node yields one value; a pair yields a key and a value instead. -/
def isExpression : Form N → Bool
  | pair .. => false
  | _ => true

/-- The children of a node in the order of evaluation, missing ones included, given how the
child lists of its tree are read. -/
def links (read : ChildList → List NodeId) : Form N → List NodeId
  | program body => [body]
  | block statements => read statements
  | bind _ value _ _ => [value]
  | sequence items => read items
  | set items => read items
  | mapping entries => read entries
  | pair key value => [key, value]
  | property owner _ => [owner]
  | binary _ left right => [left, right]
  | unary _ operand => [operand]
  | conditional condition yes no => [condition, yes, no]
  | function _ inputs body _ => read inputs ++ [body]
  | record _ inputs => read inputs
  | call callee arguments => callee :: read arguments
  | changed stream => [stream]
  | number .. | boolean .. | text .. | none | reference .. | borrow .. | placeholder
  | unparsable .. => []

/-- A form as descriptions of trees name it. -/
def describe : Form N → String
  | program .. => "program"
  | block .. => "block"
  | bind .. => "bind"
  | number .. => "number"
  | boolean .. => "boolean"
  | text .. => "text"
  | none => "none"
  | sequence .. => "sequence"
  | set .. => "set"
  | mapping .. => "mapping"
  | pair .. => "key/value"
  | reference .. => "reference"
  | property .. => "property"
  | binary .. => "binary operation"
  | unary .. => "unary operation"
  | conditional .. => "conditional"
  | function .. => "function"
  | record .. => "structure"
  | call .. => "evaluate"
  | changed .. => "changed"
  | borrow .. => "borrow"
  | placeholder => "placeholder"
  | unparsable .. => "unparsable"

end Form

/-- A node: what it is, and where it stands in its source. -/
structure Node (N : Type := String) where
  form : Form N
  span : Span
deriving DecidableEq, Repr, Inhabited

end Rivulet
