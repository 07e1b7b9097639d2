import Rivulet.Line.Token
import Rivulet.Tree.Builder

/-!
What a line says, and the nodes it becomes. Nodes are added children first and from left to right,
so every child is older than its parent.
-/

namespace Rivulet.Line

/-- An expression of a line. -/
inductive Expr where
  | number (digits : String) (measure : Measure)
  | text (value : String)
  | boolean (value : Bool)
  | none
  | placeholder
  | reference (name : String)
  | sequence (items : List Expr)
  | unary (op : UnaryOp) (operand : Expr)
  | binary (op : BinaryOp) (left right : Expr)
  | call (callee : Expr) (arguments : List Expr)
  | property (owner : Expr) (name : String)
  | changed (stream : Expr)
  | function (inputs : List String) (body : Expr)
deriving Repr, Inhabited

/-- A statement, which takes up a line. -/
inductive Statement where
  | borrow (source : String)
  | bind (name : String) (value : Expr)
  | expression (value : Expr)
deriving Repr, Inhabited

/-- A part of a line that is complete in itself. -/
inductive Piece where
  | input (name : String)
  | statement (value : Statement)
deriving Repr, Inhabited

/-- An expression as a part of a line. -/
def Piece.ofExpr (value : Expr) : Piece :=
  .statement (.expression value)

/-- Adds an input without a default. -/
def buildInput (builder : Builder) (name : String) : NodeId × Builder :=
  builder.alloc (.bind name .missing none false)

/-- Adds some inputs, in order. -/
def buildInputs (builder : Builder) : List String → List NodeId × Builder
  | [] => ([], builder)
  | name :: names =>
    let (id, builder) := buildInput builder name
    let (ids, builder) := buildInputs builder names
    (id :: ids, builder)

namespace Expr

mutual

/-- Adds the nodes of an expression, its own node last. -/
def build (builder : Builder) : Expr → NodeId × Builder
  | number digits measure => builder.alloc (.number digits measure)
  | text value => builder.alloc (.text value)
  | boolean value => builder.alloc (.boolean value)
  | none => builder.alloc .none
  | placeholder => builder.alloc .placeholder
  | reference name => builder.alloc (.reference name)
  | sequence items =>
    let (ids, builder) := buildAll builder items
    let (items, builder) := builder.list ids
    builder.alloc (.sequence items)
  | unary op operand =>
    let (operand, builder) := build builder operand
    builder.alloc (.unary op operand)
  | binary op left right =>
    let (left, builder) := build builder left
    let (right, builder) := build builder right
    builder.alloc (.binary op left right)
  | call callee arguments =>
    let (callee, builder) := build builder callee
    let (ids, builder) := buildAll builder arguments
    let (arguments, builder) := builder.list ids
    builder.alloc (.call callee arguments)
  | property owner name =>
    let (owner, builder) := build builder owner
    builder.alloc (.property owner name)
  | changed stream =>
    let (stream, builder) := build builder stream
    builder.alloc (.changed stream)
  | function inputs body =>
    let (ids, builder) := buildInputs builder inputs
    let (body, builder) := build builder body
    let (inputs, builder) := builder.list ids
    builder.alloc (.function "" inputs body Option.none)
termination_by structural expression => expression

/-- Adds the nodes of some expressions, in order. -/
def buildAll (builder : Builder) : List Expr → List NodeId × Builder
  | [] => ([], builder)
  | first :: rest =>
    let (id, builder) := build builder first
    let (ids, builder) := buildAll builder rest
    (id :: ids, builder)
termination_by structural expressions => expressions

end

end Expr

/-- Adds the nodes of a statement, its own node last. -/
def Statement.build (builder : Builder) : Statement → NodeId × Builder
  | borrow source => builder.alloc (.borrow source)
  | bind name value =>
    let (value, builder) := value.build builder
    builder.alloc (.bind name value none false)
  | expression value => value.build builder

/-- Adds the nodes of a complete part of a line that no statement came of. -/
def Piece.build (builder : Builder) : Piece → Builder
  | input name => (buildInput builder name).2
  | statement value => (value.build builder).2

end Rivulet.Line
