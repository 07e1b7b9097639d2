import Rivulet.Analysis.Resolution

/-!
Static types of nodes. A type is computed when it is first asked for and remembered. A node that is
asked for while its own type is being computed counts as unknown, so a recursive function has a
type and no cycle causes a complaint.

A computation of one node is written over a function that answers for other nodes
(`Typing.compute`); the recursion itself (`Typing.typeTo`) is bounded by the number of nodes, since
each level takes up a node that was not asked for before.
-/

namespace Rivulet

/-- What another source of a project evaluates to. -/
inductive SourceType where
  | resolved (type : Ty)
  /-- The source is being analysed right now. -/
  | analyzing
  | missing
deriving DecidableEq, Repr

/-- What is known about the type of one node. -/
inductive Slot where
  | unknown
  | inProgress
  | known (type : Ty)
deriving DecidableEq, Repr, Inhabited

/-- The types known so far, by position of the node, and the state of whoever answers questions
about other sources. -/
structure TypeState (σ : Type) where
  slots : Array Slot
  host : σ

/-- A computation that asks for types and remembers them. -/
abbrev TypeM (σ : Type) := StateM (TypeState σ)

/-- Answers what a source evaluates to. -/
abbrev SourceLookup (σ : Type) := String → StateM σ SourceType

/-- A project of which no other source is known. -/
def SourceLookup.none {σ : Type} : SourceLookup σ := fun _ => pure .missing

/-- The result type of a binary operator, unknown when the operands do not fit. -/
def binaryType (op : BinaryOp) (left right : Ty) : Ty :=
  match op with
  | .less | .lessEqual | .greater | .greaterEqual | .equal | .notEqual | .and | .or => .boolean
  | .add =>
    match left, right with
    | .number first, .number second => if first = second then left else .any
    | .text, .text => .text
    | .sequence first, .sequence second => .sequence (Ty.common [first, second])
    | _, _ => .any
  | .subtract | .remainder =>
    match left, right with
    | .number first, .number second => if first = second then left else .any
    | _, _ => .any
  | .multiply =>
    match left, right with
    | .number first, .number second => .number (first.product second)
    | _, _ => .any
  | .divide =>
    match left, right with
    | .number first, .number second => .number (first.quotient second)
    | _, _ => .any

/-- The result type of a unary operator, unknown when the operand does not fit. -/
def unaryType (op : UnaryOp) (operand : Ty) : Ty :=
  match op, operand with
  | .negate, .number measure => .number measure
  | .negate, _ => .any
  | .not, _ => .boolean

namespace Typing

variable {σ : Type}

/-- A state in which no type is known. -/
def initial (tree : Tree) (host : σ) : TypeState σ :=
  ⟨Array.replicate tree.size .unknown, host⟩

/-- Asks what a source evaluates to. -/
def askSource (lookup : SourceLookup σ) (source : String) : TypeM σ SourceType :=
  fun state =>
    let (answer, host) := lookup source state.host
    (answer, { state with host })

/-- The type of an input: its declared type, or else the type of its default. A variadic input holds
a sequence. -/
def inputTypeWith (context : Context) (typeOf : NodeId → TypeM σ Ty) (input : NodeId) :
    TypeM σ Ty :=
  match context.tree.form? input with
  | some (.bind _ value declared variadic) => do
    let item ←
      match declared with
      | some type => pure type
      | none => if value.isMissing then pure .any else typeOf value
    pure (if variadic then .sequence item else item)
  | _ => pure .any

/-- The type that a definition has. -/
def definitionTypeWith (context : Context) (typeOf : NodeId → TypeM σ Ty)
    (definition : Definition) : TypeM σ Ty :=
  match definition with
  | .bind node | .function node | .record node | .borrow node => typeOf node
  | .input input _ => inputTypeWith context typeOf input
  | .stream index => pure ((context.streams[index]?.map (·.valueType)).getD .any)
  | .native index => pure (((context.natives.get? index).map (·.signature)).getD .any)

/-- The one type of some nodes. -/
def commonOf (typeOf : NodeId → TypeM σ Ty) (nodes : List NodeId) : TypeM σ Ty := do
  pure (Ty.common (← nodes.mapM typeOf))

/-- The keys and values of those entries of a mapping that are pairs. -/
def pairsOf (tree : Tree) (entries : List NodeId) : List (NodeId × NodeId) :=
  entries.filterMap fun entry =>
    match tree.form? entry with
    | some (.pair key value) => some (key, value)
    | _ => none

/-- The input of a record that declares a name. -/
def fieldInput? (tree : Tree) (definition : NodeId) (name : String) : Option NodeId :=
  match tree.form? definition with
  | some (.record _ inputs) =>
    (tree.list inputs).find? fun input =>
      (tree.form? input).bind Form.declaredName? == some name
  | _ => none

/-- Computes the type of a node, given how to ask for the types of others. -/
def compute (context : Context) (lookup : SourceLookup σ) (typeOf : NodeId → TypeM σ Ty)
    (id : NodeId) : TypeM σ Ty :=
  let tree := context.tree
  match tree.form? id with
  | none => pure .any
  | some form =>
    match form with
    | .program body => typeOf body
    | .block statements =>
      match (tree.list statements).getLast? with
      | some last => typeOf last
      | none => pure .any
    | .bind _ value declared _ =>
      match declared with
      | some type => pure type
      | none => typeOf value
    | .number _ measure => pure (.number measure)
    | .boolean _ | .changed _ => pure .boolean
    | .text _ => pure .text
    | .none => pure .none
    | .sequence items => return .sequence (← commonOf typeOf (tree.list items))
    | .set items => return .set (← commonOf typeOf (tree.list items))
    | .mapping entries => do
      let pairs := pairsOf tree (tree.list entries)
      let key ← commonOf typeOf (pairs.map Prod.fst)
      let value ← commonOf typeOf (pairs.map Prod.snd)
      pure (.mapping key value)
    | .pair _ value => typeOf value
    | .reference name =>
      match context.resolve? id name with
      | some definition => definitionTypeWith context typeOf definition
      | none => pure .any
    | .property owner name => do
      match ← typeOf owner with
      | .record definition =>
        match fieldInput? tree definition name with
        | some input => inputTypeWith context typeOf input
        | none => pure .any
      | _ => pure .any
    | .binary op left right => do
      let leftType ← typeOf left
      let rightType ← typeOf right
      pure (binaryType op leftType rightType)
    | .unary op operand => return unaryType op (← typeOf operand)
    | .conditional _ yes no => commonOf typeOf [yes, no]
    | .function _ inputs body output => do
      let inputs ← (tree.list inputs).mapM (inputTypeWith context typeOf)
      let output ←
        match output with
        | some type => pure type
        | none => if body.isMissing then pure .any else typeOf body
      pure (.function inputs output)
    | .record _ inputs => do
      let inputs ← (tree.list inputs).mapM (inputTypeWith context typeOf)
      pure (.function inputs (.record id))
    | .call callee _ => do
      match ← typeOf callee with
      | .function _ output => pure output
      | _ => pure .any
    | .borrow source => do
      match ← askSource lookup source with
      | .resolved type => pure type
      | _ => pure .any
    | .placeholder | .unparsable _ => pure .any

/-- Changes what is known about one node. -/
def setSlot (index : Nat) (slot : Slot) : TypeM σ Unit :=
  modify fun state => { state with slots := state.slots.setIfInBounds index slot }

/-- The type of a node, asking for other types down to a depth. -/
def typeTo (context : Context) (lookup : SourceLookup σ) : Nat → NodeId → TypeM σ Ty
  | 0, _ => pure .any
  | _ + 1, .missing => pure .any
  | depth + 1, .node index => do
    match (← get).slots[index]? with
    | none | some .inProgress => pure .any
    | some (.known type) => pure type
    | some .unknown =>
      setSlot index .inProgress
      let type ← compute context lookup (typeTo context lookup depth) (.node index)
      setSlot index (.known type)
      pure type

/-- The type of a node. -/
def typeOf (context : Context) (lookup : SourceLookup σ) (id : NodeId) : TypeM σ Ty :=
  typeTo context lookup context.tree.height id

/-- The type of an input of a definition. -/
def inputType (context : Context) (lookup : SourceLookup σ) (input : NodeId) : TypeM σ Ty :=
  inputTypeWith context (typeOf context lookup) input

/-- The type of whatever a name refers to. -/
def definitionType (context : Context) (lookup : SourceLookup σ) (definition : Definition) :
    TypeM σ Ty :=
  definitionTypeWith context (typeOf context lookup) definition

end Typing

end Rivulet
