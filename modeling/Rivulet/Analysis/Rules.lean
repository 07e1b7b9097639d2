import Rivulet.Analysis.Conflict
import Rivulet.Analysis.Dependencies
import Rivulet.Analysis.Typing

/-!
What each node must satisfy. A node answers for itself and its direct children only, and a rule
never stops at the first problem, so a partial tree still gets a complete report.
-/

namespace Rivulet

/-- What the rules need to know about a tree: its context, what its references refer to, and how to
ask about other sources. -/
structure Checking (σ : Type) where
  context : Context
  references : References
  lookup : SourceLookup σ

namespace Checking

variable {σ : Type}

/-! ### Parts of rules -/

/-- One complaint, provided that a condition holds. -/
def reportIf (condition : Bool) (conflict : Conflict) : List Conflict :=
  if condition then [conflict] else []

/-- Complains once if some child of a node is missing. -/
def require (parent : NodeId) (children : List NodeId) : List Conflict :=
  reportIf (children.any NodeId.isMissing) (.alone .missingValue parent)

/-- The type of a node. -/
def typeOf (checking : Checking σ) (id : NodeId) : TypeM σ Ty :=
  Typing.typeOf checking.context checking.lookup id

/-- Complains if the type of a node does not fit where it is used. -/
def expectType (checking : Checking σ) (expected : Ty) (node related : NodeId) :
    TypeM σ (List Conflict) := do
  let found ← checking.typeOf node
  pure (reportIf (!expected.accepts found)
    (.between (.incompatibleType expected found) node related))

/-- The name that a node declares. -/
def declaredName? (tree : Tree) (id : NodeId) : Option String :=
  (tree.form? id).bind Form.declaredName?

/-! ### Blocks -/

/-- Complains about every statement that declares a name again. -/
def duplicates (tree : Tree) : List (String × NodeId) → List NodeId → List Conflict
  | _, [] => []
  | declared, statement :: rest =>
    match declaredName? tree statement with
    | none => duplicates tree declared rest
    | some name =>
      match declared.lookup name with
      | some earlier =>
        .between (.duplicateName name) statement earlier :: duplicates tree declared rest
      | none => duplicates tree ((name, statement) :: declared) rest

/-- A block must end with something that is no bind. -/
def ending (tree : Tree) (node : NodeId) (statements : List NodeId) : List Conflict :=
  match statements.getLast? with
  | none => [.alone .expectedEndingExpression node]
  | some last =>
    match tree.form? last with
    | some (.bind ..) => [.between .expectedEndingExpression node last]
    | _ => []

/-- Whether a node is the body of a program. The binds there are results of the program, worth
keeping even when nothing refers to them. -/
def isTopLevel (checking : Checking σ) (node : NodeId) : Bool :=
  match (checking.context.parents.parent? node).bind checking.context.tree.form? with
  | some (.program _) => true
  | _ => false

/-- Points out the binds before the last statement that nothing refers to. -/
def unusedBinds (checking : Checking σ) (statements : List NodeId) : List Conflict :=
  statements.dropLast.filterMap fun statement =>
    match checking.context.tree.form? statement with
    | some (.bind name _ _ _) =>
      if checking.references.uses statement then none
      else some (.alone (.unusedBind name) statement)
    | _ => none

/-- The rules of a block. -/
def checkBlock (checking : Checking σ) (node : NodeId) (statements : List NodeId) :
    List Conflict :=
  let tree := checking.context.tree
  require node statements ++ ending tree node statements ++ duplicates tree [] statements ++
    (if checking.isTopLevel node then [] else checking.unusedBinds statements)

/-! ### Inputs -/

/-- The rules of the inputs of a definition, given the names seen so far and the last input that
had a default. -/
def checkInputs (tree : Tree) : List (String × NodeId) → Option NodeId → List NodeId → List Conflict
  | _, _, [] => []
  | seen, optional, input :: rest =>
    match tree.form? input with
    | some (.bind name value _ variadic) =>
      let duplicate :=
        match seen.lookup name with
        | some earlier => [.between (.duplicateInput name) input earlier]
        | none => []
      let seen := if (seen.lookup name).isSome then seen else (name, input) :: seen
      let misplaced := reportIf (variadic && !rest.isEmpty) (.alone .variadicNotLast input)
      let (order, optional) :=
        if value.isPresent then (([] : List Conflict), some input)
        else
          match variadic, optional with
          | false, some earlier => ([.between .requiredAfterOptional input earlier], optional)
          | _, _ => ([], optional)
      duplicate ++ misplaced ++ order ++ checkInputs tree seen optional rest
    | _ => .alone .missingValue input :: checkInputs tree seen optional rest

/-! ### Operators -/

/-- Whether an operator that is neither logical nor a test for equality accepts a type as its left
operand. -/
def acceptsLeft (op : BinaryOp) (type : Ty) : Bool :=
  match type with
  | .number _ => true
  | .text => op == .add || op.isComparison
  | .sequence _ => op == .add
  | _ => false

/-- The rule of an operator that is neither logical nor a test for equality, for known operand
types. -/
def operandConflicts (op : BinaryOp) (leftType rightType : Ty) (node left right : NodeId) :
    List Conflict :=
  let misfit : List Conflict :=
    [.between (.incompatibleOperand op) (if acceptsLeft op leftType then right else left) node]
  match leftType, rightType with
  | .number first, .number second =>
    reportIf (op != .multiply && op != .divide && first != second)
      (.between .incompatibleUnits node right)
  | .text, .text => if acceptsLeft op .text then [] else misfit
  | .sequence item, .sequence _ => if acceptsLeft op (.sequence item) then [] else misfit
  | _, _ => misfit

/-- The rules of a binary operator whose operands are present. -/
def checkBinary (checking : Checking σ) (node : NodeId) (op : BinaryOp) (left right : NodeId) :
    TypeM σ (List Conflict) := do
  let leftType ← checking.typeOf left
  let rightType ← checking.typeOf right
  if op.isLogical then
    let first ← checking.expectType .boolean left node
    let second ← checking.expectType .boolean right node
    pure (first ++ second)
  else if op == .equal || op == .notEqual || leftType.isAny || rightType.isAny then pure []
  else pure (operandConflicts op leftType rightType node left right)

/-- The rule of a unary operator whose operand is present; a number of any measure can be
negated. -/
def checkUnary (checking : Checking σ) (node : NodeId) (op : UnaryOp) (operand : NodeId) :
    TypeM σ (List Conflict) := do
  let found ← checking.typeOf operand
  match op, found with
  | .negate, .number _ => pure []
  | .negate, _ => checking.expectType .plainNumber operand node
  | .not, _ => checking.expectType .boolean operand node

/-! ### Calls -/

/-- The inputs that a call is checked against. -/
inductive Signature where
  | inputs (nodes : List NodeId)
  | native (names : List String)

/-- The inputs of whatever a callee is known to call. -/
def signature? (context : Context) (callee : NodeId) : Option Signature := do
  let inputsOf (definition : NodeId) : Option Signature :=
    match context.tree.form? definition with
    | some (.function _ inputs _ _) | some (.record _ inputs) =>
      some (.inputs (context.tree.list inputs))
    | _ => none
  match context.tree.form? callee with
  | some (.function ..) | some (.record ..) => inputsOf callee
  | some (.reference name) =>
    match ← context.resolve? callee name with
    | .native index => (context.natives.get? index).map fun native => .native native.inputs
    | definition => inputsOf (← context.callable? definition)
  | _ => none

/-- Whether an input is variadic. -/
def isVariadic (tree : Tree) (input : NodeId) : Bool :=
  match tree.form? input with
  | some (.bind _ _ _ variadic) => variadic
  | _ => false

/-- Whether an input is a bind without a default. -/
def isRequired (tree : Tree) (input : NodeId) : Bool :=
  match tree.form? input with
  | some (.bind _ value _ _) => value.isMissing
  | _ => false

/-- Complains about the number of arguments of a call of a definition, and tells how many of them
are passed to inputs of their own; those after a variadic input are its items. -/
def checkArity (tree : Tree) (node : NodeId) (inputs arguments : List NodeId) :
    List Conflict × Nat :=
  let variadic := inputs.findIdx? (isVariadic tree)
  let fixed := variadic.getD inputs.length
  let missing :=
    match ((inputs.take fixed).drop arguments.length).find? (isRequired tree) with
    | some input =>
      [.between (.missingInput ((declaredName? tree input).getD "")) node input]
    | none => []
  let unexpected :=
    match variadic, arguments[inputs.length]? with
    | none, some extra => [.between .unexpectedInput extra node]
    | _, _ => []
  (missing ++ unexpected, min arguments.length fixed)

/-- Complains about the number of arguments of a call of a native. -/
def checkNativeArity (node : NodeId) (names : List String) (arguments : List NodeId) :
    List Conflict :=
  (match names[arguments.length]? with
    | some name => [.alone (.missingInput name) node]
    | none => []) ++
  (match arguments[names.length]? with
    | some extra => [.between .unexpectedInput extra node]
    | none => [])

/-- Checks arguments against the types of the inputs that they are passed to. -/
def checkArguments (checking : Checking σ) (node : NodeId) :
    List NodeId → List Ty → TypeM σ (List Conflict)
  | argument :: arguments, type :: types => do
    let found ←
      if argument.isMissing then pure [] else checking.expectType type argument node
    pure (found ++ (← checkArguments checking node arguments types))
  | _, _ => pure []

/-- The rules of a call whose callee is present. -/
def checkCall (checking : Checking σ) (node callee : NodeId) (arguments : List NodeId) :
    TypeM σ (List Conflict) := do
  match ← checking.typeOf callee with
  | .function types _ =>
    let (arity, typed) :=
      match signature? checking.context callee with
      | some (.inputs inputs) => checkArity checking.context.tree node inputs arguments
      | some (.native names) => (checkNativeArity node names arguments, arguments.length)
      | none => ([], arguments.length)
    pure (arity ++ (← checking.checkArguments node (arguments.take typed) types))
  | type => pure (reportIf (!type.isAny) (.between .notAFunction callee node))

/-! ### Nodes -/

/-- Whether a node is a reference to a stream. -/
def isStream (context : Context) (node : NodeId) : Bool :=
  match context.tree.form? node with
  | some (.reference name) =>
    match context.resolve? node name with
    | some (.stream _) => true
    | _ => false
  | _ => false

/-- Whether a node is a statement of a block. -/
def isStatement (context : Context) (node : NodeId) : Bool :=
  match (context.parents.parent? node).bind context.tree.form? with
  | some (.block _) => true
  | _ => false

/-- The rule of a property: an instance of a known record must have the field. -/
def checkProperty (checking : Checking σ) (node owner : NodeId) (name : String) :
    TypeM σ (List Conflict) := do
  match ← checking.typeOf owner with
  | .record definition =>
    match checking.context.tree.form? definition with
    | some (.record _ inputs) =>
      let hasField := (checking.context.tree.list inputs).any fun input =>
        declaredName? checking.context.tree input == some name
      pure (reportIf (!hasField) (.between (.unknownProperty name) node definition))
    | _ => pure []
  | _ => pure []

/-- Checks a type that was declared for a node, if one was and the node is present. -/
def checkDeclared (checking : Checking σ) (declared : Option Ty) (value node : NodeId) :
    TypeM σ (List Conflict) :=
  match declared with
  | some type => if value.isMissing then pure [] else checking.expectType type value node
  | none => pure []

/-- The rule of a borrow: the source must exist and must not be under analysis itself. -/
def checkBorrow (checking : Checking σ) (node : NodeId) (source : String) :
    TypeM σ (List Conflict) := do
  match ← Typing.askSource checking.lookup source with
  | .resolved _ => pure []
  | .analyzing => pure [.alone (.borrowCycle source) node]
  | .missing => pure [.alone (.unknownSource source) node]

/-- All complaints about one node. -/
def check (checking : Checking σ) (node : NodeId) : TypeM σ (List Conflict) :=
  let tree := checking.context.tree
  match tree.form? node with
  | none => pure []
  | some form =>
    match form with
    | .program body => pure (require node [body])
    | .block statements => pure (checking.checkBlock node (tree.list statements))
    | .bind _ value declared _ => do
      let missing := if isStatement checking.context node then require node [value] else []
      pure (missing ++ (← checking.checkDeclared declared value node))
    | .number literal measure =>
      pure (reportIf (Quantity.ofText? literal measure).isNone (.alone .notANumber node))
    | .sequence items | .set items => pure (require node (tree.list items))
    | .pair key value => pure (require node [key, value])
    | .reference name =>
      pure (reportIf (checking.context.resolve? node name).isNone (.alone (.unknownName name) node))
    | .property owner name => do
      pure (require node [owner] ++ (← checking.checkProperty node owner name))
    | .binary op left right => do
      let found ←
        if left.isMissing || right.isMissing then pure []
        else checking.checkBinary node op left right
      pure (require node [left, right] ++ found)
    | .unary op operand => do
      let found ← if operand.isMissing then pure [] else checking.checkUnary node op operand
      pure (require node [operand] ++ found)
    | .conditional condition yes no => do
      let found ←
        if condition.isMissing then pure [] else checking.expectType .boolean condition node
      pure (require node [condition, yes, no] ++ found)
    | .function _ inputs body output => do
      pure (checkInputs tree [] none (tree.list inputs) ++
        (← checking.checkDeclared output body node))
    | .record _ inputs => pure (checkInputs tree [] none (tree.list inputs))
    | .call callee arguments => do
      let arguments := tree.list arguments
      let found ← if callee.isMissing then pure [] else checking.checkCall node callee arguments
      pure (require node [callee] ++ require node arguments ++ found)
    | .changed stream =>
      pure (reportIf (!isStream checking.context stream) (.between .expectedStream node stream))
    | .borrow source => checking.checkBorrow node source
    | .placeholder => pure [.alone .placeholder node]
    | .unparsable _ => pure [.alone .unparsable node]
    | .mapping _ | .boolean _ | .text _ | .none => pure []

end Checking

end Rivulet
