import Rivulet.Tree.Form

/-!
Conflicts: what the analysis finds wrong with a tree. A conflict never stops an evaluation; a host
decides whether to run a program that has some.
-/

namespace Rivulet

/-- How much a conflict matters. -/
inductive Severity where
  /-- Worth pointing out; the program still means what it says. -/
  | advisory
  /-- The program cannot be evaluated as written. -/
  | blocking
deriving DecidableEq, Repr

/-- A severity in words. -/
def Severity.toText : Severity → String
  | advisory => "advisory"
  | blocking => "blocking"

/-- What is wrong. -/
inductive Problem where
  | unknownName (name : String)
  /-- A second declaration of a name in one block. -/
  | duplicateName (name : String)
  /-- Two inputs of one definition share a name. -/
  | duplicateInput (name : String)
  /-- A required input follows one with a default. -/
  | requiredAfterOptional
  | variadicNotLast
  | incompatibleType (expected found : Ty)
  | incompatibleUnits
  /-- An operand of a kind that the operator does not accept. -/
  | incompatibleOperand (op : BinaryOp)
  | notANumber
  | placeholder
  | unparsable
  /-- A required child is missing. -/
  | missingValue
  /-- A bind whose name nothing refers to. -/
  | unusedBind (name : String)
  /-- A question about a change of something that is no stream. -/
  | expectedStream
  | missingInput (name : String)
  | unexpectedInput
  | notAFunction
  | unknownProperty (name : String)
  /-- A block that ends without an expression to produce its value. -/
  | expectedEndingExpression
  | unknownSource (name : String)
  /-- A borrow of a source that is still being analysed. -/
  | borrowCycle (name : String)
deriving DecidableEq, Repr

namespace Problem

/-- An unused bind is only worth pointing out; everything else blocks. -/
def severity : Problem → Severity
  | unusedBind _ => .advisory
  | _ => .blocking

/-- The name that a problem is about. -/
def name? : Problem → Option String
  | unknownName name | duplicateName name | duplicateInput name | unusedBind name
  | missingInput name | unknownProperty name | unknownSource name | borrowCycle name => some name
  | _ => none

/-- A problem in words. -/
def describe : Problem → String
  | unknownName _ => "unknown name"
  | duplicateName _ => "duplicate name"
  | duplicateInput _ => "duplicate input"
  | requiredAfterOptional => "required input after optional input"
  | variadicNotLast => "variadic input must be last"
  | incompatibleType .. => "incompatible type"
  | incompatibleUnits => "incompatible units"
  | incompatibleOperand _ => "incompatible operand"
  | notANumber => "not a number"
  | placeholder => "placeholder"
  | unparsable => "unparsable"
  | missingValue => "missing value"
  | unusedBind _ => "unused bind"
  | expectedStream => "expected a stream"
  | missingInput _ => "missing input"
  | unexpectedInput => "unexpected input"
  | notAFunction => "not a function"
  | unknownProperty _ => "unknown property"
  | expectedEndingExpression => "expected an ending expression"
  | unknownSource _ => "unknown source"
  | borrowCycle _ => "borrow cycle"

end Problem

/-- A problem, the node at fault, and perhaps a related node. -/
structure Conflict where
  problem : Problem
  primary : NodeId
  secondary : Option NodeId
deriving DecidableEq, Repr

namespace Conflict

/-- A conflict at a node. -/
def alone (problem : Problem) (primary : NodeId) : Conflict :=
  ⟨problem, primary, none⟩

/-- A conflict at a node that concerns another one too. -/
def between (problem : Problem) (primary secondary : NodeId) : Conflict :=
  ⟨problem, primary, some secondary⟩

/-- Whether a conflict should keep a host from evaluating. -/
def isBlocking (conflict : Conflict) : Bool :=
  conflict.problem.severity == .blocking

/-- A conflict as its users read it. -/
def toText (conflict : Conflict) : String :=
  let place := s!"{conflict.problem.severity.toText}: {conflict.problem.describe} at "
    ++ conflict.primary.toText
  let types :=
    match conflict.problem with
    | .incompatibleType expected found =>
      s!" (expected {expected.toText}, found {found.toText})"
    | _ => ""
  let related :=
    match conflict.secondary with
    | some node => s!", see {node.toText}"
    | none => ""
  place ++ types ++ related

end Conflict

end Rivulet
