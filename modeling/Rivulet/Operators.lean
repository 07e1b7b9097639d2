import Rivulet.Tree.Form
import Rivulet.Value.Equality

/-!
What the operators compute. A failure is reported at the node of the operation, so the operators
themselves only tell why there is no result.
-/

namespace Rivulet

/-- The failure that an arithmetic error causes. -/
def ArithmeticError.failure {N : Type} : ArithmeticError → Failure N
  | incompatibleUnits => .incompatibleUnits
  | divisionByZero => .divisionByZero

namespace Operators

variable {N : Type}

/-- The result of arithmetic as a value. -/
def numeric (result : Except ArithmeticError Quantity) : Except (Failure N) (Value N) :=
  match result with
  | .ok number => .ok (.number number)
  | .error error => .error error.failure

/-- The failure of a value that has the wrong kind. -/
def mismatch (expected : ValueKind) (found : Value N) : Except (Failure N) (Value N) :=
  .error (.typeMismatch expected found.kind)

/-- Whether an ordering satisfies a comparison. -/
def holds (op : BinaryOp) (ordering : Ordering) : Bool :=
  match op with
  | .less => ordering == .lt
  | .lessEqual => ordering != .gt
  | .greater => ordering == .gt
  | .greaterEqual => ordering != .lt
  | _ => false

/-- Arithmetic or comparison of two numbers. -/
def onNumbers (op : BinaryOp) (left right : Quantity) : Except (Failure N) (Value N) :=
  match op with
  | .add => numeric (left.add right)
  | .subtract => numeric (left.subtract right)
  | .multiply => .ok (.number (left.multiply right))
  | .divide => numeric (left.divide right)
  | .remainder => numeric (left.remainder right)
  | _ =>
    match left.compare right with
    | .ok ordering => .ok (.boolean (holds op ordering))
    | .error error => .error error.failure

/-- Two values that no other rule covers: the left one decides what the right one had to be. -/
def misfit (left right : Value N) : Except (Failure N) (Value N) :=
  match left with
  | .number _ => mismatch .number right
  | .text _ => mismatch .text right
  | .sequence _ => mismatch .sequence right
  | other => mismatch .number other

/-- Both operands of a logical operator must be booleans. -/
def logical (op : BinaryOp) (left right : Value N) : Except (Failure N) (Value N) :=
  match left, right with
  | .boolean first, .boolean second =>
    .ok (.boolean (if op == .and then first && second else first || second))
  | .boolean _, other => mismatch .boolean other
  | other, _ => mismatch .boolean other

/-- A binary operator on two values. Numbers admit arithmetic and comparison, texts concatenation
and comparison, sequences concatenation, and all values tests for equality. -/
def binary [DecidableEq N] (op : BinaryOp) (left right : Value N) : Except (Failure N) (Value N) :=
  match op with
  | .equal => .ok (.boolean (left == right))
  | .notEqual => .ok (.boolean (left != right))
  | .and | .or => logical op left right
  | _ =>
    match left, right with
    | .number first, .number second => onNumbers op first second
    | .text first, .text second =>
      if op == .add then .ok (.text (first ++ second))
      else if op.isComparison then .ok (.boolean (holds op (compareOfLessAndEq first second)))
      else misfit left right
    | .sequence first, .sequence second =>
      if op == .add then .ok (.sequence (first ++ second)) else misfit left right
    | _, _ => misfit left right

/-- A unary operator on a value. -/
def unary (op : UnaryOp) (operand : Value N) : Except (Failure N) (Value N) :=
  match op, operand with
  | .negate, .number number => .ok (.number number.negate)
  | .not, .boolean value => .ok (.boolean !value)
  | .negate, other => mismatch .number other
  | .not, other => mismatch .boolean other

end Operators

end Rivulet
