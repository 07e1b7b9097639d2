import Rivulet.NodeId

/-!
Exceptions. A step that fails yields an exception in place of its value, tagged with the node that
was being evaluated, and the whole evaluation ends with it.
-/

namespace Rivulet

/-- The kind of a value, without its contents. -/
inductive ValueKind where
  | none | boolean | number | text | sequence | set | mapping | function | record | exception
deriving DecidableEq, Repr, Inhabited

/-- A kind as messages name it. -/
def ValueKind.toText : ValueKind → String
  | none => "none"
  | boolean => "boolean"
  | number => "number"
  | text => "text"
  | sequence => "sequence"
  | set => "set"
  | mapping => "mapping"
  | function => "function"
  | record => "structure"
  | exception => "exception"

/-- Why a step failed. -/
inductive Failure (N : Type := String) where
  /-- A name that no enclosing scope binds. -/
  | unknownName (name : N)
  /-- A step needed a value and found none. -/
  | expectedValue
  | typeMismatch (expected found : ValueKind)
  | incompatibleUnits
  | divisionByZero
  /-- A numeric literal that does not parse. -/
  | notANumber
  /-- A required input got no argument. -/
  | missingInput (name : N)
  /-- There were more arguments than inputs. -/
  | unexpectedInput
  | unknownProperty (name : N)
  /-- A second binding of a name in one scope. -/
  | alreadyBound (name : N)
  | placeholder
  | unparsable
  /-- The step budget ran out before the evaluation ended. -/
  | stepLimit
  /-- Too many frames were active at once. -/
  | recursionLimit
  /-- A borrow of a source that was not supplied. -/
  | unknownSource (name : N)
deriving DecidableEq, Repr, Inhabited

/-- What went wrong, in words. -/
def Failure.describe {N : Type} : Failure N → String
  | unknownName _ => "unknown name"
  | expectedValue => "expected a value"
  | typeMismatch .. => "type mismatch"
  | incompatibleUnits => "incompatible units"
  | divisionByZero => "division by zero"
  | notANumber => "not a number"
  | missingInput _ => "missing input"
  | unexpectedInput => "unexpected input"
  | unknownProperty _ => "unknown property"
  | alreadyBound _ => "name already bound"
  | placeholder => "placeholder"
  | unparsable => "unparsable"
  | stepLimit => "step limit exceeded"
  | recursionLimit => "recursion limit exceeded"
  | unknownSource _ => "unknown source"

/-- The name that a failure is about. -/
def Failure.name? {N : Type} : Failure N → Option N
  | unknownName name | missingInput name | unknownProperty name | alreadyBound name
  | unknownSource name => some name
  | _ => none

/-- A failure and the node at which it happened. -/
structure Exception (N : Type := String) where
  failure : Failure N
  node : NodeId
deriving DecidableEq, Repr, Inhabited

/-- An exception as its users read it; a type mismatch also tells both kinds. -/
def Exception.toText {N : Type} (exception : Exception N) : String :=
  let place := s!"!{exception.failure.describe} at {exception.node.toText}"
  match exception.failure with
  | .typeMismatch expected found =>
    s!"{place}: expected {expected.toText}, found {found.toText}"
  | _ => place

end Rivulet
