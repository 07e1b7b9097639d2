import Rivulet.Measure
import Rivulet.NodeId

/-!
Static types. `Ty.any` stands wherever a type cannot be known and is compatible in both
directions, so that one unknown name never causes a second complaint.

Main statement: `Ty.same` decides equality of types (`Ty.same_iff`).
-/

namespace Rivulet

/-- The static type of an expression. -/
inductive Ty where
  | any
  | none
  | boolean
  | number (measure : Measure)
  | text
  | sequence (item : Ty)
  | set (item : Ty)
  | mapping (key value : Ty)
  | function (inputs : List Ty) (output : Ty)
  | record (definition : NodeId)
deriving Repr, Inhabited

namespace Ty

/-! ### Equality -/

mutual

/-- Whether two types are the same. -/
def same : Ty → Ty → Bool
  | any, any => true
  | none, none => true
  | boolean, boolean => true
  | number first, number second => first == second
  | text, text => true
  | sequence first, sequence second => same first second
  | set first, set second => same first second
  | mapping key value, mapping key' value' => same key key' && same value value'
  | function inputs output, function inputs' output' =>
    sameAll inputs inputs' && same output output'
  | record first, record second => first == second
  | _, _ => false
termination_by structural value => value

/-- Whether two lists hold the same types in the same order. -/
def sameAll : List Ty → List Ty → Bool
  | [], [] => true
  | first :: rest, second :: rest' => same first second && sameAll rest rest'
  | _, _ => false
termination_by structural value => value

end

mutual

theorem same_iff (first second : Ty) : same first second = true ↔ first = second := by
  cases first <;> cases second <;> simp [same]
  case sequence.sequence => exact same_iff ..
  case set.set => exact same_iff ..
  case mapping.mapping => simp [same_iff]
  case function.function => simp [same_iff, sameAll_iff]

theorem sameAll_iff (first second : List Ty) : sameAll first second = true ↔ first = second := by
  cases first <;> cases second <;> simp [sameAll, same_iff, sameAll_iff]

end

instance : DecidableEq Ty := fun first second =>
  decidable_of_iff _ (same_iff first second)

/-! ### Compatibility -/

/-- The type of plain numbers. -/
def plainNumber : Ty :=
  number Measure.unitless

/-- Whether nothing is known about a type. -/
def isAny : Ty → Bool
  | any => true
  | _ => false

mutual

/-- Whether a value of the second type may flow where the first is expected. An unknown type is
compatible with every type, in both directions, so the direction never matters: the inputs of two
functions are compared like their outputs. -/
def accepts : Ty → Ty → Bool
  | any, _ => true
  | _, any => true
  | sequence first, sequence second => accepts first second
  | set first, set second => accepts first second
  | mapping key value, mapping key' value' => accepts key key' && accepts value value'
  | function inputs output, function inputs' output' =>
    acceptsAll inputs inputs' && accepts output output'
  | first, second => same first second
termination_by structural value => value

/-- Whether two lists are of one length and each type of the first accepts its partner. -/
def acceptsAll : List Ty → List Ty → Bool
  | [], [] => true
  | first :: rest, second :: rest' => accepts first second && acceptsAll rest rest'
  | _, _ => false
termination_by structural value => value

end

/-- The one type that covers all types of a list; `any` when they differ or when there is none.
An `any` among them counts for nothing. -/
def common : List Ty → Ty
  | [] => any
  | first :: rest => go first rest
where
  /-- The type that covers one found so far and all that follow. -/
  go (found : Ty) : List Ty → Ty
    | [] => found
    | next :: rest =>
      if found.isAny then go next rest
      else if next.isAny || next == found then go found rest
      else any

/-! ### Writing -/

mutual

/-- A type as its users read it. -/
def toText : Ty → String
  | any => "any"
  | none => "none"
  | boolean => "boolean"
  | number measure => if measure.isUnitless then "number" else "number " ++ measure.toText
  | text => "text"
  | sequence item => "[" ++ toText item ++ "]"
  | set item => "\x7b" ++ toText item ++ "\x7d"
  | mapping key value => "\x7b" ++ toText key ++ ":" ++ toText value ++ "\x7d"
  | function inputs output => "ƒ(" ++ " ".intercalate (texts inputs) ++ ") " ++ toText output
  | record definition => "structure " ++ definition.toText
termination_by structural value => value

/-- The texts of a list of types. -/
def texts : List Ty → List String
  | [] => []
  | first :: rest => toText first :: texts rest
termination_by structural value => value

end

end Ty

end Rivulet
