import Rivulet.Exception
import Rivulet.Quantity

/-!
Values: what they are, how their parts are read, and how they are written.
-/

namespace Rivulet

/-- What a function runs when it is called. -/
inductive Callee where
  | definition (id : NodeId)
  | native (index : Nat)
deriving DecidableEq, Repr, Inhabited

/-- A callable value. -/
structure Function (N : Type := String) where
  callee : Callee
  /-- The scope captured where the function was defined, named by its place in the store. -/
  context : Option Nat
  /-- Bound to the function itself in every call, unless an input declares it; empty for an
  anonymous function. -/
  name : N
deriving DecidableEq, Repr, Inhabited

/-- The results of evaluation. -/
inductive Value (N : Type := String) where
  | none
  | boolean (value : Bool)
  | number (value : Quantity)
  | text (value : String)
  /-- Items in order, repetitions allowed. -/
  | sequence (items : Array (Value N))
  /-- Items no two of which are equal, in order of insertion. -/
  | set (items : List (Value N))
  /-- Keys no two of which are equal with their values, in order of insertion. -/
  | mapping (entries : List (Value N × Value N))
  | function (value : Function N)
  /-- An instance of a record with its fields in order. -/
  | record (definition : NodeId) (fields : List (N × Value N))
  | exception (value : Exception N)
deriving Inhabited

/-- One element of a collection. -/
inductive Element (N : Type := String) where
  | single (value : Value N)
  | entry (key value : Value N)

namespace Value

variable {N : Type}

/-- The exception of a failure at a node. -/
def failed (failure : Failure N) (node : NodeId) : Value N :=
  exception ⟨failure, node⟩

/-! ### Inspection -/

/-- The kind of a value. -/
def kind : Value N → ValueKind
  | none => .none
  | boolean _ => .boolean
  | number _ => .number
  | text _ => .text
  | sequence _ => .sequence
  | set _ => .set
  | mapping _ => .mapping
  | function _ => .function
  | record .. => .record
  | exception _ => .exception

/-- The truth value that a value is, if it is one. -/
def boolean? : Value N → Option Bool
  | boolean value => some value
  | _ => Option.none

/-- The number that a value is, if it is one. -/
def number? : Value N → Option Quantity
  | number value => some value
  | _ => Option.none

/-- The text that a value is, if it is one. -/
def text? : Value N → Option String
  | text value => some value
  | _ => Option.none

/-- The exception that a value is, if it is one. -/
def exception? : Value N → Option (Exception N)
  | exception value => some value
  | _ => Option.none

/-- Whether a value is an exception. -/
def isException : Value N → Bool
  | exception _ => true
  | _ => false

/-- Whether a value is a sequence, a set or a mapping. -/
def isCollection : Value N → Bool
  | sequence _ | set _ | mapping _ => true
  | _ => false

/-- How many elements a collection or characters a text has. -/
def length? : Value N → Option Nat
  | text value => some value.length
  | sequence items => some items.size
  | set items => some items.length
  | mapping entries => some entries.length
  | _ => Option.none

/-- The element of a collection at a position in order of iteration. -/
def element? : Value N → Nat → Option (Element N)
  | sequence items, index => items[index]?.map .single
  | set items, index => items[index]?.map .single
  | mapping entries, index => entries[index]?.map fun entry => .entry entry.1 entry.2
  | _, _ => Option.none

/-- The elements of a collection in order of iteration; any other value has none. -/
def elements : Value N → List (Element N)
  | sequence items => items.toList.map .single
  | set items => items.map .single
  | mapping entries => entries.map fun entry => .entry entry.1 entry.2
  | _ => []

/-- Reading the elements of a value one by one yields the list of them. -/
theorem getElem?_elements (value : Value N) (index : Nat) :
    value.elements[index]? = value.element? index := by
  cases value <;> simp [elements, element?]

/-- The value of a field of an instance; the first field of a name counts. -/
def field? [DecidableEq N] (fields : List (N × Value N)) (name : N) : Option (Value N) :=
  fields.lookup name

/-! ### Writing -/

mutual

/-- A value as its users read it. -/
def toText : Value N → String
  | none => "ø"
  | boolean true => "⊤"
  | boolean false => "⊥"
  | number value => value.toText
  | text value => "\"" ++ value ++ "\""
  | sequence ⟨items⟩ => "[" ++ " ".intercalate (texts items) ++ "]"
  | set items => "\x7b" ++ " ".intercalate (texts items) ++ "\x7d"
  | mapping entries =>
    if entries.isEmpty then "\x7b:\x7d"
    else "\x7b" ++ " ".intercalate (entryTexts entries) ++ "\x7d"
  | function ⟨.definition id, _, _⟩ => "ƒ" ++ id.toText
  | function ⟨.native index, _, _⟩ => s!"ƒ native {index}"
  | record definition fields =>
    "structure" ++ definition.toText ++ "(" ++ " ".intercalate (fieldTexts fields) ++ ")"
  | exception value => value.toText
termination_by structural value => value

/-- The texts of a list of values. -/
def texts : List (Value N) → List String
  | [] => []
  | first :: rest => toText first :: texts rest
termination_by structural value => value

/-- The texts of the entries of a mapping. -/
def entryTexts : List (Value N × Value N) → List String
  | [] => []
  | (key, value) :: rest => (toText key ++ ":" ++ toText value) :: entryTexts rest
termination_by structural value => value

/-- The texts of the values of the fields of an instance. -/
def fieldTexts : List (N × Value N) → List String
  | [] => []
  | (_, value) :: rest => toText value :: fieldTexts rest
termination_by structural value => value

end

end Value

end Rivulet
