import Rivulet.Value.Equality

/-!
Making sets and mappings. No two items of a set and no two keys of a mapping are equal; an item
that comes again changes nothing, and a key that comes again keeps its place and takes the new
value.
-/

namespace Rivulet.Value

variable {N : Type} [DecidableEq N]

/-- Adds an item to the end of a list unless an equal one is there. -/
def insertItem (items : List (Value N)) (item : Value N) : List (Value N) :=
  if items.any (item == ·) then items else items ++ [item]

/-- Gives a key a value: in its place if an equal key is there, at the end otherwise. -/
def insertEntry : List (Value N × Value N) → Value N → Value N → List (Value N × Value N)
  | [], key, value => [(key, value)]
  | (stored, old) :: rest, key, value =>
    if key == stored then (stored, value) :: rest
    else (stored, old) :: insertEntry rest key value

/-- The set of some items, which keeps the first of any that are equal. -/
def setOf (items : List (Value N)) : Value N :=
  set (items.foldl insertItem [])

/-- The mapping of some entries; a repeated key keeps its first place and its last value. -/
def mappingOf (entries : List (Value N × Value N)) : Value N :=
  mapping (entries.foldl (fun stored entry => insertEntry stored entry.1 entry.2) [])

/-- Reads a list as keys and values in turn; a last key without a value is left out. -/
def entriesOf {N : Type} : List (Value N) → List (Value N × Value N)
  | key :: value :: rest => (key, value) :: entriesOf rest
  | _ => []

end Rivulet.Value
