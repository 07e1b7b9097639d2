import Rivulet.Json

/-!
Universally unique identifiers: 128 bits, written as 32 hexadecimal digits in five groups.
-/

namespace Rivulet

/-- An identifier as the number that its digits denote. -/
structure Uuid where
  value : Nat
deriving DecidableEq, Repr, Inhabited

namespace Uuid

/-- The number that hexadecimal digits denote. -/
def readDigits? (digits : List Char) : Option Nat :=
  digits.foldlM (fun value c => do some (value * 16 + (← Json.hexValue? c))) 0

/-- Reads 32 digits in five groups with hyphens between them. -/
def readGroups? (text : List Char) : Option Uuid :=
  let groups := Text.splitAtEvery (· == '-') text
  if groups.map List.length = [8, 4, 4, 4, 12] then (readDigits? groups.flatten).map Uuid.mk
  else none

/-- Reads an identifier in one of its four forms: bare digits, groups, groups in braces, or groups
after `urn:uuid:` in letters of either size. -/
def ofText? (text : String) : Option Uuid :=
  let chars := text.toList
  let urn := "urn:uuid:".toList
  if chars.length = 32 then (readDigits? chars).map Uuid.mk
  else if chars.length = 38 && chars.head? == some '{' && chars.getLast? == some '}' then
    readGroups? (chars.drop 1).dropLast
  else if urn.isPrefixOf (chars.map Char.toLower) then readGroups? (chars.drop urn.length)
  else readGroups? chars

/-- The last hexadecimal digits of a number, as many as asked for. -/
def lastDigits (value : Nat) : Nat → List Char
  | 0 => []
  | count + 1 => lastDigits (value / 16) count ++ [Json.hexDigit (value % 16)]

/-- An identifier in small letters and groups. -/
def toText (id : Uuid) : String :=
  let digits := lastDigits id.value 32
  let group (start length : Nat) := String.ofList ((digits.drop start).take length)
  "-".intercalate [group 0 8, group 8 4, group 12 4, group 16 4, group 20 12]

end Uuid

end Rivulet
