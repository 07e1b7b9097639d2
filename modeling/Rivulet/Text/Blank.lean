/-!
White space, and the ways a text is cut: trimmed at both ends, cut in two at the first separator,
split at every separator, and split into lines.
-/

namespace Rivulet.Text

/-- A blank is a character with the property White_Space. -/
def isBlank (c : Char) : Bool :=
  let value := c.toNat
  (0x9 ≤ value && value ≤ 0xD) || value == 0x20 || value == 0x85 || value == 0xA0 ||
  value == 0x1680 || (0x2000 ≤ value && value ≤ 0x200A) || value == 0x2028 || value == 0x2029 ||
  value == 0x202F || value == 0x205F || value == 0x3000

/-- Drops the last characters of a text as long as they satisfy a condition. -/
def dropWhileEnd (condition : Char → Bool) (text : List Char) : List Char :=
  (text.reverse.dropWhile condition).reverse

/-- A text without its leading and trailing blanks. -/
def trim (text : List Char) : List Char :=
  dropWhileEnd isBlank (text.dropWhile isBlank)

/-- Cuts a text at the first character that satisfies a condition and drops that character;
without one there is no second part. -/
def cutAt (separator : Char → Bool) : List Char → List Char × Option (List Char)
  | [] => ([], none)
  | c :: rest =>
    if separator c then ([], some rest)
    else
      let (before, after) := cutAt separator rest
      (c :: before, after)

/-- The parts of a text between its separators; there is always at least one part. -/
def splitAtEvery (separator : Char → Bool) : List Char → List (List Char)
  | [] => [[]]
  | c :: rest =>
    if separator c then [] :: splitAtEvery separator rest
    else
      match splitAtEvery separator rest with
      | [] => [[c]]
      | part :: parts => (c :: part) :: parts

/-- A line end is a line feed; a carriage return before it belongs to the line end too. -/
def dropCarriageReturn (line : List Char) : List Char :=
  if line.getLast? = some '\r' then line.dropLast else line

/-- The lines of a text. The part after the last line feed is a line of its own, kept as it is,
unless it is empty. -/
def lines (text : List Char) : List (List Char) :=
  let parts := splitAtEvery (· == '\n') text
  let closed := parts.dropLast.map dropCarriageReturn
  match parts.getLast? with
  | none | some [] => closed
  | some last => closed ++ [last]

end Rivulet.Text
