import Rivulet.Measure

/-!
Exact numbers with units of measure. A quantity is a fraction of two whole numbers, kept in lowest
terms with the sign above the line, together with its measure. Measures never convert: `1m` and
`100cm` are different quantities, and adding or comparing quantities of different measures has no
result.
-/

namespace Rivulet

/-- The numbers above and below the line of a fraction, and what it measures. -/
structure Quantity where
  numerator : Int
  denominator : Int
  measure : Measure
deriving DecidableEq

/-- Why arithmetic on two quantities has no result. -/
inductive ArithmeticError where
  | incompatibleUnits
  | divisionByZero
deriving DecidableEq, Repr

namespace Quantity

instance : Inhabited Quantity := ⟨0, 1, Measure.unitless⟩

/-! ### Making fractions -/

/-- The fraction of two whole numbers: the sign goes above the line, and common factors go out. -/
def ofParts (numerator denominator : Int) (measure : Measure) : Quantity :=
  let (numerator, denominator) :=
    if denominator < 0 then (-numerator, -denominator) else (numerator, denominator)
  let divisor : Int := Int.gcd numerator denominator
  if divisor ≠ 0 ∧ divisor ≠ 1 then
    ⟨numerator.tdiv divisor, denominator.tdiv divisor, measure⟩
  else ⟨numerator, denominator, measure⟩

@[simp] theorem measure_ofParts (numerator denominator : Int) (measure : Measure) :
    (ofParts numerator denominator measure).measure = measure := by
  simp only [ofParts]
  split <;> split <;> rfl

/-- A whole number with a measure. -/
def ofInt (value : Int) (measure : Measure) : Quantity :=
  ⟨value, 1, measure⟩

/-- A plain count. -/
def ofNat (count : Nat) : Quantity :=
  ⟨count, 1, Measure.unitless⟩

/-! ### Reading a literal -/

/-- The largest power of ten, in either direction, that a literal may be scaled by. -/
def maxScale : Nat := 4096

/-- A whole number times a power of ten. -/
def scaled (digits scale : Int) (measure : Measure) : Quantity :=
  let power : Int := Nat.pow 10 scale.natAbs
  if 0 ≤ scale then ofParts (digits * power) 1 measure else ofParts digits power measure

@[simp] theorem measure_scaled (digits scale : Int) (measure : Measure) :
    (scaled digits scale measure).measure = measure := by
  simp only [scaled]
  split <;> exact measure_ofParts _ _ measure

/-- The digits before and after the point of a mantissa, at least one digit in all. -/
def readMantissa? (text : List Char) : Option (List Char × List Char) :=
  let (whole, fraction) := Text.cutAt (· == '.') text
  let fraction := fraction.getD []
  if whole.isEmpty && fraction.isEmpty then none
  else if !(whole ++ fraction).all Text.isDigit then none
  else some (whole, fraction)

/-- Reads a decimal literal such as `12`, `-0.25` or `6.02e23`. The exponent less the number of
digits after the point must lie within `maxScale` of zero. -/
def ofText? (text : String) (measure : Measure) : Option Quantity := do
  let (negative, unsigned) := Text.readSign (Text.trim text.toList)
  let (mantissa, power) := Text.cutAt (fun c => c == 'e' || c == 'E') unsigned
  let exponent ← match power with
    | none => some 0
    | some digits => Text.readInt32? digits
  let (whole, fraction) ← readMantissa? mantissa
  let scale := exponent - fraction.length
  if maxScale < scale.natAbs then none
  else
    let digits : Int := Text.digitsValue (whole ++ fraction)
    some (scaled (if negative then -digits else digits) scale measure)

/-- With or without an exponent, a literal is digits that are moved by some places. -/
theorem eq_scaled_of_ofText? {text : String} {measure : Measure} {number : Quantity}
    (read : ofText? text measure = some number) :
    ∃ digits scale, number = scaled digits scale measure := by
  unfold ofText? at read
  dsimp only at read
  split at read
  all_goals
    obtain ⟨exponent, -, read⟩ := Option.bind_eq_some_iff.mp read
    obtain ⟨mantissa, -, read⟩ := Option.bind_eq_some_iff.mp read
    split at read
    · contradiction
    · exact ⟨_, _, (Option.some.inj read).symm⟩

/-! ### Arithmetic -/

/-- Whether the number is zero. -/
def isZero (number : Quantity) : Bool :=
  number.numerator == 0

/-- Whether the number is whole. -/
def isInteger (number : Quantity) : Bool :=
  number.denominator == 1

/-- The sum of two quantities of one measure. -/
def add (left right : Quantity) : Except ArithmeticError Quantity :=
  if left.measure ≠ right.measure then .error .incompatibleUnits
  else
    .ok (ofParts (left.numerator * right.denominator + right.numerator * left.denominator)
      (left.denominator * right.denominator) left.measure)

/-- The same number with the opposite sign. -/
def negate (number : Quantity) : Quantity :=
  { number with numerator := -number.numerator }

/-- The difference of two quantities of one measure. -/
def subtract (left right : Quantity) : Except ArithmeticError Quantity :=
  left.add right.negate

/-- The product of two quantities. -/
def multiply (left right : Quantity) : Quantity :=
  ofParts (left.numerator * right.numerator) (left.denominator * right.denominator)
    (left.measure.product right.measure)

/-- The quotient of two quantities. -/
def divide (left right : Quantity) : Except ArithmeticError Quantity :=
  if right.isZero then .error .divisionByZero
  else
    .ok (ofParts (left.numerator * right.denominator) (left.denominator * right.numerator)
      (left.measure.quotient right.measure))

/-- The remainder of two quantities of one measure, with the sign of the dividend. -/
def remainder (left right : Quantity) : Except ArithmeticError Quantity :=
  if left.measure ≠ right.measure then .error .incompatibleUnits
  else if right.isZero then .error .divisionByZero
  else
    .ok (ofParts
      ((left.numerator * right.denominator).tmod (right.numerator * left.denominator))
      (left.denominator * right.denominator) left.measure)

/-- The order of two quantities of one measure. -/
def compare (left right : Quantity) : Except ArithmeticError Ordering :=
  if left.measure ≠ right.measure then .error .incompatibleUnits
  else
    .ok (compareOfLessAndEq (left.numerator * right.denominator)
      (right.numerator * left.denominator))

/-- The quantity as a position in a collection, which is a whole number and not negative. -/
def toIndex? (number : Quantity) : Option Nat :=
  if number.isInteger && 0 ≤ number.numerator then some number.numerator.toNat else none

/-! ### Writing -/

/-- How many digits are written after the point at most. -/
def displayPrecision : Nat := 12

/-- Long division behind the point: digit after digit, until nothing is left to divide or there
are enough of them. -/
def divideOn (denominator rest : Nat) (digits : List Char) : List Char :=
  if rest ≠ 0 ∧ digits.length < displayPrecision then
    divideOn denominator (rest * 10 % denominator)
      (digits ++ Nat.toDigits 10 (rest * 10 / denominator))
  else digits
termination_by displayPrecision - digits.length
decreasing_by
  have := @Nat.length_toDigits_pos 10 (rest * 10 / denominator)
  grind

/-- The point and the digits after it, without zeros at their end; nothing if no digit is left. -/
def fractionText (denominator rest : Nat) : String :=
  if rest = 0 then ""
  else
    let digits := Text.dropWhileEnd (· == '0') (divideOn denominator rest [])
    if digits.isEmpty then "" else "." ++ String.ofList digits

/-- The number in decimal notation, cut off after twelve digits behind the point; a negative one
starts with a minus even if only zeros are left of it. -/
def decimalText (number : Quantity) : String :=
  let sign := if number.numerator < 0 then "-" else ""
  let numerator := number.numerator.natAbs
  let denominator := number.denominator.toNat
  sign ++ Text.writeNat (numerator / denominator) ++
    fractionText denominator (numerator % denominator)

/-- The decimal notation followed by the measure, if there is one. -/
def toText (number : Quantity) : String :=
  number.decimalText ++ if number.measure.isUnitless then "" else number.measure.toText

end Quantity

end Rivulet
