import Rivulet.Text.Letter
import Rivulet.Text.Decimal

/-!
Units of measure. A measure is a product of named dimensions raised to whole exponents, so `m/s^2`
is `m` to the power one times `s` to the power minus two. Dimensions differ by name alone, and
nothing converts between them.

Main statements: adjusting one exponent keeps the dimensions in increasing order
(`Measure.sorted_adjustPowers`) and never stores a zero (`Measure.nonzero_adjustPowers`), so every
measure has one form only.
-/

namespace Rivulet

/-- The dimensions of a measure with their exponents, in increasing order of name. -/
@[ext] structure Measure where
  powers : List (String × Int)
  sorted : powers.Pairwise fun first second => first.1 < second.1
  nonzero : ∀ power ∈ powers, power.2 ≠ 0
deriving DecidableEq, Repr

namespace Measure

/-! ### Adjusting an exponent -/

/-- Adds to the exponent of one name in a sorted list of powers; an exponent that becomes zero
is not stored. -/
def adjustPowers (name : String) (exponent : Int) : List (String × Int) → List (String × Int)
  | [] => if exponent = 0 then [] else [(name, exponent)]
  | (other, stored) :: rest =>
    if name < other then
      if exponent = 0 then (other, stored) :: rest
      else (name, exponent) :: (other, stored) :: rest
    else if name = other then
      if stored + exponent = 0 then rest else (other, stored + exponent) :: rest
    else (other, stored) :: adjustPowers name exponent rest

theorem fst_of_mem_adjustPowers {name : String} {exponent : Int} {powers : List (String × Int)}
    {power : String × Int} (member : power ∈ adjustPowers name exponent powers) :
    power.1 = name ∨ ∃ stored ∈ powers, stored.1 = power.1 := by
  induction powers with
  | nil => simp only [adjustPowers] at member; split at member <;> simp_all
  | cons head rest ih => grind [adjustPowers]

theorem sorted_adjustPowers (name : String) (exponent : Int) {powers : List (String × Int)}
    (sorted : powers.Pairwise fun first second => first.1 < second.1) :
    (adjustPowers name exponent powers).Pairwise fun first second => first.1 < second.1 := by
  induction powers with
  | nil => simp only [adjustPowers]; split <;> simp
  | cons head rest ih =>
    obtain ⟨other, stored⟩ := head
    rw [List.pairwise_cons] at sorted
    obtain ⟨below, sortedRest⟩ := sorted
    rw [adjustPowers]
    split
    next smaller =>
      split
      · exact List.pairwise_cons.2 ⟨below, sortedRest⟩
      · refine List.pairwise_cons.2
          ⟨fun power member => ?_, List.pairwise_cons.2 ⟨below, sortedRest⟩⟩
        rcases List.mem_cons.1 member with rfl | later
        · exact smaller
        · exact String.lt_trans smaller (below power later)
    next notSmaller =>
      split
      next same =>
        split
        · exact sortedRest
        · exact List.pairwise_cons.2 ⟨below, sortedRest⟩
      next different =>
        refine List.pairwise_cons.2 ⟨fun power member => ?_, ih sortedRest⟩
        rcases fst_of_mem_adjustPowers member with isName | ⟨kept, keptMember, keptName⟩
        · have larger : other < name := by grind
          simpa [isName] using larger
        · have := below kept keptMember
          simpa [keptName] using this

theorem nonzero_adjustPowers (name : String) (exponent : Int) {powers : List (String × Int)}
    (nonzero : ∀ power ∈ powers, power.2 ≠ 0) :
    ∀ power ∈ adjustPowers name exponent powers, power.2 ≠ 0 := by
  induction powers with
  | nil => simp only [adjustPowers]; split <;> simp_all
  | cons head rest ih => grind [adjustPowers]

/-- Adds to the exponent of one dimension. -/
def adjust (measure : Measure) (name : String) (exponent : Int) : Measure where
  powers := adjustPowers name exponent measure.powers
  sorted := sorted_adjustPowers name exponent measure.sorted
  nonzero := nonzero_adjustPowers name exponent measure.nonzero

/-! ### Making measures -/

/-- The measure of a plain number. -/
def unitless : Measure :=
  ⟨[], .nil, by simp⟩

instance : Inhabited Measure := ⟨unitless⟩

/-- One dimension to the power one; the empty name stands for no dimension. -/
def dimension (name : String) : Measure :=
  if name = "" then unitless else unitless.adjust name 1

/-- Whether a measure has no dimension at all. -/
def isUnitless (measure : Measure) : Bool :=
  measure.powers.isEmpty

/-- The exponent of a name; a name that does not occur has exponent zero. -/
def exponent (measure : Measure) (name : String) : Int :=
  (measure.powers.lookup name).getD 0

/-- The measure of a product of two numbers. -/
def product (left right : Measure) : Measure :=
  right.powers.foldl (fun measure power => measure.adjust power.1 power.2) left

/-- The measure of a quotient of two numbers. -/
def quotient (left right : Measure) : Measure :=
  right.powers.foldl (fun measure power => measure.adjust power.1 (-power.2)) left

/-! ### Reading and writing -/

/-- Reads one factor: a name of letters alone, optionally raised to a whole exponent. -/
def readFactor? (text : List Char) : Option (String × Int) := do
  let (base, power) := Text.cutAt (· == '^') text
  let exponent ← match power with
    | none => some 1
    | some digits => Text.readInt32? (Text.trim digits)
  let name := Text.trim base
  if name.isEmpty || !name.all Text.isLetter then none else some (String.ofList name, exponent)

/-- Multiplies a measure by the factors of a text, all raised to the power of a sign. -/
def readFactors? (sign : Int) (measure : Measure) (text : List Char) : Option Measure :=
  (Text.splitAtEvery (fun c => c == '·' || c == '*') text).foldlM
    (fun measure factor => do
      let (name, exponent) ← readFactor? (Text.trim factor)
      some (measure.adjust name (exponent * sign)))
    measure

/-- Reads a measure: factors joined by `·` or `*`, then optionally a slash and the factors to
divide by. A blank text is the measure of a plain number. -/
def ofText? (text : String) : Option Measure := do
  let chars := Text.trim text.toList
  if chars.isEmpty then some unitless
  else
    let (numerator, denominator) := Text.cutAt (· == '/') chars
    let above ← readFactors? 1 unitless numerator
    match denominator with
    | none => some above
    | some factors => readFactors? (-1) above factors

/-- A dimension to a power; the power one is not written. -/
def factorText (power : String × Int) : String :=
  if power.2 = 1 then power.1 else s!"{power.1}^{power.2}"

/-- The factors with a positive exponent, then a slash and those with a negative one; a measure
with only negative exponents starts with `1`. -/
def toText (measure : Measure) : String :=
  let above := measure.powers.filter fun power => 0 < power.2
  let below := (measure.powers.filter fun power => power.2 < 0).map fun power => (power.1, -power.2)
  let factors (powers : List (String × Int)) := "·".intercalate (powers.map factorText)
  let numerator := if above.isEmpty && !below.isEmpty then "1" else factors above
  if below.isEmpty then numerator else numerator ++ "/" ++ factors below

/-- The text of a measure between parentheses, with `#` for the measure of a plain number. -/
def describe (measure : Measure) : String :=
  "Unit(" ++ (if measure.isUnitless then "#" else measure.toText) ++ ")"

end Measure

end Rivulet
