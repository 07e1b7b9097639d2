import Mathlib.Algebra.Order.Field.Basic
import Mathlib.Algebra.Order.Field.Rat
import Mathlib.Algebra.Order.Ring.Abs
import Mathlib.Data.Rat.Lemmas
import Mathlib.Tactic.Linarith
import Mathlib.Tactic.Ring
import Rivulet.Quantity

/-!
Arithmetic is exact. The rules of arithmetic make fractions of whole numbers, with common factors and with signs below
the line; what is kept of them is the fraction in lowest terms (`Quantity.IsFraction`), which there is only one of.
Fractions are brought to lowest terms in one place (`ofParts_isFraction`), and what goes around that place, whole numbers
and opposites, is in lowest terms as it is.

Main statement: numbers that are read, counted or computed (`Quantity.Made`) are in lowest terms, and on any two of them
every operation has the result that the rules tell, and fails where they tell none (`arithmetic_exact`).
-/

namespace Rivulet

namespace Quantity

/-! ### Fractions -/

/-- The rational number that a quantity is of its measure. -/
def magnitude (number : Quantity) : ℚ :=
  number.numerator / number.denominator

/-- A quantity in lowest terms: the numbers above and below the line have no factor in common, and the sign is above. -/
def IsReduced (number : Quantity) : Prop :=
  0 < number.denominator ∧ Int.gcd number.numerator number.denominator = 1

/-- A quantity is a fraction of two whole numbers, in lowest terms, of some measure. -/
structure IsFraction (number : Quantity) (above below : Int) (measure : Measure) : Prop where
  defined : below ≠ 0
  same : number.numerator * below = above * number.denominator
  reduced : number.IsReduced
  measure : number.measure = measure

variable {number left right : Quantity} {above below : Int} {measure : Measure}

theorem IsReduced.denominator_pos (reduced : number.IsReduced) : 0 < number.denominator :=
  reduced.1

theorem IsReduced.cast_denominator_pos (reduced : number.IsReduced) : 0 < (number.denominator : ℚ) :=
  Int.cast_pos.mpr reduced.denominator_pos

theorem IsReduced.magnitude_eq_zero_iff (reduced : number.IsReduced) : number.magnitude = 0 ↔ number.numerator = 0 := by
  rw [magnitude, div_eq_zero_iff, or_iff_left reduced.cast_denominator_pos.ne', Int.cast_eq_zero]

theorem IsReduced.isZero_iff (reduced : number.IsReduced) : number.isZero = true ↔ number.magnitude = 0 := by
  rw [reduced.magnitude_eq_zero_iff, isZero, beq_iff_eq]

/-- Lowest terms leave no choice: measure and magnitude tell the quantity. -/
theorem IsReduced.eq_iff (reduced : left.IsReduced) (reduced' : right.IsReduced) :
    left = right ↔ left.measure = right.measure ∧ left.magnitude = right.magnitude := by
  refine ⟨fun same => same ▸ ⟨rfl, rfl⟩, fun ⟨measured, magnitude⟩ => ?_⟩
  obtain ⟨above, below⟩ := Rat.div_int_inj reduced.1 reduced'.1 reduced.2 reduced'.2 magnitude
  cases left
  cases right
  rw [mk.injEq]
  exact ⟨above, below, measured⟩

/-- Measures aside, quantities are the same if their fractions are the same when multiplied out. -/
theorem IsReduced.eq_iff_cross (reduced : left.IsReduced) (reduced' : right.IsReduced) :
    left = right ↔ left.measure = right.measure ∧
      left.numerator * right.denominator = right.numerator * left.denominator := by
  rw [reduced.eq_iff reduced', magnitude, magnitude,
    div_eq_div_iff reduced.cast_denominator_pos.ne' reduced'.cast_denominator_pos.ne']
  norm_cast

/-- A fraction in lowest terms is told by its magnitude. -/
theorem isFraction_iff : number.IsFraction above below measure ↔
    below ≠ 0 ∧ number.IsReduced ∧ number.measure = measure ∧ number.magnitude = above / below := by
  refine ⟨fun is => ⟨is.defined, is.reduced, is.measure, ?_⟩, fun ⟨defined, reduced, measured, magnitude⟩ =>
    ⟨defined, ?_, reduced, measured⟩⟩
  · have defined : (below : ℚ) ≠ 0 := Int.cast_ne_zero.mpr is.defined
    rw [magnitude, div_eq_div_iff is.reduced.cast_denominator_pos.ne' defined]
    exact_mod_cast is.same
  · have defined : (below : ℚ) ≠ 0 := Int.cast_ne_zero.mpr defined
    rw [Quantity.magnitude, div_eq_div_iff reduced.cast_denominator_pos.ne' defined] at magnitude
    exact_mod_cast magnitude

/-- A fraction of a measure is one quantity. -/
theorem IsFraction.eq_iff (is : number.IsFraction above below measure) {number' : Quantity} :
    number = number' ↔ number'.IsFraction above below measure := by
  refine ⟨fun same => same ▸ is, fun is' => ?_⟩
  obtain ⟨-, reduced, measured, magnitude⟩ := isFraction_iff.mp is
  obtain ⟨-, reduced', measured', magnitude'⟩ := isFraction_iff.mp is'
  exact (reduced.eq_iff reduced').mpr ⟨measured.trans measured'.symm, magnitude.trans magnitude'.symm⟩

theorem IsReduced.isFraction_self (reduced : number.IsReduced) :
    number.IsFraction number.numerator number.denominator number.measure :=
  ⟨reduced.denominator_pos.ne', rfl, reduced, rfl⟩

/-! ### Lowest terms -/

/-- Without a sign below the line, only the common factors go out; if there are none, they are one. -/
theorem ofParts_of_pos (positive : 0 < below) : ofParts above below measure =
    ⟨above / (Int.gcd above below : Int), below / (Int.gcd above below : Int), measure⟩ := by
  have upright : ¬ below < 0 := positive.le.not_gt
  simp only [ofParts, if_neg upright]
  split
  · rw [Int.tdiv_eq_ediv_of_dvd (Int.gcd_dvd_left above below), Int.tdiv_eq_ediv_of_dvd (Int.gcd_dvd_right above below)]
  · rename_i alone
    have divisor : (Int.gcd above below : Int) ≠ 0 := by
      exact_mod_cast (Int.gcd_pos_of_ne_zero_right above positive.ne').ne'
    have one : (Int.gcd above below : Int) = 1 := by
      by_contra other
      exact alone ⟨divisor, other⟩
    rw [one, Int.ediv_one, Int.ediv_one]

/-- A sign below the line goes above it. -/
theorem ofParts_of_neg (negative : below < 0) : ofParts above below measure = ofParts (-above) (-below) measure := by
  have upright : ¬ -below < 0 := (neg_pos.mpr negative).le.not_gt
  simp only [ofParts, if_pos negative, if_neg upright]

theorem ofParts_isFraction_of_pos (positive : 0 < below) :
    (ofParts above below measure).IsFraction above below measure := by
  have divisor : 0 < Int.gcd above below := Int.gcd_pos_of_ne_zero_right above positive.ne'
  rw [ofParts_of_pos positive]
  refine ⟨positive.ne', ?_, ⟨?_, Int.gcd_ediv_gcd_ediv_gcd divisor⟩, rfl⟩
  · rw [← Int.mul_ediv_assoc' below (Int.gcd_dvd_left above below), Int.mul_ediv_assoc above (Int.gcd_dvd_right above below)]
  · exact Int.ediv_pos_of_pos_of_dvd positive (Int.natCast_nonneg _) (Int.gcd_dvd_right above below)

/-- Any fraction of whole numbers is brought to lowest terms. -/
theorem ofParts_isFraction (above : Int) (defined : below ≠ 0) (measure : Measure) :
    (ofParts above below measure).IsFraction above below measure := by
  rcases lt_or_gt_of_ne defined with negative | positive
  · have is := @ofParts_isFraction_of_pos (-above) (-below) measure (neg_pos.mpr negative)
    rw [← ofParts_of_neg negative] at is
    refine ⟨defined, ?_, is.reduced, is.measure⟩
    have same := is.same
    rw [mul_neg, neg_mul, neg_inj] at same
    exact same
  · exact ofParts_isFraction_of_pos positive

/-- Digits are moved in one of two directions, and brought to lowest terms in both. -/
theorem scaled_spec (digits scale : Int) (measure : Measure) : (scaled digits scale measure).IsReduced ∧
    (scaled digits scale measure).measure = measure ∧ (scaled digits scale measure).magnitude = digits * 10 ^ scale := by
  unfold scaled
  dsimp only
  split
  · rename_i upward
    obtain ⟨places, rfl⟩ := Int.eq_ofNat_of_zero_le upward
    obtain ⟨-, reduced, measured, magnitude⟩ := isFraction_iff.mp
      (ofParts_isFraction (digits * (Nat.pow 10 (places : Int).natAbs : Nat)) one_ne_zero measure)
    refine ⟨reduced, measured, magnitude.trans ?_⟩
    simp
  · rename_i downward
    obtain ⟨places, rfl⟩ : ∃ places : Nat, scale = -places := ⟨(-scale).toNat, by omega⟩
    have power : ((Nat.pow 10 (-(places : Int)).natAbs : Nat) : Int) ≠ 0 :=
      Int.natCast_ne_zero.mpr (pow_ne_zero _ (by decide))
    obtain ⟨-, reduced, measured, magnitude⟩ := isFraction_iff.mp (ofParts_isFraction digits power measure)
    refine ⟨reduced, measured, magnitude.trans ?_⟩
    rw [zpow_neg, ← div_eq_mul_inv]
    simp

/-- Whole numbers have nothing below the line that could go out. -/
theorem isReduced_ofInt (value : Int) (measure : Measure) : (ofInt value measure).IsReduced :=
  ⟨Int.one_pos, Int.gcd_one_right value⟩

theorem IsReduced.negate (reduced : number.IsReduced) : number.negate.IsReduced :=
  ⟨reduced.1, Int.neg_gcd.trans reduced.2⟩

/-! ### Remainders -/

/-- What is left of one number after another one is taken away a whole number of times: less than that one, and of the
sign of the first. -/
structure IsRemainder (left right rest : ℚ) : Prop where
  whole : ∃ times : ℤ, left = times * right + rest
  small : |rest| < |right|
  sign : rest = 0 ∨ 0 < left * rest

/-- The remainder of whole numbers has the sign of the first. -/
theorem mul_tmod_pos {left right : Int} (some : left.tmod right ≠ 0) : 0 < left * left.tmod right := by
  rcases lt_trichotomy left 0 with negative | zero | positive
  · have opposite : 0 ≤ (-left).tmod right := Int.tmod_nonneg right (neg_nonneg.mpr negative.le)
    rw [Int.neg_tmod] at opposite
    exact mul_pos_of_neg_of_neg negative (lt_of_le_of_ne (neg_nonneg.mp opposite) some)
  · rw [zero, Int.zero_tmod] at some
    exact absurd rfl some
  · exact mul_pos positive (lt_of_le_of_ne (Int.tmod_nonneg right positive.le) some.symm)

/-- Whole numbers over one denominator leave what they leave without it. -/
theorem isRemainder_tmod (left : Int) {right below : Int} (nonzero : right ≠ 0) (positive : 0 < below) :
    IsRemainder (left / below) (right / below) (left.tmod right / below) := by
  have divisor : 0 < (below : ℚ) := Int.cast_pos.mpr positive
  refine ⟨⟨left.tdiv right, ?_⟩, ?_, ?_⟩
  · have whole : ((left.tdiv right * right + left.tmod right : Int) : ℚ) = left := by rw [Int.tdiv_mul_add_tmod]
    rw [← whole]
    push_cast
    ring
  · have small : |left.tmod right| < |right| := by
      rw [Int.abs_eq_natAbs, Int.abs_eq_natAbs, Int.natAbs_tmod, Int.ofNat_lt]
      exact Nat.mod_lt _ (Int.natAbs_pos.mpr nonzero)
    rw [abs_div, abs_div]
    exact div_lt_div_of_pos_right (by exact_mod_cast small) (abs_pos.mpr divisor.ne')
  · rcases eq_or_ne (left.tmod right) 0 with none | some
    · exact .inl (by rw [none, Int.cast_zero, zero_div])
    · have same : 0 < (left * left.tmod right : ℚ) := by exact_mod_cast mul_tmod_pos some
      rw [div_mul_div_comm]
      exact .inr (div_pos same (mul_pos divisor divisor))

/-- Remainders of one number have one sign, so they differ by less than what was taken away. -/
theorem IsRemainder.near {left right rest rest' : ℚ} (is : IsRemainder left right rest)
    (is' : IsRemainder left right rest') : rest - rest' < |right| := by
  have below := (abs_lt.mp is.small).2
  have above := (abs_lt.mp is'.small).1
  rcases is.sign with rfl | sign
  · linarith
  rcases is'.sign with rfl | sign'
  · linarith
  rcases pos_and_pos_or_neg_and_neg_of_mul_pos sign with ⟨positive, -⟩ | ⟨negative, negative'⟩
  · have : 0 < rest' := pos_of_mul_pos_right sign' positive.le
    linarith
  · linarith

/-- Two remainders differ by less than what was taken away, and by a whole multiple of it. -/
theorem IsRemainder.unique {left right rest rest' : ℚ} (is : IsRemainder left right rest)
    (is' : IsRemainder left right rest') : rest = rest' := by
  have near : |rest - rest'| < |right| := abs_sub_lt_iff.mpr ⟨is.near is', is'.near is⟩
  obtain ⟨times, whole⟩ := is.whole
  obtain ⟨times', whole'⟩ := is'.whole
  have differ : rest - rest' = ((times' - times : Int) : ℚ) * right := by
    push_cast
    linarith
  rcases eq_or_ne (times' - times) 0 with none | some
  · rw [none, Int.cast_zero, zero_mul, sub_eq_zero] at differ
    exact differ
  · have one : (1 : ℚ) ≤ |((times' - times : Int) : ℚ)| := by
      rw [← Int.cast_abs]
      exact_mod_cast Int.one_le_abs some
    have far : |right| ≤ |rest - rest'| := by
      rw [differ, abs_mul]
      exact le_mul_of_one_le_left (abs_nonneg right) one
    exact absurd near far.not_gt

/-- The rule for remainders: both fractions get the product of the denominators. -/
theorem isRemainder_cross (reduced : left.IsReduced) (reduced' : right.IsReduced) (nonzero : right.magnitude ≠ 0) :
    IsRemainder left.magnitude right.magnitude
      (((left.numerator * right.denominator).tmod (right.numerator * left.denominator) : Int) /
        (left.denominator * right.denominator : Int)) := by
  have positive := mul_pos reduced.denominator_pos reduced'.denominator_pos
  have above : right.numerator * left.denominator ≠ 0 :=
    mul_ne_zero (mt reduced'.magnitude_eq_zero_iff.mpr nonzero) reduced.denominator_pos.ne'
  have is := isRemainder_tmod (left.numerator * right.denominator) above positive
  have first : ((left.numerator * right.denominator : Int) / (left.denominator * right.denominator : Int) : ℚ) =
      left.magnitude := by
    push_cast
    rw [mul_div_mul_right _ _ reduced'.cast_denominator_pos.ne', magnitude]
  have second : ((right.numerator * left.denominator : Int) / (left.denominator * right.denominator : Int) : ℚ) =
      right.magnitude := by
    push_cast
    rw [mul_comm (left.denominator : ℚ), mul_div_mul_right _ _ reduced.cast_denominator_pos.ne', magnitude]
  rwa [first, second] at is

/-! ### What the operations do -/

section

variable {sum difference quotient rest : Quantity} {error : ArithmeticError}

theorem IsReduced.denominators_ne_zero (reduced : left.IsReduced) (reduced' : right.IsReduced) :
    left.denominator * right.denominator ≠ 0 :=
  mul_ne_zero reduced.denominator_pos.ne' reduced'.denominator_pos.ne'

theorem add_eq_ok_iff (reduced : left.IsReduced) (reduced' : right.IsReduced) :
    left.add right = .ok sum ↔ left.measure = right.measure ∧
      sum.IsFraction (left.numerator * right.denominator + right.numerator * left.denominator)
        (left.denominator * right.denominator) left.measure := by
  rw [← (ofParts_isFraction _ (reduced.denominators_ne_zero reduced') _).eq_iff, add]
  split <;> simp_all

theorem add_eq_error_iff :
    left.add right = .error error ↔ left.measure ≠ right.measure ∧ error = .incompatibleUnits := by
  rw [@eq_comm _ error, add]
  split <;> simp_all

/-- A difference is a sum with the opposite. -/
theorem subtract_eq_ok_iff (reduced : left.IsReduced) (reduced' : right.IsReduced) :
    left.subtract right = .ok difference ↔ left.measure = right.measure ∧
      difference.IsFraction (left.numerator * right.denominator - right.numerator * left.denominator)
        (left.denominator * right.denominator) left.measure := by
  have sum : left.add right.negate = .ok difference ↔ _ := add_eq_ok_iff reduced reduced'.negate
  rw [sub_eq_add_neg, ← neg_mul]
  exact sum

theorem subtract_eq_error_iff :
    left.subtract right = .error error ↔ left.measure ≠ right.measure ∧ error = .incompatibleUnits :=
  add_eq_error_iff

theorem multiply_isFraction (reduced : left.IsReduced) (reduced' : right.IsReduced) :
    (left.multiply right).IsFraction (left.numerator * right.numerator) (left.denominator * right.denominator)
      (left.measure.product right.measure) :=
  ofParts_isFraction _ (reduced.denominators_ne_zero reduced') _

/-- The rule for quotients puts the sign of the divisor below the line. -/
theorem divide_eq_ok_iff (reduced : left.IsReduced) (reduced' : right.IsReduced) :
    left.divide right = .ok quotient ↔ right.magnitude ≠ 0 ∧
      quotient.IsFraction (left.numerator * right.denominator) (left.denominator * right.numerator)
        (left.measure.quotient right.measure) := by
  by_cases zero : right.magnitude = 0
  · simp [divide, reduced'.isZero_iff.mpr zero, zero]
  · have nonzero : right.isZero = false := Bool.eq_false_iff.mpr (mt reduced'.isZero_iff.mp zero)
    have defined : left.denominator * right.numerator ≠ 0 :=
      mul_ne_zero reduced.denominator_pos.ne' (mt reduced'.magnitude_eq_zero_iff.mpr zero)
    rw [← (ofParts_isFraction _ defined _).eq_iff, divide, nonzero]
    simp [zero]

theorem divide_eq_error_iff (reduced' : right.IsReduced) :
    left.divide right = .error error ↔ right.magnitude = 0 ∧ error = .divisionByZero := by
  rw [@eq_comm _ error, ← reduced'.isZero_iff, divide]
  split <;> simp_all

theorem remainder_eq_ok_iff (reduced : left.IsReduced) (reduced' : right.IsReduced) :
    left.remainder right = .ok rest ↔ left.measure = right.measure ∧ right.magnitude ≠ 0 ∧
      rest.IsReduced ∧ rest.measure = left.measure ∧
      IsRemainder left.magnitude right.magnitude rest.magnitude := by
  by_cases differ : left.measure ≠ right.measure
  · simp [remainder, differ]
  rw [remainder, if_neg differ]
  by_cases zero : right.magnitude = 0
  · simp [reduced'.isZero_iff.mpr zero, zero]
  · have nonzero : ¬ right.isZero = true := mt reduced'.isZero_iff.mp zero
    have is := isRemainder_cross reduced reduced' zero
    have defined := reduced.denominators_ne_zero reduced'
    rw [if_neg nonzero, Except.ok.injEq, (ofParts_isFraction _ defined _).eq_iff, isFraction_iff]
    refine ⟨fun ⟨_, lowest, measured, magnitude⟩ => ?_, fun ⟨_, _, lowest, measured, is'⟩ => ?_⟩
    · exact ⟨not_not.mp differ, zero, lowest, measured, magnitude ▸ is⟩
    · exact ⟨defined, lowest, measured, is'.unique is⟩

theorem remainder_eq_error_iff (reduced' : right.IsReduced) : left.remainder right = .error error ↔
    left.measure ≠ right.measure ∧ error = .incompatibleUnits ∨
    left.measure = right.measure ∧ right.magnitude = 0 ∧ error = .divisionByZero := by
  rw [@eq_comm _ error, @eq_comm _ error, ← reduced'.isZero_iff, remainder]
  split
  · simp_all
  · split <;> simp_all

/-- Fractions without signs below the line are ordered as they are multiplied out. -/
theorem IsReduced.cross_lt_iff (reduced : left.IsReduced) (reduced' : right.IsReduced) :
    left.numerator * right.denominator < right.numerator * left.denominator ↔ left.magnitude < right.magnitude := by
  rw [magnitude, magnitude, div_lt_div_iff₀ reduced.cast_denominator_pos reduced'.cast_denominator_pos]
  norm_cast

theorem compare_eq_ok_iff {order : Ordering} : left.compare right = .ok order ↔ left.measure = right.measure ∧
    compareOfLessAndEq (left.numerator * right.denominator) (right.numerator * left.denominator) = order := by
  rw [compare]
  split <;> simp_all

theorem compare_eq_error_iff :
    left.compare right = .error error ↔ left.measure ≠ right.measure ∧ error = .incompatibleUnits := by
  rw [@eq_comm _ error, compare]
  split <;> simp_all

end

/-! ### Numbers that are read, counted and computed -/

theorem isReduced_ofText? {text : String} (read : ofText? text measure = some number) : number.IsReduced := by
  obtain ⟨digits, scale, rfl⟩ := eq_scaled_of_ofText? read
  exact (scaled_spec digits scale measure).1

/-- The numbers of a program: literals, whole numbers and counts, and what is computed with them. -/
inductive Made : Quantity → Prop where
  | literal {text : String} {measure : Measure} {number : Quantity} (read : ofText? text measure = some number) :
    Made number
  | integer (value : Int) (measure : Measure) : Made (ofInt value measure)
  | count (count : Nat) : Made (ofNat count)
  | sum {left right number : Quantity} (made : Made left) (made' : Made right) (is : left.add right = .ok number) :
    Made number
  | difference {left right number : Quantity} (made : Made left) (made' : Made right)
    (is : left.subtract right = .ok number) : Made number
  | product {left right : Quantity} (made : Made left) (made' : Made right) : Made (left.multiply right)
  | quotient {left right number : Quantity} (made : Made left) (made' : Made right)
    (is : left.divide right = .ok number) : Made number
  | remainder {left right number : Quantity} (made : Made left) (made' : Made right)
    (is : left.remainder right = .ok number) : Made number
  | opposite {number : Quantity} (made : Made number) : Made number.negate

/-- Every way to make a number gives one in lowest terms, provided that it is made of such. -/
theorem Made.isReduced (made : number.Made) : number.IsReduced := by
  induction made with
  | literal read => exact isReduced_ofText? read
  | integer value measure => exact isReduced_ofInt value measure
  | count count => exact isReduced_ofInt count .unitless
  | sum _ _ is reduced reduced' => exact ((add_eq_ok_iff reduced reduced').mp is).2.reduced
  | difference _ _ is reduced reduced' => exact ((subtract_eq_ok_iff reduced reduced').mp is).2.reduced
  | product _ _ reduced reduced' => exact (multiply_isFraction reduced reduced').reduced
  | quotient _ _ is reduced reduced' => exact ((divide_eq_ok_iff reduced reduced').mp is).2.reduced
  | remainder _ _ is reduced reduced' => exact ((remainder_eq_ok_iff reduced reduced').mp is).2.2.1
  | opposite _ reduced => exact reduced.negate

/-- What the rules of arithmetic say of two quantities. Results are told by their fractions, and operations that may
fail by when they have which result and when they have which error. -/
structure Arithmetic (left right : Quantity) : Prop where
  reduced : left.IsReduced
  same : left = right ↔ left.measure = right.measure ∧ left.magnitude = right.magnitude
  sum (number : Quantity) : left.add right = .ok number ↔ left.measure = right.measure ∧
    number.IsFraction (left.numerator * right.denominator + right.numerator * left.denominator)
      (left.denominator * right.denominator) left.measure
  sum_fails (error : ArithmeticError) : left.add right = .error error ↔
    left.measure ≠ right.measure ∧ error = .incompatibleUnits
  difference (number : Quantity) : left.subtract right = .ok number ↔ left.measure = right.measure ∧
    number.IsFraction (left.numerator * right.denominator - right.numerator * left.denominator)
      (left.denominator * right.denominator) left.measure
  difference_fails (error : ArithmeticError) : left.subtract right = .error error ↔
    left.measure ≠ right.measure ∧ error = .incompatibleUnits
  product : (left.multiply right).IsFraction (left.numerator * right.numerator) (left.denominator * right.denominator)
    (left.measure.product right.measure)
  quotient (number : Quantity) : left.divide right = .ok number ↔ right.magnitude ≠ 0 ∧
    number.IsFraction (left.numerator * right.denominator) (left.denominator * right.numerator)
      (left.measure.quotient right.measure)
  quotient_fails (error : ArithmeticError) : left.divide right = .error error ↔
    right.magnitude = 0 ∧ error = .divisionByZero
  opposite : left.negate.IsFraction (-left.numerator) left.denominator left.measure
  remainder (number : Quantity) : left.remainder right = .ok number ↔ left.measure = right.measure ∧
    right.magnitude ≠ 0 ∧ number.IsReduced ∧ number.measure = left.measure ∧
    IsRemainder left.magnitude right.magnitude number.magnitude
  remainder_fails (error : ArithmeticError) : left.remainder right = .error error ↔
    left.measure ≠ right.measure ∧ error = .incompatibleUnits ∨
    left.measure = right.measure ∧ right.magnitude = 0 ∧ error = .divisionByZero
  less : left.compare right = .ok .lt ↔ left.measure = right.measure ∧ left.magnitude < right.magnitude
  equal : left.compare right = .ok .eq ↔ left = right
  greater : left.compare right = .ok .gt ↔ left.measure = right.measure ∧ right.magnitude < left.magnitude
  compare_fails (error : ArithmeticError) : left.compare right = .error error ↔
    left.measure ≠ right.measure ∧ error = .incompatibleUnits

/-- On the numbers of a program every operation has the result that the rules of arithmetic tell, and fails where they
tell none. -/
theorem arithmetic_exact {left right : Quantity} (made : left.Made) (made' : right.Made) : Arithmetic left right := by
  have reduced := made.isReduced
  have reduced' := made'.isReduced
  exact {
    reduced
    same := reduced.eq_iff reduced'
    sum _ := add_eq_ok_iff reduced reduced'
    sum_fails _ := add_eq_error_iff
    difference _ := subtract_eq_ok_iff reduced reduced'
    difference_fails _ := subtract_eq_error_iff
    product := multiply_isFraction reduced reduced'
    quotient _ := divide_eq_ok_iff reduced reduced'
    quotient_fails _ := divide_eq_error_iff reduced'
    opposite := reduced.negate.isFraction_self
    remainder _ := remainder_eq_ok_iff reduced reduced'
    remainder_fails _ := remainder_eq_error_iff reduced'
    less := by rw [compare_eq_ok_iff, compareOfLessAndEq_eq_lt, reduced.cross_lt_iff reduced']
    equal := by rw [compare_eq_ok_iff, compareOfLessAndEq_eq_eq le_refl not_le, reduced.eq_iff_cross reduced']
    greater := by
      rw [compare_eq_ok_iff, compareOfLessAndEq_eq_gt le_antisymm le_total not_le, reduced'.cross_lt_iff reduced]
    compare_fails _ := compare_eq_error_iff }

/-- A literal with a factor in common with its power of ten, over a whole number below zero. -/
theorem half_metre_over_minus_three :
    Made ⟨1, 2, .dimension "m"⟩ ∧ Made ⟨-3, 1, .unitless⟩ ∧ Arithmetic ⟨1, 2, .dimension "m"⟩ ⟨-3, 1, .unitless⟩ := by
  have read : ofText? "0.50" (.dimension "m") = some ⟨1, 2, .dimension "m"⟩ := by decide
  have divisor : Made ⟨-3, 1, .unitless⟩ := .integer (-3) .unitless
  exact ⟨.literal read, divisor, arithmetic_exact (.literal read) divisor⟩

end Quantity

end Rivulet
