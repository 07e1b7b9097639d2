import Rivulet.Proofs.Measure.Fractions

/-!
Measures as a commutative group. Products add exponents and quotients subtract them, name by name
(`exponent_product`, `exponent_quotient`), and a measure is no more than its exponents (`ext_exponent`), so the laws of
the group are those of addition.

Main statement: `commutative_group`.
-/

namespace Rivulet

namespace Measure

variable (left right third measure : Measure) (name : String)

/-! ### Exponents of what is made -/

theorem exponent_product : (left.product right).exponent name = left.exponent name + right.exponent name := by
  rw [product_eq_adjustAll, exponent_adjustAll, exponent_eq_total right, mul_one]

theorem exponent_quotient : (left.quotient right).exponent name = left.exponent name - right.exponent name := by
  rw [quotient_eq_adjustAll, exponent_adjustAll, exponent_eq_total right, mul_neg_one, sub_eq_add_neg]

theorem exponent_dimension (other : String) :
    (dimension name).exponent other = if name ≠ "" ∧ other = name then 1 else 0 := by
  unfold dimension
  by_cases unnamed : name = ""
  · rw [if_pos unnamed, if_neg fun both => both.1 unnamed, exponent_unitless]
  · rw [if_neg unnamed, exponent_adjust, exponent_unitless, zero_add]
    exact if_congr (and_iff_right unnamed).symm rfl rfl

/-- The exponents above the slash count, and those below it count negatively. -/
theorem exponent_fraction (above below : List (String × Int)) :
    ((unitless.adjustAll 1 above).adjustAll (-1) below).exponent name = total name above - total name below := by
  rw [exponent_adjustAll, exponent_adjustAll, exponent_unitless, zero_add, mul_one, mul_neg_one, sub_eq_add_neg]

/-! ### Laws -/

theorem product_assoc : (left.product right).product third = left.product (right.product third) :=
  ext_exponent fun name => by simp only [exponent_product, add_assoc]

theorem product_comm : left.product right = right.product left :=
  ext_exponent fun name => by rw [exponent_product, exponent_product, add_comm]

theorem product_unitless : measure.product unitless = measure :=
  ext_exponent fun name => by rw [exponent_product, exponent_unitless, add_zero]

/-- To divide undoes to multiply. -/
theorem quotient_of_product : (left.product right).quotient right = left :=
  ext_exponent fun name => by rw [exponent_quotient, exponent_product, add_sub_cancel_right]

theorem product_inverse : measure.product (unitless.quotient measure) = unitless :=
  ext_exponent fun name => by rw [exponent_product, exponent_quotient, exponent_unitless, zero_sub, add_neg_cancel]

/-- Measures are a commutative group in one form only. They store the exponents that are not zero and are equal if their
exponents are; products add exponents and quotients subtract them; and what is read from a text has for each name the
sum of its exponents above the slash less that of those below it. -/
theorem commutative_group :
    (∀ (measure : Measure) (name : String) (exponent : Int),
      (name, exponent) ∈ measure.powers ↔ measure.exponent name = exponent ∧ exponent ≠ 0) ∧
    (∀ left right : Measure, left == right ↔ ∀ name, left.exponent name = right.exponent name) ∧
    (∀ (left right : Measure) (name : String),
      (left.product right).exponent name = left.exponent name + right.exponent name ∧
        (left.quotient right).exponent name = left.exponent name - right.exponent name) ∧
    (∀ first second third : Measure,
      (first.product second).product third = first.product (second.product third)) ∧
    (∀ left right : Measure, left.product right = right.product left) ∧
    (∀ measure : Measure, measure.product unitless = measure ∧
      measure.product (unitless.quotient measure) = unitless) ∧
    (∀ left right : Measure, (left.product right).quotient right = left) ∧
    (∀ name other : String, unitless.exponent other = 0 ∧
      (dimension name).exponent other = if name ≠ "" ∧ other = name then 1 else 0) ∧
    ∀ (text : String) (measure : Measure), ofText? text = some measure ↔
      ∃ above below, FractionText (Text.trim text.toList) above below ∧
        ∀ name, measure.exponent name = total name above - total name below := by
  refine ⟨fun measure name exponent => mem_powers_iff, fun left right => ?_,
    fun left right name => ⟨exponent_product left right name, exponent_quotient left right name⟩, product_assoc,
    product_comm, fun measure => ⟨product_unitless measure, product_inverse measure⟩, quotient_of_product,
    fun name other => ⟨exponent_unitless other, exponent_dimension name other⟩, fun text measure => ?_⟩
  · rw [beq_iff_eq]
    exact ⟨fun same name => congrArg (exponent · name) same, ext_exponent⟩
  · rw [ofText?_eq_some_iff]
    refine exists_congr fun above => exists_congr fun below => and_congr_right fun _ => ?_
    constructor
    · rintro rfl
      exact fun name => exponent_fraction name above below
    · intro sums
      exact ext_exponent fun name => (exponent_fraction name above below).trans (sums name).symm

end Measure

end Rivulet
