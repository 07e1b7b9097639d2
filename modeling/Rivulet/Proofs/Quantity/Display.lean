import Mathlib.Data.Rat.Floor
import Mathlib.Tactic.FieldSimp
import Rivulet.Proofs.Quantity.Literals

/-!
Quantities as they are written. Behind the point, long division finds digit after digit and stops early where nothing is
left to divide; digits and rest together are always the number that was there at first (`Quantity.divideOn_spec`). So the
text is a decimal literal with at most twelve digits after the point, which denotes the number cut off there
(`Quantity.display`).

Main statement: what is written is the literal of the number cut off, and of the plain numbers that need no cut, and of
these only, the text reads back (`toText_cuts_off`).
-/

namespace Rivulet

namespace Quantity

/-! ### Digits after the point -/

/-- Long division goes on behind the point with what is left before it. -/
theorem div_add_mod_div {above below : Nat} (positive : 0 < below) (unit : Nat) :
    above / below * unit + above % below * unit / below = above * unit / below :=
  calc above / below * unit + above % below * unit / below
    _ = (above % below * unit + above / below * unit * below) / below := by
      rw [Nat.add_mul_div_right _ _ positive, Nat.add_comm]
    _ = (above % below + below * (above / below)) * unit / below := by
      congr 1
      ring
    _ = above * unit / below := by rw [Nat.mod_add_div]

variable {denominator rest : Nat} {digits : List Char}

theorem divideOn_zero (denominator : Nat) (digits : List Char) : divideOn denominator 0 digits = digits := by
  rw [divideOn]
  exact if_neg fun goes => goes.1 rfl

theorem isDigit_of_mem_divideOn (areDigits : ∀ c ∈ digits, Text.isDigit c = true) :
    ∀ c ∈ divideOn denominator rest digits, Text.isDigit c = true := by
  fun_induction divideOn denominator rest digits with
  | case1 rest digits _ ih =>
    refine ih fun c among => ?_
    rcases List.mem_append.mp among with before | digit
    · exact areDigits c before
    · exact Text.isDigit_of_mem_toDigits digit
  | case2 => exact areDigits

/-- The digits that are found, filled up with zeros to twelve places, are what is divided, cut off after these places. -/
theorem divideOn_spec (small : rest < denominator) (room : digits.length ≤ 12) : ∃ found zeros,
    divideOn denominator rest digits = digits ++ found ∧ digits.length + found.length + zeros = 12 ∧
    Text.placeValue found * 10 ^ zeros = rest * 10 ^ (12 - digits.length) / denominator := by
  fun_induction divideOn denominator rest digits with
  | case1 rest digits goes ih =>
    have positive : 0 < denominator := Nat.zero_lt_of_lt small
    have room' : digits.length < 12 := goes.2
    have single : rest * 10 / denominator < 10 :=
      Nat.div_lt_of_lt_mul (Nat.mul_lt_mul_of_pos_right small (by decide))
    have one : (Nat.toDigits 10 (rest * 10 / denominator)).length = 1 := by
      rw [Nat.toDigits_of_lt_base single, List.length_singleton]
    rw [List.length_append, one] at ih
    obtain ⟨found, zeros, is, length, value⟩ := ih (Nat.mod_lt (rest * 10) positive) room'
    refine ⟨Nat.toDigits 10 (rest * 10 / denominator) ++ found, zeros, ?_, ?_, ?_⟩
    · rw [is, List.append_assoc]
    · rw [List.length_append, one]
      omega
    · have places : found.length + zeros = 12 - (digits.length + 1) := by omega
      have all : 12 - digits.length = 12 - (digits.length + 1) + 1 := by omega
      rw [Text.placeValue_append, ← Text.digitsValue_eq_placeValue, Text.digitsValue_toDigits, Nat.add_mul,
        Nat.mul_assoc, ← pow_add, places, value, div_add_mod_div positive, all, pow_succ', Nat.mul_assoc]
  | case2 rest digits ended =>
    refine ⟨[], 12 - digits.length, (List.append_nil digits).symm, Nat.add_sub_of_le room, ?_⟩
    have nothing : Text.placeValue [] = 0 := rfl
    rw [nothing, Nat.zero_mul]
    -- nothing is left, or else there is no place for what is left
    rcases not_and_or.mp ended with nothing | full
    · rw [not_not.mp nothing, Nat.zero_mul, Nat.zero_div]
    · have none : 12 - digits.length = 0 := Nat.sub_eq_zero_of_le (not_lt.mp full)
      rw [none, pow_zero, Nat.mul_one, Nat.div_eq_of_lt small]

/-- The digits that are written after the point of a number. -/
def fractionPart (number : Quantity) : List Char :=
  Text.dropWhileEnd (· == '0')
    (divideOn number.denominator.toNat (number.numerator.natAbs % number.denominator.toNat) [])

variable {number : Quantity}

theorem isDigit_of_mem_fractionPart : ∀ c ∈ number.fractionPart, Text.isDigit c = true := by
  intro c among
  obtain ⟨⟨dropped, cut, -⟩, -⟩ := Text.exists_dropWhileEnd (· == '0')
    (divideOn number.denominator.toNat (number.numerator.natAbs % number.denominator.toNat) [])
  exact isDigit_of_mem_divideOn (List.forall_mem_nil _) c (cut ▸ List.mem_append_left _ among)

theorem IsReduced.toNat_denominator_pos (reduced : number.IsReduced) : 0 < number.denominator.toNat :=
  Int.pos_iff_toNat_pos.mp reduced.denominator_pos

/-- The digits after the point are those of the number, cut off after twelve places; zeros at their end are left out. -/
theorem IsReduced.fractionPart_spec (reduced : number.IsReduced) : ∃ zeros, number.fractionPart.length + zeros = 12 ∧
    Text.placeValue number.fractionPart * 10 ^ zeros =
      number.numerator.natAbs % number.denominator.toNat * 10 ^ 12 / number.denominator.toNat ∧
    number.fractionPart.getLast? ≠ some '0' := by
  obtain ⟨found, behind, is, length, value⟩ := @divideOn_spec _ _ []
    (Nat.mod_lt number.numerator.natAbs reduced.toNat_denominator_pos) (Nat.zero_le 12)
  rw [List.nil_append] at is
  rw [List.length_nil] at length value
  obtain ⟨⟨dropped, cut, zeros⟩, last⟩ := Text.exists_dropWhileEnd (· == '0') found
  obtain ⟨count, rfl⟩ : ∃ count, dropped = List.replicate count '0' :=
    ⟨dropped.length, List.eq_replicate_iff.mpr ⟨rfl, fun c among => eq_of_beq (zeros c among)⟩⟩
  have part : number.fractionPart = Text.dropWhileEnd (· == '0') found := by rw [fractionPart, is]
  rw [← part] at cut last
  refine ⟨count + behind, ?_, ?_, fun zero => absurd (last '0' zero) (by decide)⟩
  · rw [cut, List.length_append, List.length_replicate] at length
    omega
  · rw [cut, Text.placeValue_append, Text.placeValue_zeros, List.length_replicate, Nat.add_zero, Nat.mul_assoc,
      ← pow_add] at value
    exact value

theorem fractionText_eq : fractionText number.denominator.toNat (number.numerator.natAbs % number.denominator.toNat) =
    if number.fractionPart.isEmpty then "" else "." ++ String.ofList number.fractionPart := by
  unfold fractionText
  split
  · rename_i none
    rw [fractionPart, none, divideOn_zero]
    rfl
  · rfl

/-! ### The literal that is written -/

theorem getD_of_isEmpty (digits : List Char) : (if digits.isEmpty then none else some digits).getD [] = digits := by
  cases digits <;> rfl

/-- The text of a number, as a literal. -/
def display (number : Quantity) : Literal where
  sign := if number.numerator < 0 then .minus else .unsigned
  whole := (Text.writeNat (number.numerator.natAbs / number.denominator.toNat)).toList
  fraction := if number.fractionPart.isEmpty then none else some number.fractionPart
  power := none
  areDigits c among := by
    rw [getD_of_isEmpty] at among
    exact (List.mem_append.mp among).elim ((Text.writeNat_digits _).2 c) (isDigit_of_mem_fractionPart c)
  nonempty none := (Text.writeNat_digits _).1 (List.append_eq_nil_iff.mp none).1
  marked := nofun
  fits := nofun

theorem scale_display (number : Quantity) : number.display.scale = -(number.fractionPart.length : Int) := by
  have places : number.display.fraction.getD [] = number.fractionPart := getD_of_isEmpty _
  rw [Literal.scale, places]
  exact Int.zero_sub _

theorem IsReduced.magnitude_neg_iff (reduced : number.IsReduced) : number.magnitude < 0 ↔ number.numerator < 0 := by
  rw [magnitude, div_lt_iff₀ reduced.cast_denominator_pos, zero_mul, Int.cast_lt_zero]

theorem IsReduced.sign_display (reduced : number.IsReduced) :
    number.display.sign = if number.magnitude < 0 then .minus else .unsigned := by
  simp only [display, reduced.magnitude_neg_iff]

/-- There is a point only in front of digits, and the last of them is no zero. -/
theorem IsReduced.fraction_display (reduced : number.IsReduced) : ∀ digits ∈ number.display.fraction,
    digits ≠ [] ∧ digits.length ≤ 12 ∧ digits.getLast? ≠ some '0' := by
  intro digits is
  obtain ⟨zeros, length, -, last⟩ := reduced.fractionPart_spec
  have chosen : (if number.fractionPart.isEmpty then none else some number.fractionPart) = some digits := is
  split at chosen
  · contradiction
  · rename_i nonempty
    cases chosen
    exact ⟨fun empty => nonempty (List.isEmpty_iff.mpr empty), by omega, last⟩

theorem toList_decimalText (number : Quantity) : number.decimalText.toList = number.display.chars := by
  have sign : (if number.numerator < 0 then "-" else "").toList = number.display.sign.chars := by
    unfold display
    dsimp only
    split <;> rfl
  have fraction : (if number.fractionPart.isEmpty then "" else "." ++ String.ofList number.fractionPart).toList =
      number.display.fraction.elim [] ('.' :: ·) := by
    unfold display
    dsimp only
    split
    · rfl
    · simp
  have suffix : number.display.suffix = [] := rfl
  rw [Literal.chars, suffix, List.append_nil, Literal.mantissa, ← sign, ← fraction, ← List.append_assoc, decimalText,
    fractionText_eq, String.toList_append, String.toList_append]
  rfl

/-- The measure is written behind the number; that of a plain number is written as nothing. -/
theorem toText_eq (number : Quantity) : number.toText = String.ofList number.display.chars ++ number.measure.toText := by
  have measured : (if number.measure.isUnitless then "" else number.measure.toText) = number.measure.toText := by
    split
    · rename_i plain
      rw [Measure.toText, List.isEmpty_iff.mp plain]
      rfl
    · rfl
  rw [toText, measured, ← toList_decimalText, String.ofList_toList]

/-! ### The number that is written -/

/-- The number cut off after twelve places, counted in units of the last one. -/
theorem IsReduced.floor_abs (reduced : number.IsReduced) : ⌊|number.magnitude| * 10 ^ 12⌋ =
    (number.numerator.natAbs * 10 ^ 12 / number.denominator.toNat : Nat) := by
  have below : ((number.denominator.toNat : Nat) : ℚ) = number.denominator := by
    exact_mod_cast Int.toNat_of_nonneg reduced.denominator_pos.le
  have places : |number.magnitude| * 10 ^ 12 =
      ((number.numerator.natAbs * 10 ^ 12 : Nat) : ℚ) / (number.denominator.toNat : Nat) := by
    rw [below, magnitude, abs_div, abs_of_pos reduced.cast_denominator_pos]
    push_cast
    rw [Nat.cast_natAbs, Int.cast_abs]
    ring
  rw [places, Rat.floor_natCast_div_natCast, Int.natCast_div]

/-- What is written is the number cut off after twelve places. -/
theorem IsReduced.value_display (reduced : number.IsReduced) :
    number.display.value = number.display.sign.factor * (⌊|number.magnitude| * 10 ^ 12⌋ / 10 ^ 12) := by
  have places : number.display.fraction.getD [] = number.fractionPart := getD_of_isEmpty _
  obtain ⟨zeros, length, after, -⟩ := reduced.fractionPart_spec
  have before : Text.placeValue number.display.whole = number.numerator.natAbs / number.denominator.toNat :=
    Text.placeValue_writeNat _
  have digits : Text.placeValue (number.display.whole ++ number.fractionPart) * 10 ^ zeros =
      number.numerator.natAbs * 10 ^ 12 / number.denominator.toNat := by
    rw [Text.placeValue_append, before, Nat.add_mul, Nat.mul_assoc, ← pow_add, length, after,
      div_add_mod_div reduced.toNat_denominator_pos]
  have moved : (10 : ℚ) ^ (-(number.fractionPart.length : Int)) = 10 ^ zeros / 10 ^ 12 := by
    have all : (10 : ℚ) ^ 12 = 10 ^ number.fractionPart.length * 10 ^ zeros := by rw [← pow_add, length]
    rw [all, mul_comm, div_mul_cancel_left₀ (by positivity), zpow_neg, zpow_natCast]
  rw [Literal.value, Literal.digits, places, scale_display, moved, reduced.floor_abs, ← digits]
  push_cast
  ring

theorem IsReduced.factor_mul_abs (reduced : number.IsReduced) :
    number.display.sign.factor * |number.magnitude| = number.magnitude := by
  rw [reduced.sign_display]
  split
  · rename_i negative
    simp [Text.Sign.factor, abs_of_neg negative]
  · rename_i positive
    simp [Text.Sign.factor, abs_of_nonneg (not_lt.mp positive)]

theorem abs_factor (sign : Text.Sign) : |(sign.factor : ℚ)| = 1 := by
  cases sign <;> simp [Text.Sign.factor]

theorem IsReduced.abs_value_display (reduced : number.IsReduced) :
    |number.display.value| = ⌊|number.magnitude| * 10 ^ 12⌋ / 10 ^ 12 := by
  have positive : (0 : ℚ) ≤ ⌊|number.magnitude| * 10 ^ 12⌋ := by
    exact_mod_cast Int.floor_nonneg.mpr (by positivity)
  rw [reduced.value_display, abs_mul, abs_factor, one_mul, abs_of_nonneg (by positivity)]

/-- Nothing is lost if there is nothing behind the twelfth place. -/
theorem IsReduced.value_display_eq_iff (reduced : number.IsReduced) :
    number.display.value = number.magnitude ↔ ∃ count : ℤ, number.magnitude = count / 10 ^ 12 := by
  constructor
  · intro same
    refine ⟨number.display.sign.factor * ⌊|number.magnitude| * 10 ^ 12⌋, ?_⟩
    conv_lhs => rw [← same, reduced.value_display]
    push_cast
    ring
  · rintro ⟨count, is⟩
    have whole : |number.magnitude| * 10 ^ 12 = (|count| : ℤ) := by
      rw [is, abs_div, Int.cast_abs]
      simp
    rw [reduced.value_display, whole, Int.floor_intCast, ← whole, mul_div_cancel_right₀ _ (by positivity),
      reduced.factor_mul_abs]

/-- The text of a plain number reads as what is written. -/
theorem IsReduced.ofText?_toText (reduced : number.IsReduced) (plain : number.measure = .unitless) :
    ofText? number.toText .unitless = some (scaled number.display.digits number.display.scale .unitless) := by
  have text : number.toText = String.ofList number.display.chars := by
    rw [toText_eq, plain]
    exact String.append_empty
  have is : Text.trim number.toText.toList = number.display.chars := by
    rw [text, String.toList_ofList, Text.trim_solid number.display.solid]
  obtain ⟨zeros, length, -⟩ := reduced.fractionPart_spec
  refine ofText?_of_literal is ?_ .unitless
  rw [scale_display]
  omega

/-- The text of a number of a program is a decimal literal and its measure behind it. The literal has a minus exactly if
the number is below zero, and never a plus or a power of ten; there is a digit in front of the point, and behind it are
at most twelve, the last of them no zero, or else there is no point. Without its sign it is the number cut off after
twelve places. The text of a plain number reads as that number exactly if there was nothing to cut off. -/
theorem toText_cuts_off {number : Quantity} (made : number.Made) :
    (∃ literal : Literal,
      number.toText = String.ofList literal.chars ++ number.measure.toText ∧
      literal.sign = (if number.magnitude < 0 then .minus else .unsigned) ∧ literal.power = none ∧
      literal.whole ≠ [] ∧
      (∀ digits ∈ literal.fraction, digits ≠ [] ∧ digits.length ≤ 12 ∧ digits.getLast? ≠ some '0') ∧
      |literal.value| = ⌊|number.magnitude| * 10 ^ 12⌋ / 10 ^ 12) ∧
    (number.measure = .unitless →
      (ofText? number.toText .unitless = some number ↔ ∃ count : ℤ, number.magnitude = count / 10 ^ 12)) := by
  have reduced := made.isReduced
  refine ⟨⟨number.display, toText_eq number, reduced.sign_display, rfl, (Text.writeNat_digits _).1,
    reduced.fraction_display, reduced.abs_value_display⟩, fun plain => ?_⟩
  obtain ⟨reduced', measured, magnitude⟩ := scaled_spec number.display.digits number.display.scale .unitless
  rw [reduced.ofText?_toText plain, Option.some.injEq, reduced'.eq_iff reduced, measured, magnitude, plain,
    ← reduced.value_display_eq_iff]
  exact and_iff_right rfl

/-- Two thirds of a metre below zero are cut off, and one eighth is not. -/
theorem toText_of_thirds_and_eighths :
    Made ⟨-2, 3, .dimension "m"⟩ ∧
    (∃ literal : Literal, toText ⟨-2, 3, .dimension "m"⟩ = String.ofList literal.chars ++ "m" ∧
      literal.sign = .minus ∧ |literal.value| = 666666666666 / 10 ^ 12) ∧
    Made ⟨1, 8, .unitless⟩ ∧ ofText? (toText ⟨1, 8, .unitless⟩) .unitless = some ⟨1, 8, .unitless⟩ := by
  have thirds : Made ⟨-2, 3, .dimension "m"⟩ := .quotient (.integer (-2) (.dimension "m")) (.count 3) (by decide)
  have eighths : Made ⟨1, 8, .unitless⟩ := .quotient (.count 1) (.count 8) (by decide)
  have below : magnitude ⟨-2, 3, .dimension "m"⟩ = -(2 / 3) := by norm_num [magnitude]
  have cut : ⌊(2 / 3 : ℚ) * 10 ^ 12⌋ = 666666666666 := by
    rw [Int.floor_eq_iff]
    norm_num
  obtain ⟨⟨literal, text, sign, -, -, -, value⟩, -⟩ := toText_cuts_off thirds
  have positive : (0 : ℚ) < 2 / 3 := by norm_num
  rw [below, abs_neg, abs_of_pos positive, cut] at value
  rw [below, if_pos (neg_neg_of_pos positive)] at sign
  refine ⟨thirds, ⟨literal, text, sign, value⟩, eighths, ((toText_cuts_off eighths).2 rfl).mpr ⟨125000000000, ?_⟩⟩
  norm_num [magnitude]

end Quantity

end Rivulet
