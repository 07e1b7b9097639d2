import Mathlib.Data.List.Basic
import Rivulet.Proofs.Quantity.Arithmetic
import Rivulet.Proofs.Text.Numerals

/-!
Decimal literals. A literal is a sign, digits with a point somewhere among them, and a power of ten, each of which may be
missing but for one digit (`Quantity.Literal`). It denotes its digits, moved by as many places as its power says less
those behind the point.

Main statement: what is read as a quantity are the literals, with blanks around them, whose digits are not moved too far
(`reads_iff_literal`).
-/

namespace Rivulet

namespace Quantity

/-- A decimal literal in its parts. -/
structure Literal where
  sign : Text.Sign
  whole : List Char
  fraction : Option (List Char)
  power : Option (Char × Text.Numeral)
  areDigits : ∀ c ∈ whole ++ fraction.getD [], Text.isDigit c = true
  nonempty : whole ++ fraction.getD [] ≠ []
  marked : ∀ part ∈ power, part.1 = 'e' ∨ part.1 = 'E'
  fits : ∀ part ∈ power, -2147483648 ≤ part.2.value ∧ part.2.value ≤ 2147483647

namespace Literal

variable (literal : Literal)

/-- The digits with the point among them. -/
def mantissa : List Char :=
  literal.whole ++ literal.fraction.elim [] ('.' :: ·)

/-- The power of ten behind its mark. -/
def suffix : List Char :=
  literal.power.elim [] fun part => part.1 :: part.2.chars

/-- The characters of a literal. -/
def chars : List Char :=
  literal.sign.chars ++ (literal.mantissa ++ literal.suffix)

/-- The power of ten that is written. -/
def exponent : Int :=
  literal.power.elim 0 fun part => part.2.value

/-- By how many places the digits are moved in the end. -/
def scale : Int :=
  literal.exponent - (literal.fraction.getD []).length

/-- The digits of a literal with its sign. -/
def digits : Int :=
  literal.sign.factor * Text.placeValue (literal.whole ++ literal.fraction.getD [])

/-- The number that a literal denotes. -/
def value : ℚ :=
  literal.digits * 10 ^ literal.scale

end Literal

/-! ### Reading the parts -/

theorem readMantissa?_of_cutAt {text whole : List Char} {fraction : Option (List Char)} {parts : List Char × List Char}
    (cut : Text.cutAt (· == '.') text = (whole, fraction)) : readMantissa? text = some parts ↔
      (whole ++ fraction.getD [] ≠ [] ∧ ∀ c ∈ whole ++ fraction.getD [], Text.isDigit c = true) ∧
      (whole, fraction.getD []) = parts := by
  have empty : (whole.isEmpty && (fraction.getD []).isEmpty) = true ↔ whole ++ fraction.getD [] = [] := by simp
  have other : (!(whole ++ fraction.getD []).all Text.isDigit) = true ↔
      ¬ ∀ c ∈ whole ++ fraction.getD [], Text.isDigit c = true := by
    rw [← List.all_eq_true, Bool.not_eq_true', Bool.not_eq_true]
  simp only [readMantissa?, cut]
  split
  · rename_i none
    simp [empty.mp none]
  · rename_i nonempty
    split
    · rename_i foreign
      exact ⟨nofun, fun ⟨proper, _⟩ => absurd proper.2 (other.mp foreign)⟩
    · rename_i areDigits
      rw [Option.some.injEq]
      exact (and_iff_right ⟨mt empty.mpr nonempty, not_not.mp (mt other.mpr areDigits)⟩).symm

/-- A mantissa is digits with at most one point among them. -/
theorem readMantissa?_eq_some_iff {text whole digits : List Char} : readMantissa? text = some (whole, digits) ↔
    ∃ fraction : Option (List Char), text = whole ++ fraction.elim [] ('.' :: ·) ∧ fraction.getD [] = digits ∧
      whole ++ digits ≠ [] ∧ ∀ c ∈ whole ++ digits, Text.isDigit c = true := by
  constructor
  · intro read
    obtain ⟨whole', fraction, cut⟩ : ∃ whole' fraction, Text.cutAt (· == '.') text = (whole', fraction) := ⟨_, _, rfl⟩
    obtain ⟨proper, same⟩ := (readMantissa?_of_cutAt cut).mp read
    cases same
    refine ⟨fraction, ?_, rfl, proper⟩
    cases fraction with
    | none => simpa using Text.eq_of_cutAt_none cut
    | some fraction =>
      obtain ⟨mark, point, is⟩ := Text.exists_of_cutAt_some cut
      rw [is, eq_of_beq point]
      rfl
  · rintro ⟨fraction, rfl, rfl, nonempty, areDigits⟩
    have cut : Text.cutAt (· == '.') (whole ++ fraction.elim [] ('.' :: ·)) = (whole, fraction) := by
      have plain : ∀ c ∈ whole, (c == '.') = false := fun c among =>
        Text.beq_eq_false_of_holds (areDigits c (List.mem_append_left _ among)) (by decide)
      cases fraction with
      | none => simpa using Text.cutAt_plain plain
      | some fraction => exact Text.cutAt_append plain (by simp) fraction
    exact (readMantissa?_of_cutAt cut).mpr ⟨⟨nonempty, areDigits⟩, rfl⟩

/-- The exponent that follows the mark of a power; without one it is zero. -/
def readExponent? (power : Option (List Char)) : Option Int :=
  power.elim (some 0) Text.readInt32?

theorem ofText?_of_cutAt {text : String} {measure : Measure} {sign : Text.Sign} {unsigned mantissa : List Char}
    {power : Option (List Char)} (signed : Text.readSign (Text.trim text.toList) = (sign.isMinus, unsigned))
    (cut : Text.cutAt (fun c => c == 'e' || c == 'E') unsigned = (mantissa, power)) : ofText? text measure =
      (readExponent? power).bind fun exponent => (readMantissa? mantissa).bind fun parts =>
        if -4096 ≤ exponent - parts.2.length ∧ exponent - parts.2.length ≤ 4096 then
          some (scaled (sign.factor * Text.placeValue (parts.1 ++ parts.2)) (exponent - parts.2.length) measure)
        else none := by
  have near (scale : Int) : maxScale < scale.natAbs ↔ ¬ (-4096 ≤ scale ∧ scale ≤ 4096) := by
    unfold maxScale
    omega
  simp only [ofText?, signed, cut, Text.digitsValue_eq_placeValue, ← Text.Sign.factor_mul, near, ite_not]
  cases power <;> rfl

/-- Where a power is written, its mark ends the mantissa. -/
theorem exists_power {unsigned mantissa : List Char} {power : Option (List Char)} {exponent : Int}
    (cut : Text.cutAt (fun c => c == 'e' || c == 'E') unsigned = (mantissa, power))
    (read : readExponent? power = some exponent) : ∃ power : Option (Char × Text.Numeral),
      unsigned = mantissa ++ power.elim [] (fun part => part.1 :: part.2.chars) ∧
      power.elim 0 (fun part => part.2.value) = exponent ∧ (∀ part ∈ power, part.1 = 'e' ∨ part.1 = 'E') ∧
      ∀ part ∈ power, -2147483648 ≤ part.2.value ∧ part.2.value ≤ 2147483647 := by
  cases power with
  | none =>
    refine ⟨none, ?_, Option.some.inj read, nofun, nofun⟩
    simpa using Text.eq_of_cutAt_none cut
  | some digits =>
    obtain ⟨mark, marks, is⟩ := Text.exists_of_cutAt_some cut
    obtain ⟨⟨numeral, rfl, rfl⟩, fits⟩ := Text.readInt32?_eq_some_iff.mp read
    refine ⟨some (mark, numeral), is, rfl, ?_, ?_⟩
    · rintro part ⟨⟩
      simpa using marks
    · rintro part ⟨⟩
      exact fits

namespace Literal

variable (literal : Literal)

theorem mem_mantissa {literal : Literal} {c : Char} (among : c ∈ literal.mantissa) :
    Text.isDigit c = true ∨ c = '.' := by
  rcases List.mem_append.mp among with whole | fraction
  · exact .inl (literal.areDigits c (List.mem_append_left _ whole))
  · cases is : literal.fraction with
    | none => simp [is] at fraction
    | some digits =>
      rw [is] at fraction
      rcases List.mem_cons.mp fraction with point | digit
      · exact .inr point
      · exact .inl (literal.areDigits c (List.mem_append_right _ (by simpa [is] using digit)))

theorem mantissa_ne_nil : literal.mantissa ≠ [] := by
  intro none
  obtain ⟨whole, fraction⟩ := List.append_eq_nil_iff.mp none
  refine literal.nonempty (List.append_eq_nil_iff.mpr ⟨whole, ?_⟩)
  cases is : literal.fraction with
  | none => rfl
  | some digits => simp [is] at fraction

/-- There is no blank in a literal. -/
theorem solid : ∀ c ∈ literal.chars, Text.isBlank c = false := by
  intro c among
  rcases List.mem_append.mp among with sign | among
  · exact literal.sign.solid c sign
  rcases List.mem_append.mp among with digit | power
  · rcases mem_mantissa digit with digit | rfl
    · exact Text.isBlank_of_isDigit digit
    · decide
  · unfold suffix at power
    cases is : literal.power with
    | none => simp [is] at power
    | some part =>
      rw [is] at power
      rcases List.mem_cons.mp power with rfl | numeral
      · rcases literal.marked part is with mark | mark
        all_goals
          rw [mark]
          decide
      · exact part.2.solid c numeral

/-- The sign is taken off: no other one follows it. -/
theorem readSign_chars : Text.readSign literal.chars = (literal.sign.isMinus, literal.mantissa ++ literal.suffix) := by
  refine Text.readSign_append _ fun c first => ?_
  rw [List.head?_append_of_ne_nil _ literal.mantissa_ne_nil] at first
  rcases mem_mantissa (List.mem_of_mem_head? first) with digit | rfl
  · exact ⟨beq_eq_false_iff_ne.mp (Text.beq_eq_false_of_holds digit (by decide)),
      beq_eq_false_iff_ne.mp (Text.beq_eq_false_of_holds digit (by decide))⟩
  · decide

theorem cutAt_mark : Text.cutAt (fun c => c == 'e' || c == 'E') (literal.mantissa ++ literal.suffix) =
    (literal.mantissa, literal.power.map fun part => part.2.chars) := by
  have plain : ∀ c ∈ literal.mantissa, (c == 'e' || c == 'E') = false := by
    intro c among
    rcases mem_mantissa among with digit | rfl
    · rw [Text.beq_eq_false_of_holds digit (by decide), Text.beq_eq_false_of_holds digit (by decide), Bool.or_self]
    · decide
  unfold suffix
  cases is : literal.power with
  | none => simpa using Text.cutAt_plain plain
  | some part =>
    have marks : (part.1 == 'e' || part.1 == 'E') = true := by simpa using literal.marked part is
    exact Text.cutAt_append plain marks part.2.chars

theorem readExponent?_power : readExponent? (literal.power.map fun part => part.2.chars) = some literal.exponent := by
  rw [exponent]
  cases is : literal.power with
  | none => rfl
  | some part => exact Text.readInt32?_eq_some_iff.mpr ⟨⟨part.2, rfl, rfl⟩, literal.fits part is⟩

theorem readMantissa?_mantissa :
    readMantissa? literal.mantissa = some (literal.whole, literal.fraction.getD []) :=
  readMantissa?_eq_some_iff.mpr ⟨literal.fraction, rfl, rfl, literal.nonempty, literal.areDigits⟩

end Literal

/-- A literal reads as the number that it denotes, if its digits are not moved too far. -/
theorem ofText?_of_literal {text : String} {literal : Literal} (is : Text.trim text.toList = literal.chars)
    (near : -4096 ≤ literal.scale ∧ literal.scale ≤ 4096) (measure : Measure) :
    ofText? text measure = some (scaled literal.digits literal.scale measure) := by
  have signed := literal.readSign_chars
  rw [← is] at signed
  rw [ofText?_of_cutAt signed literal.cutAt_mark, literal.readExponent?_power, literal.readMantissa?_mantissa]
  exact if_pos near

/-- What is read is a literal. -/
theorem exists_literal {text : String} {measure : Measure} {number : Quantity}
    (read : ofText? text measure = some number) : ∃ literal : Literal, Text.trim text.toList = literal.chars ∧
      (-4096 ≤ literal.scale ∧ literal.scale ≤ 4096) ∧ number = scaled literal.digits literal.scale measure := by
  obtain ⟨sign, unsigned, is, signed⟩ := Text.exists_readSign (Text.trim text.toList)
  obtain ⟨mantissa, power, cut⟩ : ∃ mantissa power,
    Text.cutAt (fun c => c == 'e' || c == 'E') unsigned = (mantissa, power) := ⟨_, _, rfl⟩
  rw [ofText?_of_cutAt signed cut] at read
  obtain ⟨exponent, readPower, read⟩ := Option.bind_eq_some_iff.mp read
  obtain ⟨⟨whole, digits⟩, readDigits, read⟩ := Option.bind_eq_some_iff.mp read
  obtain ⟨power, rfl, rfl, marked, fits⟩ := exists_power cut readPower
  obtain ⟨fraction, rfl, rfl, nonempty, areDigits⟩ := readMantissa?_eq_some_iff.mp readDigits
  split at read
  · cases read
    exact ⟨⟨sign, whole, fraction, power, areDigits, nonempty, marked, fits⟩, is, ‹_›, rfl⟩
  · contradiction

/-- A text reads as a quantity exactly if it is a literal with nothing but blanks around it whose digits are moved by no
more than 4096 places, and the quantity is then the number that the literal denotes, in lowest terms. -/
theorem reads_iff_literal (text : String) (measure : Measure) (number : Quantity) :
    ofText? text measure = some number ↔ ∃ (literal : Literal) (before after : List Char),
      text.toList = before ++ (literal.chars ++ after) ∧
      (∀ c ∈ before, Text.isBlank c = true) ∧ (∀ c ∈ after, Text.isBlank c = true) ∧
      (-4096 ≤ literal.scale ∧ literal.scale ≤ 4096) ∧
      number.IsReduced ∧ number.magnitude = literal.value ∧ number.measure = measure := by
  constructor
  · intro read
    obtain ⟨literal, is, near, rfl⟩ := exists_literal read
    obtain ⟨before, after, whole, leading, trailing⟩ := Text.exists_trim text.toList
    obtain ⟨reduced, measured, magnitude⟩ := scaled_spec literal.digits literal.scale measure
    rw [is] at whole
    exact ⟨literal, before, after, whole, leading, trailing, near, reduced, magnitude, measured⟩
  · rintro ⟨literal, before, after, whole, leading, trailing, near, reduced, value, rfl⟩
    have is : Text.trim text.toList = literal.chars := by
      rw [whole, Text.trim_between leading trailing literal.solid]
    obtain ⟨reduced', measured, magnitude⟩ := scaled_spec literal.digits literal.scale number.measure
    rw [ofText?_of_literal is near, Option.some.injEq, reduced'.eq_iff reduced]
    exact ⟨measured, magnitude.trans value.symm⟩

end Quantity

end Rivulet
