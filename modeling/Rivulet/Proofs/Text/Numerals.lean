import Mathlib.Data.Nat.Digits.Defs
import Rivulet.Proofs.Text
import Rivulet.Text.Decimal

/-!
Numerals. Digits denote a number by their places (`placeValue`), and a sign in front of them takes it or its opposite
(`Numeral`).

Main statement: what is read as a whole number of 32 bits are the numerals of such a number (`readInt32?_eq_some_iff`).
-/

namespace Rivulet

namespace Text

/-! ### Digits -/

/-- The number that digits denote by their places: the last one counts ones, and each one ten times what the next one
does. -/
def placeValue (digits : List Char) : Nat :=
  Nat.ofDigits 10 (digits.reverse.map fun c => c.toNat - '0'.toNat)

theorem digitsValue_eq_placeValue (digits : List Char) : digitsValue digits = placeValue digits := by
  rw [placeValue, digitsValue, Nat.ofDigits_eq_foldr, List.foldr_map, List.foldr_reverse]
  congr 1
  funext value c
  simp [Nat.add_comm, Nat.mul_comm]

theorem placeValue_append (front back : List Char) :
    placeValue (front ++ back) = placeValue front * 10 ^ back.length + placeValue back := by
  simpa only [digitsValue_eq_placeValue, Nat.pow_eq] using digitsValue_append front back

theorem placeValue_zeros (count : Nat) : placeValue (List.replicate count '0') = 0 := by
  induction count with
  | zero => rfl
  | succ count hypothesis =>
    rw [List.replicate_succ', placeValue_append, hypothesis]
    rfl

theorem isBlank_of_isDigit {c : Char} (digit : isDigit c = true) : isBlank c = false := by
  simp only [isDigit, Bool.and_eq_true, decide_eq_true_eq, Char.le_def, UInt32.le_iff_toNat_le] at digit
  have low : 48 ≤ c.toNat := digit.1
  have high : c.toNat ≤ 57 := digit.2
  simp only [isBlank, Bool.or_eq_false_iff, Bool.and_eq_false_iff, beq_eq_false_iff_ne, decide_eq_false_iff_not]
  omega

theorem isDigit_of_mem_toDigits {value : Nat} {c : Char} (among : c ∈ Nat.toDigits 10 value) : isDigit c = true := by
  have digit := Nat.isDigit_of_mem_toDigits (by decide) (by decide) among
  simpa [Char.isDigit, isDigit, Char.le_def] using digit

theorem digitsValue_toDigits (value : Nat) : digitsValue (Nat.toDigits 10 value) = value := by
  have same := @Nat.ofDigitChars_ten_toDigits value
  simpa only [Nat.ofDigitChars, digitsValue, Nat.mul_comm] using same

/-- A number above zero is written without a zero in front. -/
theorem head?_toDigits_ne {value : Nat} (positive : 0 < value) : (Nat.toDigits 10 value).head? ≠ some '0' := by
  induction value using Nat.strongRecOn with
  | ind value hypothesis =>
    by_cases small : value < 10
    · have all : ∀ digit : Fin 10, 0 < digit.val → (Nat.toDigits 10 digit.val).head? ≠ some '0' := by decide
      exact all ⟨value, small⟩ positive
    · have before := hypothesis (value / 10) (by omega) (by omega)
      rw [Nat.toDigits_of_base_le (by decide) (Nat.le_of_not_lt small)]
      cases digits : Nat.toDigits 10 (value / 10) with
      | nil => exact absurd digits Nat.toDigits_ne_nil
      | cons c rest =>
        rw [digits] at before
        exact before

theorem isDigit_of_mem_lastDigits {level value : Nat} {c : Char} (among : c ∈ lastDigits level value []) :
    isDigit c = true := by
  induction level generalizing value with
  | zero =>
    have all : ∀ digit : Fin 10, isDigit (Char.ofNat ('0'.toNat + digit)) = true := by decide
    rw [List.mem_singleton.mp among]
    exact all ⟨value % 10, Nat.mod_lt _ (by decide)⟩
  | succ level hypothesis =>
    rw [lastDigits, lastDigits_eq_append] at among
    rcases List.mem_append.mp among with front | back
    · exact hypothesis front
    · exact hypothesis back

/-- A number is written in digits. -/
theorem writeNat_digits (value : Nat) :
    (writeNat value).toList ≠ [] ∧ ∀ c ∈ (writeNat value).toList, isDigit c = true := by
  unfold writeNat
  split
  · exact ⟨by decide, List.forall_mem_singleton.mpr (by decide)⟩
  · rename_i nonempty
    rw [String.toList_ofList]
    exact ⟨nonempty, fun c among => isDigit_of_mem_lastDigits ((List.dropWhile_sublist _).subset among)⟩

theorem placeValue_writeNat (value : Nat) : placeValue (writeNat value).toList = value := by
  rw [← digitsValue_eq_placeValue, digitsValue_writeNat]

/-! ### Signs -/

/-- What may stand in front of digits. -/
inductive Sign where
  | unsigned
  | plus
  | minus

namespace Sign

/-- The sign as it is written. -/
def chars : Sign → List Char
  | unsigned => []
  | plus => ['+']
  | minus => ['-']

/-- Whether the sign is a minus. -/
def isMinus : Sign → Bool
  | minus => true
  | unsigned | plus => false

/-- What the sign multiplies the number behind it by. -/
def factor : Sign → Int
  | unsigned | plus => 1
  | minus => -1

theorem solid (sign : Sign) : ∀ c ∈ sign.chars, isBlank c = false := by
  cases sign with
  | unsigned => exact List.forall_mem_nil _
  | plus | minus => exact List.forall_mem_singleton.mpr (by decide)

theorem factor_mul (sign : Sign) (value : Int) : sign.factor * value = if sign.isMinus then -value else value := by
  cases sign <;> simp [factor, isMinus]

end Sign

/-- A whole number as it is written, with at least one digit. -/
structure Numeral where
  sign : Sign
  digits : List Char
  areDigits : ∀ c ∈ digits, isDigit c = true
  nonempty : digits ≠ []

namespace Numeral

/-- The characters of a numeral. -/
def chars (numeral : Numeral) : List Char :=
  numeral.sign.chars ++ numeral.digits

/-- The number that a numeral denotes. -/
def value (numeral : Numeral) : Int :=
  numeral.sign.factor * placeValue numeral.digits

theorem solid (numeral : Numeral) : ∀ c ∈ numeral.chars, isBlank c = false := by
  intro c among
  rcases List.mem_append.mp among with sign | digit
  · exact numeral.sign.solid c sign
  · exact isBlank_of_isDigit (numeral.areDigits c digit)

end Numeral

/-- A sign is taken off any text that does not go on with another one. -/
theorem readSign_append (sign : Sign) {rest : List Char} (plain : ∀ c ∈ rest.head?, c ≠ '+' ∧ c ≠ '-') :
    readSign (sign.chars ++ rest) = (sign.isMinus, rest) := by
  cases sign with
  | unsigned =>
    cases rest with
    | nil => rfl
    | cons c rest =>
      obtain ⟨noPlus, noMinus⟩ := plain c rfl
      simp [readSign, Sign.chars, Sign.isMinus, noPlus, noMinus]
  | plus => rfl
  | minus => rfl

theorem exists_readSign (text : List Char) :
    ∃ (sign : Sign) (rest : List Char), text = sign.chars ++ rest ∧ readSign text = (sign.isMinus, rest) := by
  unfold readSign
  split
  · exact ⟨.minus, _, rfl, rfl⟩
  · exact ⟨.plus, _, rfl, rfl⟩
  · exact ⟨.unsigned, _, rfl, rfl⟩

theorem plain_of_isDigit {digits : List Char} (areDigits : ∀ c ∈ digits, isDigit c = true) :
    ∀ c ∈ digits.head?, c ≠ '+' ∧ c ≠ '-' := by
  intro c first
  have digit := areDigits c (List.mem_of_mem_head? first)
  constructor
  all_goals
    rintro rfl
    exact absurd digit (by decide)

theorem readNat?_eq_some_iff {text : List Char} {value : Nat} : readNat? text = some value ↔
    text ≠ [] ∧ (∀ c ∈ text, isDigit c = true) ∧ placeValue text = value := by
  have rejected : (text.isEmpty || !text.all isDigit) = true ↔ ¬ (text ≠ [] ∧ ∀ c ∈ text, isDigit c = true) := by
    simp [Classical.or_iff_not_imp_left]
  rw [readNat?, digitsValue_eq_placeValue]
  split
  · simp_all
  · simp_all

theorem readInt32?_of_readSign {text rest : List Char} {sign : Sign} (is : readSign text = (sign.isMinus, rest)) :
    readInt32? text = (readNat? rest).bind fun magnitude =>
      if -2147483648 ≤ sign.factor * magnitude ∧ sign.factor * magnitude ≤ 2147483647 then
        some (sign.factor * magnitude)
      else none := by
  simp only [readInt32?, is, Sign.factor_mul, Bool.and_eq_true, decide_eq_true_eq]
  rfl

/-- The whole numbers of 32 bits are read from their numerals, and from nothing else. -/
theorem readInt32?_eq_some_iff {text : List Char} {value : Int} : readInt32? text = some value ↔
    (∃ numeral : Numeral, text = numeral.chars ∧ numeral.value = value) ∧
      -2147483648 ≤ value ∧ value ≤ 2147483647 := by
  constructor
  · intro read
    obtain ⟨sign, digits, rfl, is⟩ := exists_readSign text
    rw [readInt32?_of_readSign is] at read
    obtain ⟨magnitude, natural, read⟩ := Option.bind_eq_some_iff.mp read
    obtain ⟨some, areDigits, rfl⟩ := readNat?_eq_some_iff.mp natural
    split at read
    · cases read
      exact ⟨⟨⟨sign, digits, areDigits, some⟩, rfl, rfl⟩, ‹_›⟩
    · contradiction
  · rintro ⟨⟨numeral, rfl, rfl⟩, bounds⟩
    have natural : readNat? numeral.digits = some (placeValue numeral.digits) :=
      readNat?_eq_some_iff.mpr ⟨numeral.nonempty, numeral.areDigits, rfl⟩
    rw [Numeral.chars, readInt32?_of_readSign (readSign_append _ (plain_of_isDigit numeral.areDigits)), natural]
    exact if_pos bounds

end Text

end Rivulet
