import Rivulet.Text.Blank

/-!
Decimal numerals written with the ten digits `0` to `9`: the number a list of digits denotes, the
signed whole numbers of 32 bits that exponents are made of, and the bound that counts stay below.
A number is written by halving the list of its digits again and again, which keeps even very long
numbers cheap.

Main statement: the digits that are written denote the number (`digitsValue_writeNat`).
-/

namespace Rivulet.Text

/-- A digit is one of the ten characters `0` to `9`. -/
def isDigit (c : Char) : Bool :=
  '0' ≤ c && c ≤ '9'

/-- The number that a list of digits denotes, most significant digit first. -/
def digitsValue (digits : List Char) : Nat :=
  digits.foldl (fun value c => value * 10 + (c.toNat - '0'.toNat)) 0

/-- Counts fit in 64 bits: they are the natural numbers below this one. -/
def countBound : Nat := 18446744073709551616

/-- A natural number in decimal digits: at least one digit, and digits only. -/
def readNat? (text : List Char) : Option Nat :=
  if text.isEmpty || !text.all isDigit then none else some (digitsValue text)

/-- Takes one leading sign off a text and tells whether it was a minus. -/
def readSign : List Char → Bool × List Char
  | '-' :: rest => (true, rest)
  | '+' :: rest => (false, rest)
  | text => (false, text)

/-- A whole number with an optional sign, provided that it fits in 32 bits. -/
def readInt32? (text : List Char) : Option Int := do
  let (negative, digits) := readSign text
  let magnitude ← readNat? digits
  let value : Int := if negative then -magnitude else magnitude
  if -2147483648 ≤ value && value ≤ 2147483647 then some value else none

/-! ### Writing -/

/-- The last digits of a number, as many as two to the power of a level, in front of other
characters. -/
def lastDigits : Nat → Nat → List Char → List Char
  | 0, value, rest => Char.ofNat ('0'.toNat + value % 10) :: rest
  | level + 1, value, rest =>
    let half := Nat.pow 10 (Nat.pow 2 level)
    lastDigits level (value / half) (lastDigits level (value % half) rest)

/-- A level with room for all digits of a number: a digit is worth more than three bits. -/
def digitLevel (value : Nat) : Nat :=
  Nat.log2 (Nat.log2 value / 3 + 1) + 1

/-- A number in decimal digits, without leading zeros. -/
def writeNat (value : Nat) : String :=
  match (lastDigits (digitLevel value) value []).dropWhile (· == '0') with
  | [] => "0"
  | digits => String.ofList digits

/-! ### What was written reads back -/

theorem digitsValue_append (front back : List Char) :
    digitsValue (front ++ back) =
      digitsValue front * Nat.pow 10 back.length + digitsValue back := by
  have step : ∀ (digits : List Char) (start : Nat),
      digits.foldl (fun value c => value * 10 + (c.toNat - '0'.toNat)) start =
        start * Nat.pow 10 digits.length + digitsValue digits := by
    intro digits
    induction digits with
    | nil => intro start; simp [digitsValue]
    | cons c rest hypothesis =>
      intro start
      simp only [digitsValue, List.foldl_cons, List.length_cons] at *
      rw [hypothesis, hypothesis (0 * 10 + (c.toNat - '0'.toNat))]
      simp only [Nat.pow_eq, Nat.pow_succ]
      grind
  simp only [digitsValue, List.foldl_append]
  exact step back _

theorem lastDigits_eq_append (level value : Nat) (rest : List Char) :
    lastDigits level value rest = lastDigits level value [] ++ rest := by
  induction level generalizing value rest with
  | zero => rfl
  | succ level hypothesis =>
    simp only [lastDigits]
    rw [hypothesis, hypothesis (value % _) rest, hypothesis _ (lastDigits _ _ [])]
    simp

theorem length_lastDigits (level value : Nat) :
    (lastDigits level value []).length = Nat.pow 2 level := by
  induction level generalizing value with
  | zero => rfl
  | succ level hypothesis =>
    simp only [lastDigits]
    rw [lastDigits_eq_append, List.length_append, hypothesis, hypothesis]
    simp only [Nat.pow_eq, Nat.pow_succ]
    omega

theorem digit_toNat (digit : Nat) (small : digit < 10) :
    (Char.ofNat ('0'.toNat + digit)).toNat - '0'.toNat = digit := by
  have all : ∀ digit : Fin 10, (Char.ofNat ('0'.toNat + digit)).toNat - '0'.toNat = digit := by
    decide
  exact all ⟨digit, small⟩

theorem digitsValue_lastDigits (level value : Nat) :
    digitsValue (lastDigits level value []) = value % Nat.pow 10 (Nat.pow 2 level) := by
  induction level generalizing value with
  | zero =>
    simp only [lastDigits, digitsValue, List.foldl_cons, List.foldl_nil]
    rw [digit_toNat _ (Nat.mod_lt _ (by decide))]
    simp
  | succ level hypothesis =>
    simp only [lastDigits]
    rw [lastDigits_eq_append, digitsValue_append, hypothesis, hypothesis, length_lastDigits,
      Nat.mod_mod]
    have double : Nat.pow 10 (Nat.pow 2 (level + 1)) =
        Nat.pow 10 (Nat.pow 2 level) * Nat.pow 10 (Nat.pow 2 level) := by
      simp only [Nat.pow_eq, Nat.pow_succ, ← Nat.pow_add, Nat.mul_two]
    rw [double, Nat.mod_mul, Nat.mul_comm, Nat.add_comm]

theorem digitsValue_dropZeros (digits : List Char) :
    digitsValue (digits.dropWhile (· == '0')) = digitsValue digits := by
  induction digits with
  | nil => rfl
  | cons c rest hypothesis =>
    by_cases zero : c = '0'
    · subst zero
      simpa [digitsValue] using hypothesis
    · simp [zero]

theorem lt_pow_digitLevel (value : Nat) :
    value < Nat.pow 10 (Nat.pow 2 (digitLevel value)) := by
  have bits : value < 2 ^ (value.log2 + 1) := Nat.lt_log2_self
  have digits : value.log2 / 3 + 1 < 2 ^ digitLevel value := Nat.lt_log2_self
  calc value < 2 ^ (value.log2 + 1) := bits
    _ ≤ 2 ^ (3 * (value.log2 / 3 + 1)) := Nat.pow_le_pow_right (by decide) (by omega)
    _ = 8 ^ (value.log2 / 3 + 1) := by rw [Nat.pow_mul]
    _ ≤ 10 ^ (value.log2 / 3 + 1) := Nat.pow_le_pow_left (by decide) _
    _ ≤ 10 ^ (2 ^ digitLevel value) := Nat.pow_le_pow_right (by decide) (Nat.le_of_lt digits)

theorem digitsValue_writeNat (value : Nat) : digitsValue (writeNat value).toList = value := by
  have whole :
      digitsValue ((lastDigits (digitLevel value) value []).dropWhile (· == '0')) = value := by
    rw [digitsValue_dropZeros, digitsValue_lastDigits, Nat.mod_eq_of_lt (lt_pow_digitLevel value)]
  unfold writeNat
  split
  · next none => rw [none] at whole; rw [← whole]; rfl
  · simpa using whole

end Rivulet.Text
