import Rivulet.Proofs.Measure.Spelling

/-!
The texts that are read as measures. A factor is a name with an exponent behind a mark, or without one
(`FactorText`); factors have dots or stars between them (`FactorsText`), and a measure is written as factors, or as
factors to divide by others (`FractionText`).

Main statement: what is read is what is written so, and it is the product of the factors above divided by those below
(`ofText?_eq_some_iff`).
-/

namespace Rivulet

namespace Measure

/-! ### Texts -/

/-- A factor as it can be written, with blanks around its name and its exponent. -/
inductive FactorText : List Char → String × Int → Prop where
  | plain {text : List Char} {name : String} (spelled : Spelled name) (is : Text.trim text = name.toList) :
      FactorText text (name, 1)
  | power {base digits : List Char} {name : String} {numeral : Text.Numeral} (spelled : Spelled name)
      (is : Text.trim base = name.toList) (number : Text.trim digits = numeral.chars)
      (fits : -2147483648 ≤ numeral.value ∧ numeral.value ≤ 2147483647) :
      FactorText (base ++ '^' :: digits) (name, numeral.value)

/-- Factors as they can be written, with blanks around each. -/
inductive FactorsText : List Char → List (String × Int) → Prop where
  | last {text : List Char} {factor : String × Int} (written : FactorText (Text.trim text) factor) :
      FactorsText text [factor]
  | more {text rest : List Char} {mark : Char} {factor : String × Int} {factors : List (String × Int)}
      (written : FactorText (Text.trim text) factor) (joins : mark = '·' ∨ mark = '*')
      (others : FactorsText rest factors) : FactorsText (text ++ mark :: rest) (factor :: factors)

/-- A measure as it can be written, by the factors above the slash and those below it. -/
inductive FractionText : List Char → List (String × Int) → List (String × Int) → Prop where
  | nothing : FractionText [] [] []
  | whole {text : List Char} {above : List (String × Int)} (written : FactorsText text above) :
      FractionText text above []
  | fraction {numerator denominator : List Char} {above below : List (String × Int)}
      (upper : FactorsText numerator above) (lower : FactorsText denominator below) :
      FractionText (numerator ++ '/' :: denominator) above below

/-! ### What stands in them -/

variable {text : List Char} {factor : String × Int} {factors above below : List (String × Int)}
  {condition : Char → Bool}

theorem lacks_of_trim (blanks : ∀ c, Text.isBlank c = true → condition c = false)
    (inside : ∀ c ∈ Text.trim text, condition c = false) : ∀ c ∈ text, condition c = false := by
  obtain ⟨before, after, is, leading, trailing⟩ := Text.exists_trim text
  intro c among
  rw [is] at among
  rcases List.mem_append.mp among with first | among
  · exact blanks c (leading c first)
  · rcases List.mem_append.mp among with middle | last
    · exact inside c middle
    · exact blanks c (trailing c last)

theorem lacks_of_name {name : String} (spelled : Spelled name) (is : Text.trim text = name.toList)
    (blanks : ∀ c, Text.isBlank c = true → condition c = false)
    (letters : ∀ c, Text.isLetter c = true → condition c = false) : ∀ c ∈ text, condition c = false :=
  lacks_of_trim blanks fun c among => letters c (spelled.letters c (is ▸ among))

/-- What is true of no blank, no letter, no digit, no sign and not of the mark of powers is true of nothing in a
factor. -/
theorem FactorText.lacks (written : FactorText text factor) (blanks : ∀ c, Text.isBlank c = true → condition c = false)
    (letters : ∀ c, Text.isLetter c = true → condition c = false)
    (digits : ∀ c, Text.isDigit c = true → condition c = false)
    (signs : condition '+' = false ∧ condition '-' = false) (power : condition '^' = false) :
    ∀ c ∈ text, condition c = false := by
  cases written with
  | plain spelled is => exact lacks_of_name spelled is blanks letters
  | @power base number name numeral spelled is written fits =>
    have sign : ∀ c ∈ numeral.sign.chars, condition c = false := by
      cases numeral.sign with
      | unsigned => exact List.forall_mem_nil _
      | plus => exact List.forall_mem_singleton.mpr signs.1
      | minus => exact List.forall_mem_singleton.mpr signs.2
    have behind : ∀ c ∈ Text.trim number, condition c = false := by
      rw [written]
      exact List.forall_mem_append.mpr ⟨sign, fun c among => digits c (numeral.areDigits c among)⟩
    exact List.forall_mem_append.mpr ⟨lacks_of_name spelled is blanks letters,
      List.forall_mem_cons.mpr ⟨power, lacks_of_trim blanks behind⟩⟩

theorem FactorText.joinless (written : FactorText (Text.trim text) factor) :
    ∀ c ∈ text, (c == '·' || c == '*') = false := by
  have blanks (c : Char) (blank : Text.isBlank c = true) : (c == '·' || c == '*') = false := by
    rw [Text.beq_eq_false_of_holds blank (by decide), Text.beq_eq_false_of_holds blank (by decide), Bool.or_self]
  refine lacks_of_trim blanks (written.lacks blanks (fun c letter => ?_) (fun c digit => ?_) (by decide) (by decide))
  · rw [Text.beq_eq_false_of_holds letter (by decide +kernel), Text.beq_eq_false_of_holds letter (by decide +kernel),
      Bool.or_self]
  · rw [Text.beq_eq_false_of_holds digit (by decide), Text.beq_eq_false_of_holds digit (by decide), Bool.or_self]

theorem FactorText.slashless (written : FactorText (Text.trim text) factor) : ∀ c ∈ text, (c == '/') = false := by
  have blanks (c : Char) (blank : Text.isBlank c = true) : (c == '/') = false :=
    Text.beq_eq_false_of_holds blank (by decide)
  exact lacks_of_trim blanks (written.lacks blanks
    (fun _ letter => Text.beq_eq_false_of_holds letter (by decide +kernel))
    (fun _ digit => Text.beq_eq_false_of_holds digit (by decide)) (by decide) (by decide))

theorem FactorsText.slashless (written : FactorsText text factors) : ∀ c ∈ text, (c == '/') = false := by
  induction written with
  | last written => exact written.slashless
  | more written joins _ hypothesis =>
    refine List.forall_mem_append.mpr ⟨written.slashless, List.forall_mem_cons.mpr ⟨?_, hypothesis⟩⟩
    rcases joins with rfl | rfl <;> decide

/-! ### Reading them -/

/-- A factor is read from its texts, and from nothing else. -/
theorem readFactor?_eq_some_iff_factorText : readFactor? text = some factor ↔ FactorText text factor := by
  obtain ⟨name, exponent⟩ := factor
  constructor
  · intro read
    obtain ⟨base, power, cut⟩ : ∃ base power, Text.cutAt (· == '^') text = (base, power) := ⟨_, _, rfl⟩
    obtain ⟨is, spelled, number⟩ := (readFactor?_eq_some_iff cut).mp read
    cases power with
    | none =>
      obtain rfl := Text.eq_of_cutAt_none cut
      obtain rfl : 1 = exponent := Option.some.inj number
      exact .plain spelled is.symm
    | some digits =>
      obtain ⟨mark, marks, rfl⟩ := Text.exists_of_cutAt_some cut
      obtain ⟨⟨numeral, digitsAre, rfl⟩, fits⟩ := Text.readInt32?_eq_some_iff.mp number
      rw [eq_of_beq marks]
      exact .power spelled is.symm digitsAre fits
  · have plain {base : List Char} {name : String} (spelled : Spelled name) (is : Text.trim base = name.toList) :
        ∀ c ∈ base, (c == '^') = false :=
      lacks_of_name spelled is (fun _ blank => Text.beq_eq_false_of_holds blank (by decide))
        (fun _ letter => Text.beq_eq_false_of_holds letter (by decide +kernel))
    intro written
    cases written with
    | plain spelled is =>
      exact (readFactor?_eq_some_iff (Text.cutAt_plain (plain spelled is))).mpr ⟨is.symm, spelled, rfl⟩
    | power spelled is number fits =>
      have cut := Text.cutAt_append (plain spelled is) (beq_self_eq_true '^')
      exact (readFactor?_eq_some_iff (cut _)).mpr
        ⟨is.symm, spelled, Text.readInt32?_eq_some_iff.mpr ⟨⟨_, number, rfl⟩, fits⟩⟩

theorem factors?_of_plain (plain : ∀ c ∈ text, (c == '·' || c == '*') = false) :
    factors? text = (readFactor? (Text.trim text)).map fun factor => [factor] := by
  rw [factors?, Text.splitAtEvery_plain plain, List.mapM_cons, List.mapM_nil]
  cases readFactor? (Text.trim text) <;> rfl

theorem factors?_of_join {rest : List Char} {mark : Char} (plain : ∀ c ∈ text, (c == '·' || c == '*') = false)
    (joins : (mark == '·' || mark == '*') = true) : factors? (text ++ mark :: rest) =
      (readFactor? (Text.trim text)).bind fun factor => (factors? rest).map (factor :: ·) := by
  rw [factors?, factors?, Text.splitAtEvery_append plain joins, List.mapM_cons]
  generalize Text.splitAtEvery _ rest = parts
  cases readFactor? (Text.trim text) with
  | none => rfl
  | some factor => cases parts.mapM fun part => readFactor? (Text.trim part) <;> rfl

/-- Factors are read from their texts, and from nothing else. -/
theorem factors?_eq_some_iff : factors? text = some factors ↔ FactorsText text factors := by
  constructor
  · intro read
    -- The induction is on the length of the text: what follows a mark between factors is shorter.
    induction length : text.length using Nat.strong_induction_on generalizing text factors with
    | _ count hypothesis =>
    obtain ⟨part, rest, cut⟩ : ∃ part rest, Text.cutAt (fun c => c == '·' || c == '*') text = (part, rest) :=
      ⟨_, _, rfl⟩
    have plain : ∀ c ∈ part, (c == '·' || c == '*') = false := by
      have all := Text.plain_of_cutAt (fun c => c == '·' || c == '*') text
      rwa [cut] at all
    cases rest with
    | none =>
      obtain rfl := Text.eq_of_cutAt_none cut
      rw [factors?_of_plain plain] at read
      obtain ⟨factor, one, rfl⟩ := Option.map_eq_some_iff.mp read
      exact .last (readFactor?_eq_some_iff_factorText.mp one)
    | some rest =>
      obtain ⟨mark, joins, rfl⟩ := Text.exists_of_cutAt_some cut
      rw [factors?_of_join plain joins] at read
      obtain ⟨factor, one, later⟩ := Option.bind_eq_some_iff.mp read
      obtain ⟨others, behind, rfl⟩ := Option.map_eq_some_iff.mp later
      have shorter : rest.length < count := by
        rw [← length, List.length_append, List.length_cons]
        omega
      exact .more (readFactor?_eq_some_iff_factorText.mp one) (by simpa using joins) (hypothesis _ shorter behind rfl)
  · intro written
    induction written with
    | last written =>
      rw [factors?_of_plain written.joinless, readFactor?_eq_some_iff_factorText.mpr written, Option.map_some]
    | more written joins _ hypothesis =>
      rw [factors?_of_join written.joinless (by simpa using joins), readFactor?_eq_some_iff_factorText.mpr written,
        Option.bind_some, hypothesis, Option.map_some]

theorem FactorsText.ne_nil (written : FactorsText text factors) : text ≠ [] := by
  rintro rfl
  have read := factors?_eq_some_iff.mpr written
  contradiction

/-- A measure is read from the texts of fractions, and from nothing else. It is what stands above the slash divided by
what stands below it. -/
theorem ofText?_eq_some_iff {text : String} {measure : Measure} : ofText? text = some measure ↔
    ∃ above below, FractionText (Text.trim text.toList) above below ∧
      (unitless.adjustAll 1 above).adjustAll (-1) below = measure := by
  unfold ofText?
  generalize Text.trim text.toList = text
  constructor
  · intro read
    dsimp only at read
    split at read
    · rename_i empty
      cases read
      rw [List.isEmpty_iff.mp empty]
      exact ⟨[], [], .nothing, rfl⟩
    · obtain ⟨numerator, denominator, cut⟩ : ∃ numerator denominator,
          Text.cutAt (· == '/') text = (numerator, denominator) := ⟨_, _, rfl⟩
      rw [cut] at read
      obtain ⟨upper, first, read⟩ := Option.bind_eq_some_iff.mp read
      rw [readFactors?_eq_map] at first
      obtain ⟨above, factors, rfl⟩ := Option.map_eq_some_iff.mp first
      have written := factors?_eq_some_iff.mp factors
      cases denominator with
      | none =>
        cases read
        rw [Text.eq_of_cutAt_none cut]
        exact ⟨above, [], .whole written, rfl⟩
      | some denominator =>
        obtain ⟨mark, slash, is⟩ := Text.exists_of_cutAt_some cut
        dsimp only at read
        rw [readFactors?_eq_map] at read
        obtain ⟨below, divisors, rfl⟩ := Option.map_eq_some_iff.mp read
        rw [is, eq_of_beq slash]
        exact ⟨above, below, .fraction written (factors?_eq_some_iff.mp divisors), rfl⟩
  · rintro ⟨above, below, written, rfl⟩
    cases written with
    | nothing => rfl
    | whole written =>
      have nonempty : text.isEmpty = false := by simpa using written.ne_nil
      simp only [nonempty, Bool.false_eq_true, if_false, Text.cutAt_plain written.slashless, readFactors?_eq_map,
        factors?_eq_some_iff.mpr written]
      rfl
    | @fraction numerator denominator _ _ upper lower =>
      have nonempty : (numerator ++ '/' :: denominator).isEmpty = false := by simp
      simp only [nonempty, Bool.false_eq_true, if_false, Text.cutAt_append upper.slashless (beq_self_eq_true '/'),
        readFactors?_eq_map, factors?_eq_some_iff.mpr upper, factors?_eq_some_iff.mpr lower]
      rfl

end Measure

end Rivulet
