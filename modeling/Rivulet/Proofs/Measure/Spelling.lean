import Mathlib.Data.List.Basic
import Rivulet.Proofs.Measure.Exponents
import Rivulet.Proofs.Text.Numerals

/-!
The text of a measure. A factor is written as its name and its exponent and reads as what it was
(`readFactor?_factorText`), and so do factors with dots between them (`readFactors?_write`).

Main statement: the measures that come about by reading, multiplying and dividing read back from their texts, but for
those all of whose exponents are negative, which do not read at all (`reads_back_unless_inverse`).
-/

namespace Rivulet

namespace Measure

/-! ### Names -/

/-- A name that can be read: one or more letters. -/
structure Spelled (name : String) : Prop where
  named : name ≠ ""
  letters : ∀ c ∈ name.toList, Text.isLetter c = true

/-- All names of a measure can be read. -/
def AllSpelled (measure : Measure) : Prop :=
  ∀ power ∈ measure.powers, Spelled power.1

variable {measure left right : Measure} {name : String} {factor : String × Int} {factors : List (String × Int)}
  {c : Char}

theorem allSpelled_unitless : unitless.AllSpelled := by
  intro power among
  contradiction

theorem AllSpelled.adjust (all : measure.AllSpelled) (spelled : Spelled name) (exponent : Int) :
    (measure.adjust name exponent).AllSpelled := by
  intro power among
  rcases fst_of_mem_adjustPowers among with is | ⟨stored, before, is⟩
  · exact is ▸ spelled
  · exact is ▸ all stored before

theorem AllSpelled.adjustAll (all : measure.AllSpelled) (spelled : ∀ factor ∈ factors, Spelled factor.1) (sign : Int) :
    (measure.adjustAll sign factors).AllSpelled := by
  induction factors generalizing measure with
  | nil => exact all
  | cons factor factors hypothesis =>
    obtain ⟨here, others⟩ := List.forall_mem_cons.mp spelled
    exact hypothesis (all.adjust here _) others

/-- The exponent of a factor, which is one where none is written. -/
def power? : Option (List Char) → Option Int
  | none => some 1
  | some digits => Text.readInt32? (Text.trim digits)

/-- A factor is read from a name that can be read and from its exponent. -/
theorem readFactor?_eq_some_iff {text base : List Char} {power : Option (List Char)}
    (cut : Text.cutAt (· == '^') text = (base, power)) : readFactor? text = some factor ↔
      factor.1.toList = Text.trim base ∧ Spelled factor.1 ∧ power? power = some factor.2 := by
  have is : readFactor? text = (power? power).bind fun exponent =>
      if (Text.trim base).isEmpty || !(Text.trim base).all Text.isLetter then none
      else some (String.ofList (Text.trim base), exponent) := by
    unfold readFactor?
    rw [cut]
    cases power <;> rfl
  rw [is, Option.bind_eq_some_iff]
  constructor
  · rintro ⟨exponent, number, read⟩
    split at read
    · contradiction
    · rename_i letters
      cases read
      simp only [Bool.or_eq_true, List.isEmpty_iff, Bool.not_eq_true', not_or, Bool.not_eq_false] at letters
      refine ⟨String.toList_ofList, ⟨fun empty => letters.1 (String.ofList_eq_empty_iff.mp empty), ?_⟩, number⟩
      rw [String.toList_ofList]
      exact List.all_eq_true.mp letters.2
  · rintro ⟨name, spelled, number⟩
    have letters : (factor.1.toList.isEmpty || !factor.1.toList.all Text.isLetter) = false := by
      simpa [spelled.named] using spelled.letters
    refine ⟨factor.2, number, ?_⟩
    rw [← name, letters, String.ofList_toList]
    rfl

theorem spelled_of_factors? {text : List Char} (read : factors? text = some factors) :
    ∀ factor ∈ factors, Spelled factor.1 := by
  unfold factors? at read
  generalize Text.splitAtEvery _ text = parts at read
  induction parts generalizing factors with
  | nil =>
    cases read
    simp
  | cons part parts hypothesis =>
    simp only [List.mapM_cons, Option.bind_eq_bind, Option.bind_eq_some_iff] at read
    obtain ⟨factor, here, others, later, is⟩ := read
    cases is
    exact List.forall_mem_cons.mpr ⟨((readFactor?_eq_some_iff rfl).mp here).2.1, hypothesis later⟩

theorem AllSpelled.readFactors? {sign : Int} {text : List Char} (all : left.AllSpelled)
    (read : Measure.readFactors? sign left text = some right) : right.AllSpelled := by
  rw [readFactors?_eq_map] at read
  obtain ⟨factors, each, rfl⟩ := Option.map_eq_some_iff.mp read
  exact all.adjustAll (spelled_of_factors? each) sign

theorem allSpelled_of_ofText? {text : String} (read : ofText? text = some measure) : measure.AllSpelled := by
  simp only [ofText?] at read
  split at read
  · cases read
    exact allSpelled_unitless
  · obtain ⟨above, numerator, read⟩ := Option.bind_eq_some_iff.mp read
    have all := allSpelled_unitless.readFactors? numerator
    split at read
    · cases read
      exact all
    · exact all.readFactors? read

/-- The measures that come about by reading, multiplying and dividing. -/
inductive Made : Measure → Prop where
  | read {text : String} {measure : Measure} (reads : ofText? text = some measure) : Made measure
  | product {left right : Measure} (leftMade : Made left) (rightMade : Made right) : Made (left.product right)
  | quotient {left right : Measure} (leftMade : Made left) (rightMade : Made right) : Made (left.quotient right)

theorem Made.allSpelled (made : measure.Made) : measure.AllSpelled := by
  induction made with
  | read reads => exact allSpelled_of_ofText? reads
  | product leftMade rightMade left right =>
    rw [product_eq_adjustAll]
    exact left.adjustAll right 1
  | quotient leftMade rightMade left right =>
    rw [quotient_eq_adjustAll]
    exact left.adjustAll right (-1)

/-! ### Factors -/

/-- A factor that can be read as it is written: a name of letters to a power above zero of 32 bits. -/
structure Writable (factor : String × Int) : Prop extends Spelled factor.1 where
  positive : 0 < factor.2
  small : factor.2 ≤ 2147483647

/-- A factor as it is written. -/
theorem toList_factorText (positive : 0 < factor.2) : (factorText factor).toList =
    factor.1.toList ++ if factor.2 = 1 then [] else '^' :: Nat.toDigits 10 factor.2.toNat := by
  have number : factor.2.repr.toList = Nat.toDigits 10 factor.2.toNat := by
    rw [Int.repr_eq_if, if_pos positive.le, Nat.repr_eq_ofList_toDigits, String.toList_ofList]
  unfold factorText
  split
  · simp
  · change (factor.1 ++ "^" ++ factor.2.repr).toList = _
    rw [String.toList_append, String.toList_append, number, List.append_assoc]
    rfl

theorem mem_factorText (writable : Writable factor) (among : c ∈ (factorText factor).toList) :
    Text.isLetter c = true ∨ c = '^' ∨ Text.isDigit c = true := by
  rw [toList_factorText writable.positive] at among
  rcases List.mem_append.mp among with letter | power
  · exact .inl (writable.letters c letter)
  · split at power
    · contradiction
    · rcases List.mem_cons.mp power with mark | digit
      · exact .inr (.inl mark)
      · exact .inr (.inr (Text.isDigit_of_mem_toDigits digit))

/-- An exponent reads as it was written. -/
theorem readInt32?_toDigits (writable : Writable factor) :
    Text.readInt32? (Text.trim (Nat.toDigits 10 factor.2.toNat)) = some factor.2 := by
  have areDigits : ∀ c ∈ Nat.toDigits 10 factor.2.toNat, Text.isDigit c = true := fun _ => Text.isDigit_of_mem_toDigits
  rw [Text.trim_solid fun c among => Text.isBlank_of_isDigit (areDigits c among)]
  refine Text.readInt32?_eq_some_iff.mpr ⟨⟨⟨.unsigned, _, areDigits, Nat.toDigits_ne_nil⟩, rfl, ?_⟩, ?_, writable.small⟩
  · rw [Text.Numeral.value, ← Text.digitsValue_eq_placeValue, Text.digitsValue_toDigits,
      Int.toNat_of_nonneg writable.positive.le]
    exact one_mul _
  · have := writable.positive
    omega

/-- A factor reads as it was written. -/
theorem readFactor?_factorText (writable : Writable factor) : readFactor? (factorText factor).toList = some factor := by
  have plain : ∀ c ∈ factor.1.toList, (c == '^') = false := fun c among =>
    Text.beq_eq_false_of_holds (writable.letters c among) (by decide +kernel)
  have name : factor.1.toList = Text.trim factor.1.toList :=
    (Text.trim_solid fun c among => Text.isBlank_of_isLetter (writable.letters c among)).symm
  rw [toList_factorText writable.positive]
  split
  · rename_i one
    rw [List.append_nil]
    exact (readFactor?_eq_some_iff (Text.cutAt_plain plain)).mpr
      ⟨name, writable.toSpelled, congrArg some one.symm⟩
  · exact (readFactor?_eq_some_iff (Text.cutAt_append plain (beq_self_eq_true '^') _)).mpr
      ⟨name, writable.toSpelled, readInt32?_toDigits writable⟩

/-- What is true of no letter, of no digit and not of the mark of powers is true of nothing in a written factor. -/
theorem factorText_lacks (writable : Writable factor) {condition : Char → Bool}
    (letters : ∀ c, Text.isLetter c = true → condition c = false)
    (digits : ∀ c, Text.isDigit c = true → condition c = false) (power : condition '^' = false) :
    ∀ c ∈ (factorText factor).toList, condition c = false := by
  intro c among
  rcases mem_factorText writable among with letter | rfl | digit
  · exact letters c letter
  · exact power
  · exact digits c digit

/-- Factors as they are written, with dots between them. -/
def write (factors : List (String × Int)) : List Char :=
  ['·'].intercalate (factors.map fun factor => (factorText factor).toList)

theorem write_lacks (writable : ∀ factor ∈ factors, Writable factor) {condition : Char → Bool}
    (letters : ∀ c, Text.isLetter c = true → condition c = false)
    (digits : ∀ c, Text.isDigit c = true → condition c = false) (power : condition '^' = false)
    (dot : condition '·' = false) : ∀ c ∈ write factors, condition c = false := by
  induction factors with
  | nil => simp [write]
  | cons factor factors hypothesis =>
    obtain ⟨here, others⟩ := List.forall_mem_cons.mp writable
    have lacks := factorText_lacks here letters digits power
    cases factors with
    | nil => simpa [write] using lacks
    | cons next factors =>
      have is : write (factor :: next :: factors) = (factorText factor).toList ++ '·' :: write (next :: factors) := by
        simp [write, List.intercalate_cons_cons]
      rw [is]
      exact List.forall_mem_append.mpr ⟨lacks, List.forall_mem_cons.mpr ⟨dot, hypothesis others⟩⟩

theorem solid_write (writable : ∀ factor ∈ factors, Writable factor) : ∀ c ∈ write factors, Text.isBlank c = false :=
  write_lacks writable (fun _ => Text.isBlank_of_isLetter) (fun _ => Text.isBlank_of_isDigit) (by decide) (by decide)

theorem noSlash_write (writable : ∀ factor ∈ factors, Writable factor) : ∀ c ∈ write factors, (c == '/') = false :=
  write_lacks writable (fun _ letter => Text.beq_eq_false_of_holds letter (by decide +kernel))
    (fun _ digit => Text.beq_eq_false_of_holds digit (by decide)) (by decide) (by decide)

theorem mapM_readFactor? (writable : ∀ factor ∈ factors, Writable factor) :
    (factors.map fun factor => (factorText factor).toList).mapM (fun part => readFactor? (Text.trim part)) =
      some factors := by
  induction factors with
  | nil => rfl
  | cons factor factors hypothesis =>
    obtain ⟨here, others⟩ := List.forall_mem_cons.mp writable
    have solid : ∀ c ∈ (factorText factor).toList, Text.isBlank c = false :=
      factorText_lacks here (fun _ => Text.isBlank_of_isLetter) (fun _ => Text.isBlank_of_isDigit) (by decide)
    rw [List.map_cons, List.mapM_cons, Text.trim_solid solid, readFactor?_factorText here, hypothesis others]
    rfl

/-- Factors read as they were written. -/
theorem factors?_write (writable : ∀ factor ∈ factors, Writable factor) (nonempty : factors ≠ []) :
    factors? (write factors) = some factors := by
  have parts : Text.splitAtEvery (fun c => c == '·' || c == '*') (write factors) =
      factors.map fun factor => (factorText factor).toList := by
    refine Text.splitAtEvery_intercalate (by decide) (by simpa using nonempty) ?_
    intro part among
    obtain ⟨factor, inside, rfl⟩ := List.mem_map.mp among
    refine factorText_lacks (writable factor inside) (fun c letter => ?_) (fun c digit => ?_) (by decide)
    · rw [Text.beq_eq_false_of_holds letter (by decide +kernel),
        Text.beq_eq_false_of_holds letter (by decide +kernel), Bool.or_self]
    · rw [Text.beq_eq_false_of_holds digit (by decide), Text.beq_eq_false_of_holds digit (by decide), Bool.or_self]
  rw [factors?, parts, mapM_readFactor? writable]

theorem readFactors?_write (sign : Int) (measure : Measure) (writable : ∀ factor ∈ factors, Writable factor)
    (nonempty : factors ≠ []) : readFactors? sign measure (write factors) = some (measure.adjustAll sign factors) := by
  rw [readFactors?_eq_map, factors?_write writable nonempty, Option.map_some]

theorem write_ne_nil (writable : ∀ factor ∈ factors, Writable factor) (nonempty : factors ≠ []) : write factors ≠ [] := by
  intro empty
  have read := factors?_write writable nonempty
  rw [empty] at read
  contradiction

/-! ### Measures -/

/-- The factors that stand above the slash. -/
def above (measure : Measure) : List (String × Int) :=
  measure.powers.filter fun power => 0 < power.2

/-- The factors that stand below the slash, with their exponents negated. -/
def below (measure : Measure) : List (String × Int) :=
  (measure.powers.filter fun power => power.2 < 0).map fun power => (power.1, -power.2)

theorem toList_toText (measure : Measure) : measure.toText.toList =
    (if measure.above = [] ∧ measure.below ≠ [] then ['1'] else write measure.above) ++
      if measure.below = [] then [] else '/' :: write measure.below := by
  have written (factors : List (String × Int)) :
      ("·".intercalate (factors.map factorText)).toList = write factors := by
    rw [String.toList_intercalate, List.map_map]
    rfl
  have only : (measure.above.isEmpty && !measure.below.isEmpty) = true ↔ measure.above = [] ∧ measure.below ≠ [] := by
    simp
  change (let numerator := if measure.above.isEmpty && !measure.below.isEmpty then "1"
      else "·".intercalate (measure.above.map factorText)
    if measure.below.isEmpty then numerator
    else numerator ++ "/" ++ "·".intercalate (measure.below.map factorText)).toList = _
  simp only [only, List.isEmpty_iff]
  split <;> split <;> simp only [String.toList_append, written, List.append_nil, List.append_assoc] <;> rfl

theorem total_above_sub_total_below (measure : Measure) (name : String) :
    total name measure.above - total name measure.below = measure.exponent name := by
  rw [exponent_eq_total, above, below]
  induction measure.powers with
  | nil => rfl
  | cons power powers hypothesis =>
    rw [total_cons, ← hypothesis]
    rcases lt_trichotomy power.2 0 with negative | zero | positive
    · rw [List.filter_cons_of_neg (by simpa using negative.le), List.filter_cons_of_pos (by simpa using negative),
        List.map_cons, total_cons]
      split <;> ring
    · rw [List.filter_cons_of_neg (by simp [zero]), List.filter_cons_of_neg (by simp [zero]), zero, ite_self, zero_add]
    · rw [List.filter_cons_of_pos (by simpa using positive), List.filter_cons_of_neg (by simpa using positive.le),
        total_cons]
      ring

/-- A measure is what stands above the slash divided by what stands below it. -/
theorem adjustAll_above_below (measure : Measure) :
    (unitless.adjustAll 1 measure.above).adjustAll (-1) measure.below = measure := by
  refine ext_exponent fun name => ?_
  rw [exponent_adjustAll, exponent_adjustAll, exponent_unitless, ← total_above_sub_total_below measure name]
  ring

theorem writable_above (all : measure.AllSpelled) (small : ∀ power ∈ measure.powers, power.2 ≤ 2147483647) :
    ∀ factor ∈ measure.above, Writable factor := by
  intro factor among
  obtain ⟨stored, positive⟩ := List.mem_filter.mp among
  exact ⟨all factor stored, of_decide_eq_true positive, small factor stored⟩

theorem writable_below (all : measure.AllSpelled) (small : ∀ power ∈ measure.powers, -2147483648 < power.2) :
    ∀ factor ∈ measure.below, Writable factor := by
  intro factor among
  obtain ⟨power, filtered, rfl⟩ := List.mem_map.mp among
  obtain ⟨stored, negative⟩ := List.mem_filter.mp filtered
  have above := small power stored
  have below := of_decide_eq_true negative
  exact ⟨all power stored, by omega, by omega⟩

/-- Only negative exponents, and at least one of them. -/
def IsInverse (measure : Measure) : Prop :=
  measure.powers ≠ [] ∧ ∀ power ∈ measure.powers, power.2 < 0

instance (measure : Measure) : Decidable measure.IsInverse :=
  inferInstanceAs (Decidable (_ ∧ _))

theorem above_eq_nil_iff : measure.above = [] ↔ ∀ power ∈ measure.powers, power.2 < 0 := by
  rw [above, List.filter_eq_nil_iff]
  refine forall₂_congr fun power among => ?_
  have := measure.nonzero power among
  rw [decide_eq_true_eq]
  omega

theorem below_eq_nil_iff : measure.below = [] ↔ ∀ power ∈ measure.powers, 0 < power.2 := by
  rw [below, List.map_eq_nil_iff, List.filter_eq_nil_iff]
  refine forall₂_congr fun power among => ?_
  have := measure.nonzero power among
  rw [decide_eq_true_eq]
  omega

theorem isInverse_iff : measure.IsInverse ↔ measure.above = [] ∧ measure.below ≠ [] := by
  rw [IsInverse, above_eq_nil_iff, ne_eq, ne_eq, below_eq_nil_iff, and_comm]
  refine and_congr_right fun negative => not_congr ?_
  cases powers : measure.powers with
  | nil => simp
  | cons power others =>
    have first := negative power (powers ▸ List.mem_cons_self)
    simp only [List.forall_mem_cons, reduceCtorEq, false_iff, not_and]
    omega

theorem ofText?_of_plain {text : String} (nonempty : text.toList ≠ [])
    (solid : ∀ c ∈ text.toList, Text.isBlank c = false) (plain : ∀ c ∈ text.toList, (c == '/') = false) :
    ofText? text = readFactors? 1 unitless text.toList := by
  unfold ofText?
  simp only [Text.trim_solid solid, List.isEmpty_iff, nonempty, if_false, Text.cutAt_plain plain]
  cases readFactors? 1 unitless text.toList <;> rfl

theorem ofText?_of_slash {text : String} {upper lower : List Char} (is : text.toList = upper ++ '/' :: lower)
    (solidUpper : ∀ c ∈ upper, Text.isBlank c = false) (solidLower : ∀ c ∈ lower, Text.isBlank c = false)
    (plain : ∀ c ∈ upper, (c == '/') = false) :
    ofText? text = (readFactors? 1 unitless upper).bind fun measure => readFactors? (-1) measure lower := by
  have solid : ∀ c ∈ upper ++ '/' :: lower, Text.isBlank c = false :=
    List.forall_mem_append.mpr ⟨solidUpper, List.forall_mem_cons.mpr ⟨by decide, solidLower⟩⟩
  unfold ofText?
  rw [is]
  simp only [Text.trim_solid solid, List.isEmpty_iff, List.append_ne_nil_of_right_ne_nil _ (List.cons_ne_nil _ _),
    if_false, Text.cutAt_append plain (beq_self_eq_true '/')]
  rfl

/-- Letters alone name one dimension. -/
theorem ofText?_letters {unit : String} (letters : ∀ c ∈ unit.toList, Text.isLetter c = true) :
    ofText? unit = some (dimension unit) := by
  by_cases empty : unit = ""
  · rw [empty]
    rfl
  · have writable : ∀ factor ∈ [(unit, (1 : Int))], Writable factor :=
      List.forall_mem_singleton.mpr ⟨⟨empty, letters⟩, by simp, by simp⟩
    have written : write [(unit, 1)] = unit.toList := by simp [write, factorText]
    have solid := solid_write writable
    have plain := noSlash_write writable
    have read := readFactors?_write 1 unitless writable (List.cons_ne_nil _ _)
    rw [written] at solid plain read
    rw [ofText?_of_plain (by simpa using empty) solid plain, read, dimension, if_neg empty]
    rfl

/-- What is made by reading, multiplying and dividing reads back from its text, unless its exponents are all negative:
it is written with a one above the slash then, and a one is no name. -/
theorem reads_back_unless_inverse (made : measure.Made)
    (fits : ∀ power ∈ measure.powers, -2147483648 < power.2 ∧ power.2 ≤ 2147483647) :
    ofText? measure.toText = if measure.IsInverse then none else some measure := by
  have writableAbove := writable_above made.allSpelled fun power among => (fits power among).2
  have writableBelow := writable_below made.allSpelled fun power among => (fits power among).1
  have whole := measure.adjustAll_above_below
  have text := measure.toList_toText
  by_cases noneAbove : measure.above = []
  · by_cases noneBelow : measure.below = []
    · rw [noneAbove, noneBelow] at whole
      rw [← whole]
      rfl
    · rw [if_pos ⟨noneAbove, noneBelow⟩, if_neg noneBelow] at text
      rw [if_pos (isInverse_iff.mpr ⟨noneAbove, noneBelow⟩),
        ofText?_of_slash text (List.forall_mem_singleton.mpr (by decide)) (solid_write writableBelow)
          (List.forall_mem_singleton.mpr (by decide))]
      rfl
  · rw [if_neg fun inverse => noneAbove inverse.1] at text
    rw [if_neg fun inverse => noneAbove (isInverse_iff.mp inverse).1]
    by_cases noneBelow : measure.below = []
    · rw [if_pos noneBelow, List.append_nil] at text
      rw [noneBelow] at whole
      rw [ofText?_of_plain (text ▸ write_ne_nil writableAbove noneAbove) (text ▸ solid_write writableAbove)
        (text ▸ noSlash_write writableAbove), text, readFactors?_write 1 unitless writableAbove noneAbove]
      exact congrArg some whole
    · rw [if_neg noneBelow] at text
      rw [ofText?_of_slash text (solid_write writableAbove) (solid_write writableBelow) (noSlash_write writableAbove),
        readFactors?_write 1 unitless writableAbove noneAbove, Option.bind_some,
        readFactors?_write (-1) _ writableBelow noneBelow, whole]

/-- A force, whose text is written with a slash, reads back. -/
theorem force_reads_back : ∃ force, ofText? "kg·m/s^2" = some force ∧ force.Made ∧
    (∀ power ∈ force.powers, -2147483648 < power.2 ∧ power.2 ≤ 2147483647) ∧
    force.toText = "kg·m/s^2" ∧ ofText? force.toText = some force := by
  have reads : ofText? "kg·m/s^2" = some (((dimension "kg").product (dimension "m")).adjust "s" (-2)) := by
    decide +kernel
  have fits : ∀ power ∈ (((dimension "kg").product (dimension "m")).adjust "s" (-2)).powers,
      -2147483648 < power.2 ∧ power.2 ≤ 2147483647 := by decide +kernel
  refine ⟨_, reads, .read reads, fits, by decide +kernel, ?_⟩
  exact (reads_back_unless_inverse (.read reads) fits).trans (if_neg (by decide +kernel))

/-- What is read from `m^-1` does not read back. -/
theorem inverse_does_not_read_back : ∃ inverse, ofText? "m^-1" = some inverse ∧
    (∀ power ∈ inverse.powers, -2147483648 < power.2 ∧ power.2 ≤ 2147483647) ∧
    inverse.toText = "1/m" ∧ ofText? inverse.toText = none :=
  ⟨unitless.quotient (dimension "m"), by decide +kernel⟩

end Measure

end Rivulet
