import Mathlib.Algebra.BigOperators.Group.List.Basic
import Mathlib.Data.List.Sort
import Mathlib.Data.String.Basic
import Mathlib.Tactic.Ring
import Rivulet.Measure

/-!
Measures by their exponents. Adjusting a measure changes one exponent (`exponent_adjust`), and measures with the same
exponents are the same (`ext_exponent`). Products, quotients and texts all multiply a measure by factors
(`product_eq_adjustAll`, `quotient_eq_adjustAll`, `readFactors?_eq_map`), which add up whatever their order
(`exponent_adjustAll`).
-/

namespace Rivulet

namespace Measure

/-! ### One exponent -/

variable {name other : String} {powers : List (String × Int)} {measure left right : Measure}

/-- The exponent that powers have for a name. -/
def exponentAmong (name : String) (powers : List (String × Int)) : Int :=
  (powers.lookup name).getD 0

theorem exponentAmong_cons (name : String) (power : String × Int) (powers : List (String × Int)) :
    exponentAmong name (power :: powers) = if name = power.1 then power.2 else exponentAmong name powers := by
  unfold exponentAmong
  rw [List.lookup_cons]
  split <;> simp_all

/-- A name in front of all others has no exponent. -/
theorem exponentAmong_eq_zero (first : ∀ power ∈ powers, name < power.1) : exponentAmong name powers = 0 := by
  induction powers with
  | nil => rfl
  | cons power powers hypothesis =>
    obtain ⟨here, others⟩ := List.forall_mem_cons.mp first
    rw [exponentAmong_cons, if_neg here.ne, hypothesis others]

theorem exponentAmong_adjustPowers (name : String) (exponent : Int) (other : String)
    (sorted : powers.Pairwise fun first second => first.1 < second.1) :
    exponentAmong other (adjustPowers name exponent powers) =
      exponentAmong other powers + if other = name then exponent else 0 := by
  induction powers with
  | nil =>
    unfold adjustPowers
    split
    · simp_all
    · rw [exponentAmong_cons]
      split <;> simp [exponentAmong]
  | cons power powers hypothesis =>
    obtain ⟨key, stored⟩ := power
    obtain ⟨below, sorted'⟩ := List.pairwise_cons.mp sorted
    unfold adjustPowers
    split
    · rename_i before
      have absent : exponentAmong name ((key, stored) :: powers) = 0 := by
        refine exponentAmong_eq_zero (List.forall_mem_cons.mpr ⟨before, fun power among => ?_⟩)
        exact before.trans (below power among)
      split
      · simp_all
      · rw [exponentAmong_cons]
        split <;> simp_all
    · split
      · rename_i same
        subst same
        have absent : exponentAmong name powers = 0 := exponentAmong_eq_zero below
        split
        · rw [exponentAmong_cons]
          split <;> simp_all
        · rw [exponentAmong_cons, exponentAmong_cons]
          split <;> simp_all
      · rename_i differ
        rw [exponentAmong_cons, exponentAmong_cons, hypothesis sorted']
        by_cases here : other = key
        · have apart : other ≠ name := fun same => differ (same.symm.trans here)
          simp [here, here ▸ apart]
        · rw [if_neg here, if_neg here]

/-- Adjusting a measure changes the exponent of one name. -/
theorem exponent_adjust (measure : Measure) (name : String) (exponent : Int) (other : String) :
    (measure.adjust name exponent).exponent other =
      measure.exponent other + if other = name then exponent else 0 :=
  exponentAmong_adjustPowers name exponent other measure.sorted

theorem exponent_unitless (name : String) : unitless.exponent name = 0 := rfl

/-! ### All exponents -/

theorem exponentAmong_of_mem {power : String × Int} (sorted : powers.Pairwise fun first second => first.1 < second.1)
    (among : power ∈ powers) : exponentAmong power.1 powers = power.2 := by
  induction powers with
  | nil => contradiction
  | cons first powers hypothesis =>
    obtain ⟨below, sorted⟩ := List.pairwise_cons.mp sorted
    rw [exponentAmong_cons]
    rcases List.mem_cons.mp among with rfl | later
    · exact if_pos rfl
    · rw [if_neg (below power later).ne', hypothesis sorted later]

theorem mem_of_exponentAmong (some : exponentAmong name powers ≠ 0) : (name, exponentAmong name powers) ∈ powers := by
  induction powers with
  | nil => exact absurd rfl some
  | cons power powers hypothesis =>
    rw [exponentAmong_cons] at some ⊢
    split at some
    · rename_i here
      rw [if_pos here, here]
      exact List.mem_cons_self
    · rename_i later
      rw [if_neg later]
      exact List.mem_cons_of_mem _ (hypothesis some)

/-- The powers of a measure are the exponents that are not zero. -/
theorem mem_powers_iff {power : String × Int} :
    power ∈ measure.powers ↔ measure.exponent power.1 = power.2 ∧ power.2 ≠ 0 := by
  constructor
  · exact fun among => ⟨exponentAmong_of_mem measure.sorted among, measure.nonzero power among⟩
  · rintro ⟨same, nonzero⟩
    have among : (power.1, measure.exponent power.1) ∈ measure.powers := mem_of_exponentAmong (ne_of_eq_of_ne same nonzero)
    rwa [same] at among

/-- The exponents tell the measure. -/
theorem ext_exponent (same : ∀ name, left.exponent name = right.exponent name) : left = right := by
  have antisymm : Std.Antisymm fun first second : String × Int => first.1 < second.1 :=
    ⟨fun _ _ before after => absurd before after.not_gt⟩
  have irrefl : Std.Irrefl fun first second : String × Int => first.1 < second.1 := ⟨fun _ => lt_irrefl _⟩
  refine Measure.ext (List.Pairwise.eq_of_mem_iff left.sorted right.sorted fun power => ?_)
  rw [mem_powers_iff, mem_powers_iff, same]

/-! ### Factors -/

/-- The sum of the exponents that a name has among factors. -/
def total (name : String) (factors : List (String × Int)) : Int :=
  (factors.map fun factor => if name = factor.1 then factor.2 else 0).sum

theorem total_cons (name : String) (factor : String × Int) (factors : List (String × Int)) :
    total name (factor :: factors) = (if name = factor.1 then factor.2 else 0) + total name factors := by
  rw [total, List.map_cons, List.sum_cons, total]

/-- A measure multiplied by factors, all raised to one power. -/
def adjustAll (sign : Int) (measure : Measure) (factors : List (String × Int)) : Measure :=
  factors.foldl (fun measure factor => measure.adjust factor.1 (factor.2 * sign)) measure

theorem product_eq_adjustAll (left right : Measure) : left.product right = left.adjustAll 1 right.powers := by
  simp only [product, adjustAll, mul_one]

theorem quotient_eq_adjustAll (left right : Measure) : left.quotient right = left.adjustAll (-1) right.powers := by
  simp only [quotient, adjustAll, mul_neg_one]

/-- The factors that a text has between its dots and stars. -/
def factors? (text : List Char) : Option (List (String × Int)) :=
  (Text.splitAtEvery (fun c => c == '·' || c == '*') text).mapM fun factor => readFactor? (Text.trim factor)

/-- To read factors one after the other into a measure is to multiply it by all of them. -/
theorem readFactors?_eq_map (sign : Int) (measure : Measure) (text : List Char) :
    readFactors? sign measure text = (factors? text).map (measure.adjustAll sign) := by
  unfold readFactors? factors?
  generalize Text.splitAtEvery _ text = parts
  induction parts generalizing measure with
  | nil => rfl
  | cons part parts hypothesis =>
    rw [List.foldlM_cons, List.mapM_cons]
    cases readFactor? (Text.trim part) with
    | none => rfl
    | some factor =>
      refine (hypothesis (measure.adjust factor.1 (factor.2 * sign))).trans ?_
      cases parts.mapM fun factor => readFactor? (Text.trim factor) with
      | none => rfl
      | some factors => rfl

/-- Factors add up, in whatever order they come and however often a name is repeated. -/
theorem exponent_adjustAll (sign : Int) (measure : Measure) (factors : List (String × Int)) (name : String) :
    (measure.adjustAll sign factors).exponent name = measure.exponent name + total name factors * sign := by
  induction factors generalizing measure with
  | nil => simp [adjustAll, total]
  | cons factor factors hypothesis =>
    rw [adjustAll, List.foldl_cons, ← adjustAll, hypothesis, exponent_adjust, total_cons]
    split <;> ring

theorem exponentAmong_eq_total (sorted : powers.Pairwise fun first second => first.1 < second.1) (name : String) :
    exponentAmong name powers = total name powers := by
  induction powers with
  | nil => rfl
  | cons power powers hypothesis =>
    obtain ⟨below, sorted⟩ := List.pairwise_cons.mp sorted
    rw [exponentAmong_cons, total_cons, ← hypothesis sorted]
    split
    · rename_i here
      rw [here, exponentAmong_eq_zero below, add_zero]
    · rw [zero_add]

/-- The powers of a measure are its factors. -/
theorem exponent_eq_total (measure : Measure) (name : String) : measure.exponent name = total name measure.powers :=
  exponentAmong_eq_total measure.sorted name

end Measure

end Rivulet
