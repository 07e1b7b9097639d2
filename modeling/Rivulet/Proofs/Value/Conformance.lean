import Rivulet.Proofs.Value.Parts

/-!
Values of a type. A value conforms to a type if it is of the kind that the type tells, down to its elements
(`Value.Conforms`). Each operator takes operands of some types to results of others (`BinaryOp.Takes`,
`UnaryOp.Takes`), and does so when it runs: on conforming operands it yields a conforming result, or it divides
by zero (`yields_binary`, `yields_unary`).
-/

namespace Rivulet

/-! ### Types without unknown parts -/

namespace Ty

mutual

/-- Whether a type leaves something open. -/
def mentionsAny : Ty → Bool
  | any => true
  | sequence item | set item => mentionsAny item
  | mapping key value => mentionsAny key || mentionsAny value
  | function inputs output => anyMentionsAny inputs || mentionsAny output
  | none | boolean | number _ | text | record _ => false
termination_by structural type => type

/-- Whether one of some types leaves something open. -/
def anyMentionsAny : List Ty → Bool
  | [] => false
  | first :: rest => mentionsAny first || anyMentionsAny rest
termination_by structural types => types

end

theorem isAny_eq_false {type : Ty} (known : type.mentionsAny = false) : type.isAny = false := by
  cases type <;> simp_all [mentionsAny, isAny]

mutual

/-- A type without unknown parts accepts no other such type. -/
theorem eq_of_accepts (expected found : Ty) (accepted : expected.accepts found = true)
    (known : expected.mentionsAny = false) (known' : found.mentionsAny = false) : expected = found := by
  cases expected <;> cases found <;>
    simp only [accepts, same, mentionsAny, Bool.and_eq_true, Bool.or_eq_false_iff, beq_iff_eq,
      Bool.false_eq_true, Bool.true_eq_false] at accepted known known'
  case none.none | boolean.boolean | text.text => rfl
  case number.number | record.record => rw [accepted]
  case sequence.sequence => rw [eq_of_accepts _ _ accepted known known']
  case set.set => rw [eq_of_accepts _ _ accepted known known']
  case mapping.mapping =>
    rw [eq_of_accepts _ _ accepted.1 known.1 known'.1, eq_of_accepts _ _ accepted.2 known.2 known'.2]
  case function.function =>
    rw [eq_of_acceptsAll _ _ accepted.1 known.1 known'.1, eq_of_accepts _ _ accepted.2 known.2 known'.2]

theorem eq_of_acceptsAll (expected found : List Ty) (accepted : acceptsAll expected found = true)
    (known : anyMentionsAny expected = false) (known' : anyMentionsAny found = false) : expected = found := by
  cases expected <;> cases found <;>
    simp only [acceptsAll, anyMentionsAny, Bool.and_eq_true, Bool.or_eq_false_iff, Bool.false_eq_true]
      at accepted known known'
  case nil.nil => rfl
  case cons.cons =>
    rw [eq_of_accepts _ _ accepted.1 known.1 known'.1, eq_of_acceptsAll _ _ accepted.2 known.2 known'.2]

end

/-- Types that have one in common are all the same, unless some are unknown. -/
theorem eq_common {types : List Ty} (known : (common types).isAny = false)
    (each : ∀ type ∈ types, type.isAny = false) : ∀ type ∈ types, type = common types := by
  have covers (found : Ty) (rest : List Ty) (known : (common.go found rest).isAny = false)
      (here : found.isAny = false) (each : ∀ type ∈ rest, type.isAny = false) :
      common.go found rest = found ∧ ∀ type ∈ rest, type = found := by
    induction rest with
    | nil => simp [common.go]
    | cons next rest hypothesis =>
      have there := each next (by simp)
      simp only [common.go, here, there, Bool.false_or, Bool.false_eq_true, if_false] at known ⊢
      split at known
      · rename_i same
        obtain rfl : next = found := by simpa using same
        obtain ⟨is, all⟩ := hypothesis known fun type later => each type (by simp [later])
        simp only [same, if_true, List.mem_cons, forall_eq_or_imp]
        exact ⟨is, trivial, all⟩
      · simp [isAny] at known
  cases types with
  | nil => simp
  | cons first rest =>
    obtain ⟨is, all⟩ := covers first rest known (each first (by simp)) fun type later => each type (by simp [later])
    have whole : common (first :: rest) = first := is
    rw [whole]
    simpa using all

end Ty

/-- A literal has the measure that is written behind it. -/
theorem Quantity.measure_of_ofText? {literal : String} {measure : Measure} {number : Quantity}
    (read : ofText? literal measure = some number) : number.measure = measure := by
  obtain ⟨digits, scale, rfl⟩ := eq_scaled_of_ofText? read
  exact measure_scaled digits scale measure

/-! ### Conformance -/

namespace Value

/-- A value is one of a type. Of a function nothing is asked but to be one; everything conforms to the unknown
type. -/
inductive Conforms : Ty → Value → Prop where
  | any (value : Value) : Conforms .any value
  | none : Conforms .none .none
  | boolean (value : Bool) : Conforms .boolean (.boolean value)
  | number {measure : Measure} (value : Quantity) (measured : value.measure = measure) :
    Conforms (.number measure) (.number value)
  | text (value : String) : Conforms .text (.text value)
  | sequence {type : Ty} {items : Array Value} (each : ∀ item ∈ items.toList, Conforms type item) :
    Conforms (.sequence type) (.sequence items)
  | set {type : Ty} {items : List Value} (each : ∀ item ∈ items, Conforms type item) :
    Conforms (.set type) (.set items)
  | mapping {key value : Ty} {entries : List (Value × Value)} (keys : ∀ entry ∈ entries, Conforms key entry.1)
    (values : ∀ entry ∈ entries, Conforms value entry.2) : Conforms (.mapping key value) (.mapping entries)
  | function {inputs : List Ty} {output : Ty} (value : Function) :
    Conforms (.function inputs output) (.function value)
  | record {definition : NodeId} (fields : List (String × Value)) :
    Conforms (.record definition) (.record definition fields)

theorem conforms_setOf {type : Ty} {items : List Value} (each : ∀ item ∈ items, Conforms type item) :
    Conforms (.set type) (setOf items) :=
  .set (forall_insertItems (by simp) each)

theorem conforms_mappingOf {key value : Ty} {entries : List (Value × Value)}
    (each : ∀ entry ∈ entries, Conforms key entry.1 ∧ Conforms value entry.2) :
    Conforms (.mapping key value) (mappingOf entries) :=
  .mapping (fun entry among => (forall_insertEntries (by simp) each entry among).1)
    fun entry among => (forall_insertEntries (by simp) each entry among).2

end Value

/-! ### Operators -/

/-- The types that an operator takes, and the type of what it makes of them. -/
inductive BinaryOp.Takes : BinaryOp → Ty → Ty → Ty → Prop where
  | arithmetic {op : BinaryOp} (is : op = .add ∨ op = .subtract ∨ op = .remainder) (measure : Measure) :
    Takes op (.number measure) (.number measure) (.number measure)
  | product (left right : Measure) : Takes .multiply (.number left) (.number right) (.number (left.product right))
  | quotient (left right : Measure) : Takes .divide (.number left) (.number right) (.number (left.quotient right))
  | order {op : BinaryOp} (is : op.isComparison = true) (measure : Measure) :
    Takes op (.number measure) (.number measure) .boolean
  | orderTexts {op : BinaryOp} (is : op.isComparison = true) : Takes op .text .text .boolean
  | joinTexts : Takes .add .text .text .text
  | join (type : Ty) : Takes .add (.sequence type) (.sequence type) (.sequence type)
  | equality {op : BinaryOp} (is : op = .equal ∨ op = .notEqual) (left right : Ty) : Takes op left right .boolean
  | logic {op : BinaryOp} (is : op.isLogical = true) : Takes op .boolean .boolean .boolean

/-- A logical operator takes booleans to a boolean. -/
theorem BinaryOp.booleans_of_isLogical {op : BinaryOp} {left right type : Ty} (takes : op.Takes left right type)
    (logical : op.isLogical = true) : left = .boolean ∧ right = .boolean ∧ type = .boolean := by
  cases takes with
  | logic => exact ⟨rfl, rfl, rfl⟩
  | arithmetic is => rcases is with rfl | rfl | rfl <;> simp [isLogical] at logical
  | equality is => rcases is with rfl | rfl <;> simp [isLogical] at logical
  | order is | orderTexts is => cases op <;> simp [isLogical, isComparison] at logical is
  | product | quotient | joinTexts | join => simp [isLogical] at logical

/-- The type that an operator takes, and the type of what it makes of it. -/
inductive UnaryOp.Takes : UnaryOp → Ty → Ty → Prop where
  | negate (measure : Measure) : Takes .negate (.number measure) (.number measure)
  | not : Takes .not .boolean .boolean

namespace Operators

open Value

/-- An operation yields a value of a type, or it fails because it divides by zero. -/
def Yields (type : Ty) (result : Except Failure Value) : Prop :=
  (∃ value, result = .ok value ∧ value.Conforms type) ∨ result = .error .divisionByZero

theorem yields_ok {type : Ty} {value : Value} (conforms : value.Conforms type) : Yields type (.ok value) :=
  .inl ⟨value, rfl, conforms⟩

section

variable {left right : Quantity}

/-- Numbers of one measure can be added, subtracted and divided with a remainder. -/
theorem yields_arithmetic {op : BinaryOp} (is : op = .add ∨ op = .subtract ∨ op = .remainder)
    (same : left.measure = right.measure) : Yields (.number left.measure) (onNumbers op left right) := by
  rcases is with rfl | rfl | rfl
  · simp only [onNumbers, Quantity.add, same, ne_eq, not_true_eq_false, if_false, numeric]
    exact yields_ok (.number _ (Quantity.measure_ofParts _ _ _))
  · simp only [onNumbers, Quantity.subtract, Quantity.add, Quantity.negate, same, ne_eq, not_true_eq_false, if_false,
      numeric]
    exact yields_ok (.number _ (Quantity.measure_ofParts _ _ _))
  · simp only [onNumbers, Quantity.remainder, same, ne_eq, not_true_eq_false, if_false]
    cases right.isZero with
    | true => exact .inr rfl
    | false => exact yields_ok (.number _ (Quantity.measure_ofParts _ _ _))

/-- All numbers can be divided, but not by zero. -/
theorem yields_divide (left right : Quantity) :
    Yields (.number (left.measure.quotient right.measure)) (onNumbers .divide left right) := by
  simp only [onNumbers, Quantity.divide]
  cases right.isZero with
  | true => exact .inr rfl
  | false => exact yields_ok (.number _ (Quantity.measure_ofParts _ _ _))

/-- Numbers of one measure can be compared. -/
theorem yields_order {op : BinaryOp} (is : op.isComparison = true) (same : left.measure = right.measure) :
    Yields .boolean (onNumbers op left right) := by
  cases op with
  | less | lessEqual | greater | greaterEqual =>
    simp only [onNumbers, Quantity.compare, same, ne_eq, not_true_eq_false, if_false]
    exact yields_ok (.boolean _)
  | _ => simp [BinaryOp.isComparison] at is

end

theorem binary_number_of_isComparison {op : BinaryOp} (is : op.isComparison = true) (left right : Quantity) :
    (binary op (.number left) (.number right) : Except Failure Value) = onNumbers op left right := by
  cases op with
  | less | lessEqual | greater | greaterEqual => rfl
  | _ => simp [BinaryOp.isComparison] at is

/-- On operands that an operator takes it yields what it is said to yield, or it divides by zero. -/
theorem yields_binary {op : BinaryOp} {leftType rightType type : Ty} (takes : op.Takes leftType rightType type)
    {left right : Value} (leftConforms : left.Conforms leftType) (rightConforms : right.Conforms rightType) :
    Yields type (binary op left right) := by
  cases takes with
  | arithmetic is measure =>
    obtain - | - | - | ⟨first, rfl⟩ := leftConforms
    obtain - | - | - | ⟨second, same⟩ := rightConforms
    have here := yields_arithmetic is same.symm
    rcases is with rfl | rfl | rfl <;> exact here
  | product =>
    obtain - | - | - | ⟨first, rfl⟩ := leftConforms
    obtain - | - | - | ⟨second, rfl⟩ := rightConforms
    exact yields_ok (.number _ (Quantity.measure_ofParts _ _ _))
  | quotient =>
    obtain - | - | - | ⟨first, rfl⟩ := leftConforms
    obtain - | - | - | ⟨second, rfl⟩ := rightConforms
    exact yields_divide first second
  | order is measure =>
    obtain - | - | - | ⟨first, rfl⟩ := leftConforms
    obtain - | - | - | ⟨second, same⟩ := rightConforms
    rw [binary_number_of_isComparison is]
    exact yields_order is same.symm
  | orderTexts is =>
    cases leftConforms
    cases rightConforms
    cases op with
    | less | lessEqual | greater | greaterEqual => exact yields_ok (.boolean _)
    | _ => simp [BinaryOp.isComparison] at is
  | joinTexts =>
    cases leftConforms
    cases rightConforms
    exact yields_ok (.text _)
  | join type =>
    obtain - | - | - | - | - | first := leftConforms
    obtain - | - | - | - | - | second := rightConforms
    refine yields_ok (.sequence fun item among => ?_)
    rw [Array.toList_append, List.mem_append] at among
    exact among.elim (first item) (second item)
  | equality is =>
    rcases is with rfl | rfl <;> exact yields_ok (.boolean _)
  | logic is =>
    cases leftConforms
    cases rightConforms
    cases op with
    | and | or => exact yields_ok (.boolean _)
    | _ => simp [BinaryOp.isLogical] at is

theorem yields_unary {op : UnaryOp} {operandType type : Ty} (takes : op.Takes operandType type) {operand : Value}
    (conforms : operand.Conforms operandType) : Yields type (unary op operand) := by
  cases takes with
  | negate measure =>
    obtain - | - | - | ⟨number, measured⟩ := conforms
    exact yields_ok (.number _ measured)
  | not =>
    cases conforms
    exact yields_ok (.boolean _)

end Operators

end Rivulet
