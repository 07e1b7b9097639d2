import Rivulet.Proofs.Value.Conformance

/-!
Compatibility of types as consistency. A type leaves open whatever is unknown in it, and another type fills it by
putting some type into each of these places (`Ty.Fills`).

Main statement: two types are compatible if one type without unknown parts fills both (`Ty.accepts_iff_filled`).
-/

namespace Rivulet

namespace Ty

mutual

/-- The second type is the first one with some type in each place that the first leaves open. -/
inductive Fills : Ty → Ty → Prop where
  | any (type : Ty) : Fills any type
  | none : Fills none none
  | boolean : Fills boolean boolean
  | number (measure : Measure) : Fills (number measure) (number measure)
  | text : Fills text text
  | sequence {item item' : Ty} (filled : Fills item item') : Fills (sequence item) (sequence item')
  | set {item item' : Ty} (filled : Fills item item') : Fills (set item) (set item')
  | mapping {key key' value value' : Ty} (keyFilled : Fills key key') (valueFilled : Fills value value') :
      Fills (mapping key value) (mapping key' value')
  | function {inputs inputs' : List Ty} {output output' : Ty} (inputsFilled : FillsAll inputs inputs')
      (outputFilled : Fills output output') : Fills (function inputs output) (function inputs' output')
  | record (definition : NodeId) : Fills (record definition) (record definition)

/-- Each type of the second list fills its partner in the first. -/
inductive FillsAll : List Ty → List Ty → Prop where
  | nil : FillsAll [] []
  | cons {first first' : Ty} {rest rest' : List Ty} (filled : Fills first first') (others : FillsAll rest rest') :
      FillsAll (first :: rest) (first' :: rest')

end

/-! ### Filling types -/

mutual

/-- Whatever a type leaves open can be filled. -/
theorem exists_fills (type : Ty) : ∃ filled, filled.mentionsAny = false ∧ Fills type filled := by
  cases type with
  | any => exact ⟨none, rfl, .any none⟩
  | none => exact ⟨none, rfl, .none⟩
  | boolean => exact ⟨boolean, rfl, .boolean⟩
  | number measure => exact ⟨number measure, rfl, .number measure⟩
  | text => exact ⟨text, rfl, .text⟩
  | record definition => exact ⟨record definition, rfl, .record definition⟩
  | sequence item =>
    obtain ⟨item', known, filled⟩ := exists_fills item
    exact ⟨sequence item', known, .sequence filled⟩
  | set item =>
    obtain ⟨item', known, filled⟩ := exists_fills item
    exact ⟨set item', known, .set filled⟩
  | mapping key value =>
    obtain ⟨key', known, filled⟩ := exists_fills key
    obtain ⟨value', known', filled'⟩ := exists_fills value
    exact ⟨mapping key' value', by simp [mentionsAny, known, known'], .mapping filled filled'⟩
  | function inputs output =>
    obtain ⟨inputs', known, filled⟩ := exists_fillsAll inputs
    obtain ⟨output', known', filled'⟩ := exists_fills output
    exact ⟨function inputs' output', by simp [mentionsAny, known, known'], .function filled filled'⟩

theorem exists_fillsAll (types : List Ty) : ∃ filled, anyMentionsAny filled = false ∧ FillsAll types filled := by
  cases types with
  | nil => exact ⟨[], rfl, .nil⟩
  | cons first rest =>
    obtain ⟨first', known, filled⟩ := exists_fills first
    obtain ⟨rest', known', filled'⟩ := exists_fillsAll rest
    exact ⟨first' :: rest', by simp [anyMentionsAny, known, known'], .cons filled filled'⟩

end

mutual

/-- Types that are compatible can be filled to the same one. -/
theorem exists_common_fills (expected found : Ty) (accepted : expected.accepts found = true) :
    ∃ filled, filled.mentionsAny = false ∧ Fills expected filled ∧ Fills found filled := by
  by_cases unknown : found = any
  · obtain ⟨filled, known, fills⟩ := exists_fills expected
    exact ⟨filled, known, fills, unknown ▸ .any filled⟩
  · cases expected with
    | any =>
      obtain ⟨filled, known, fills⟩ := exists_fills found
      exact ⟨filled, known, .any filled, fills⟩
    | sequence item =>
      cases found with
      | sequence item' =>
        obtain ⟨filled, known, fills, fills'⟩ := exists_common_fills item item' accepted
        exact ⟨sequence filled, known, .sequence fills, .sequence fills'⟩
      | any => contradiction
      | _ => simp [accepts, same] at accepted
    | set item =>
      cases found with
      | set item' =>
        obtain ⟨filled, known, fills, fills'⟩ := exists_common_fills item item' accepted
        exact ⟨set filled, known, .set fills, .set fills'⟩
      | any => contradiction
      | _ => simp [accepts, same] at accepted
    | mapping key value =>
      cases found with
      | mapping key' value' =>
        obtain ⟨keys, values⟩ := Bool.and_eq_true_iff.mp accepted
        obtain ⟨filledKey, known, fills, fills'⟩ := exists_common_fills key key' keys
        obtain ⟨filledValue, known', also, also'⟩ := exists_common_fills value value' values
        exact ⟨mapping filledKey filledValue, by simp [mentionsAny, known, known'], .mapping fills also,
          .mapping fills' also'⟩
      | any => contradiction
      | _ => simp [accepts, same] at accepted
    | function inputs output =>
      cases found with
      | function inputs' output' =>
        obtain ⟨arguments, results⟩ := Bool.and_eq_true_iff.mp accepted
        obtain ⟨filledInputs, known, fills, fills'⟩ := exists_common_fillsAll inputs inputs' arguments
        obtain ⟨filledOutput, known', also, also'⟩ := exists_common_fills output output' results
        exact ⟨function filledInputs filledOutput, by simp [mentionsAny, known, known'], .function fills also,
          .function fills' also'⟩
      | any => contradiction
      | _ => simp [accepts, same] at accepted
    | none | boolean | number | text | record =>
      obtain ⟨filled, known, fills⟩ := exists_fills found
      cases found with
      | any => contradiction
      | _ => exact ⟨filled, known, ((same_iff _ _).mp accepted).symm ▸ fills, fills⟩

theorem exists_common_fillsAll (expected found : List Ty) (accepted : acceptsAll expected found = true) :
    ∃ filled, anyMentionsAny filled = false ∧ FillsAll expected filled ∧ FillsAll found filled := by
  cases expected with
  | nil =>
    cases found with
    | nil => exact ⟨[], rfl, .nil, .nil⟩
    | cons => contradiction
  | cons first rest =>
    cases found with
    | nil => contradiction
    | cons first' rest' =>
      obtain ⟨here, others⟩ := Bool.and_eq_true_iff.mp accepted
      obtain ⟨filled, known, fills, fills'⟩ := exists_common_fills first first' here
      obtain ⟨filledRest, known', also, also'⟩ := exists_common_fillsAll rest rest' others
      exact ⟨filled :: filledRest, by simp [anyMentionsAny, known, known'], .cons fills also, .cons fills' also'⟩

end

theorem accepts_any (expected : Ty) : expected.accepts any = true := by
  cases expected <;> rfl

mutual

/-- Types that can be filled to the same one are compatible. -/
theorem accepts_of_fills (expected found filled : Ty) (fills : Fills expected filled) (fills' : Fills found filled) :
    expected.accepts found = true := by
  by_cases unknown : found = any
  · rw [unknown]
    exact accepts_any expected
  · cases expected with
    | any => rfl
    | sequence item =>
      cases fills with
      | sequence fills =>
        cases fills' with
        | any => contradiction
        | sequence fills' => exact accepts_of_fills item _ _ fills fills'
    | set item =>
      cases fills with
      | set fills =>
        cases fills' with
        | any => contradiction
        | set fills' => exact accepts_of_fills item _ _ fills fills'
    | mapping key value =>
      cases fills with
      | mapping fills also =>
        cases fills' with
        | any => contradiction
        | mapping fills' also' =>
          exact Bool.and_eq_true_iff.mpr ⟨accepts_of_fills _ _ _ fills fills', accepts_of_fills _ _ _ also also'⟩
    | function inputs output =>
      cases fills with
      | function fills also =>
        cases fills' with
        | any => contradiction
        | function fills' also' =>
          exact Bool.and_eq_true_iff.mpr ⟨acceptsAll_of_fills _ _ _ fills fills', accepts_of_fills _ _ _ also also'⟩
    | none | boolean | number | text | record =>
      cases fills
      cases fills' with
      | any => contradiction
      | _ => exact (same_iff _ _).mpr rfl

theorem acceptsAll_of_fills (expected found filled : List Ty) (fills : FillsAll expected filled)
    (fills' : FillsAll found filled) : acceptsAll expected found = true := by
  cases expected with
  | nil =>
    cases fills
    cases fills'
    rfl
  | cons first rest =>
    cases fills with
    | cons fills also =>
      cases fills' with
      | cons fills' also' =>
        exact Bool.and_eq_true_iff.mpr ⟨accepts_of_fills _ _ _ fills fills', acceptsAll_of_fills _ _ _ also also'⟩

end

/-! ### Compatibility -/

variable {expected found : Ty}

/-- Types are compatible if they can be filled to the same type without unknown parts. -/
theorem accepts_iff_exists_fills :
    expected.accepts found = true ↔ ∃ filled, filled.mentionsAny = false ∧ Fills expected filled ∧ Fills found filled :=
  ⟨exists_common_fills expected found, fun ⟨filled, _, fills, fills'⟩ =>
    accepts_of_fills expected found filled fills fills'⟩

theorem accepts_refl (type : Ty) : type.accepts type = true := by
  obtain ⟨filled, -, fills⟩ := exists_fills type
  exact accepts_of_fills type type filled fills fills

theorem accepts_comm (expected found : Ty) : expected.accepts found = found.accepts expected := by
  rw [Bool.eq_iff_iff, accepts_iff_exists_fills, accepts_iff_exists_fills]
  exact exists_congr fun filled => and_congr_right fun _ => and_comm

/-- The inputs of functions can be compared in either direction. -/
theorem acceptsAll_eq (inputs inputs' : List Ty) : acceptsAll inputs inputs' =
    (inputs.length == inputs'.length && (inputs.zip inputs').all fun pair => pair.2.accepts pair.1) := by
  induction inputs generalizing inputs' with
  | nil => cases inputs' <;> rfl
  | cons first rest hypothesis =>
    cases inputs' with
    | nil => rfl
    | cons first' rest' =>
      have lengths : ((first :: rest).length == (first' :: rest').length) = (rest.length == rest'.length) := by simp
      rw [acceptsAll, hypothesis, List.zip_cons_cons, List.all_cons, accepts_comm first first', lengths]
      exact Bool.and_left_comm ..

/-- Types are compatible if some type without unknown parts comes from both by putting types in the places that they
leave open. So compatibility is reflexive and symmetric, functions may compare their inputs in the other direction than
their outputs, and types that leave nothing open are compatible with themselves alone. -/
theorem accepts_iff_filled :
    (∀ expected found : Ty, expected.accepts found = true ↔
      ∃ filled : Ty, filled.mentionsAny = false ∧ Fills expected filled ∧ Fills found filled) ∧
    (∀ type : Ty, type.accepts type = true) ∧
    (∀ expected found : Ty, expected.accepts found = found.accepts expected) ∧
    (∀ (inputs inputs' : List Ty) (output output' : Ty),
      (function inputs output).accepts (function inputs' output') =
        ((inputs.length == inputs'.length && (inputs.zip inputs').all fun pair => pair.2.accepts pair.1) &&
          output.accepts output')) ∧
    ∀ expected found : Ty, expected.mentionsAny = false → found.mentionsAny = false →
      (expected.accepts found = true ↔ expected = found) := by
  refine ⟨fun expected found => accepts_iff_exists_fills, accepts_refl, accepts_comm,
    fun inputs inputs' output output' => ?_,
    fun expected found known known' => ⟨fun accepted => eq_of_accepts expected found accepted known known', ?_⟩⟩
  · rw [accepts, acceptsAll_eq]
  · rintro rfl
    exact accepts_refl expected

/-- A function whose input is unknown is compatible with one that takes texts, but functions of texts only with
themselves. -/
theorem accepts_functions_of_texts :
    (function [any] boolean).accepts (function [text] boolean) = true ∧
      (function [text] boolean).mentionsAny = false ∧ (function [boolean] boolean).mentionsAny = false ∧
      ((function [text] boolean).accepts (function [boolean] boolean) = true ↔
        function [text] boolean = function [boolean] boolean) :=
  ⟨(accepts_iff_filled.1 _ _).mpr ⟨function [text] boolean, rfl, .function (.cons (.any text) .nil) .boolean,
    .function (.cons .text .nil) .boolean⟩, rfl, rfl, accepts_iff_filled.2.2.2.2 _ _ rfl rfl⟩

end Ty

end Rivulet
