import Mathlib.Data.Fintype.EquivFin
import Mathlib.Data.List.Forall2
import Rivulet.Proofs.Value.Parts

/-!
Equality of values as an equivalence. Two values are equal if they are made alike of equal parts (`equal_iff_matches`).
Sets and mappings are compared by their lengths and in one direction only; the other direction follows since no two
items of a set and no two keys of a mapping are equal (`Distinct`): items that have different partners have all of them
if there are as many (`partner_of_length_eq`).

Main statements: `equal_trans`, `equal_symm`.
-/

namespace Rivulet

/-! ### Partners -/

section

variable {α : Type} {related : α → α → Prop} {items others : List α}
  (each : ∀ item ∈ items, ∃ other ∈ others, related item other)
  (apart : items.Pairwise fun first second => ∀ other ∈ others, related first other → ¬ related second other)

include each apart

/-- Items no two of which have a partner in common have different partners. -/
theorem exists_injective_partner : ∃ partner : Fin items.length → Fin others.length,
    Function.Injective partner ∧ ∀ place, related items[place] others[partner place] := by
  have some (place : Fin items.length) : ∃ place' : Fin others.length, related items[place] others[place'] := by
    obtain ⟨other, among, partner⟩ := each items[place] (List.getElem_mem place.isLt)
    obtain ⟨index, bound, rfl⟩ := List.getElem_of_mem among
    exact ⟨⟨index, bound⟩, partner⟩
  choose partner partners using some
  have differ (first second : Fin items.length) (before : first < second) : partner first ≠ partner second := by
    intro same
    have never := List.pairwise_iff_getElem.mp apart first second first.isLt second.isLt before
    have second' := partners second
    rw [← same] at second'
    exact never _ (List.getElem_mem (partner first).isLt) (partners first) second'
  refine ⟨partner, fun first second same => ?_, partners⟩
  rcases lt_trichotomy first second with before | same' | behind
  · exact absurd same (differ first second before)
  · exact same'
  · exact absurd same.symm (differ second first behind)

theorem length_le_of_partners : items.length ≤ others.length := by
  obtain ⟨partner, injective, -⟩ := exists_injective_partner each apart
  simpa using Fintype.card_le_of_injective partner injective

/-- If there are no more partners than items, each of them is a partner. -/
theorem partner_of_length_eq (same : items.length = others.length) :
    ∀ other ∈ others, ∃ item ∈ items, related item other := by
  obtain ⟨partner, injective, partners⟩ := exists_injective_partner each apart
  intro other among
  obtain ⟨index, bound, rfl⟩ := List.getElem_of_mem among
  have bijective : Function.Bijective partner := (Fintype.bijective_iff_injective_and_card partner).mpr
    ⟨injective, by rw [Fintype.card_fin, Fintype.card_fin, same]⟩
  obtain ⟨place, is⟩ := bijective.surjective ⟨index, bound⟩
  exact ⟨items[place], List.getElem_mem place.isLt, by simpa [is] using partners place⟩

end

/-- Relations item by item are turned item by item. -/
theorem forall₂_symm {α β : Type} {related : α → β → Prop} {turned : β → α → Prop} {items : List α} {items' : List β}
    (symm : ∀ item ∈ items, ∀ item', related item item' → turned item' item)
    (each : List.Forall₂ related items items') : List.Forall₂ turned items' items := by
  induction each with
  | nil => exact .nil
  | cons here _ hypothesis =>
    obtain ⟨one, others⟩ := List.forall_mem_cons.mp symm
    exact .cons (one _ here) (hypothesis others)

/-- Relations item by item are composed item by item. -/
theorem forall₂_trans {α β γ : Type} {first : α → β → Prop} {second : β → γ → Prop} {both : α → γ → Prop}
    {items : List α} {items' : List β} {items'' : List γ}
    (composed : ∀ item ∈ items, ∀ item' item'', first item item' → second item' item'' → both item item'')
    (related : List.Forall₂ first items items') (related' : List.Forall₂ second items' items'') :
    List.Forall₂ both items items'' := by
  induction related generalizing items'' with
  | nil =>
    cases related'
    exact .nil
  | cons here _ hypothesis =>
    cases related' with
    | cons here' later =>
      obtain ⟨one, others⟩ := List.forall_mem_cons.mp composed
      exact .cons (one _ _ here here') (hypothesis others later)

namespace Value

/-! ### Equal values -/

/-- Two values are made alike of related parts. -/
inductive Matches (related : Value → Value → Prop) : Value → Value → Prop where
  | none : Matches related none none
  | boolean (value : Bool) : Matches related (boolean value) (boolean value)
  | number (value : Quantity) : Matches related (number value) (number value)
  | text (value : String) : Matches related (text value) (text value)
  | exception (value : Exception) : Matches related (exception value) (exception value)
  | function {first second : Function} (callee : first.callee = second.callee)
      (context : first.context = second.context) : Matches related (function first) (function second)
  | sequence {items items' : List Value} (each : List.Forall₂ related items items') :
      Matches related (sequence ⟨items⟩) (sequence ⟨items'⟩)
  | record (definition : NodeId) {fields fields' : List (String × Value)}
      (each : List.Forall₂ (fun field field' => field.1 = field'.1 ∧ related field.2 field'.2) fields fields') :
      Matches related (record definition fields) (record definition fields')
  | set {items items' : List Value} (length : items.length = items'.length)
      (within : ∀ item ∈ items, ∃ item' ∈ items', related item item') : Matches related (set items) (set items')
  | mapping {entries entries' : List (Value × Value)} (length : entries.length = entries'.length)
      (within : ∀ entry ∈ entries, ∃ entry' ∈ entries', related entry.1 entry'.1 ∧ related entry.2 entry'.2) :
      Matches related (mapping entries) (mapping entries')

theorem equalAll_iff {items items' : List Value} :
    equalAll items items' = true ↔ List.Forall₂ (fun first second => equal first second = true) items items' := by
  induction items generalizing items' with
  | nil => cases items' <;> simp [equalAll]
  | cons item items hypothesis => cases items' <;> simp [equalAll, hypothesis]

theorem fieldsEqual_iff {fields fields' : List (String × Value)} : fieldsEqual fields fields' = true ↔
    List.Forall₂ (fun field field' => field.1 = field'.1 ∧ equal field.2 field'.2 = true) fields fields' := by
  induction fields generalizing fields' with
  | nil => cases fields' <;> simp [fieldsEqual]
  | cons field fields hypothesis => cases fields' <;> simp [fieldsEqual, hypothesis]

theorem allWithin_iff {items items' : List Value} :
    allWithin items items' = true ↔ ∀ item ∈ items, ∃ item' ∈ items', equal item item' = true := by
  induction items with
  | nil => simp [allWithin]
  | cons item items hypothesis => simp [allWithin, hypothesis]

theorem entriesWithin_iff {entries entries' : List (Value × Value)} : entriesWithin entries entries' = true ↔
    ∀ entry ∈ entries, ∃ entry' ∈ entries', equal entry.1 entry'.1 = true ∧ equal entry.2 entry'.2 = true := by
  induction entries with
  | nil => simp [entriesWithin]
  | cons entry entries hypothesis => simp [entriesWithin, hypothesis]

/-- Values are equal if they are made alike of equal parts. -/
theorem equal_iff_matches {first second : Value} :
    equal first second = true ↔ Matches (fun part part' => equal part part' = true) first second := by
  constructor
  · intro same
    cases first <;> cases second <;>
      simp only [equal, equalAll_iff, fieldsEqual_iff, allWithin_iff, entriesWithin_iff, Bool.and_eq_true, beq_iff_eq,
        Bool.false_eq_true] at same
    case none.none => exact .none
    case boolean.boolean => exact same ▸ .boolean _
    case number.number => exact same ▸ .number _
    case text.text => exact same ▸ .text _
    case exception.exception => exact same ▸ .exception _
    case function.function => exact .function same.1 same.2
    case sequence.sequence => exact .sequence same
    case record.record => exact same.1 ▸ .record _ same.2
    case set.set => exact .set same.1 same.2
    case mapping.mapping => exact .mapping same.1 same.2
  · intro alike
    cases alike <;> simp_all [equal, equalAll_iff, fieldsEqual_iff, allWithin_iff, entriesWithin_iff]

/-- Equality is transitive. -/
theorem equal_trans {first second third : Value} (same : equal first second = true)
    (same' : equal second third = true) : equal first third = true := by
  induction first using parts_induction generalizing second third with
  | step first hypothesis =>
    rw [equal_iff_matches] at same same' ⊢
    cases same with
    | none | boolean | number | text | exception => exact same'
    | function callee context =>
      cases same' with
      | function callee' context' => exact .function (callee.trans callee') (context.trans context')
    | sequence each =>
      cases same' with
      | sequence each' =>
        refine .sequence (forall₂_trans ?_ each each')
        exact fun item among _ _ here there => hypothesis item among here there
    | record definition each =>
      cases same' with
      | record _ each' =>
        refine .record definition (forall₂_trans ?_ each each')
        exact fun field among _ _ both both' =>
          ⟨both.1.trans both'.1, hypothesis field.2 (mem_parts_field among) both.2 both'.2⟩
    | set length within =>
      cases same' with
      | set length' within' =>
        refine .set (length.trans length') fun item among => ?_
        obtain ⟨item', among', here⟩ := within item among
        obtain ⟨item'', among'', there⟩ := within' item' among'
        exact ⟨item'', among'', hypothesis item among here there⟩
    | mapping length within =>
      cases same' with
      | mapping length' within' =>
        refine .mapping (length.trans length') fun entry among => ?_
        obtain ⟨entry', among', key, value⟩ := within entry among
        obtain ⟨entry'', among'', key', value'⟩ := within' entry' among'
        exact ⟨entry'', among'', hypothesis entry.1 (mem_parts_key among) key key',
          hypothesis entry.2 (mem_parts_value among) value value'⟩

/-! ### Distinct items -/

/-- No item of a set equals one before it, and no key of a mapping equals one before it. -/
def Distinct : Value → Prop
  | set items => items.Pairwise fun first second => equal second first = false
  | mapping entries => entries.Pairwise fun first second => equal second.1 first.1 = false
  | _ => True

/-- Items whose keys do not equal each other have no partners in common. -/
theorem apart_of_unequal {α : Type} {key : α → Value} {items : List α}
    (symm : ∀ item ∈ items, ∀ other, equal (key item) other = true → equal other (key item) = true)
    (unequal : items.Pairwise fun first second => equal (key second) (key first) = false) (others : List α) :
    items.Pairwise fun first second => ∀ other ∈ others, equal (key first) (key other) = true →
      ¬ equal (key second) (key other) = true := by
  refine List.Pairwise.imp_of_mem (fun {first second} among _ differ other _ same same' => ?_) unequal
  have joined := equal_trans same' (symm first among (key other) same)
  rw [differ] at joined
  contradiction

/-- Equality is symmetric where sets and mappings are distinct all the way down. -/
theorem equal_symm {first second : Value} (distinct : first.Every Distinct) (same : equal first second = true) :
    equal second first = true := by
  induction distinct generalizing second with
  | @intro first own _ hypothesis =>
    rw [equal_iff_matches] at same ⊢
    cases same with
    | none => exact .none
    | boolean value => exact .boolean value
    | number value => exact .number value
    | text value => exact .text value
    | exception value => exact .exception value
    | function callee context => exact .function callee.symm context.symm
    | sequence each =>
      refine .sequence (forall₂_symm ?_ each)
      exact fun item among _ here => hypothesis item among here
    | record definition each =>
      refine .record definition (forall₂_symm ?_ each)
      exact fun field among _ both => ⟨both.1.symm, hypothesis field.2 (mem_parts_field among) both.2⟩
    | @set items items' length within =>
      have apart := apart_of_unequal (fun item among _ => hypothesis item among) own items'
      refine .set length.symm fun item' among' => ?_
      obtain ⟨item, among, here⟩ := partner_of_length_eq within apart length item' among'
      exact ⟨item, among, hypothesis item among here⟩
    | @mapping entries entries' length within =>
      have apart := apart_of_unequal (fun entry among _ => hypothesis entry.1 (mem_parts_key among)) own entries'
      refine .mapping length.symm fun entry' among' => ?_
      obtain ⟨entry, among, key, value⟩ := partner_of_length_eq within
        (apart.imp fun differ other there both both' => differ other there both.1 both'.1) length entry' among'
      exact ⟨entry, among, hypothesis entry.1 (mem_parts_key among) key,
        hypothesis entry.2 (mem_parts_value among) value⟩

end Value

end Rivulet
