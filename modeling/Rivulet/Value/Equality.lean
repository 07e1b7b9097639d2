import Rivulet.Value

/-!
Equality of values. It is structural: sequences compare item by item, while sets and mappings
compare by membership and ignore the order in which they were filled. Two functions are equal when
they run the same definition and captured the very same scope.

Values share their parts freely, so a small value may unfold into an enormous one. A comparison
therefore answers at once whenever both sides are one object in memory (`shortcut`), at every level,
which is sound because every value equals itself; and it compares lengths before items.

Main statements: a value equals itself (`equal_refl`), and `==` is `equal` (`beq_eq_equal`).
-/

namespace Rivulet.Value

variable {N : Type} [DecidableEq N]

mutual

/-- Whether two values are equal. -/
def equal : Value N → Value N → Bool
  | none, none => true
  | boolean first, boolean second => first == second
  | number first, number second => first == second
  | text first, text second => first == second
  | sequence ⟨items⟩, sequence ⟨items'⟩ => equalAll items items'
  | set items, set items' => items.length == items'.length && allWithin items items'
  | mapping entries, mapping entries' =>
    entries.length == entries'.length && entriesWithin entries entries'
  | function first, function second =>
    first.callee == second.callee && first.context == second.context
  | record definition fields, record definition' fields' =>
    definition == definition' && fieldsEqual fields fields'
  | exception first, exception second => first == second
  | _, _ => false
termination_by structural value => value

/-- Whether two lists hold equal values in the same order. -/
def equalAll : List (Value N) → List (Value N) → Bool
  | [], [] => true
  | first :: rest, second :: rest' => equal first second && equalAll rest rest'
  | _, _ => false
termination_by structural value => value

/-- Whether every value of a list has an equal one in another list. -/
def allWithin : List (Value N) → List (Value N) → Bool
  | [], _ => true
  | first :: rest, others => others.any (equal first) && allWithin rest others
termination_by structural value => value

/-- Whether every entry of a list has one with an equal key and an equal value in another list. -/
def entriesWithin : List (Value N × Value N) → List (Value N × Value N) → Bool
  | [], _ => true
  | (key, value) :: rest, others =>
    others.any (fun other => equal key other.1 && equal value other.2) && entriesWithin rest others
termination_by structural value => value

/-- Whether two lists hold the same field names with equal values in the same order. -/
def fieldsEqual : List (N × Value N) → List (N × Value N) → Bool
  | [], [] => true
  | (name, value) :: rest, (name', value') :: rest' =>
    name == name' && equal value value' && fieldsEqual rest rest'
  | _, _ => false
termination_by structural value => value

end

/-! ### A value equals itself -/

mutual

theorem equal_refl : (value : Value N) → equal value value = true
  | none | boolean _ | number _ | text _ | function _ | exception _ => by simp [equal]
  | sequence ⟨items⟩ => by simp [equal, equalAll_refl items]
  | set items => by simp [equal, allWithin_of_subset items items fun _ => id]
  | mapping entries => by simp [equal, entriesWithin_of_subset entries entries fun _ => id]
  | record _ fields => by simp [equal, fieldsEqual_refl fields]

theorem equalAll_refl : (items : List (Value N)) → equalAll items items = true
  | [] => by simp [equalAll]
  | first :: rest => by simp [equalAll, equal_refl first, equalAll_refl rest]

theorem allWithin_of_subset : (items others : List (Value N)) → (∀ item ∈ items, item ∈ others) →
    allWithin items others = true
  | [], _, _ => by simp [allWithin]
  | first :: rest, others, within => by
    simp only [allWithin, Bool.and_eq_true, List.any_eq_true]
    exact ⟨⟨first, within first (by simp), equal_refl first⟩,
      allWithin_of_subset rest others fun item found => within item (by simp [found])⟩

theorem entriesWithin_of_subset : (entries others : List (Value N × Value N)) →
    (∀ entry ∈ entries, entry ∈ others) → entriesWithin entries others = true
  | [], _, _ => by simp [entriesWithin]
  | (key, value) :: rest, others, within => by
    simp only [entriesWithin, Bool.and_eq_true, List.any_eq_true]
    exact ⟨⟨(key, value), within _ (by simp), equal_refl key, equal_refl value⟩,
      entriesWithin_of_subset rest others fun entry found => within entry (by simp [found])⟩

theorem fieldsEqual_refl : (fields : List (N × Value N)) → fieldsEqual fields fields = true
  | [] => by simp [fieldsEqual]
  | (name, value) :: rest => by simp [fieldsEqual, equal_refl value, fieldsEqual_refl rest]

end

/-! ### Lists of different lengths -/

theorem length_of_equalAll : (items others : List (Value N)) → equalAll items others = true →
    items.length = others.length
  | [], [], _ => rfl
  | _ :: rest, _ :: rest', same => by
    simp only [equalAll, Bool.and_eq_true] at same
    simp [length_of_equalAll rest rest' same.2]
  | [], _ :: _, same | _ :: _, [], same => by simp [equalAll] at same

theorem length_of_fieldsEqual : (fields others : List (N × Value N)) →
    fieldsEqual fields others = true → fields.length = others.length
  | [], [], _ => rfl
  | (_, _) :: rest, (_, _) :: rest', same => by
    simp only [fieldsEqual, Bool.and_eq_true] at same
    simp [length_of_fieldsEqual rest rest' same.2]
  | [], _ :: _, same | _ :: _, [], same => by simp [fieldsEqual] at same

theorem length_and_equalAll (items others : List (Value N)) :
    (items.length == others.length && equalAll items others) = equalAll items others := by
  have implied := length_of_equalAll items others
  cases same : equalAll items others <;> simp_all

theorem length_and_fieldsEqual (fields others : List (N × Value N)) :
    (fields.length == others.length && fieldsEqual fields others) = fieldsEqual fields others := by
  have implied := length_of_fieldsEqual fields others
  cases same : fieldsEqual fields others <;> simp_all

/-! ### Comparing shared values -/

/-- Decides a question about two objects that is true of one and the same object, without looking
into them if they are one in memory. -/
@[inline]
def shortcut {α : Type} {answer : Bool} (first second : α)
    (decide : Unit → { result : Bool // result = answer }) (same : first = second → answer = true) :
    { result : Bool // result = answer } :=
  ⟨withPtrEq first second (fun _ => (decide ()).val) fun h => (decide ()).property.trans (same h),
    (decide ()).property⟩

mutual

/-- Decides whether two values are equal. -/
def decideEqual (first second : Value N) : { result : Bool // result = equal first second } :=
  shortcut first second
    (fun _ =>
      match first, second with
      | sequence ⟨items⟩, sequence ⟨items'⟩ =>
        ⟨items.length == items'.length && (decideAll items items').val, by
          rw [(decideAll items items').property, length_and_equalAll, equal]⟩
      | set items, set items' =>
        ⟨items.length == items'.length && (decideWithin items items').val, by
          rw [(decideWithin items items').property, equal]⟩
      | mapping entries, mapping entries' =>
        ⟨entries.length == entries'.length && (decideEntries entries entries').val, by
          rw [(decideEntries entries entries').property, equal]⟩
      | record definition fields, record definition' fields' =>
        ⟨definition == definition' &&
            (fields.length == fields'.length && (decideFields fields fields').val), by
          rw [(decideFields fields fields').property, length_and_fieldsEqual, equal]⟩
      | first, second => ⟨equal first second, rfl⟩)
    fun same => same ▸ equal_refl first
termination_by structural first

/-- Decides whether two lists hold equal values in the same order. -/
def decideAll : (items others : List (Value N)) → { result : Bool // result = equalAll items others }
  | first :: rest, second :: rest' =>
    ⟨(decideEqual first second).val && (decideAll rest rest').val, by
      rw [(decideEqual first second).property, (decideAll rest rest').property, equalAll]⟩
  | items, others => ⟨equalAll items others, rfl⟩
termination_by structural items => items

/-- Decides whether every value of a list has an equal one in another list. -/
def decideWithin :
    (items others : List (Value N)) → { result : Bool // result = allWithin items others }
  | [], _ => ⟨true, rfl⟩
  | first :: rest, others =>
    ⟨others.any (fun other => (decideEqual first other).val) && (decideWithin rest others).val, by
      simp only [fun other => (decideEqual first other).property,
        (decideWithin rest others).property, allWithin]⟩
termination_by structural items => items

/-- Decides whether every entry of a list has an equal one in another list. -/
def decideEntries : (entries others : List (Value N × Value N)) →
    { result : Bool // result = entriesWithin entries others }
  | [], _ => ⟨true, rfl⟩
  | (key, value) :: rest, others =>
    ⟨others.any (fun other =>
        (decideEqual key other.1).val && (decideEqual value other.2).val) &&
        (decideEntries rest others).val, by
      simp only [fun other => (decideEqual key other).property,
        fun other => (decideEqual value other).property, (decideEntries rest others).property,
        entriesWithin]⟩
termination_by structural entries => entries

/-- Decides whether two lists hold the same field names with equal values in the same order. -/
def decideFields : (fields others : List (N × Value N)) →
    { result : Bool // result = fieldsEqual fields others }
  | (name, value) :: rest, (name', value') :: rest' =>
    ⟨name == name' && (decideEqual value value').val && (decideFields rest rest').val, by
      rw [(decideEqual value value').property, (decideFields rest rest').property, fieldsEqual]⟩
  | fields, others => ⟨fieldsEqual fields others, rfl⟩
termination_by structural fields => fields

end

instance : BEq (Value N) := ⟨fun first second => (decideEqual first second).val⟩

@[simp]
theorem beq_eq_equal (first second : Value N) : (first == second) = equal first second :=
  (decideEqual first second).property

instance : ReflBEq (Value N) := ⟨by simp [equal_refl]⟩

end Rivulet.Value
