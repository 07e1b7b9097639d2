import Rivulet.Proofs.Machine.Laws
import Rivulet.Proofs.Tree.Renaming

/-!
Values whose scopes are kept at other places, and whose names are others. A function names the scope that it captured
by its place, so when scopes are moved the functions in a value are changed; functions, instances and exceptions have
names in them (`Value.relocated`). Nothing else about a value depends on places and names: its kind, its length, its
text and its elements stay; and as long as no two scopes are moved to one place and no two names become one, equal
values stay equal and others do not become so. Hence operators, collections, natives and calls make of relocated
values what they make of the values, relocated.
-/

namespace Rivulet

/-- Where the scopes of an evaluation are kept in another one, and what its names are there. -/
structure Relocation (M : Type := String) [Naming M] extends Renaming M where
  place : Nat → Nat

namespace Relocation

/-- Scopes at other places, and all names as they are. -/
def places (place : Nat → Nat) : Relocation :=
  { Renaming.refl with place }

@[simp]
theorem name_places (place : Nat → Nat) : (places place).name = id :=
  rfl

@[simp]
theorem place_places (place : Nat → Nat) : (places place).place = place :=
  rfl

end Relocation

/-! ### Failures -/

section

variable {M : Type}

/-- A failure with another name. -/
def Failure.renamed (rename : String → M) : Failure → Failure M
  | unknownName name => unknownName (rename name)
  | expectedValue => expectedValue
  | typeMismatch expected found => typeMismatch expected found
  | incompatibleUnits => incompatibleUnits
  | divisionByZero => divisionByZero
  | notANumber => notANumber
  | missingInput name => missingInput (rename name)
  | unexpectedInput => unexpectedInput
  | unknownProperty name => unknownProperty (rename name)
  | alreadyBound name => alreadyBound (rename name)
  | placeholder => placeholder
  | unparsable => unparsable
  | stepLimit => stepLimit
  | recursionLimit => recursionLimit
  | unknownSource name => unknownSource (rename name)

/-- An exception with another name. -/
def Exception.renamed (rename : String → M) (exception : Exception) : Exception M :=
  ⟨exception.failure.renamed rename, exception.node⟩

@[simp]
theorem Failure.renamed_id (failure : Failure) : failure.renamed id = failure := by
  cases failure <;> rfl

@[simp]
theorem Exception.renamed_id (exception : Exception) : exception.renamed id = exception :=
  congrArg (Exception.mk · exception.node) exception.failure.renamed_id

theorem Failure.renamed_injective {rename : String → M} (injective : Function.Injective rename) :
    Function.Injective (Failure.renamed rename) := by
  intro first second same
  cases first <;> cases second <;> simp_all [Failure.renamed, injective.eq_iff]

theorem Exception.renamed_injective {rename : String → M} (injective : Function.Injective rename) :
    Function.Injective (Exception.renamed rename) := by
  rintro ⟨failure, node⟩ ⟨failure', node'⟩ same
  obtain ⟨failures, rfl⟩ := Exception.mk.inj same
  exact congrArg (Exception.mk · node) (Failure.renamed_injective injective failures)

/-- No text of an exception has a name in it. -/
theorem Exception.toText_renamed (rename : String → M) (exception : Exception) :
    (exception.renamed rename).toText = exception.toText := by
  obtain ⟨failure, node⟩ := exception
  cases failure <;> rfl

/-- A function that captured a scope which is kept at another place. -/
def Function.relocated [Naming M] (relocation : Relocation M) (function : Function) : Function M :=
  ⟨function.callee, function.context.map relocation.place, relocation.name function.name⟩

end

namespace Value

section

variable {M : Type} [Naming M]

mutual

/-- A value with all captured scopes at other places, and all names others. -/
def relocated (relocation : Relocation M) : Value → Value M
  | none => none
  | boolean value => boolean value
  | number value => number value
  | text value => text value
  | sequence ⟨items⟩ => sequence ⟨relocatedAll relocation items⟩
  | set items => set (relocatedAll relocation items)
  | mapping entries => mapping (relocatedEntries relocation entries)
  | function value => function (value.relocated relocation)
  | record definition fields => record definition (relocatedFields relocation fields)
  | exception value => exception (value.renamed relocation.name)
termination_by structural value => value

/-- A list of values with all captured scopes at other places, and all names others. -/
def relocatedAll (relocation : Relocation M) : List Value → List (Value M)
  | [] => []
  | first :: rest => relocated relocation first :: relocatedAll relocation rest
termination_by structural values => values

/-- The entries of a mapping with all captured scopes at other places, and all names others. -/
def relocatedEntries (relocation : Relocation M) : List (Value × Value) → List (Value M × Value M)
  | [] => []
  | (key, value) :: rest => (relocated relocation key, relocated relocation value) :: relocatedEntries relocation rest
termination_by structural entries => entries

/-- The fields of an instance with all captured scopes at other places, and all names others. -/
def relocatedFields (relocation : Relocation M) : List (String × Value) → List (M × Value M)
  | [] => []
  | (name, value) :: rest =>
    (relocation.name name, relocated relocation value) :: relocatedFields relocation rest
termination_by structural fields => fields

end

/-- An entry with all captured scopes at other places, and all names others. -/
def relocatedEntry (relocation : Relocation M) (entry : Value × Value) : Value M × Value M :=
  (entry.1.relocated relocation, entry.2.relocated relocation)

/-- A binding with all captured scopes at other places, and all names others. -/
def relocatedBinding (relocation : Relocation M) (binding : String × Value) : M × Value M :=
  (relocation.name binding.1, binding.2.relocated relocation)

end

variable {M : Type} [Naming M] {relocation : Relocation M}

theorem relocatedAll_eq_map (items : List Value) :
    relocatedAll relocation items = items.map (relocated relocation) := by
  induction items with
  | nil => rfl
  | cons first rest hypothesis => exact congrArg (first.relocated relocation :: ·) hypothesis

theorem relocatedEntries_eq_map (entries : List (Value × Value)) :
    relocatedEntries relocation entries = entries.map (relocatedEntry relocation) := by
  induction entries with
  | nil => rfl
  | cons first rest hypothesis => exact congrArg (relocatedEntry relocation first :: ·) hypothesis

theorem relocatedFields_eq_map (fields : List (String × Value)) :
    relocatedFields relocation fields = fields.map (relocatedBinding relocation) := by
  induction fields with
  | nil => rfl
  | cons first rest hypothesis => exact congrArg (relocatedBinding relocation first :: ·) hypothesis

@[simp]
theorem relocated_none : none.relocated relocation = none :=
  rfl

@[simp]
theorem relocated_boolean (value : Bool) : (boolean value).relocated relocation = boolean value :=
  rfl

@[simp]
theorem relocated_number (value : Quantity) : (number value).relocated relocation = number value :=
  rfl

@[simp]
theorem relocated_text (value : String) : (text value).relocated relocation = text value :=
  rfl

@[simp]
theorem relocated_sequence (items : Array Value) :
    (sequence items).relocated relocation = sequence (items.map (relocated relocation)) := by
  obtain ⟨items⟩ := items
  show sequence ⟨relocatedAll relocation items⟩ = _
  rw [relocatedAll_eq_map, List.map_toArray]

@[simp]
theorem relocated_set (items : List Value) :
    (set items).relocated relocation = set (items.map (relocated relocation)) :=
  congrArg set (relocatedAll_eq_map items)

@[simp]
theorem relocated_mapping (entries : List (Value × Value)) :
    (mapping entries).relocated relocation = mapping (entries.map (relocatedEntry relocation)) :=
  congrArg mapping (relocatedEntries_eq_map entries)

@[simp]
theorem relocated_function (value : Function) :
    (function value).relocated relocation = function (value.relocated relocation) :=
  rfl

@[simp]
theorem relocated_record (definition : NodeId) (fields : List (String × Value)) :
    (record definition fields).relocated relocation = record definition (fields.map (relocatedBinding relocation)) :=
  congrArg (record definition) (relocatedFields_eq_map fields)

@[simp]
theorem relocated_exception (value : Exception) :
    (exception value).relocated relocation = exception (value.renamed relocation.name) :=
  rfl

@[simp]
theorem relocated_failed (failure : Failure) (node : NodeId) :
    (failed failure node).relocated relocation = failed (failure.renamed relocation.name) node :=
  rfl

/-- A value stays as it is if no function in it captured a scope that is moved. -/
theorem relocated_eq_self {place : Nat → Nat} {value : Value}
    (still : value.Only fun function => function.relocated (.places place) = function) :
    value.relocated (.places place) = value := by
  induction value using parts_induction with
  | step value hypothesis =>
    have part {other : Value} (among : other ∈ value.parts) : other.relocated (.places place) = other :=
      hypothesis other among (still.part among)
    cases value with
    | sequence items =>
      have same (item : Value) (among : item ∈ items) : item.relocated (.places place) = item :=
        part (show item ∈ items.toList by simpa using among)
      rw [relocated_sequence, Array.map_congr_left same, Array.map_id']
    | set items => rw [relocated_set, List.map_congr_left fun item (among : item ∈ items) => part among, List.map_id']
    | mapping entries =>
      have same (entry : Value × Value) (among : entry ∈ entries) : relocatedEntry (.places place) entry = entry :=
        Prod.ext (part (mem_parts_key among)) (part (mem_parts_value among))
      rw [relocated_mapping, List.map_congr_left same, List.map_id']
    | record definition fields =>
      have same (field : String × Value) (among : field ∈ fields) : relocatedBinding (.places place) field = field :=
        Prod.ext rfl (part (mem_parts_field among))
      rw [relocated_record, List.map_congr_left same, List.map_id']
    | function value =>
      rw [relocated_function]
      exact congrArg function (still.own value rfl)
    | _ => simp

/-- A value whose functions captured none but the first so many scopes. -/
def IsWithin (count : Nat) (value : Value) : Prop :=
  value.Only fun function => ∀ scope, function.context = some scope → scope < count

theorem IsWithin.more {count count' : Nat} {value : Value} (within : value.IsWithin count) (more : count ≤ count') :
    value.IsWithin count' :=
  within.mono fun _ captured function is scope context => Nat.lt_of_lt_of_le (captured function is scope context) more

/-- Two lists that become the same also do so in another way, if their elements do. -/
theorem map_eq_map_of_map_eq_map {α β γ δ : Type} {make : α → γ} {make' : β → γ} {other : α → δ} {other' : β → δ}
    {items : List α} {items' : List β} (same : items.map make = items'.map make')
    (each : ∀ item ∈ items, ∀ item' ∈ items', make item = make' item' → other item = other' item') :
    items.map other = items'.map other' := by
  induction items generalizing items' with
  | nil =>
    cases items' with
    | nil => rfl
    | cons item' items' => simp at same
  | cons item items hypothesis =>
    cases items' with
    | nil => simp at same
    | cons item' items' =>
      obtain ⟨first, rest⟩ := List.cons.inj same
      rw [List.map_cons, List.map_cons, each item (by simp) item' (by simp) first,
        hypothesis rest fun item among item' among' => each item (by simp [among]) item' (by simp [among'])]

/-- Two values that are the same with captured scopes at other places are the same for any places of the scopes that
tell no more of them apart. -/
theorem relocated_eq_relocated {place place' other other' : Nat → Nat} {count count' : Nat} {value value' : Value}
    (within : value.IsWithin count) (within' : value'.IsWithin count')
    (same : value.relocated (.places place) = value'.relocated (.places place'))
    (moved : ∀ scope < count, ∀ scope' < count', place scope = place' scope' → other scope = other' scope') :
    value.relocated (.places other) = value'.relocated (.places other') := by
  induction value using parts_induction generalizing value' with
  | step value hypothesis =>
    have part {item item' : Value} (among : item ∈ value.parts) (among' : item' ∈ value'.parts)
        (same : item.relocated (.places place) = item'.relocated (.places place')) :
        item.relocated (.places other) = item'.relocated (.places other') :=
      hypothesis item among (within.part among) (within'.part among') same
    cases value with
    | sequence items =>
      cases value' with
      | sequence items' =>
        simp only [relocated_sequence, sequence.injEq] at same ⊢
        rw [← Array.toList_inj, Array.toList_map, Array.toList_map] at same ⊢
        exact map_eq_map_of_map_eq_map same fun item among item' among' => part among among'
      | _ => simp at same
    | set items =>
      cases value' with
      | set items' =>
        simp only [relocated_set, set.injEq] at same ⊢
        exact map_eq_map_of_map_eq_map same fun item among item' among' => part among among'
      | _ => simp at same
    | mapping entries =>
      cases value' with
      | mapping entries' =>
        simp only [relocated_mapping, mapping.injEq] at same ⊢
        refine map_eq_map_of_map_eq_map same fun entry among entry' among' same => ?_
        obtain ⟨key, value⟩ := Prod.mk.inj same
        exact Prod.ext (part (mem_parts_key among) (mem_parts_key among') key)
          (part (mem_parts_value among) (mem_parts_value among') value)
      | _ => simp at same
    | record definition fields =>
      cases value' with
      | record definition' fields' =>
        simp only [relocated_record, record.injEq] at same ⊢
        refine ⟨same.1, map_eq_map_of_map_eq_map same.2 fun field among field' among' same => ?_⟩
        obtain ⟨name, value⟩ := Prod.mk.inj same
        exact Prod.ext name (part (mem_parts_field among) (mem_parts_field among') value)
      | _ => simp at same
    | function function =>
      cases value' with
      | function function' =>
        obtain ⟨callee, context, name⟩ := function
        obtain ⟨callee', context', name'⟩ := function'
        simp only [relocated_function, Function.relocated, Value.function.injEq, Function.mk.injEq] at same ⊢
        refine ⟨same.1, ?_, same.2.2⟩
        cases context with
        | none =>
          cases context' with
          | none => rfl
          | some scope' => simp at same
        | some scope =>
          cases context' with
          | none => simp at same
          | some scope' =>
            exact congrArg some (moved scope (within.own _ rfl scope rfl) scope' (within'.own _ rfl scope' rfl)
              (Option.some.inj same.2.1))
      | _ => simp at same
    | _ => cases value' <;> simp_all

/-- How a value is relocated depends on the places of the captured scopes only. -/
theorem relocated_congr {place place' : Nat → Nat} {count : Nat} {value : Value} (within : value.IsWithin count)
    (same : ∀ scope < count, place scope = place' scope) :
    value.relocated (.places place) = value.relocated (.places place') := by
  refine @relocated_eq_relocated id id place place' count count value value within within rfl ?_
  intro scope inside scope' _ (equal : scope = scope')
  rw [← equal]
  exact same scope inside

/-- A value stays as it is if the scopes stay that functions in it captured. -/
theorem relocated_of_isWithin {count : Nat} {value : Value} (within : value.IsWithin count)
    (still : ∀ scope < count, place scope = scope) : value.relocated (.places place) = value := by
  refine relocated_eq_self (within.mono fun _ captured function is => ?_)
  obtain ⟨callee, context, name⟩ := function
  cases context with
  | none => rfl
  | some scope => exact congrArg (Function.mk callee · name) (congrArg some (still scope (captured _ is scope rfl)))

theorem relocatedBindings_of_isWithin {count : Nat} {bindings : List (String × Value)}
    (within : ∀ binding ∈ bindings, binding.2.IsWithin count) (still : ∀ scope < count, place scope = scope) :
    bindings.map (relocatedBinding (.places place)) = bindings := by
  have each (binding : String × Value) (among : binding ∈ bindings) :
      relocatedBinding (.places place) binding = binding :=
    Prod.ext rfl (relocated_of_isWithin (within binding among) still)
  rw [List.map_congr_left each, List.map_id']

/-! ### What stays -/

@[simp]
theorem kind_relocated (value : Value) : (value.relocated relocation).kind = value.kind := by
  cases value <;> simp [kind]

@[simp]
theorem isException_relocated (value : Value) : (value.relocated relocation).isException = value.isException := by
  cases value <;> simp [isException]

@[simp]
theorem isCollection_relocated (value : Value) : (value.relocated relocation).isCollection = value.isCollection := by
  cases value <;> simp [isCollection]

@[simp]
theorem length?_relocated (value : Value) : (value.relocated relocation).length? = value.length? := by
  cases value <;> simp [length?]

mutual

theorem toText_relocated : (value : Value) → (value.relocated relocation).toText = value.toText
  | none | number _ | text _ => by simp [toText]
  | boolean value => by cases value <;> simp [toText]
  | exception value => value.toText_renamed relocation.name
  | sequence ⟨items⟩ => by
    have same := texts_relocated items
    simp [toText, same]
  | set items => by
    have same := texts_relocated items
    simp [toText, same]
  | mapping entries => by
    have same := entryTexts_relocated entries
    simp [toText, same]
  | function ⟨.definition _, _, _⟩ => by simp [toText, Function.relocated]
  | function ⟨.native _, _, _⟩ => by simp [toText, Function.relocated]
  | record _ fields => by
    have same := fieldTexts_relocated fields
    simp [toText, same]

theorem texts_relocated : (items : List Value) → texts (items.map (relocated relocation)) = texts items
  | [] => rfl
  | first :: rest => by simp [texts, toText_relocated first, texts_relocated rest]

theorem entryTexts_relocated : (entries : List (Value × Value)) →
    entryTexts (entries.map (relocatedEntry relocation)) = entryTexts entries
  | [] => rfl
  | (key, value) :: rest => by
    simp [entryTexts, relocatedEntry, toText_relocated key, toText_relocated value, entryTexts_relocated rest]

theorem fieldTexts_relocated : (fields : List (String × Value)) →
    fieldTexts (fields.map (relocatedBinding relocation)) = fieldTexts fields
  | [] => rfl
  | (_, value) :: rest => by
    simp [fieldTexts, relocatedBinding, toText_relocated value, fieldTexts_relocated rest]

end

/-! ### Equality -/

variable [DecidableEq M]

mutual

/-- Relocated values are equal if the values are. -/
theorem equal_relocated (injective : Function.Injective relocation.place) : (first second : Value) →
    equal (first.relocated relocation) (second.relocated relocation) = equal first second
  | none, second | boolean _, second | number _, second | text _, second => by
    cases second <;> simp [equal]
  | exception first, second => by
    cases second with
    | exception second => simp [equal, (Exception.renamed_injective relocation.injective).eq_iff]
    | _ => simp [equal]
  | sequence ⟨items⟩, second => by
    cases second with
    | sequence others =>
      obtain ⟨others⟩ := others
      simp [equal, equalAll_relocated injective items others]
    | _ => simp [equal]
  | set items, second => by
    cases second with
    | set others => simp [equal, allWithin_relocated injective items others]
    | _ => simp [equal]
  | mapping entries, second => by
    cases second with
    | mapping others => simp [equal, entriesWithin_relocated injective entries others]
    | _ => simp [equal]
  | function first, second => by
    cases second with
    | function second =>
      have same : (first.context.map relocation.place == second.context.map relocation.place) =
          (first.context == second.context) :=
        Bool.eq_iff_iff.mpr (by simpa using (Option.map_injective injective).eq_iff)
      simp [equal, Function.relocated, same]
    | _ => simp [equal]
  | record _ fields, second => by
    cases second with
    | record _ others => simp [equal, fieldsEqual_relocated injective fields others]
    | _ => simp [equal]

theorem equalAll_relocated (injective : Function.Injective relocation.place) : (items others : List Value) →
    equalAll (items.map (relocated relocation)) (others.map (relocated relocation)) = equalAll items others
  | [], others => by cases others <;> simp [equalAll]
  | first :: rest, others => by
    cases others with
    | nil => simp [equalAll]
    | cons second others =>
      simp [equalAll, equal_relocated injective first second, equalAll_relocated injective rest others]

theorem allWithin_relocated (injective : Function.Injective relocation.place) : (items others : List Value) →
    allWithin (items.map (relocated relocation)) (others.map (relocated relocation)) = allWithin items others
  | [], _ => by simp [allWithin]
  | first :: rest, others => by
    have same : equal (first.relocated relocation) ∘ relocated relocation = equal first :=
      funext fun other => equal_relocated injective first other
    simp [allWithin, allWithin_relocated injective rest others, List.any_map, same]

theorem entriesWithin_relocated (injective : Function.Injective relocation.place) :
    (entries others : List (Value × Value)) →
    entriesWithin (entries.map (relocatedEntry relocation)) (others.map (relocatedEntry relocation)) =
      entriesWithin entries others
  | [], _ => by simp [entriesWithin]
  | (key, value) :: rest, others => by
    have same : (fun other : Value M × Value M => equal (key.relocated relocation) other.1 &&
        equal (value.relocated relocation) other.2) ∘ relocatedEntry relocation =
          fun other => equal key other.1 && equal value other.2 := by
      funext other
      simp [relocatedEntry, equal_relocated injective key other.1, equal_relocated injective value other.2]
    rw [List.map_cons, entriesWithin, entriesWithin, entriesWithin_relocated injective rest others, List.any_map]
    exact congrArg (fun test => others.any test && entriesWithin rest others) same

theorem fieldsEqual_relocated (injective : Function.Injective relocation.place) :
    (fields others : List (String × Value)) →
    fieldsEqual (fields.map (relocatedBinding relocation)) (others.map (relocatedBinding relocation)) =
      fieldsEqual fields others
  | [], others => by cases others <;> simp [fieldsEqual]
  | (name, value) :: rest, others => by
    cases others with
    | nil => simp [fieldsEqual]
    | cons second others =>
      have names : (relocation.name name == relocation.name second.1) = (name == second.1) :=
        Bool.eq_iff_iff.mpr (by simpa using relocation.injective.eq_iff)
      simp [fieldsEqual, relocatedBinding, equal_relocated injective value second.2,
        fieldsEqual_relocated injective rest others, names]

end

section

variable (injective : Function.Injective relocation.place)

include injective

theorem beq_relocated (first second : Value) :
    (first.relocated relocation == second.relocated relocation) = (first == second) := by
  rw [beq_eq_equal, beq_eq_equal, equal_relocated injective]

/-! ### Collections -/

theorem insertItem_relocated (items : List Value) (item : Value) :
    insertItem (items.map (relocated relocation)) (item.relocated relocation) =
      (insertItem items item).map (relocated relocation) := by
  have same : (fun other => item.relocated relocation == other) ∘ relocated relocation = fun other => item == other :=
    funext fun other => beq_relocated injective item other
  unfold insertItem
  rw [List.any_map, same]
  split <;> simp

theorem setOf_relocated (items : List Value) :
    setOf (items.map (relocated relocation)) = (setOf items).relocated relocation := by
  have each (stored : List Value) :
      (items.map (relocated relocation)).foldl insertItem (stored.map (relocated relocation)) =
      (items.foldl insertItem stored).map (relocated relocation) := by
    induction items generalizing stored with
    | nil => rfl
    | cons item items hypothesis =>
      rw [List.map_cons, List.foldl_cons, List.foldl_cons, insertItem_relocated injective, hypothesis]
  unfold setOf
  rw [relocated_set, ← each []]
  rfl

theorem insertEntry_relocated (entries : List (Value × Value)) (key value : Value) :
    insertEntry (entries.map (relocatedEntry relocation)) (key.relocated relocation) (value.relocated relocation) =
      (insertEntry entries key value).map (relocatedEntry relocation) := by
  induction entries with
  | nil => rfl
  | cons entry entries hypothesis =>
    obtain ⟨stored, old⟩ := entry
    rw [List.map_cons]
    unfold insertEntry
    rw [show relocatedEntry relocation (stored, old) = (stored.relocated relocation, old.relocated relocation) from rfl]
    dsimp only
    rw [beq_relocated injective]
    split
    · rfl
    · rw [List.map_cons, hypothesis]
      rfl

theorem mappingOf_relocated (entries : List (Value × Value)) :
    mappingOf (entries.map (relocatedEntry relocation)) = (mappingOf entries).relocated relocation := by
  have each (stored : List (Value × Value)) :
      (entries.map (relocatedEntry relocation)).foldl (fun stored entry => insertEntry stored entry.1 entry.2)
        (stored.map (relocatedEntry relocation)) =
      (entries.foldl (fun stored entry => insertEntry stored entry.1 entry.2) stored).map
        (relocatedEntry relocation) := by
    induction entries generalizing stored with
    | nil => rfl
    | cons entry entries hypothesis =>
      rw [List.map_cons, List.foldl_cons, List.foldl_cons, ← hypothesis, ← insertEntry_relocated injective]
      rfl
  unfold mappingOf
  rw [relocated_mapping, ← each []]
  rfl

omit injective [DecidableEq M] in
theorem entriesOf_relocated : (values : List Value) →
    entriesOf (values.map (relocated relocation)) = (entriesOf values).map (relocatedEntry relocation)
  | [] | [_] => rfl
  | key :: value :: rest => by
    simp only [List.map_cons, entriesOf, entriesOf_relocated rest]
    rfl

theorem collectLike_relocated (collection : Value) (kept : List Value) :
    Machine.collectLike (collection.relocated relocation) (kept.map (relocated relocation)) =
      (Machine.collectLike collection kept).relocated relocation := by
  cases collection with
  | set items => simpa [Machine.collectLike] using setOf_relocated injective kept
  | mapping entries =>
    simp only [relocated_mapping, Machine.collectLike, entriesOf_relocated, mappingOf_relocated injective]
  | _ => simp [Machine.collectLike]

end

/-! ### Operators -/

/-- The result of an operator with all captured scopes at other places, and all names others. -/
def relocatedResult (relocation : Relocation M) : Except Failure Value → Except (Failure M) (Value M)
  | .ok value => .ok (value.relocated relocation)
  | .error failure => .error (failure.renamed relocation.name)

section

omit [DecidableEq M]

theorem numeric_relocated (result : Except ArithmeticError Quantity) :
    Operators.numeric result = relocatedResult relocation (Operators.numeric result) := by
  cases result with
  | ok number => rfl
  | error error => cases error <;> rfl

/-- Arithmetic on numbers has no names and scopes in it. -/
theorem onNumbers_relocated (op : BinaryOp) (left right : Quantity) :
    Operators.onNumbers op left right = relocatedResult relocation (Operators.onNumbers op left right) := by
  cases op with
  | add | subtract | divide | remainder => exact numeric_relocated _
  | multiply => rfl
  | _ =>
    simp only [Operators.onNumbers]
    cases left.compare right with
    | ok ordering => rfl
    | error error => cases error <;> rfl

theorem mismatch_relocated (expected : ValueKind) (found : Value) :
    Operators.mismatch expected (found.relocated relocation) =
      relocatedResult relocation (Operators.mismatch expected found) := by
  unfold Operators.mismatch
  rw [kind_relocated]
  rfl

theorem misfit_relocated (left right : Value) :
    Operators.misfit (left.relocated relocation) (right.relocated relocation) =
      relocatedResult relocation (Operators.misfit left right) := by
  have other := @mismatch_relocated _ _ relocation .number left
  cases left with
  | number _ | text _ | sequence _ => simpa [Operators.misfit] using mismatch_relocated _ right
  | _ => simpa [Operators.misfit] using other

theorem logical_relocated (op : BinaryOp) (left right : Value) :
    Operators.logical op (left.relocated relocation) (right.relocated relocation) =
      relocatedResult relocation (Operators.logical op left right) := by
  have first := @mismatch_relocated _ _ relocation .boolean left
  have second := @mismatch_relocated _ _ relocation .boolean right
  cases left with
  | boolean _ =>
    cases right with
    | boolean _ => rfl
    | _ => simpa [Operators.logical] using second
  | _ => simpa [Operators.logical] using first

end

omit [Naming M] in
/-- Operators that neither are logical nor test for equality go by the kinds of both operands. -/
theorem binary_of_kinds {op : BinaryOp} (plain : op.isLogical = false) (compares : op ≠ .equal ∧ op ≠ .notEqual)
    (left right : Value M) : Operators.binary op left right =
      match left, right with
      | .number first, .number second => Operators.onNumbers op first second
      | .text first, .text second =>
        if op == .add then .ok (.text (first ++ second))
        else if op.isComparison then .ok (.boolean (Operators.holds op (compareOfLessAndEq first second)))
        else Operators.misfit left right
      | .sequence first, .sequence second =>
        if op == .add then .ok (.sequence (first ++ second)) else Operators.misfit left right
      | _, _ => Operators.misfit left right := by
  cases op with
  | equal => exact absurd rfl compares.1
  | notEqual => exact absurd rfl compares.2
  | and | or => simp [BinaryOp.isLogical] at plain
  | _ => cases left <;> cases right <;> rfl

theorem binary_relocated (injective : Function.Injective relocation.place) (op : BinaryOp) (left right : Value) :
    Operators.binary op (left.relocated relocation) (right.relocated relocation) =
      relocatedResult relocation (Operators.binary op left right) := by
  by_cases logical : op = .and ∨ op = .or
  · rcases logical with rfl | rfl <;> exact logical_relocated _ left right
  · by_cases compares : op = .equal ∨ op = .notEqual
    · have same := beq_relocated injective left right
      rcases compares with rfl | rfl <;> simp [Operators.binary, relocatedResult, bne, same]
    · have plain : op.isLogical = false := by
        cases op <;> simp_all [BinaryOp.isLogical]
      have others : op ≠ .equal ∧ op ≠ .notEqual := by simpa using compares
      have misfit := @misfit_relocated _ _ relocation left right
      rw [binary_of_kinds plain others, binary_of_kinds plain others]
      cases left with
      | number first =>
        cases right with
        | number second => exact onNumbers_relocated op first second
        | _ => simpa using misfit
      | text first =>
        cases right with
        | text second =>
          simp only [relocated_text] at misfit ⊢
          split
          · rfl
          · split
            · rfl
            · exact misfit
        | _ => simpa using misfit
      | sequence first =>
        cases right with
        | sequence second =>
          simp only [relocated_sequence] at misfit ⊢
          split
          · simp [relocatedResult]
          · exact misfit
        | _ => simpa using misfit
      | _ => simpa using misfit

omit [DecidableEq M] in
theorem unary_relocated (op : UnaryOp) (operand : Value) :
    Operators.unary op (operand.relocated relocation) = relocatedResult relocation (Operators.unary op operand) := by
  have number := @mismatch_relocated _ _ relocation .number operand
  have boolean := @mismatch_relocated _ _ relocation .boolean operand
  cases op with
  | negate =>
    cases operand with
    | number value => rfl
    | _ => simpa [Operators.unary] using number
  | not =>
    cases operand with
    | boolean value => rfl
    | _ => simpa [Operators.unary] using boolean

end Value

end Rivulet
