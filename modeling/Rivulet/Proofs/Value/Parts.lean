import Rivulet.Operators
import Rivulet.Natives
import Rivulet.Machine.Loop
import Mathlib.Order.Defs.LinearOrder
import Mathlib.Tactic.Cases

/-!
What values are made of, and properties that hold all the way down (`Value.Every`). Operators,
collections and natives make values out of the parts of those they are given, so that a property
which every plain value has passes from the given values to the made ones.
-/

namespace Rivulet.Value

/-! ### Parts -/

/-- The values that a value is directly made of. -/
def parts : Value → List Value
  | sequence items => items.toList
  | set items => items
  | mapping entries => entries.flatMap fun entry => [entry.1, entry.2]
  | record _ fields => fields.map Prod.snd
  | _ => []

theorem mem_parts_key {entries : List (Value × Value)} {entry : Value × Value} (among : entry ∈ entries) :
    entry.1 ∈ (mapping entries).parts :=
  List.mem_flatMap.mpr ⟨entry, among, by simp⟩

theorem mem_parts_value {entries : List (Value × Value)} {entry : Value × Value} (among : entry ∈ entries) :
    entry.2 ∈ (mapping entries).parts :=
  List.mem_flatMap.mpr ⟨entry, among, by simp⟩

theorem mem_parts_field {definition : NodeId} {fields : List (String × Value)} {field : String × Value}
    (among : field ∈ fields) : field.2 ∈ (record definition fields).parts :=
  List.mem_map_of_mem among

theorem sizeOf_part {part whole : Value} (among : part ∈ whole.parts) : sizeOf part < sizeOf whole := by
  cases whole with
  | sequence items =>
    have smaller := Array.sizeOf_lt_of_mem (Array.mem_def.mpr among)
    simp only [sequence.sizeOf_spec]
    omega
  | set items =>
    have smaller := List.sizeOf_lt_of_mem (show part ∈ items from among)
    simp only [set.sizeOf_spec]
    omega
  | mapping entries =>
    obtain ⟨entry, there, either⟩ := List.mem_flatMap.mp among
    have smaller := List.sizeOf_lt_of_mem there
    have both : sizeOf entry = 1 + sizeOf entry.1 + sizeOf entry.2 := rfl
    simp only [mapping.sizeOf_spec]
    simp only [List.mem_cons, List.not_mem_nil, or_false] at either
    rcases either with rfl | rfl <;> omega
  | record definition fields =>
    obtain ⟨field, there, rfl⟩ := List.mem_map.mp among
    have smaller := List.sizeOf_lt_of_mem there
    have both : sizeOf field = 1 + sizeOf field.1 + sizeOf field.2 := rfl
    simp only [record.sizeOf_spec]
    omega
  | _ => simp [parts] at among

/-- What holds of a value whenever it holds of its parts holds of every value. -/
theorem parts_induction {motive : Value → Prop}
    (step : ∀ value, (∀ part ∈ value.parts, motive part) → motive value) (value : Value) : motive value := by
  induction size : sizeOf value using Nat.strongRecOn generalizing value with
  | ind size hypothesis =>
    subst size
    exact step value fun part among => hypothesis _ (sizeOf_part among) part rfl

/-- A property of a value, of its parts, of their parts, and so on. -/
inductive Every (property : Value → Prop) : Value → Prop where
  | intro {value : Value} (own : property value)
      (parts : ∀ part ∈ value.parts, Every property part) : Every property value

/-- Whether a value is neither a function nor an exception. Its parts may be. -/
def isPlain : Value → Bool
  | function _ | exception _ => false
  | _ => true

/-- A value without functions and exceptions in it. -/
def IsData (value : Value) : Prop :=
  value.Every fun part => part.isPlain = true

section

variable {property property' : Value → Prop} {value : Value}

theorem Every.own (every : Every property value) : property value := by
  cases every
  assumption

theorem Every.part (every : Every property value) {part : Value} (among : part ∈ value.parts) :
    Every property part := by
  cases every with
  | intro _ parts => exact parts part among

theorem Every.mono (every : Every property value)
    (implied : ∀ part, property part → property' part) : Every property' value := by
  induction every with
  | intro own _ hypothesis => exact .intro (implied _ own) hypothesis

theorem every_of_no_parts (own : property value) (none : value.parts = []) :
    Every property value :=
  .intro own (by simp [none])

end

/-! ### Making values -/

/-- Insertion makes no items up. -/
theorem forall_insertItems {good : Value → Prop} {items stored : List Value} (before : ∀ item ∈ stored, good item)
    (each : ∀ item ∈ items, good item) : ∀ item ∈ items.foldl insertItem stored, good item := by
  induction items generalizing stored with
  | nil => exact before
  | cons item items hypothesis =>
    refine hypothesis ?_ fun other there => each other (by simp [there])
    intro other among
    unfold insertItem at among
    split at among
    · exact before other among
    · rcases List.mem_append.mp among with old | new
      · exact before other old
      · rw [List.mem_singleton.mp new]
        exact each item (by simp)

theorem forall_insertEntry {good good' : Value → Prop} {stored : List (Value × Value)} {key value : Value}
    (before : ∀ entry ∈ stored, good entry.1 ∧ good' entry.2) (keyToo : good key) (valueToo : good' value) :
    ∀ entry ∈ insertEntry stored key value, good entry.1 ∧ good' entry.2 := by
  induction stored with
  | nil => simp [insertEntry, keyToo, valueToo]
  | cons entry stored hypothesis =>
    obtain ⟨first, old⟩ := entry
    have here := before (first, old) (by simp)
    unfold insertEntry
    split
    · intro other among
      rcases List.mem_cons.mp among with rfl | there
      · exact ⟨here.1, valueToo⟩
      · exact before other (by simp [there])
    · intro other among
      rcases List.mem_cons.mp among with rfl | there
      · exact here
      · exact hypothesis (fun entry there => before entry (by simp [there])) other there

/-- Insertion makes no keys and no values up. -/
theorem forall_insertEntries {good good' : Value → Prop} {entries stored : List (Value × Value)}
    (before : ∀ entry ∈ stored, good entry.1 ∧ good' entry.2)
    (each : ∀ entry ∈ entries, good entry.1 ∧ good' entry.2) :
    ∀ entry ∈ entries.foldl (fun stored entry => insertEntry stored entry.1 entry.2) stored,
      good entry.1 ∧ good' entry.2 := by
  induction entries generalizing stored with
  | nil => exact before
  | cons entry entries hypothesis =>
    have here := each entry (by simp)
    exact hypothesis (forall_insertEntry before here.1 here.2) fun other there => each other (by simp [there])

section

variable {property : Value → Prop} (plain : ∀ value : Value, value.isPlain = true → property value)

include plain

theorem every_none : Every property none :=
  every_of_no_parts (plain _ rfl) rfl

theorem every_boolean (value : Bool) : Every property (boolean value) :=
  every_of_no_parts (plain _ rfl) rfl

theorem every_number (value : Quantity) : Every property (number value) :=
  every_of_no_parts (plain _ rfl) rfl

theorem every_text (value : String) : Every property (text value) :=
  every_of_no_parts (plain _ rfl) rfl

theorem every_sequence {items : List Value} (each : ∀ item ∈ items, Every property item) :
    Every property (sequence items.toArray) :=
  .intro (plain _ rfl) (by simpa [parts] using each)

theorem every_record {definition : NodeId} {fields : List (String × Value)}
    (each : ∀ field ∈ fields, Every property field.2) : Every property (record definition fields) := by
  refine .intro (plain _ rfl) ?_
  intro part among
  simp only [parts, List.mem_map] at among
  obtain ⟨field, there, rfl⟩ := among
  exact each field there

/-- A set has no other items than those it is made of. -/
theorem every_setOf {items : List Value} (each : ∀ item ∈ items, Every property item) :
    Every property (setOf items) :=
  .intro (plain _ rfl) (forall_insertItems (by simp) each)

/-- A mapping has no other keys and values than those it is made of. -/
theorem every_mappingOf {entries : List (Value × Value)}
    (each : ∀ entry ∈ entries, Every property entry.1 ∧ Every property entry.2) :
    Every property (mappingOf entries) := by
  refine .intro (plain _ rfl) ?_
  intro part among
  obtain ⟨entry, there, part'⟩ := List.mem_flatMap.mp among
  have both := forall_insertEntries (by simp) each entry there
  simp only [List.mem_cons, List.not_mem_nil, or_false] at part'
  rcases part' with rfl | rfl
  · exact both.1
  · exact both.2

end

/-! ### Taking values apart -/

section

variable {property : Value → Prop}

theorem every_entriesOf {items : List Value} (each : ∀ item ∈ items, Every property item) :
    ∀ entry ∈ entriesOf items, Every property entry.1 ∧ Every property entry.2 := by
  induction items using entriesOf.induct with
  | case1 key value rest hypothesis =>
    intro entry among
    rcases List.mem_cons.mp among with rfl | there
    · exact ⟨each _ (by simp), each _ (by simp)⟩
    · exact hypothesis (fun item inRest => each item (by simp [inRest])) entry there
  | case2 items other =>
    intro entry among
    unfold entriesOf at among
    split at among
    · exact absurd rfl (other _ _ _)
    · simp at among

theorem every_element {collection : Value} (every : Every property collection) {element : Element}
    (among : element ∈ collection.elements) :
    ∀ value ∈ Machine.elementArguments element, Every property value := by
  cases collection with
  | sequence items =>
    simp only [elements, List.mem_map] at among
    obtain ⟨item, there, rfl⟩ := among
    intro value same
    rw [List.mem_singleton.mp same]
    exact every.part there
  | set items =>
    simp only [elements, List.mem_map] at among
    obtain ⟨item, there, rfl⟩ := among
    intro value same
    rw [List.mem_singleton.mp same]
    exact every.part there
  | mapping entries =>
    simp only [elements, List.mem_map] at among
    obtain ⟨entry, there, rfl⟩ := among
    intro value part
    refine every.part ?_
    simp only [parts, List.mem_flatMap]
    exact ⟨entry, there, part⟩
  | _ => simp [elements] at among

theorem every_field {definition : NodeId} {fields : List (String × Value)}
    (every : Every property (record definition fields)) {name : String} {value : Value}
    (found : field? fields name = some value) : Every property value := by
  refine every.part ?_
  have there : (name, value) ∈ fields := by
    obtain ⟨before, after, rfl, _⟩ := List.lookup_eq_some_iff.mp found
    simp
  exact List.mem_map.mpr ⟨_, there, rfl⟩

end

/-- What a loop makes of the values that it kept. -/
theorem every_collectLike {property : Value → Prop}
    (plain : ∀ value : Value, value.isPlain = true → property value) (collection : Value)
    {kept : List Value} (each : ∀ value ∈ kept, Every property value) :
    Every property (Machine.collectLike collection kept) := by
  unfold Machine.collectLike
  split
  · exact every_setOf plain each
  · exact every_mappingOf plain (every_entriesOf each)
  · exact every_sequence plain each

/-! ### Operators and natives -/

section

variable {property : Value → Prop} (plain : ∀ value : Value, value.isPlain = true → property value)

include plain

theorem every_numeric {result : Except ArithmeticError Quantity} {value : Value}
    (made : Operators.numeric result = .ok value) : Every property value := by
  cases result with
  | ok number =>
    cases made
    exact every_number plain _
  | error error => simp [Operators.numeric] at made

theorem every_onNumbers {op : BinaryOp} {left right : Quantity} {value : Value}
    (made : Operators.onNumbers op left right = .ok value) : Every property value := by
  unfold Operators.onNumbers at made
  split at made
  · exact every_numeric plain made
  · exact every_numeric plain made
  · cases made
    exact every_number plain _
  · exact every_numeric plain made
  · exact every_numeric plain made
  · split at made
    · cases made
      exact every_boolean plain _
    · simp at made

omit plain in
theorem misfit_ne_ok (left right value : Value) : Operators.misfit left right ≠ .ok value := by
  unfold Operators.misfit
  cases left <;> simp [Operators.mismatch]

/-- What a binary operator makes of two values. -/
theorem every_binary {op : BinaryOp} {left right value : Value} (leftToo : Every property left)
    (rightToo : Every property right) (made : Operators.binary op left right = .ok value) :
    Every property value := by
  have decided {left right : Value} (made : Operators.logical op left right = .ok value) :
      Every property value := by
    unfold Operators.logical at made
    split at made
    · cases made
      exact every_boolean plain _
    · simp [Operators.mismatch] at made
    · simp [Operators.mismatch] at made
  unfold Operators.binary at made
  split at made
  · cases made
    exact every_boolean plain _
  · cases made
    exact every_boolean plain _
  · exact decided made
  · exact decided made
  · split at made
    · exact every_onNumbers plain made
    · split at made
      · cases made
        exact every_text plain _
      · split at made
        · cases made
          exact every_boolean plain _
        · exact absurd made (misfit_ne_ok _ _ _)
    · rename_i first second
      split at made
      · cases made
        refine .intro (plain _ rfl) ?_
        intro part among
        simp only [parts, Array.toList_append, List.mem_append] at among
        rcases among with inFirst | inSecond
        · exact leftToo.part inFirst
        · exact rightToo.part inSecond
      · exact absurd made (misfit_ne_ok _ _ _)
    · exact absurd made (misfit_ne_ok _ _ _)

/-- What a unary operator makes of a value. -/
theorem every_unary {op : UnaryOp} {operand value : Value}
    (made : Operators.unary op operand = .ok value) : Every property value := by
  unfold Operators.unary at made
  split at made
  · cases made
    exact every_number plain _
  · cases made
    exact every_boolean plain _
  · simp [Operators.mismatch] at made
  · simp [Operators.mismatch] at made

omit plain in
theorem every_input {call : NativeCall} (none : Every property Value.none)
    (each : ∀ input ∈ call.inputs, Every property input) (index : Nat) :
    Every property (call.input index) := by
  unfold NativeCall.input
  cases found : call.inputs[index]? with
  | none => exact none
  | some input => exact each input (List.mem_of_getElem? found)

theorem every_length {call : NativeCall} (regular : (Natives.length call).isException = false) :
    Every property (Natives.length call) := by
  unfold Natives.length at regular ⊢
  dsimp only at regular ⊢
  cases found : (call.input 0).length? with
  | some count => exact every_number plain _
  | none => simp [found, NativeCall.mismatch, failed, isException] at regular

theorem every_contains {call : NativeCall} (regular : (Natives.contains call).isException = false) :
    Every property (Natives.contains call) := by
  unfold Natives.contains at regular ⊢
  dsimp only at regular ⊢
  split at regular
  all_goals first
    | exact every_boolean plain _
    | simp [NativeCall.mismatch, failed, isException] at regular

omit plain in
theorem every_entry {entries : List (Value × Value)} (every : Every property (mapping entries))
    {entry : Value × Value} (among : entry ∈ entries) :
    Every property entry.1 ∧ Every property entry.2 :=
  ⟨every.part (mem_parts_key among), every.part (mem_parts_value among)⟩

theorem every_keys {call : NativeCall} (each : ∀ input ∈ call.inputs, Every property input)
    (regular : (Natives.keys call).isException = false) : Every property (Natives.keys call) := by
  have mappingToo := every_input (every_none plain) each 0
  unfold Natives.keys at regular ⊢
  split at regular
  · rename_i entries is
    rw [is] at mappingToo
    refine every_sequence plain ?_
    intro key among
    obtain ⟨entry, there, rfl⟩ := List.mem_map.mp among
    exact (every_entry mappingToo there).1
  · simp [NativeCall.mismatch, failed, isException] at regular

theorem every_entryValues {call : NativeCall} (each : ∀ input ∈ call.inputs, Every property input)
    (regular : (Natives.entryValues call).isException = false) :
    Every property (Natives.entryValues call) := by
  have mappingToo := every_input (every_none plain) each 0
  unfold Natives.entryValues at regular ⊢
  split at regular
  · rename_i entries is
    rw [is] at mappingToo
    refine every_sequence plain ?_
    intro value among
    obtain ⟨entry, there, rfl⟩ := List.mem_map.mp among
    exact (every_entry mappingToo there).2
  · simp [NativeCall.mismatch, failed, isException] at regular

theorem every_textOf (call : NativeCall) : Every property (Natives.text call) := by
  unfold Natives.text
  split <;> exact every_text plain _

/-- What a native of the standard table makes of its inputs. -/
theorem every_standard {native : Native} (standard : native ∈ Natives.standard.definitions)
    {value : NativeCall → Value} (is : native.body = .pure value) {call : NativeCall}
    (each : ∀ input ∈ call.inputs, Every property input)
    (regular : (value call).isException = false) : Every property (value call) := by
  simp only [Natives.standard, List.mem_cons, List.not_mem_nil, or_false] at standard
  rcases standard with rfl | rfl | rfl | rfl | rfl | rfl | rfl | rfl
  · obtain rfl := NativeBody.pure_inj is
    exact every_length plain regular
  · obtain rfl := NativeBody.pure_inj is
    exact every_contains plain regular
  · obtain rfl := NativeBody.pure_inj is
    exact every_keys plain each regular
  · obtain rfl := NativeBody.pure_inj is
    exact every_entryValues plain each regular
  · obtain rfl := NativeBody.pure_inj is
    exact every_textOf plain call
  all_goals cases is

end

end Rivulet.Value
