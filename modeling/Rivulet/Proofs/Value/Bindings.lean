import Rivulet.Proofs.Store.Contents
import Rivulet.Proofs.Value.Parts

/-!
The bindings that a call makes: those of the inputs of a definition, the function itself under its own name, and the
inputs of a native. They bind the arguments, and sequences of them, so a property that plain values have passes from
the arguments to what is bound.
-/

namespace Rivulet.Value

variable {property : Value → Prop}

/-- Inputs that cannot be bound yield an exception. -/
theorem isException_of_bindInputs {tree : Tree} {origin : NodeId} {inputs : List NodeId}
    {arguments : List Value} {before : List (String × Value)} {thrown : Value}
    (is : Machine.bindInputs tree origin inputs arguments before = .error thrown) :
    thrown.isException = true := by
  induction inputs generalizing arguments before with
  | nil =>
    cases arguments with
    | nil => simp [Machine.bindInputs] at is
    | cons argument rest =>
      cases is
      rfl
  | cons input inputs hypothesis =>
    unfold Machine.bindInputs at is
    split at is
    · dsimp only at is
      split at is
      · split at is
        · cases is
          rfl
        · exact hypothesis is
      · split at is
        · split at is
          · cases is
            rfl
          · exact hypothesis is
        · split at is
          · cases is
            rfl
          · exact hypothesis is
    · exact hypothesis is

/-- The inputs of a definition are bound to arguments, or to a sequence of them. -/
theorem every_bindInputs (plain : ∀ value : Value, value.isPlain = true → property value) {tree : Tree}
    {origin : NodeId} {inputs : List NodeId} {arguments : List Value} {before bound : List (String × Value)}
    (each : ∀ argument ∈ arguments, Every property argument) (earlier : ∀ binding ∈ before, Every property binding.2)
    (is : Machine.bindInputs tree origin inputs arguments before = .ok bound) :
    ∀ binding ∈ bound, Every property binding.2 := by
  induction inputs generalizing arguments before with
  | nil =>
    cases arguments with
    | nil =>
      cases is
      exact earlier
    | cons argument rest => simp [Machine.bindInputs] at is
  | cons input inputs hypothesis =>
    have bindTo {name : String} {value : Value} {rest : List Value} (valueToo : Every property value)
        (restToo : ∀ argument ∈ rest, Every property argument)
        (is : Machine.bindInputs tree origin inputs rest (before ++ [(name, value)]) = .ok bound) :
        ∀ binding ∈ bound, Every property binding.2 := by
      refine hypothesis restToo ?_ is
      intro binding among
      rcases List.mem_append.mp among with old | new
      · exact earlier binding old
      · rw [List.mem_singleton.mp new]
        exact valueToo
    unfold Machine.bindInputs at is
    split at is
    · rename_i name value declared variadic there
      dsimp only at is
      split at is
      · split at is
        · simp at is
        · exact bindTo (every_sequence plain each) (by simp) is
      · split at is
        · split at is
          · simp at is
          · exact bindTo (each _ (by simp)) (fun other inRest => each other (by simp [inRest])) is
        · split at is
          · simp at is
          · exact hypothesis (by simp) earlier is
    · exact hypothesis each earlier is

/-- A call binds its function besides its inputs. -/
theorem every_callBindings {tree : Tree} {function : Function} (functionToo : Every property (.function function))
    (inputs : List NodeId) {bound : List (String × Value)} (each : ∀ binding ∈ bound, Every property binding.2) :
    ∀ binding ∈ Machine.callBindings tree function inputs bound, Every property binding.2 := by
  unfold Machine.callBindings
  split
  · exact each
  · intro binding among
    rcases Scope.mem_setBinding among with rfl | old
    · exact functionToo
    · exact each binding old

/-- The inputs of a native are bound to arguments. -/
theorem every_inputs (names : List String) {arguments : List Value}
    (each : ∀ argument ∈ arguments, Every property argument) :
    ∀ binding ∈ (names.zip arguments).foldl (fun bound input => Scope.setBinding input.1 input.2 bound) [],
      Every property binding.2 := by
  intro binding among
  rcases Scope.mem_setBindings among with input | none
  · exact each _ (List.of_mem_zip input).2
  · simp at none

/-- The bindings of the natives are functions of registered natives. -/
theorem every_values {natives : Natives}
    (native : ∀ index, (natives.get? index).isSome → property (Natives.valueOf index)) :
    ∀ binding ∈ natives.values, Every property binding.2 := by
  intro binding among
  obtain ⟨index, -, is⟩ := List.mem_filterMap.mp among
  cases registered : natives.get? index with
  | none => simp [registered] at is
  | some found =>
    simp only [registered] at is
    split at is
    · cases is
      exact every_of_no_parts (native index (by simp [registered])) rfl
    · simp at is

end Rivulet.Value
