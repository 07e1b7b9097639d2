import Rivulet.Proofs.Machine.Compilation
import Rivulet.Proofs.Machine.Natives

/-!
Values that can leave their program. A function that a program defines is known by its node, which means nothing in
the tree of another program; a native is the same everywhere. A program whose inputs hold no functions other than
natives never misuses the host (`run_start_finishes_portable`), and if it defines none itself its value holds none
either (`run_start_portable`).
-/

namespace Rivulet

/-- A function that is the same in every program. -/
structure Function.IsPortable (function : Function) : Prop where
  native : ∃ index, function.callee = .native index ∧ ((Natives.standard : Natives).get? index).isSome
  free : function.context = none

/-- A value that holds no functions other than natives. -/
def Value.IsPortable (value : Value) : Prop :=
  value.Every fun part => ∀ function, part = .function function → function.IsPortable

theorem Value.isPortable_of_isException {value : Value} (exception : value.isException = true) : value.IsPortable := by
  cases value with
  | exception => exact every_of_no_parts (by simp) rfl
  | _ => simp [isException] at exception

theorem Value.isPortable_of_isData {value : Value} (data : value.IsData) : value.IsPortable := by
  refine data.mono fun part plain => ?_
  rintro function rfl
  simp [isPlain] at plain

namespace Meaning

variable {setting : Setting}

theorem callable_of_portable (standard : setting.natives = .standard) {function : Function}
    (portable : function.IsPortable) : Callable setting function := by
  obtain ⟨index, callee, registered⟩ := portable.native
  refine ⟨by simp [callee], fun other is => ?_⟩
  rw [callee] at is
  cases is
  exact standard ▸ registered

theorem sound_of_portable (standard : setting.natives = .standard) {value : Value} (portable : value.IsPortable) :
    Sound (soundness setting) value := by
  refine portable.mono fun part portable => ?_
  rintro function rfl
  have portable := portable function rfl
  exact ⟨callable_of_portable standard portable, by simp [portable.free]⟩

/-- Without definitions all functions are natives. -/
def portability (setting : Setting) (standard : setting.natives = .standard) (plain : setting.tree.IsPlain) :
    Discipline setting where
  kind part := ∀ function, part = .function function → function.IsPortable
  base := setting.root
  lax := False
  inside := (soundness setting).inside
  plain value plain := by
    rintro function rfl
    simp [Value.isPlain] at plain
  native index registered := by
    rintro _ ⟨⟩
    exact ⟨⟨index, rfl, standard ▸ registered⟩, rfl⟩
  closure id context name defined := by simp [plain id] at defined
  renamed function name kind := by
    rintro _ ⟨⟩
    exact ⟨(kind function rfl).native, (kind function rfl).free⟩
  context function scope kind is := by simp [(kind function rfl).free] at is
  callable function kind := .inr (callable_of_portable standard (kind function rfl))

end Meaning

namespace Machine

open Meaning

section

variable {tree : Tree} (formed : tree.WellFormed) (limits : Limits) (store : Store) {inputs : Inputs}
  (streams : ∀ stream ∈ inputs.streams, stream.2.IsPortable) (borrowed : ∀ borrow ∈ inputs.borrowed, borrow.2.IsPortable)
  (budget : Nat)

include formed streams borrowed

/-- An evaluation whose inputs are portable ends with a value. -/
theorem run_start_finishes_portable :
    ∃ value, (((create (.ofTree tree) .standard limits store).start inputs).run budget).2 = .ok (.finished value) := by
  let machine := create (.ofTree tree) .standard limits store
  obtain ⟨cost, ran⟩ := @run_start_eq_meaning machine rfl formed inputs
  rw [ran]
  split
  · have safe := program_safe limits.maxDepth store.root.2 (soundness _) formed (Store.holds_of_size_le (Nat.le_refl _))
      (fun stream among => sound_of_portable rfl (streams stream among))
      fun borrow among => sound_of_portable rfl (borrowed borrow among)
    have same : Meaning.program tree .standard limits.maxDepth store.root.2 inputs = machine.meaning inputs := rfl
    rw [same] at safe
    cases meant : machine.meaning inputs with
    | ok value world => exact ⟨value, rfl⟩
    | error halt world =>
      rw [meant] at safe
      cases halt with
      | exception exception => exact ⟨exception, rfl⟩
      | fault fault => exact safe.elim
  · exact ⟨_, rfl⟩

/-- A program without definitions has a portable value if its inputs are portable. -/
theorem run_start_portable (plain : tree.IsPlain) {value : Value}
    (finished : (((create (.ofTree tree) .standard limits store).start inputs).run budget).2 = .ok (.finished value)) :
    value.IsPortable := by
  let machine := create (.ofTree tree) .standard limits store
  obtain ⟨cost, ran⟩ := @run_start_eq_meaning machine rfl formed inputs
  rw [ran] at finished
  have safe := @program_safe tree limits.maxDepth store.root.2 inputs (portability _ rfl plain) formed
    (Store.holds_of_size_le (Nat.le_refl _)) streams borrowed
  have same : Meaning.program tree .standard limits.maxDepth store.root.2 inputs = machine.meaning inputs := rfl
  rw [same] at safe
  split at finished
  · cases meant : machine.meaning inputs with
    | ok value world =>
      rw [meant] at safe finished
      cases finished
      exact safe.2
    | error halt world =>
      rw [meant] at safe finished
      cases halt with
      | exception exception =>
        cases finished
        exact Value.isPortable_of_isException safe
      | fault fault => exact safe.elim
  · cases finished
    exact Value.isPortable_of_isException rfl

end

end Machine

end Rivulet
