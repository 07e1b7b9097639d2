import Rivulet.Proofs.Machine.Reached
import Rivulet.Proofs.Meaning.Discipline

/-!
Exceptions do not become data by themselves. If neither the inputs of a program nor the scopes before it
hold exceptions, then its value does not, and neither do the scopes that it leaves.

Main statements: `program_regular`, and for runs `run_start_regular`.
-/

namespace Rivulet

/-- A value with no exception anywhere in it. -/
def Value.IsRegular (value : Value) : Prop :=
  value.Every fun part => part.isException = false

/-- All scopes of a store bind values without exceptions. -/
def Store.IsRegular (store : Store) : Prop :=
  store.Holds 0 Value.IsRegular

theorem Store.isRegular_empty : Store.empty.IsRegular := by
  intro id found _ there
  simp [Store.empty] at there

namespace Meaning

/-- No value holds an exception; what functions do is of no concern. -/
def regularity (setting : Setting) : Discipline setting where
  kind value := value.isException = false
  base := 0
  lax := True
  inside := Nat.zero_le _
  plain value plain := by
    cases value with
    | exception => simp [Value.isPlain] at plain
    | _ => rfl
  native _ _ := rfl
  closure _ _ _ _ _ := rfl
  renamed _ _ _ := rfl
  context _ _ _ _ := Nat.zero_le _
  callable _ _ := .inl trivial

/-- A program whose inputs hold no exceptions yields and leaves none, or halts with an exception. -/
theorem program_regular {tree : Tree} (formed : tree.WellFormed) (maxDepth : Nat) {store : Store}
    (before : store.IsRegular) {inputs : Inputs}
    (streams : ∀ stream ∈ inputs.streams, stream.2.IsRegular)
    (borrowed : ∀ borrow ∈ inputs.borrowed, borrow.2.IsRegular) :
    match program tree .standard maxDepth store inputs with
    | .ok value world => value.IsRegular ∧ world.store.IsRegular
    | .error (.exception value) _ => value.isException = true
    | .error (.fault _) _ => True := by
  have safe := program_safe maxDepth store (regularity _) formed before streams borrowed
  split
  · rename_i meant
    rw [meant] at safe
    exact ⟨safe.2, safe.1.holds⟩
  · rename_i meant
    rwa [meant] at safe
  · trivial

end Meaning

namespace Machine

open Meaning

/-- An evaluation whose inputs hold no exceptions ends with an exception, or with a value that holds none
and scopes that hold none. -/
theorem run_start_regular {tree : Tree} (formed : tree.WellFormed) {limits : Limits} {store : Store}
    (before : store.IsRegular) {inputs : Inputs}
    (streams : ∀ stream ∈ inputs.streams, stream.2.IsRegular)
    (borrowed : ∀ borrow ∈ inputs.borrowed, borrow.2.IsRegular) {budget : Nat} {last : Machine} {value : Value}
    (finished : ((create (.ofTree tree) .standard limits store).start inputs).run budget =
      (last, .ok (.finished value))) :
    value.isException = true ∨ value.IsRegular ∧ last.store.IsRegular := by
  let machine := create (.ofTree tree) .standard limits store
  have unobserved : machine.observers = [] := rfl
  have root : store.root.2.IsRegular := before.add ⟨by simp, by simp⟩
  have regular := program_regular formed limits.maxDepth root streams borrowed
  have same : Meaning.program tree .standard limits.maxDepth store.root.2 inputs = machine.meaning inputs := rfl
  rw [same] at regular
  have ended : ((machine.start inputs).run budget).2 = .ok (.finished value) := by
    rw [show (machine.start inputs).run budget = _ from finished]
  cases meant : machine.meaning inputs with
  | ok value' world =>
    rw [meant] at regular
    rcases run_start_of_meaning unobserved formed meant budget with ⟨last', ends, stored⟩ | exhausted
    · have same := finished.symm.trans ends
      cases same
      exact .inr ⟨regular.1, stored ▸ regular.2⟩
    · rw [ended] at exhausted
      cases exhausted
      exact .inl rfl
  | error halt world =>
    rw [meant] at regular
    obtain ⟨cost, ran⟩ := @run_start_eq_meaning machine unobserved formed inputs
    rw [ran, meant] at ended
    split at ended
    · cases halt with
      | exception exception =>
        cases ended
        exact .inl regular
      | fault fault => simp [report] at ended
    · cases ended
      exact .inl rfl

end Machine

end Rivulet
