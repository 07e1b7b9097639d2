import Rivulet.Proofs.Machine.Compilation

/-!
States that an evaluation reaches. An evaluation goes through one course to its result or to its fault
(`exists_course`), so whatever happens in a state that it reaches is part of what the program means.
-/

namespace Rivulet.Machine

open Meaning

/-- The visits of a program up to its value or its halt. -/
def visitsOf : EStateM.Result Halt World Value → List Visit
  | .ok _ world => world.visits
  | .error _ world => world.visits

/-- An evaluation that has been started goes on to a result or a fault, by way of the visits of the program. -/
theorem exists_course (machine : Machine) (unobserved : machine.observers = [])
    (formed : machine.tree.WellFormed) (inputs : Inputs) :
    ∃ count last, Course (machine.prepared inputs) count (visitsOf (machine.meaning inputs))
        (machine.start inputs) last ∧
      (last.result.isSome ∨ ∃ fault, (machine.prepared inputs).IsFaulty last fault) := by
  obtain ⟨count, visits, last, course, ended⟩ := exists_course_of_meaning (computesProgram_prepared unobserved formed inputs)
  cases computed : machine.meaning inputs with
  | ok value world =>
    rw [computed] at ended
    exact ⟨count, last, by rwa [visitsOf, ended.1], .inl (by simp [ended.2.1])⟩
  | error halt world =>
    rw [computed] at ended
    refine ⟨count, last, by rwa [visitsOf, ended.1], ?_⟩
    cases halt with
    | exception exception => exact .inl (by simp [show last.result = some exception from ended.2])
    | fault fault => exact .inr ⟨fault, ended.2⟩

/-- A run to the value of a program leaves the scopes that the program leaves. -/
theorem run_start_of_meaning {machine : Machine} (unobserved : machine.observers = [])
    (formed : machine.tree.WellFormed) {inputs : Inputs} {value : Value} {world : World}
    (meant : machine.meaning inputs = .ok value world) (budget : Nat) :
    (∃ last, (machine.start inputs).run budget = (last, .ok (.finished value)) ∧ last.store = world.store) ∨
      ((machine.start inputs).run budget).2 = .ok (.finished (stepLimitReached machine.tree)) := by
  obtain ⟨cost, visits, last, course, ended⟩ := exists_course_of_meaning (computesProgram_prepared unobserved formed inputs)
  rw [meant] at ended
  obtain ⟨-, finished, stored⟩ := ended
  have unpaused : (machine.prepared inputs).paused = false := rfl
  by_cases enough : cost ≤ budget
  · obtain ⟨more, rfl⟩ := Nat.exists_eq_add_of_le enough
    exact .inl ⟨last, by rw [run_along_course unpaused course, run_of_result finished], stored⟩
  · right
    rw [run_to_result unpaused course finished, if_neg enough]
    rfl

variable {machine first last : Machine} {store : Store} {frame : Frame} {rest : List Frame}
  {count count' taken : Nat} {visits visits' : List Visit} {id : NodeId} {name : String}

/-- Completing a reference is no misuse, whether its name is bound or not. -/
theorem step_of_reference (next : frame.current? = some (.finish id))
    (is : machine.tree.form? id = some (.reference name)) :
    ∃ second outcome, (machine.inState store (frame :: rest) taken).step = (second, .ok outcome) := by
  rw [step_inState next]
  simp only [execute, finish, inState_tree, is, inState_store]
  cases store.lookup frame.scope name with
  | some value => exact ⟨_, _, rfl⟩
  | none => exact ⟨_, _, rfl⟩

theorem visit?_of_reference (next : frame.current? = some (.finish id))
    (is : machine.tree.form? id = some (.reference name)) :
    (machine.inState store (frame :: rest) taken).visit? = some ⟨id, frame.scope, store⟩ := by
  simp [visit?, next, is, Form.readsScope]

/-- A reference that is about to be completed is among the visits of the whole evaluation. -/
theorem mem_visits_of_reference (whole : Course machine count visits first last)
    (ended : last.result.isSome ∨ ∃ fault, machine.IsFaulty last fault)
    (course : Course machine count' visits' first (machine.inState store (frame :: rest) taken))
    (next : frame.current? = some (.finish id)) (is : machine.tree.form? id = some (.reference name)) :
    ∃ later, visits = visits' ++ ⟨id, frame.scope, store⟩ :: later := by
  by_cases further : count' < count
  · obtain ⟨more, rfl⟩ : ∃ more, count = count' + (more + 1) := ⟨count - count' - 1, by omega⟩
    obtain ⟨later, rfl, goes_on⟩ := course.goes_on whole
    obtain ⟨-, _, _, last, -, rfl, -⟩ := goes_on.cases_succ
    exact ⟨last, by rw [visit?_of_reference next is]; rfl⟩
  · -- Otherwise the evaluation went on from where it ended.
    obtain ⟨more, rfl⟩ : ∃ more, count' = count + more := ⟨count' - count, by omega⟩
    obtain ⟨later, rfl, goes_on⟩ := whole.goes_on course
    have running : last.result = none ∧ ∃ second outcome, last.step = (second, .ok outcome) := by
      cases more with
      | zero =>
        generalize reached : machine.inState store (frame :: rest) taken = state at goes_on
        cases goes_on
        exact ⟨by rw [← reached]; rfl, reached ▸ step_of_reference next is⟩
      | succ more =>
        obtain ⟨none, second, outcome, -, stepped, -, -⟩ := goes_on.cases_succ
        exact ⟨none, second, outcome, stepped⟩
    obtain ⟨none, second, outcome, stepped⟩ := running
    rcases ended with finished | ⟨fault, _, _, _, _, _, rfl, stepped'⟩
    · simp [none] at finished
    · simp [stepped] at stepped'

end Rivulet.Machine
