import Rivulet.Proofs.Machine.Calls
import Rivulet.Proofs.Meaning.Recursion
import Rivulet.Proofs.Meaning.Soundness

/-!
Compiled programs. The steps of a program come to what the program means by recursion over its nodes:
to the same value, the same exception or the same fault, by way of the same visits. With data for
inputs there is no fault.

Main statements: `run_start_eq_meaning` and `run_start_finishes`.
-/

namespace Rivulet

namespace Meaning

/-- What a host sees of a computation. -/
def report : EStateM.Result Halt World Value → Except Fault Machine.RunOutcome
  | .ok value _ => .ok (.finished value)
  | .error (.exception exception) _ => .ok (.finished exception)
  | .error (.fault fault) _ => .error fault

end Meaning

namespace Machine

open Meaning

/-- A machine at the start of an evaluation, without frames yet. -/
def prepared (machine : Machine) (inputs : Inputs) : Machine :=
  { machine with
    root := (outerScopes machine.natives inputs.streams machine.store).1
    trigger := inputs.trigger
    borrowed := inputs.borrowed.reverse
    paused := false }

/-- What a program means on a machine. -/
def meaning (machine : Machine) (inputs : Inputs) : EStateM.Result Halt World Value :=
  Meaning.program machine.tree machine.natives machine.limits.maxDepth machine.store inputs

/-- The sequence of the program computes what the program means. -/
def ComputesProgram (machine : Machine) : Prop :=
  Computes machine (machine.limits.maxDepth - 1) (machine.tree.code machine.tree.root)
    (node machine.setting (machine.limits.maxDepth - 1) · machine.tree.root)

theorem computesProgram_of_wellFormed {machine : Machine} (unobserved : machine.observers = [])
    (formed : machine.tree.WellFormed) : machine.ComputesProgram :=
  computes_node unobserved formed (follows_callTo unobserved formed (machine.limits.maxDepth - 1))
    (callTo_keeps machine.setting _) machine.tree.root formed.root_no_pair

/-- A program that has been started tracks its meaning to a result or a fault. -/
theorem tracks_program {machine : Machine} (computes : machine.ComputesProgram) (world : World) (scope : ScopeId)
    (taken : Nat) :
    Tracks machine (machine.inState world.store
        [.start .program machine.tree.root (machine.tree.code machine.tree.root).toArray scope] taken) world
      (node machine.setting (machine.limits.maxDepth - 1) scope machine.tree.root)
      fun value store last => last.result = some value ∧ last.store = store := by
  let frame : Frame := .start .program machine.tree.root (machine.tree.code machine.tree.root).toArray scope
  have ahead : frame.Ahead (machine.tree.code machine.tree.root ++ []) := by
    simp [Frame.Ahead, frame, Frame.start]
  have whole := computes frame [] [] world taken ahead (by simp)
  refine tracks_mono whole ?_
  rintro value store last ⟨taken', rfl⟩
  have done : (frame.after _ (value :: frame.values)).Ahead [] := ahead.after
  exact ⟨completeFrames_of_last done.isExhausted_eq_true rfl, store_completeFrames⟩

/-- An evaluation starts at the first step of its program, in the scope of the program. -/
theorem start_eq_inState (machine : Machine) (inputs : Inputs) :
    let outer := outerScopes machine.natives inputs.streams machine.store
    machine.start inputs = (machine.prepared inputs).inState outer.2.2
      [.start .program machine.tree.root (machine.tree.code machine.tree.root).toArray outer.2.1] 0 := by
  rw [start_eq]
  rfl

/-- An evaluation that has been started goes through one course to the value, the exception or the fault that the
program means. -/
theorem exists_course_of_meaning {machine : Machine} {inputs : Inputs}
    (computes : (machine.prepared inputs).ComputesProgram) :
    ∃ count visits last, Course (machine.prepared inputs) count visits (machine.start inputs) last ∧
      match machine.meaning inputs with
      | .ok value world => world.visits = visits ∧ last.result = some value ∧ last.store = world.store
      | .error halt world => world.visits = visits ∧ Ends (machine.prepared inputs) last halt := by
  have tracked := @tracks_program (machine.prepared inputs) computes
    ⟨(outerScopes machine.natives inputs.streams machine.store).2.2, []⟩
    (outerScopes machine.natives inputs.streams machine.store).2.1 0
  unfold Tracks at tracked
  have same : node (machine.prepared inputs).setting ((machine.prepared inputs).limits.maxDepth - 1)
      (outerScopes machine.natives inputs.streams machine.store).2.1 (machine.prepared inputs).tree.root
      ⟨(outerScopes machine.natives inputs.streams machine.store).2.2, []⟩ = machine.meaning inputs := rfl
  rw [same] at tracked
  rw [start_eq_inState]
  cases computed : machine.meaning inputs with
  | ok value world =>
    rw [computed] at tracked
    obtain ⟨count, visits, last, course, made, finished⟩ := tracked
    exact ⟨count, visits, last, course, by simpa using made, finished⟩
  | error halt world =>
    rw [computed] at tracked
    obtain ⟨count, visits, last, course, made, ended⟩ := tracked
    exact ⟨count, visits, last, course, by simpa using made, ended⟩

/-- A run comes to the meaning of the program within a sufficient budget, and to the exception of an
exhausted budget otherwise. -/
theorem run_start_of_computes {machine : Machine} {inputs : Inputs}
    (computes : (machine.prepared inputs).ComputesProgram) :
    ∃ cost, ∀ budget, ((machine.start inputs).run budget).2 =
      if cost ≤ budget then report (machine.meaning inputs)
      else .ok (.finished (stepLimitReached machine.tree)) := by
  obtain ⟨count, visits, last, course, ended⟩ := exists_course_of_meaning computes
  have unpaused : (machine.prepared inputs).paused = false := rfl
  cases computed : machine.meaning inputs with
  | ok value world =>
    rw [computed] at ended
    exact ⟨count, run_to_result unpaused course ended.2.1⟩
  | error halt world =>
    rw [computed] at ended
    cases halt with
    | exception exception => exact ⟨count, run_to_result unpaused course ended.2⟩
    | fault fault => exact ⟨count + 1, run_to_fault unpaused course ended.2⟩

section

variable {machine : Machine} (unobserved : machine.observers = [])
  (formed : machine.tree.WellFormed) (inputs : Inputs)

include unobserved formed

theorem computesProgram_prepared : (machine.prepared inputs).ComputesProgram :=
  @computesProgram_of_wellFormed (machine.prepared inputs) unobserved formed

/-- A run comes to the meaning of the program within a sufficient budget, and to the exception of an
exhausted budget otherwise. -/
theorem run_start_eq_meaning :
    ∃ cost, ∀ budget, ((machine.start inputs).run budget).2 =
      if cost ≤ budget then report (machine.meaning inputs)
      else .ok (.finished (stepLimitReached machine.tree)) :=
  run_start_of_computes (computesProgram_prepared unobserved formed inputs)

/-- With data for inputs an evaluation ends with the value or the exception that the program means,
and otherwise with the exception of an exhausted budget. -/
theorem run_start_finishes (standard : machine.natives = .standard)
    (streams : ∀ stream ∈ inputs.streams, stream.2.IsData)
    (borrowed : ∀ borrow ∈ inputs.borrowed, borrow.2.IsData) :
    ∃ result cost, report (machine.meaning inputs) = .ok (.finished result) ∧
      ∀ budget, ((machine.start inputs).run budget).2 =
        .ok (.finished (if cost ≤ budget then result else stepLimitReached machine.tree)) := by
  obtain ⟨cost, ran⟩ := run_start_eq_meaning unobserved formed inputs
  have decided : ∃ result, report (machine.meaning inputs) = .ok (.finished result) := by
    cases computed : machine.meaning inputs with
    | ok value world => exact ⟨value, rfl⟩
    | error halt world =>
      cases halt with
      | exception exception => exact ⟨exception, rfl⟩
      | fault fault =>
        unfold meaning at computed
        rw [standard] at computed
        exact absurd computed (program_ne_fault formed _ _ streams borrowed fault world)
  obtain ⟨result, reported⟩ := decided
  refine ⟨result, cost, reported, fun budget => ?_⟩
  rw [ran budget, reported]
  split <;> rfl

end

/-- A function that doubles its input, which is two unless the caller supplies it, and a call of it. -/
def doubling : Tree where
  nodes := #[
    ⟨.number "2" .unitless, .none⟩,
    ⟨.bind "n" (.node 0) none false, .none⟩,
    ⟨.reference "n", .none⟩,
    ⟨.binary .add (.node 2) (.node 2), .none⟩,
    ⟨.function "" ⟨0, 1⟩ (.node 3) none, .none⟩,
    ⟨.bind "double" (.node 4) none false, .none⟩,
    ⟨.reference "double", .none⟩,
    ⟨.call (.node 6) ⟨3, 0⟩, .none⟩,
    ⟨.block ⟨1, 2⟩, .none⟩,
    ⟨.program (.node 8), .none⟩]
  lists := #[.node 1, .node 5, .node 7]
  root := .node 9

theorem run_doubling_finishes :
    ∃ result cost, report ((create (.ofTree doubling) .standard ⟨1000, 10⟩ .empty).meaning {}) =
        .ok (.finished result) ∧
      ∀ budget, (((create (.ofTree doubling) .standard ⟨1000, 10⟩ .empty).start {}).run budget).2 =
        .ok (.finished (if cost ≤ budget then result else stepLimitReached doubling)) :=
  run_start_finishes rfl (Tree.wellFormed_of_isOrderly (by decide)) {} rfl (by simp) (by simp)

end Machine

end Rivulet
