import Mathlib.Logic.Relation
import Rivulet.Proofs.Host.Restart

/-!
The moments of an evaluation. From one moment to the next a machine takes a step, or its host does something that
neither starts another evaluation nor moves the cursor; a run is many such moments (`becomes_perform`). An invariant
that faults and calls from outside do not break holds at all of them (`Satisfies.later`).
-/

namespace Rivulet

open Relation

/-- Whether a deed neither starts an evaluation nor moves the cursor. -/
def Deed.staysOnCourse : Deed → Bool
  | .start _ | .jump _ => false
  | _ => true

namespace Machine

/-- What a machine may be at the next moment of an evaluation. The functions that its host supplies captured scopes of
the machine. -/
inductive Becomes (machine : Machine) : Machine → Prop where
  | step : Becomes machine machine.step.1
  /-- A run ends an evaluation when its budget is used up. -/
  | exhaust (exception : Value) : Becomes machine (machine.finishWith exception)
  | heed (request : Option Bool) : Becomes machine (machine.heed request)
  | call (function : Function) (arguments : List Value) (origin : NodeId)
      (captured : ∀ scope, function.context = some scope → scope < machine.store.scopes.size)
      (within : ∀ argument ∈ arguments, argument.IsWithin machine.store.scopes.size) :
      Becomes machine (machine.call function arguments origin).1
  | observe (pauseAfter : Option Nat) : Becomes machine (machine.observe pauseAfter).2
  | ignore (id : Nat) : Becomes machine (machine.ignore id).2

/-- All that happens in a run are moments, one after the other. -/
theorem becomes_runAmid (machine : Machine) (requests : Nat → Option Bool) (limit : Nat) :
    ReflTransGen Becomes machine (machine.runAmid requests limit).1 := by
  have kept : KeptByRuns (ReflTransGen Becomes machine) (ReflTransGen Becomes machine) :=
    { heed := fun _ request before => before.tail (.heed request)
      step := fun now _ before => by
        have after := before.tail (@Becomes.step now)
        generalize now.step = ended at after
        obtain ⟨second, outcome⟩ := ended
        cases outcome <;> exact after
      exhaust := fun _ value _ _ before => before.tail (.exhaust value)
      idle := fun _ _ _ before => before }
  have after := runAmid_keeps kept requests limit .refl
  generalize machine.runAmid requests limit = ended at after
  obtain ⟨last, outcome⟩ := ended
  cases outcome <;> exact after

/-- What a host does in an evaluation are moments, one after the other. -/
theorem becomes_perform {tree : Tree} {natives : Natives} {makeNone : natives.MakeNoFunctions} {machine : Machine}
    {deed : Deed} (stays : deed.staysOnCourse = true)
    (supplies : deed.Supplies (.existing tree makeNone) machine.store.scopes.size) :
    ReflTransGen Becomes machine (machine.perform deed).1 := by
  cases deed with
  | start inputs => simp [Deed.staysOnCourse] at stays
  | jump distance => simp [Deed.staysOnCourse] at stays
  | step => exact .single .step
  | run limit requests => exact becomes_runAmid machine requests limit
  | call function arguments origin => exact .single (.call function arguments origin supplies.1 supplies.2)
  | pause => exact .single (.heed (some true))
  | resume => exact .single (.heed (some false))
  | observe pauseAfter => exact .single (.observe pauseAfter)
  | ignore id => exact .single (.ignore id)

/-! ### Invariants at all moments -/

/-- An invariant that faults and calls from outside do not break. -/
structure Invariant.Lasts {tree : Tree} {natives : Natives} {law : Law tree natives} {limits : Limits}
    (invariant : Invariant law limits) : Prop where
  faulted : ∀ {step : Step} {depth : Nat} {active active' : Frame} {store store' : Store} {fault : Fault},
    invariant.frame store active → Move law limits step depth store active store' active' (.error fault) →
      invariant.frame store' active'
  called : ∀ {store store' : Store}, invariant.scopes store → (∀ own, store.Evolves natives.BindNothing own store') →
    invariant.scopes store'

section

variable {program : Program} {natives : Natives} {limits : Limits} {law : Law program.tree natives}
  {invariant : Invariant law limits} {machine : Machine}

theorem Satisfies.step (satisfies : machine.Satisfies program natives limits invariant) (lasts : invariant.Lasts) :
    machine.step.1.Satisfies program natives limits invariant := by
  cases stepped : machine.step with
  | mk second outcome =>
    cases outcome with
    | ok outcome => exact step_satisfies satisfies stepped
    | error fault =>
      have scopes := step_scopes satisfies
      have abides := step_abides satisfies.abides
      obtain ⟨abides', scopes', frames⟩ := satisfies
      obtain ⟨rfl, rfl, rfl, -⟩ := id abides'
      have comes := step_comesTo abides'
      rw [stepped] at comes scopes abides
      refine ⟨abides, scopes, ?_⟩
      cases comes with
      | idle result active => exact frames
      | completed result active current concludes =>
        rcases concludes with ⟨_, _, _, _, impossible, -⟩ | ⟨_, _, _, _, _, impossible⟩ <;> cases impossible
      | moved result active current move concludes =>
        rcases concludes with ⟨_, _, _, _, impossible, -⟩ | ⟨_, _, _, _, _, impossible⟩ <;> cases impossible
      | @faulted frame frame' rest _ store' _ result active current move =>
        rw [active] at frames
        intro other among
        rcases List.mem_cons.mp among with rfl | below
        · exact lasts.faulted (frames frame (by simp)) move
        · exact invariant.grown (frames other (by simp [below])) move.evolves

/-- What holds of a machine and its frames holds when some are completed. -/
theorem Satisfies.completeFrames (satisfies : machine.Satisfies program natives limits invariant) :
    machine.completeFrames.Satisfies program natives limits invariant where
  abides := completeFrames_abides satisfies.abides
  scopes := by
    rw [store_completeFrames]
    exact satisfies.scopes
  frames := by
    rw [store_completeFrames]
    exact completeFrames_keeps (fun _ value here => invariant.pushed value here) satisfies.frames

theorem Satisfies.finishWith (satisfies : machine.Satisfies program natives limits invariant) (value : Value) :
    (machine.finishWith value).Satisfies program natives limits invariant :=
  ⟨finishWith_abides satisfies.abides value, satisfies.scopes, fun _ among => absurd among List.not_mem_nil⟩

theorem Satisfies.dropResult (satisfies : machine.Satisfies program natives limits invariant) :
    machine.dropResult.Satisfies program natives limits invariant where
  abides := dropResult_abides satisfies.abides
  scopes := by
    rw [store_dropResult]
    exact satisfies.scopes
  frames := by
    rw [store_dropResult, frames_dropResult]
    exact satisfies.frames

theorem Satisfies.enterCall (satisfies : machine.Satisfies program natives limits invariant)
    (lasts : invariant.Lasts) {function : Function} (allowed : law.allows machine.store.scopes.size function)
    {arguments : List Value} (admits : ∀ argument ∈ arguments, law.Admits machine.store.scopes.size argument)
    (origin : NodeId) :
    (machine.enterCall function arguments origin).1.Satisfies program natives limits invariant := by
  have abides := enterCall_abides satisfies.abides allowed admits origin
  obtain ⟨abides', scopes, frames⟩ := satisfies
  obtain ⟨rfl, rfl, rfl, -⟩ := id abides'
  obtain ⟨store', outcome, started, calls⟩ := startCall_calls abides'.store abides'.root allowed admits origin
  have scopes' := lasts.called scopes calls.evolves
  have older : ∀ frame ∈ machine.frames, invariant.frame store' frame := fun frame among =>
    invariant.grown (frames frame among) (calls.evolves machine.root)
  unfold Machine.enterCall at abides ⊢
  rw [started] at abides ⊢
  rcases calls.opens with ⟨fault, rfl⟩ | ⟨exception, rfl, -⟩ | ⟨above, rfl, opened, grows⟩
  · exact ⟨abides, scopes', older⟩
  · refine ⟨abides, ?_, ?_⟩
    · simpa using scopes'
    · exact completeFrames_keeps (fun _ value here => invariant.pushed value here)
        fun _ among => absurd among List.not_mem_nil
  · refine ⟨abides, ?_, ?_⟩
    · simpa using scopes'
    · rw [store_completeFrames]
      refine completeFrames_keeps (fun _ value here => invariant.pushed value here) fun frame among => ?_
      rcases List.mem_cons.mp among with rfl | below
      · exact invariant.opened opened grows scopes
      · exact older frame below

end

section

variable {program : Program} {natives : Natives} {limits : Limits} {makeNone : natives.MakeNoFunctions}
  {invariant : Invariant (Law.existing program.tree makeNone) limits} {machine next last : Machine}

theorem Satisfies.becomes (satisfies : machine.Satisfies program natives limits invariant)
    (lasts : invariant.Lasts) (becomes : machine.Becomes next) :
    next.Satisfies program natives limits invariant := by
  cases becomes with
  | step => exact satisfies.step lasts
  | exhaust exception => exact satisfies.finishWith exception
  | heed request =>
    have abides := heed_abides satisfies.abides request
    cases request <;> exact ⟨abides, satisfies.scopes, satisfies.frames⟩
  | call function arguments origin captured within =>
    rw [call_eq]
    refine satisfies.dropResult.enterCall lasts ?_ ?_ origin
    · rw [store_dropResult]
      exact captured
    · rw [store_dropResult]
      exact within
  | observe pauseAfter =>
    have abides := @perform_abides _ _ _ _ _ satisfies.abides (.observe pauseAfter) trivial
    exact ⟨abides, satisfies.scopes, satisfies.frames⟩
  | ignore id =>
    have abides := @perform_abides _ _ _ _ _ satisfies.abides (.ignore id) trivial
    exact ⟨abides, satisfies.scopes, satisfies.frames⟩

/-- What lasts holds at every later moment. -/
theorem Satisfies.later (satisfies : machine.Satisfies program natives limits invariant) (lasts : invariant.Lasts)
    (later : ReflTransGen Becomes machine last) : last.Satisfies program natives limits invariant := by
  induction later with
  | refl => exact satisfies
  | tail _ becomes hypothesis => exact hypothesis.becomes lasts becomes

end

end Machine

end Rivulet
