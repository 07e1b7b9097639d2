import Rivulet.Proofs.Machine.Course

/-!
What a host does with a machine. It starts evaluations, steps and runs them, calls functions and moves the cursor
in between, asks for pauses, and registers observers. While a run is under way others may ask for a pause at any
moment; `runAmid` is a run among such requests, and without any it is a plain run (`runAmid_nothing`).

Main statement: what steps, requests and an exhausted budget keep, a run keeps (`runAmid_keeps`).
-/

namespace Rivulet

namespace Machine

/-! ### Runs among requests -/

/-- The machine after others may have asked for a pause, or taken the wish back. -/
def heed (machine : Machine) : Option Bool → Machine
  | none => machine
  | some paused => { machine with paused }

/-- A run during which others may ask for a pause, or take the wish back, before each of its turns. -/
def runAmid (machine : Machine) (requests : Nat → Option Bool) : Nat → Machine × Except Fault RunOutcome
  | 0 =>
    let machine := machine.heed (requests 0)
    match machine.stop? with
    | some outcome => (machine, .ok outcome)
    | none => machine.exhaust
  | remaining + 1 =>
    let machine := machine.heed (requests 0)
    match machine.stop? with
    | some outcome => (machine, .ok outcome)
    | none =>
      match machine.step with
      | (machine, .error fault) => (machine, .error fault)
      | (machine, .ok _) => machine.runAmid (fun turn => requests (turn + 1)) remaining

/-- A run among no requests is a run. -/
theorem runAmid_nothing (machine : Machine) (limit : Nat) :
    machine.runAmid (fun _ => none) limit = machine.run limit := by
  induction limit generalizing machine with
  | zero =>
    unfold runAmid run heed
    dsimp only
    cases machine.stop? <;> rfl
  | succ limit hypothesis =>
    unfold runAmid run heed
    dsimp only
    cases machine.stop? with
    | some outcome => rfl
    | none =>
      cases machine.step with
      | mk second outcome =>
        cases outcome with
        | error fault => rfl
        | ok _ => exact hypothesis second

end Machine

/-! ### Deeds -/

/-- What a host does with a machine. -/
inductive Deed where
  | start (inputs : Inputs)
  | step
  /-- A run, and what others ask for before each of its turns. -/
  | run (limit : Nat) (requests : Nat → Option Bool)
  | call (function : Function) (arguments : List Value) (origin : NodeId)
  | jump (distance : Int)
  | pause
  | resume
  | observe (pauseAfter : Option Nat)
  | ignore (id : Nat)

/-- Whether a deed does no more than go on with an evaluation, or hold it up. -/
def Deed.goesOn : Deed → Bool
  | step | run _ _ | pause | resume => true
  | _ => false

namespace Machine

/-- Does something with a machine. -/
def perform (machine : Machine) : Deed → Machine × Except Fault Unit
  | .start inputs => (machine.start inputs, .ok ())
  | .step => (machine.step.1, machine.step.2.map fun _ => ())
  | .run limit requests =>
    ((machine.runAmid requests limit).1, (machine.runAmid requests limit).2.map fun _ => ())
  | .call function arguments origin => machine.call function arguments origin
  | .jump distance => machine.jump distance
  | .pause => (machine.pause, .ok ())
  | .resume => (machine.resume, .ok ())
  | .observe pauseAfter => ((machine.observe pauseAfter).2, .ok ())
  | .ignore id => ((machine.ignore id).2, .ok ())

/-- The machine after some deeds, whatever they returned. -/
def after (machine : Machine) (deeds : List Deed) : Machine :=
  deeds.foldl (fun machine deed => (machine.perform deed).1) machine

/-- None of some deeds, done one after the other, returns a fault. -/
def Accepts (machine : Machine) : List Deed → Prop
  | [] => True
  | deed :: deeds => (machine.perform deed).2 = .ok () ∧ (machine.perform deed).1.Accepts deeds

/-- What deeds without a fault keep holds after all of them. -/
theorem after_keeps {property : Machine → Prop} {machine : Machine} {deeds : List Deed}
    (keeps : ∀ machine, property machine → ∀ deed ∈ deeds, (machine.perform deed).2 = .ok () →
      property (machine.perform deed).1)
    (holds : property machine) (accepted : machine.Accepts deeds) : property (machine.after deeds) := by
  induction deeds generalizing machine with
  | nil => exact holds
  | cons deed deeds hypothesis =>
    refine hypothesis (fun machine holds other among => keeps machine holds other (by simp [among])) ?_ accepted.2
    exact keeps machine holds deed (by simp) accepted.1

/-- What holds of a machine after something was done with it: one thing after a fault, another one otherwise. -/
def EndsIn {α : Type} (property faulted : Machine → Prop) : Machine × Except Fault α → Prop
  | (machine, .ok _) => property machine
  | (machine, .error _) => faulted machine

/-- What happens to a machine in a run: others ask for a pause, it steps, or its budget is used up. -/
structure KeptByRuns (property faulted : Machine → Prop) : Prop where
  heed : ∀ machine request, property machine → property (machine.heed request)
  step : ∀ machine, machine.result = none → property machine → EndsIn property faulted machine.step
  exhaust : ∀ machine value, value.isException = true → machine.frames ≠ [] → property machine →
    property (machine.finishWith value)
  idle : ∀ machine, machine.result = none → machine.frames = [] → property machine → faulted machine

theorem stop?_eq_none {machine : Machine} (goes : machine.stop? = none) :
    machine.result = none ∧ machine.paused = false := by
  unfold stop? at goes
  split at goes
  · simp at goes
  · rename_i unfinished
    refine ⟨unfinished, ?_⟩
    simpa using goes

/-- A run keeps what steps, requests and an exhausted budget keep. -/
theorem runAmid_keeps {property faulted : Machine → Prop} (kept : KeptByRuns property faulted) {machine : Machine}
    (requests : Nat → Option Bool) (limit : Nat) (holds : property machine) :
    EndsIn property faulted (machine.runAmid requests limit) := by
  induction limit generalizing machine requests with
  | zero =>
    have heeded := kept.heed machine (requests 0) holds
    unfold runAmid
    dsimp only
    split
    · exact heeded
    · rename_i goes
      unfold exhaust
      split
      · rename_i none
        exact kept.idle _ (stop?_eq_none goes).1 none heeded
      · rename_i some
        exact kept.exhaust _ _ rfl some heeded
  | succ limit hypothesis =>
    have heeded := kept.heed machine (requests 0) holds
    unfold runAmid
    dsimp only
    split
    · exact heeded
    · rename_i goes
      have stepped := kept.step _ (stop?_eq_none goes).1 heeded
      split
      · rename_i fault is
        rw [is] at stepped
        exact stepped
      · rename_i outcome is
        rw [is] at stepped
        exact hypothesis _ stepped

end Machine

end Rivulet
