import Rivulet.Machine.Finish
import Rivulet.Machine.Loop

/-!
Running a machine: one step, many steps under a budget, and what a host may do in between.

A failing step yields an exception in place of its value. There are no handlers, so the machine then
drops every frame, and the exception becomes the final value.
-/

namespace Rivulet

namespace Machine

variable {N : Type} [DecidableEq N] [Naming N]

/-! ### One step -/

/-- Binds the value on top of the stack and leaves it there. An anonymous function takes the name
that it is bound to. -/
def bindTop (machine : Machine N) (frame : Frame N) (node : NodeId) : Effect N :=
  match machine.tree.form? node with
  | some (.bind name _ _ _) =>
    match frame.peek? with
    | none => machine.fail .expectedValue node
    | some value =>
      let value :=
        match value with
        | .function function =>
          if function.name = Naming.anonymous then .function { function with name } else value
        | _ => value
      machine.bindName frame.scope name value node .proceed
  | _ => (machine, .error (.uncompilable node))

/-- Takes a boolean off the stack and jumps if it is false. -/
def jumpUnless (machine : Machine N) (frame : Frame N) (node : NodeId) (distance : Int) : Effect N :=
  match frame.pop? with
  | none => machine.fail .expectedValue node
  | some (.boolean true, rest) => (machine.setTop rest).flow .proceed
  | some (.boolean false, rest) => machine.jumpTop rest distance
  | some (other, _) => machine.mismatch .boolean other node

/-- Keeps a boolean that decides a logical operator and jumps, or drops one that does not. -/
def branch (machine : Machine N) (frame : Frame N) (node : NodeId) (whenValue : Bool)
    (distance : Int) : Effect N :=
  match frame.pop? with
  | none => machine.fail .expectedValue node
  | some (.boolean value, rest) =>
    if value == whenValue then machine.jumpTop frame distance
    else (machine.setTop rest).flow .proceed
  | some (other, _) => machine.mismatch .boolean other node

/-- Jumps over the default of an input that is bound. -/
def skipIfBound (machine : Machine N) (frame : Frame N) (input : NodeId) (distance : Int) : Effect N :=
  match machine.tree.form? input with
  | some (.bind name _ _ _) =>
    if machine.store.bindsLocally frame.scope name then machine.jumpTop frame distance
    else machine.flow .proceed
  | _ => (machine, .error (.uncompilable input))

/-- Takes arguments and a function off the stack and calls the function. -/
def callTop (machine : Machine N) (frame : Frame N) (node : NodeId) (arity : Nat) : Effect N :=
  match frame.popMany? arity with
  | none => machine.fail .expectedValue node
  | some (arguments, rest) =>
    match rest.pop? with
    | none => machine.fail .expectedValue node
    | some (.function function, rest) => (machine.setTop rest).startCall function arguments node
    | some (other, _) => machine.mismatch .function other node

/-- Builds an instance of a record from the inputs bound in the frame; an unbound one is none. -/
def instantiate (machine : Machine N) (frame : Frame N) (definition : NodeId) : Effect N :=
  match machine.tree.form? definition with
  | some (.record _ inputs) =>
    let names := (machine.tree.list inputs).filterMap fun input =>
      (machine.tree.form? input).bind Form.declaredName?
    let fields := names.map fun name =>
      (name, (machine.store.local? frame.scope name).getD .none)
    machine.flow (.push (.record definition fields))
  | _ => (machine, .error (.notCallable definition))

/-- Runs a native that takes one step. -/
def applyNative (machine : Machine N) (frame : Frame N) (index : Nat) : Effect N :=
  match machine.natives.get? index with
  | some ⟨_, inputs, _, .apply run⟩ =>
    let values := inputs.map fun name => (machine.store.local? frame.scope name).getD .none
    let (value, bindings) := run ⟨frame.origin, values⟩ frame.scope machine.store
    { machine with store := machine.store.bindFor frame.scope bindings }.flow
      (if value.isException then .throw value else .push value)
  | _ => (machine, .error (.unknownNative index))

/-- Runs a step in the topmost frame. -/
def execute (machine : Machine N) (frame : Frame N) (step : Step) : Effect N :=
  match step with
  | .finish node => machine.finish frame node
  | .enter _ =>
    let (scope, store) := machine.store.child frame.scope
    ({ machine with store }.setTop { frame with scope }).flow .proceed
  | .bind node => machine.bindTop frame node
  | .jump distance => machine.jumpTop frame distance
  | .jumpUnless node distance => machine.jumpUnless frame node distance
  | .branch node whenValue distance => machine.branch frame node whenValue distance
  | .skipIfBound input distance => machine.skipIfBound frame input distance
  | .call node arity => machine.callTop frame node arity
  | .instantiate definition => machine.instantiate frame definition
  | .expected node => machine.fail .expectedValue node
  | .apply index => machine.applyNative frame index
  | .loop op phase => machine.loopStep frame op phase

/-! ### Completing frames -/

/-- Pops the topmost frames that have no step left and hands their value to their caller; the value
of the last frame is the final one. A frame without a value ends the evaluation, and so does one
that yields an exception. -/
def completeFrames (machine : Machine N) : Machine N :=
  match machine.frames with
  | [] => machine
  | frame :: _ =>
    if !frame.isExhausted then machine
    else
      let value := frame.peek?.getD (.failed .expectedValue frame.origin)
      if value.isException then machine.finishWith value
      else
        match machine.stack.pop.deliver value with
        | (stack, none) => { machine with stack }
        | (_, some final) => machine.finishWith final

/-- Lets the topmost frame go on with a flow that is no exception. -/
def proceed (machine : Machine N) (flow : Flow N) : Machine N :=
  match machine.frames with
  | [] => machine
  | frame :: _ =>
    match flow with
    | .push value => machine.setTop (frame.push value).advance
    | .start above => { machine with stack := (machine.stack.setTop frame.advance).push above }
    | .proceed | .throw _ => machine.setTop frame.advance

/-- What a step came to. -/
inductive StepOutcome (N : Type := String) where
  | pending
  | finished (value : Value N)

/-- Whether an evaluation is over, and with which value. -/
def outcome (machine : Machine N) : StepOutcome N :=
  match machine.result with
  | some value => .finished value
  | none => .pending

/-- Runs exactly one step of the topmost frame and completes the frames that it exhausts. A machine
that has finished stays as it is. -/
def step (machine : Machine N) : Machine N × Except Fault (StepOutcome N) :=
  match machine.result with
  | some value => (machine, .ok (.finished value))
  | none =>
    match machine.frames with
    | [] => (machine, .error .notStarted)
    | frame :: _ =>
      match frame.current? with
      | none =>
        let machine := machine.completeFrames
        (machine, .ok machine.outcome)
      | some step =>
        match { machine with stepsTaken := machine.stepsTaken + 1 }.execute frame step with
        | (machine, .error fault) => (machine, .error fault)
        | (machine, .ok (.throw exception)) =>
          let machine := (machine.notifyStep step machine.depth).finishWith exception
          (machine, .ok machine.outcome)
        | (machine, .ok flow) =>
          let depth := machine.depth
          let machine := (machine.proceed flow).completeFrames.notifyStep step depth
          (machine, .ok machine.outcome)

/-! ### Runs -/

/-- What a run came to. -/
inductive RunOutcome (N : Type := String) where
  | finished (value : Value N)
  /-- A pause was asked for; another run goes on. -/
  | suspended

/-- Ends an evaluation whose budget has run out. -/
def exhaust (machine : Machine N) : Machine N × Except Fault (RunOutcome N) :=
  match machine.frames with
  | [] => (machine, .error .notStarted)
  | _ =>
    let exception := Value.failed .stepLimit machine.tree.root
    (machine.finishWith exception, .ok (.finished exception))

/-- Why a run has to stop before its next step, if it has to. -/
def stop? (machine : Machine N) : Option (RunOutcome N) :=
  match machine.result with
  | some value => some (.finished value)
  | none => if machine.paused then some .suspended else none

/-- Steps until the evaluation is over, a pause is asked for, or a number of steps has been taken;
running out of steps ends the evaluation with an exception at the root. -/
def run (machine : Machine N) : Nat → Machine N × Except Fault (RunOutcome N)
  | 0 =>
    match machine.stop? with
    | some outcome => (machine, .ok outcome)
    | none => machine.exhaust
  | remaining + 1 =>
    match machine.stop? with
    | some outcome => (machine, .ok outcome)
    | none =>
      match machine.step with
      | (machine, .error fault) => (machine, .error fault)
      | (machine, .ok _) => machine.run remaining

/-- Starts from scratch; an evaluation in progress is given up, and what was compiled is kept. The
root scope binds the natives and then the streams, which hide natives of the same name. -/
def start (machine : Machine N) (inputs : Inputs N) : Machine N :=
  let (root, store) := machine.store.root
  let store := (machine.natives.values ++ inputs.streams).foldl
    (fun store binding => store.rebind root binding.1 binding.2) store
  let (code, program) := machine.program.compileRoot
  let (scope, store) := store.child root
  { machine with
    program, store, root
    stack := CallStack.empty.push (.start .program machine.tree.root code scope)
    result := none
    trigger := inputs.trigger
    borrowed := inputs.borrowed.reverse
    stepsTaken := 0
    paused := false }

/-- What an evaluation runs is what the tree compiles to, whatever was compiled before. -/
theorem start_eq (machine : Machine N) (inputs : Inputs N) :
    machine.start inputs =
      let (root, store) := machine.store.root
      let store := (machine.natives.values ++ inputs.streams).foldl
        (fun store binding => store.rebind root binding.1 binding.2) store
      let (scope, store) := store.child root
      let code := (machine.tree.code machine.tree.root).toArray
      { machine with
        store, root
        stack := CallStack.empty.push (.start .program machine.tree.root code scope)
        result := none
        trigger := inputs.trigger
        borrowed := inputs.borrowed.reverse
        stepsTaken := 0
        paused := false } := by
  simp only [start, Program.compileRoot_eq]
  rfl

/-- Starts and runs within the step limit. -/
def evaluate (machine : Machine N) (inputs : Inputs N) : Machine N × Except Fault (RunOutcome N) :=
  let machine := machine.start inputs
  machine.run machine.limits.stepLimit

/-! ### What a host may do in between -/

/-- Calls a function on top of the current frames. Without any the call becomes an evaluation of
its own. -/
def call (machine : Machine N) (function : Function N) (arguments : List (Value N)) (origin : NodeId) :
    Machine N × Except Fault Unit :=
  let machine := if machine.frames.isEmpty then { machine with result := none } else machine
  match machine.startCall function arguments origin with
  | (machine, .error fault) => (machine, .error fault)
  | (machine, .ok (.throw exception)) => ((machine.finishWith exception).completeFrames, .ok ())
  | (machine, .ok (.start frame)) =>
    ({ machine with stack := machine.stack.push frame }.completeFrames, .ok ())
  | (machine, .ok _) => (machine.completeFrames, .ok ())

/-- Moves the cursor of the topmost frame. -/
def jump (machine : Machine N) (distance : Int) : Machine N × Except Fault Unit :=
  match machine.frames with
  | [] => (machine, .error .notStarted)
  | frame :: _ =>
    match frame.jump distance with
    | .ok moved => (machine.setTop moved, .ok ())
    | .error fault => (machine, .error fault)

/-- The value of a name, seen from the topmost frame or else from the root scope. -/
def resolve (machine : Machine N) (name : N) : Option (Value N) :=
  match machine.frames with
  | [] => machine.store.lookup machine.root name
  | frame :: _ => machine.store.lookup frame.scope name

/-- The value on top of the stack of the topmost frame. -/
def peek? (machine : Machine N) : Option (Value N) :=
  machine.frames.head?.bind Frame.peek?

/-- The node that the next step works on. -/
def currentNode? (machine : Machine N) : Option NodeId :=
  machine.frames.head?.map Frame.currentNode

/-- Asks for a pause. -/
def pause (machine : Machine N) : Machine N :=
  { machine with paused := true }

/-- Takes the wish for a pause back. -/
def resume (machine : Machine N) : Machine N :=
  { machine with paused := false }

end Machine

end Rivulet
