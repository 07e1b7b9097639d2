import Mathlib.Data.Nat.Find
import Rivulet.Proofs.Host.Slices
import Rivulet.Proofs.Host.Snapshots
import Rivulet.Proofs.Machine.Calls
import Rivulet.Proofs.Machine.Retaining

/-!
Frames that wait for a call. When a step calls a function, its frame becomes the caller and waits below the frame that
is started, whatever that one starts above itself (`Machine.Awaits`). What happens above a caller leaves it alone, and
all scopes that lay in others before the call.

Main statement: the caller does not wait forever. Either it is handed a value, which is no exception, or the evaluation
ends with an exception (`Machine.CallsNext.ends`).
-/

namespace Rivulet

/-- A scope lies in another one, and natives leave it alone. -/
def Store.HasInner (store : Store) (id : ScopeId) : Prop :=
  (store.parent? id).isSome

theorem Store.spares_inner (store : Store) (calm : Prop) : store.Spares calm store.HasInner :=
  .inr fun _ => id

theorem Store.fresh_inner (store : Store) : ¬ store.HasInner store.scopes.size :=
  fun inner => Nat.lt_irrefl _ (lt_size_of_inner inner)

/-- What a flow asks for happens above the frames that wait. -/
theorem Flow.frames_append (flow : Flow) (frame : Frame) (above waiting : List Frame) :
    flow.frames frame (above ++ waiting) = flow.frames frame above ++ waiting := by
  cases flow <;> rfl

theorem Flow.frames_ne_nil (flow : Flow) (frame : Frame) (rest : List Frame) : flow.frames frame rest ≠ [] := by
  cases flow <;> exact List.cons_ne_nil _ _

namespace Machine

/-! ### Completing frames above others -/

/-- A value that is handed down goes no further than to a frame with steps left. -/
theorem deliverTo_above {caller : Frame} (left : caller.isExhausted = false) (value : Value) (above rest : List Frame)
    (depth : Nat) (same : depth = (above ++ caller :: rest).length) :
    ∃ frames, CallStack.deliverTo value (above ++ caller :: rest) depth same = (⟨frames, frames.length, rfl⟩, none) ∧
      (frames = caller.push value :: rest ∨ ∃ dropped other others, above = dropped ++ other :: others ∧
        frames = other.push value :: (others ++ caller :: rest)) := by
  induction above generalizing depth with
  | nil =>
    subst same
    refine ⟨_, ?_, .inl rfl⟩
    simp [CallStack.deliverTo, left]
  | cons top above hypothesis =>
    simp only [List.cons_append, CallStack.deliverTo]
    split
    · obtain ⟨frames, is, goes⟩ := hypothesis (depth - 1) (congrArg (· - 1) same)
      refine ⟨frames, is, goes.imp_right ?_⟩
      rintro ⟨dropped, other, others, rfl, is'⟩
      exact ⟨top :: dropped, other, others, rfl, is'⟩
    · subst same
      exact ⟨_, rfl, .inr ⟨[], top, above, rfl, rfl⟩⟩

/-- Some frames are above others, and what holds of them is a property. -/
def HasAbove (property : Frame → Prop) (waiting : List Frame) (machine : Machine) : Prop :=
  machine.result = none ∧ ∃ above, above ≠ [] ∧ machine.frames = above ++ waiting ∧ ∀ frame ∈ above, property frame

/-- The caller has a value on its stack that is no exception, and is the topmost frame. -/
def HasReturned (caller : Frame) (rest : List Frame) (value : Value) (machine : Machine) : Prop :=
  machine.result = none ∧ machine.frames = caller.push value :: rest ∧ value.isException = false

/-- The evaluation is over, with an exception. -/
def HasFailed (exception : Value) (machine : Machine) : Prop :=
  machine.result = some exception ∧ exception.isException = true

/-- What a machine is like when there were frames above a caller. -/
inductive Settled (property : Frame → Prop) (caller : Frame) (rest : List Frame) (machine : Machine) : Prop where
  | above (has : HasAbove property (caller :: rest) machine)
  | returned {value : Value} (has : HasReturned caller rest value machine)
  | failed {exception : Value} (has : HasFailed exception machine)

section

variable {property : Frame → Prop} {caller : Frame} {active rest : List Frame} {machine : Machine}
  (pushed : ∀ frame value, property frame → property (frame.push value)) (left : caller.isExhausted = false)

theorem Settled.notifyStep (settled : Settled property caller rest machine) (step : Step) (depth : Nat) :
    Settled property caller rest (machine.notifyStep step depth) := by
  rw [notifyStep_eq]
  cases settled with
  | above has => exact .above has
  | returned has => exact .returned has
  | failed has => exact .failed has

include pushed left

/-- Completing frames above a caller. -/
theorem settled_completeFrames (going : machine.result = none) (some : active ≠ [])
    (is : machine.frames = active ++ caller :: rest) (each : ∀ frame ∈ active, property frame) :
    Settled property caller rest machine.completeFrames := by
  obtain ⟨top, above, rfl⟩ := List.exists_cons_of_ne_nil some
  have stack := CallStack.eq_mk is
  unfold completeFrames
  rw [is]
  dsimp only [List.cons_append]
  cases exhausted : top.isExhausted with
  | false => exact .above ⟨going, _, some, is, each⟩
  | true =>
    simp only [Bool.not_true, Bool.false_eq_true, if_false]
    split
    · rename_i exception
      exact .failed ⟨rfl, exception⟩
    · rename_i regular
      have delivered (value : Value) : machine.stack.pop.deliver value =
          CallStack.deliverTo value (above ++ caller :: rest) (above ++ caller :: rest).length rfl := by
        rw [stack]
        rfl
      rw [delivered]
      obtain ⟨frames, goes, rfl | ⟨dropped, other, others, rfl, rfl⟩⟩ := deliverTo_above left
        (top.peek?.getD (.failed .expectedValue top.origin)) above rest _ rfl
      · rw [goes]
        exact .returned ⟨going, rfl, by simpa using regular⟩
      · rw [goes]
        refine .above ⟨going, _ :: others, List.cons_ne_nil _ _, rfl, fun frame among => ?_⟩
        rcases List.mem_cons.mp among with rfl | below
        · exact pushed _ _ (each _ (by simp))
        · exact each frame (by simp [below])

end

/-! ### Steps above a caller -/

/-- A step executes the current step of the topmost frame. -/
theorem step_eq_conclude {machine : Machine} {frame : Frame} {rest : List Frame} {step : Step}
    (going : machine.result = none) (active : machine.frames = frame :: rest) (current : frame.current? = some step) :
    machine.step =
      conclude step ((machine.inState machine.store (frame :: rest) (machine.stepsTaken + 1)).execute frame step) := by
  rw [step_of_current going active current]
  have charged := @inState_self { machine with stepsTaken := machine.stepsTaken + 1 } _ going active
  exact congrArg (fun charged : Machine => conclude step (charged.execute frame step)) charged.symm

/-- A step ends the evaluation with an exception, or goes on in the frames that its flow asks for. -/
theorem conclude_flow (machine : Machine) (store : Store) (frame : Frame) (rest : List Frame) (taken : Nat)
    (step : Step) (flow : Flow) :
    (∃ exception, flow = .throw exception ∧
      (conclude step (machine.inState store (frame :: rest) taken, .ok flow)).1.result = some exception) ∨
    (conclude step (machine.inState store (frame :: rest) taken, .ok flow)).1 =
      (machine.inState store (flow.frames frame rest) taken).completeFrames.notifyStep step (rest.length + 1) := by
  cases flow with
  | throw exception => exact .inl ⟨exception, rfl, rfl⟩
  | proceed => exact .inr rfl
  | push value => exact .inr rfl
  | start above => exact .inr rfl

/-- Some frames are clear of all scopes that lay in others before, and these have stayed as they were. -/
structure HasAloft (program : Program) (natives : Natives) (limits : Limits) (first : Store) (waiting : List Frame)
    (machine : Machine) : Prop where
  abides : machine.Abides program natives limits (.free program.tree natives)
  retains : first.Retains first.HasInner machine.store
  above : HasAbove (IsClear program.tree natives first.HasInner machine.store) waiting machine

section

variable {program : Program} {natives : Natives} {limits : Limits} {first : Store} {caller : Frame} {rest : List Frame}
  {machine : Machine}

theorem HasAloft.step (aloft : machine.HasAloft program natives limits first (caller :: rest))
    (left : caller.isExhausted = false) {next : Machine} {outcome : StepOutcome}
    (stepped : machine.step = (next, .ok outcome)) :
    first.Retains first.HasInner next.store ∧
      Settled (IsClear program.tree natives first.HasInner next.store) caller rest next := by
  obtain ⟨abides, retains, going, active, some, is, clear⟩ := aloft
  obtain ⟨rfl, rfl, rfl, -⟩ := id abides
  obtain ⟨top, above, rfl⟩ := List.exists_cons_of_ne_nil some
  have active : machine.frames = top :: (above ++ caller :: rest) := is
  have pushed (store : Store) (frame : Frame) (value : Value)
      (clear : IsClear machine.program.tree machine.natives first.HasInner store frame) :
      IsClear machine.program.tree machine.natives first.HasInner store (frame.push value) := clear.push value
  cases current : top.current? with
  | none =>
    rw [step_of_completed going active current] at stepped
    cases stepped
    rw [store_completeFrames]
    exact ⟨retains, settled_completeFrames (pushed _) left going some is clear⟩
  | some step =>
    have here := clear top (by simp)
    have ready := abides.ready (show top ∈ machine.frames by simp [is])
    obtain ⟨store', frame', flow, executed, move⟩ :=
      execute_leads ready (above ++ caller :: rest) (machine.stepsTaken + 1) step
    obtain ⟨-, level, -, apart⟩ := id here
    have retains' : first.Retains first.HasInner store' :=
      retains.evolves (first.spares_inner _) move.evolves apart.apart
    -- What the step asks for is done above the caller, and all of it is clear of the older scopes.
    have follows (flow' : Flow) (asks : flow = .ok flow') :
        Settled (IsClear machine.program.tree machine.natives first.HasInner store') caller rest (machine.inState store'
          (flow'.frames frame' (above ++ caller :: rest)) (machine.stepsTaken + 1)).completeFrames := by
      subst asks
      refine settled_completeFrames (pushed _) left rfl (flow'.frames_ne_nil frame' above)
        (flow'.frames_append frame' above _) fun other among => ?_
      have moved : IsClear machine.program.tree machine.natives first.HasInner store' frame'.advance :=
        here.moved (fun _ _ => retains.fresh) current move
      rcases mem_frames among with below | rfl | ⟨value, rfl, rfl⟩ | rfl
      · exact (clear other (by simp [below])).grown move.evolves
      · exact moved
      · exact moved.push value
      · exact move.yields.2.1.isClear retains.fresh
    rw [step_eq_conclude going active current, executed] at stepped
    have stored : next.store = store' := by
      have kept := store_conclude step (machine.inState store' (frame' :: (above ++ caller :: rest))
        (machine.stepsTaken + 1), flow)
      rwa [stepped] at kept
    rw [stored]
    refine ⟨retains', ?_⟩
    cases flow with
    | error fault => simp [conclude] at stepped
    | ok flow =>
      rcases machine.conclude_flow store' frame' (above ++ caller :: rest) (machine.stepsTaken + 1) step flow with
        ⟨exception, rfl, ends⟩ | goes
      · rw [stepped] at ends
        exact .failed ⟨ends, move.yields⟩
      · rw [stepped] at goes
        rw [show next = _ from goes]
        exact (follows flow rfl).notifyStep step _

end

/-! ### Calls -/

/-- The next step of the topmost frame calls a function. It takes what it needs off the stack of the frame, which
becomes the caller. -/
structure CallsNext (machine : Machine) (caller : Frame) (rest : List Frame) (function : Function)
    (arguments : List Value) (origin : NodeId) : Prop where
  going : machine.result = none
  calls : ∃ frame values step, machine.frames = frame :: rest ∧ frame.current? = some step ∧ step.opens = true ∧
    caller = { frame with values }.advance ∧
    { machine with stepsTaken := machine.stepsTaken + 1 }.execute frame step =
      ({ machine with stepsTaken := machine.stepsTaken + 1 }.setTop { frame with values }).startCall function arguments
        origin

/-- Other frames are above some that wait. -/
def Awaits (waiting : List Frame) (machine : Machine) : Prop :=
  machine.result = none ∧ ∃ above, above ≠ [] ∧ machine.frames = above ++ waiting

/-- The call that is made next starts frames above the caller, and while they are there the caller waits. In the end it
has a value. -/
def Returns (machine : Machine) (caller : Frame) (rest : List Frame) (value : Value) (after : Machine) : Prop :=
  ∃ count > 1, (∀ earlier, 0 < earlier → earlier < count → (machine.stepped earlier).Awaits (caller :: rest)) ∧
    after = machine.stepped count ∧ after.HasReturned caller rest value

/-- The call that is made next cannot be started, or what runs above the caller does not return. The evaluation ends
with an exception. -/
def Fails (machine : Machine) (caller : Frame) (rest : List Frame) (exception : Value) : Prop :=
  ∃ count > 0, (∀ earlier, 0 < earlier → earlier < count → (machine.stepped earlier).Awaits (caller :: rest)) ∧
    (machine.stepped count).HasFailed exception

section

variable {caller : Frame} {rest : List Frame} {machine : Machine} {property : Frame → Prop}

theorem HasAbove.awaits {waiting : List Frame} (has : HasAbove property waiting machine) : machine.Awaits waiting := by
  obtain ⟨going, above, some, is, -⟩ := has
  exact ⟨going, above, some, is⟩

theorem HasReturned.not_awaits {value : Value} (has : machine.HasReturned caller rest value) :
    ¬ machine.Awaits (caller :: rest) := by
  rintro ⟨-, above, some, is⟩
  have length := congrArg List.length (has.2.1.symm.trans is)
  have more := List.length_pos_of_ne_nil some
  simp only [List.length_cons, List.length_append] at length
  omega

theorem HasFailed.not_awaits {exception : Value} {waiting : List Frame} (has : machine.HasFailed exception) :
    ¬ machine.Awaits waiting := by
  rintro ⟨going, -⟩
  rw [has.1] at going
  cases going

theorem Settled.hasAbove (settled : Settled property caller rest machine) (awaits : machine.Awaits (caller :: rest)) :
    HasAbove property (caller :: rest) machine := by
  cases settled with
  | above has => exact has
  | returned has => exact absurd awaits has.not_awaits
  | failed has => exact absurd awaits has.not_awaits

end

/-- A frame without a value does not return. -/
theorem not_hasReturned_of_opened {above caller : Frame} {rest : List Frame} {machine : Machine} {value : Value}
    (is : machine.frames = above :: caller :: rest) (empty : above.values = []) :
    ¬ machine.completeFrames.HasReturned caller rest value := by
  rintro ⟨going, active, -⟩
  unfold completeFrames at going active
  rw [is] at going active
  dsimp only at going active
  split at active
  · rw [is] at active
    simpa using congrArg List.length active
  · rename_i exhausted
    rw [if_neg exhausted] at going
    simp [Frame.peek?, empty, Value.failed, Value.isException] at going

section

variable {program : Program} {natives : Natives} {limits : Limits} {caller : Frame} {rest : List Frame}
  {machine : Machine} {function : Function} {arguments : List Value} {origin : NodeId}

/-- The step of a call starts a frame above the caller, or ends the evaluation with an exception. -/
theorem CallsNext.step (calls : machine.CallsNext caller rest function arguments origin)
    (abides : machine.Abides program natives limits (.free program.tree natives)) (left : caller.isExhausted = false)
    {next : Machine} {outcome : StepOutcome} (stepped : machine.step = (next, .ok outcome)) :
    machine.store.Retains machine.store.HasInner next.store ∧
      (HasAbove (IsClear program.tree natives machine.store.HasInner next.store) (caller :: rest) next ∨
        ∃ exception, next.HasFailed exception) := by
  obtain ⟨going, frame, values, step, active, current, -, rfl, executed⟩ := calls
  obtain ⟨rfl, rfl, rfl, -⟩ := id abides
  have self : machine.store.Retains machine.store.HasInner machine.store :=
    ⟨Nat.le_refl _, fun _ => Store.lt_size_of_inner, fun _ _ => rfl⟩
  have fresh := machine.store.fresh_inner
  have charged := @inState_self { machine with stepsTaken := machine.stepsTaken + 1 } _ going active
  rw [step_of_current going active current, executed, ← charged, inState_setTop] at stepped
  obtain ⟨store', flow, started, opens⟩ := @startCall_calls
    (machine.inState machine.store ({ frame with values } :: rest) (machine.stepsTaken + 1))
    (.free machine.program.tree machine.natives) abides.store abides.root function trivial arguments
    (fun _ _ => Law.free_admits _ _ _ _) origin
  have stepped : conclude step (machine.inState store' ({ frame with values } :: rest) (machine.stepsTaken + 1), flow) =
      (next, .ok outcome) := by
    rw [← stepped]
    exact congrArg (conclude step) started.symm
  have evolves := opens.evolves machine.store.scopes.size
  have stored : next.store = store' := by
    have kept := store_conclude step (machine.inState store' ({ frame with values } :: rest) (machine.stepsTaken + 1),
      flow)
    rwa [stepped] at kept
  rw [stored]
  refine ⟨self.evolves (machine.store.spares_inner _) evolves fresh, ?_⟩
  rcases opens.opens with ⟨fault, rfl⟩ | ⟨exception, rfl, isException⟩ | ⟨above, rfl, opened, -⟩
  · simp [conclude] at stepped
  · cases stepped
    exact .inr ⟨exception, rfl, isException⟩
  · have goes : next = (machine.inState store' (above :: { frame with values }.advance :: rest)
        (machine.stepsTaken + 1)).completeFrames.notifyStep step (rest.length + 1) := by
      have concluded := congrArg Prod.fst stepped
      exact concluded.symm
    have settled : Settled (IsClear machine.program.tree machine.natives machine.store.HasInner store')
        { frame with values }.advance rest (machine.inState store' (above :: { frame with values }.advance :: rest)
          (machine.stepsTaken + 1)).completeFrames :=
      settled_completeFrames (fun _ _ clear => clear.push _) left rfl (List.cons_ne_nil above []) rfl
        (List.forall_mem_singleton.mpr (opened.isClear fresh))
    have told := settled.notifyStep step (rest.length + 1)
    rw [← goes] at told
    cases told with
    | above has => exact .inl has
    | failed has => exact .inr ⟨_, has⟩
    | returned has =>
      rw [goes, notifyStep_eq] at has
      exact absurd has (not_hasReturned_of_opened rfl opened.values)

end

/-! ### Calls end -/

section

variable {veil : Veil} {first second : Machine}

theorem Veil.Same.awaits (same : veil.Same first second) {waiting : List Frame} (awaits : second.Awaits waiting) :
    first.Awaits waiting := by
  obtain ⟨going, above, some, is⟩ := awaits
  exact ⟨same.result.trans going, above, some, same.frames.trans is⟩

theorem Veil.Same.stepsFreely (same : veil.Same first second) (freely : second.StepsFreely) : first.StepsFreely := by
  intro count
  obtain ⟨outcome, is⟩ := freely count
  exact ⟨outcome, (same.stepped count).step.2.trans is⟩

end

section

variable {caller : Frame} {rest : List Frame} {machine : Machine} {function : Function} {arguments : List Value}
  {origin : NodeId}

/-- Steps that start frames complete no node. -/
theorem silent_of_opens {step : Step} (tree : Tree) (opens : step.opens = true) : Silent tree step := by
  rintro node rfl
  simp [Step.opens] at opens

/-- What is not looked at does not matter to a call that is made next. -/
theorem executed_beside {frame frame' : Frame} {step : Step} (aside : Aside)
    (executed : machine.execute frame step = (machine.setTop frame').startCall function arguments origin) :
    (machine.beside aside).execute frame step =
      ((machine.beside aside).setTop frame').startCall function arguments origin := by
  rw [execute_beside, executed]
  exact (@startCall_beside (machine.setTop frame') aside function arguments origin).symm

/-- A machine makes its next call whether it is observed or not. -/
theorem CallsNext.alone (calls : machine.CallsNext caller rest function arguments origin) :
    (Veil.alone.on machine).CallsNext caller rest function arguments origin := by
  obtain ⟨going, frame, values, step, active, current, opens, caller, executed⟩ := calls
  have beside := executed_beside { Veil.alone.hide machine.aside with stepsTaken := machine.stepsTaken + 1 } executed
  exact ⟨going, frame, values, step, active, current, opens, caller, beside⟩

/-- Without observers the steps of a call follow its computation, and that comes to an end. -/
theorem CallsNext.exists_not_awaits_of_unobserved (calls : machine.CallsNext caller rest function arguments origin)
    (unobserved : machine.observers = []) (formed : machine.tree.WellFormed) (freely : machine.StepsFreely)
    (left : caller.isExhausted = false) : ∃ count > 0, ¬ (machine.stepped count).Awaits (caller :: rest) := by
  obtain ⟨going, frame, values, step, active, current, opens, rfl, executed⟩ := calls
  have self : machine.inState machine.store (frame :: rest) machine.stepsTaken = machine := inState_self going active
  have charged := @inState_self { machine with stepsTaken := machine.stepsTaken + 1 } _ going active
  rw [← charged, inState_setTop] at executed
  have tracked := @follows_callTo machine unobserved formed (machine.limits.maxDepth - (rest.length + 1)) function
    arguments origin frame { frame with values } rest step ⟨machine.store, []⟩ machine.stepsTaken current
    (silent_of_opens _ opens) left executed rfl
  unfold Tracks at tracked
  split at tracked
  · obtain ⟨count, visits, last, course, -, taken, rfl⟩ := tracked
    rw [self] at course
    have reached := course.stepped
    refine ⟨count, Nat.pos_of_ne_zero ?_, ?_⟩
    · -- The caller has moved on since the first step.
      rintro rfl
      rw [show machine.stepped 0 = machine from rfl] at reached
      have moved : frame.cursor + 1 = frame.cursor := by
        have shown := active
        rw [reached] at shown
        exact congrArg Frame.cursor (List.cons.inj shown).1
      exact Nat.succ_ne_self _ moved
    · rintro ⟨-, above, some, is⟩
      rw [reached] at is
      have length := congrArg List.length is
      have more := List.length_pos_of_ne_nil some
      simp only [inState_frames, List.length_cons, List.length_append] at length
      omega
  · obtain ⟨count, visits, last, course, -, ends⟩ := tracked
    rw [self] at course
    have reached := course.stepped
    rename_i halt _ _
    cases halt with
    | exception exception =>
      have ends : last.result = some exception := ends
      refine ⟨count, Nat.pos_of_ne_zero ?_, ?_⟩
      · rintro rfl
        rw [← reached, show machine.stepped 0 = machine from rfl, going] at ends
        cases ends
      · rintro ⟨going', -⟩
        rw [reached, ends] at going'
        cases going'
    | fault fault =>
      obtain ⟨store, top, below, taken, final, -, faulty⟩ := ends
      obtain ⟨outcome, is⟩ := freely count
      rw [reached, faulty] at is
      cases is

/-- A caller does not wait forever, because the twin of the machine that nobody observes does not. -/
theorem CallsNext.exists_not_awaits (calls : machine.CallsNext caller rest function arguments origin)
    (formed : machine.tree.WellFormed) (freely : machine.StepsFreely) (left : caller.isExhausted = false) :
    ∃ count > 0, ¬ (machine.stepped count).Awaits (caller :: rest) := by
  have looks := Veil.alone.same_on machine
  obtain ⟨count, positive, leaves⟩ := calls.alone.exists_not_awaits_of_unobserved rfl formed (looks.stepsFreely freely)
    left
  exact ⟨count, positive, fun awaits => leaves ((looks.stepped count).awaits awaits)⟩

end

section

variable {program : Program} {natives : Natives} {limits : Limits} {caller : Frame} {rest : List Frame}
  {machine : Machine} {function : Function} {arguments : List Value} {origin : NodeId}

theorem stepped_abides {law : Law program.tree natives} (abides : machine.Abides program natives limits law)
    (count : Nat) : (machine.stepped count).Abides program natives limits law := by
  induction count with
  | zero => exact abides
  | succ count hypothesis => exact step_abides hypothesis

theorem StepsFreely.step_eq (freely : machine.StepsFreely) (count : Nat) :
    ∃ outcome, (machine.stepped count).step = (machine.stepped (count + 1), .ok outcome) := by
  obtain ⟨outcome, is⟩ := freely count
  exact ⟨outcome, Prod.ext rfl is⟩

theorem StepsFreely.stepped (freely : machine.StepsFreely) (count : Nat) : (machine.stepped count).StepsFreely := by
  induction count with
  | zero => exact freely
  | succ count hypothesis =>
    intro more
    have later := hypothesis (more + 1)
    rwa [stepped_succ] at later

section

variable (calls : machine.CallsNext caller rest function arguments origin)
  (abides : machine.Abides program natives limits (.free program.tree natives)) (freely : machine.StepsFreely)
  (left : caller.isExhausted = false)

include calls abides freely left

/-- As long as the caller waits, what is above it is clear of all scopes that there were before the call. -/
theorem CallsNext.hasAloft (count : Nat)
    (waits : ∀ earlier, 0 < earlier → earlier < count + 2 → (machine.stepped earlier).Awaits (caller :: rest)) :
    (machine.stepped (count + 1)).HasAloft program natives limits machine.store (caller :: rest) := by
  induction count with
  | zero =>
    obtain ⟨outcome, stepped⟩ := freely.step_eq 0
    obtain ⟨retains, has | ⟨exception, has⟩⟩ := calls.step abides left stepped
    · exact ⟨stepped_abides abides 1, retains, has⟩
    · exact absurd (waits 1 (by decide) (by decide)) has.not_awaits
  | succ count hypothesis =>
    obtain ⟨outcome, stepped⟩ := freely.step_eq (count + 1)
    have aloft := hypothesis fun earlier positive few => waits earlier positive (Nat.lt_succ_of_lt few)
    obtain ⟨retains, settled⟩ := aloft.step left stepped
    exact ⟨stepped_abides abides _, retains, settled.hasAbove (waits (count + 2) (by omega) (by omega))⟩

/-- A call returns a value to the caller, or it ends the evaluation with an exception. Where it returns, all scopes are
as they were. -/
theorem CallsNext.ends (formed : program.tree.WellFormed) :
    (∃ value after, machine.Returns caller rest value after ∧ machine.store.Retains machine.store.HasInner after.store) ∨
      ∃ exception, machine.Fails caller rest exception := by
  classical
  obtain ⟨rfl, -⟩ := id abides
  -- The steps are counted up to the first one after which the caller does not wait any more.
  have some := calls.exists_not_awaits formed freely left
  obtain ⟨positive, leaves⟩ := Nat.find_spec some
  have waits (earlier : Nat) (later : 0 < earlier) (few : earlier < Nat.find some) :
      (machine.stepped earlier).Awaits (caller :: rest) :=
    Classical.not_not.mp fun awaitsNot => Nat.find_min some few ⟨later, awaitsNot⟩
  generalize Nat.find some = last at positive leaves waits
  obtain _ | _ | before := last
  · exact absurd positive (Nat.lt_irrefl 0)
  · obtain ⟨outcome, stepped⟩ := freely.step_eq 0
    obtain ⟨-, has | ⟨exception, has⟩⟩ := calls.step abides left stepped
    · exact absurd has.awaits leaves
    · exact .inr ⟨exception, 1, Nat.one_pos, waits, has⟩
  · obtain ⟨outcome, stepped⟩ := freely.step_eq (before + 1)
    obtain ⟨retains, settled⟩ := (calls.hasAloft abides freely left before waits).step left stepped
    cases settled with
    | above has => exact absurd has.awaits leaves
    | returned has => exact .inl ⟨_, _, ⟨before + 2, by omega, waits, rfl, has⟩, retains⟩
    | failed has => exact .inr ⟨_, before + 2, by omega, waits, has⟩

end

end

end Machine

end Rivulet
