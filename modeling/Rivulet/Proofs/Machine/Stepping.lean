import Rivulet.Proofs.Machine.Bystanders
import Rivulet.Proofs.Machine.Execution

/-!
What a machine is like after one of its steps. A step that is no fault either ends the evaluation or leaves frames
behind: those that its flow asks for (`Flow.frames`), without the ones that it completed (`Settles`).

An invariant of an evaluation speaks about its scopes and about each of its frames by itself. What a move keeps, a
step keeps (`step_satisfies`).
-/

namespace Rivulet

/-- The frames that a flow leads to, given the frame that asks for it and the frames below. -/
def Flow.frames (frame : Frame) (rest : List Frame) : Flow → List Frame
  | .push value => (frame.push value).advance :: rest
  | .start above => above :: frame.advance :: rest
  | _ => frame.advance :: rest

/-- A stack is made up of its frames. -/
theorem CallStack.eq_mk {stack : CallStack} {frames : List Frame} (active : stack.frames = frames) :
    stack = ⟨frames, frames.length, rfl⟩ := by
  obtain ⟨frames', depth, same⟩ := stack
  subst same
  cases active
  rfl

namespace Machine

/-! ### Completing frames -/

/-- How frames are completed: the value of the topmost frame goes to the next one that has steps left. -/
inductive Settles : List Frame → List Frame → Prop where
  | going {frame : Frame} {rest : List Frame} (left : frame.isExhausted = false) :
      Settles (frame :: rest) (frame :: rest)
  | handed {frame caller : Frame} {dropped rest : List Frame} {value : Value} (exhausted : frame.isExhausted = true)
      (holds : value ∈ frame.values) (left : caller.isExhausted = false) :
      Settles (frame :: (dropped ++ caller :: rest)) (caller.push value :: rest)

/-- A value that is handed down goes to the first frame with steps left, or is left over. -/
theorem deliverTo_cases (value : Value) (frames : List Frame) (depth : Nat) (same : depth = frames.length) :
    (∃ dropped caller rest, frames = dropped ++ caller :: rest ∧ caller.isExhausted = false ∧
      CallStack.deliverTo value frames depth same =
        (⟨caller.push value :: rest, (caller.push value :: rest).length, rfl⟩, none)) ∨
    ∃ stack, CallStack.deliverTo value frames depth same = (stack, some value) := by
  induction frames generalizing depth with
  | nil => exact .inr ⟨_, rfl⟩
  | cons caller rest hypothesis =>
    unfold CallStack.deliverTo
    split
    · rcases hypothesis (depth - 1) (congrArg (· - 1) same) with ⟨dropped, caller', rest', rfl, left, is⟩ | finished
      · exact .inl ⟨caller :: dropped, caller', rest', rfl, left, is⟩
      · exact .inr finished
    · rename_i left
      subst same
      exact .inl ⟨[], caller, rest, rfl, by simpa using left, rfl⟩

/-- Completing frames leaves some, or ends the evaluation. -/
theorem completeFrames_cases {machine : Machine} {frame : Frame} {rest : List Frame}
    (active : machine.frames = frame :: rest) :
    (∃ frames, Settles (frame :: rest) frames ∧
      machine.completeFrames = { machine with stack := ⟨frames, frames.length, rfl⟩ }) ∨
    ∃ value, machine.completeFrames = machine.finishWith value ∧ (value.isException = true ∨ value ∈ frame.values) := by
  have stack := CallStack.eq_mk active
  unfold completeFrames
  rw [active]
  dsimp only
  cases exhausted : frame.isExhausted with
  | false => exact .inl ⟨_, .going exhausted, by rw [← stack]; rfl⟩
  | true =>
    simp only [Bool.not_true, Bool.false_eq_true, if_false]
    split
    · rename_i exception
      exact .inr ⟨_, rfl, .inl exception⟩
    · rename_i regular
      -- The value is the frame's own: a frame without any would end the evaluation.
      obtain ⟨value, top⟩ : ∃ value, frame.peek? = some value := by
        cases top : frame.peek? with
        | some value => exact ⟨value, rfl⟩
        | none => simp [top, Value.failed, Value.isException] at regular
      have holds : value ∈ frame.values := List.mem_of_mem_head? top
      have delivered : machine.stack.pop.deliver ((some value).getD (.failed .expectedValue frame.origin)) =
          CallStack.deliverTo value rest rest.length rfl := by
        rw [stack]
        rfl
      rw [top, delivered]
      rcases deliverTo_cases value rest rest.length rfl with ⟨dropped, caller, rest', rfl, left, is⟩ | ⟨stack, is⟩
      · rw [is]
        exact .inl ⟨_, .handed exhausted holds left, rfl⟩
      · rw [is]
        exact .inr ⟨value, rfl, .inr holds⟩

/-! ### Steps -/

/-- A machine that has not finished is in the state that it is in. -/
theorem inState_self {machine : Machine} {frames : List Frame} (going : machine.result = none)
    (active : machine.frames = frames) : machine.inState machine.store frames machine.stepsTaken = machine := by
  obtain ⟨program, natives, limits, store, root, ⟨active', depth, same⟩, result, trigger, borrowed, taken, paused,
    observers, nextObserver, log⟩ := machine
  cases going
  cases active
  subst same
  rfl

/-- How a step ends that is no fault: with an exception or a value of a frame for a result, or with frames that go
on. -/
def Concludes (machine : Machine) (store : Store) (active : List Frame) (taken : Nat)
    (ended : Machine × Except Fault StepOutcome) : Prop :=
  (∃ value log paused observers, ended =
    ({ machine.inState store [] taken with result := some value, log, paused, observers }, .ok (.finished value)) ∧
    (value.isException = true ∨ ∃ frame ∈ active, value ∈ frame.values)) ∨
  ∃ frames log paused observers, Settles active frames ∧
    ended = ({ machine.inState store frames taken with log, paused, observers }, .ok .pending)

variable {machine : Machine} {law : Law machine.tree machine.natives} {store : Store} {frame : Frame}
  {rest : List Frame} {taken : Nat} {step : Step}

theorem concludes_completeFrames (machine : Machine) (store : Store) (frame : Frame) (rest : List Frame) (taken : Nat)
    (step : Step) (depth : Nat) :
    machine.Concludes store (frame :: rest) taken
      (((machine.inState store (frame :: rest) taken).completeFrames.notifyStep step depth),
        .ok ((machine.inState store (frame :: rest) taken).completeFrames.notifyStep step depth).outcome) := by
  rw [notifyStep_eq]
  rcases @completeFrames_cases (machine.inState store (frame :: rest) taken) frame rest rfl with
    ⟨frames, settles, is⟩ | ⟨value, is, owned⟩
  · rw [is]
    exact .inr ⟨frames, _, _, _, settles, rfl⟩
  · rw [is]
    exact .inl ⟨value, _, _, _, rfl, owned.imp_right fun among => ⟨frame, List.mem_cons_self, among⟩⟩

/-- Where the current step of the topmost frame leads. -/
theorem step_cases (rest : List Frame) (taken : Nat) (ready : machine.Ready law store frame)
    (current : frame.current? = some step) :
    ∃ store' frame' outcome, Move law machine.limits step (rest.length + 1) store frame store' frame' outcome ∧
      ((∃ fault, outcome = .error fault ∧ (machine.inState store (frame :: rest) taken).step =
        (machine.inState store' (frame' :: rest) (taken + 1), .error fault)) ∨
      ∃ flow, outcome = .ok flow ∧ machine.Concludes store' (flow.frames frame' rest) (taken + 1)
        (machine.inState store (frame :: rest) taken).step) := by
  obtain ⟨store', frame', outcome, executed, move⟩ := execute_leads ready rest (taken + 1) step
  refine ⟨store', frame', outcome, move, ?_⟩
  rw [step_inState current, executed]
  match outcome with
  | .error fault => exact .inl ⟨fault, rfl, rfl⟩
  | .ok (.throw exception) =>
    refine .inr ⟨_, rfl, .inl ?_⟩
    simp only [inState_depth, List.length_cons, notifyStep_eq]
    exact ⟨exception, _, _, _, rfl, .inl move.yields⟩
  | .ok .proceed => exact .inr ⟨_, rfl, machine.concludes_completeFrames store' _ _ _ _ _⟩
  | .ok (.push value) => exact .inr ⟨_, rfl, machine.concludes_completeFrames store' _ _ _ _ _⟩
  | .ok (.start above) => exact .inr ⟨_, rfl, machine.concludes_completeFrames store' _ _ _ _ _⟩

/-- A frame without steps left is completed. -/
theorem step_of_exhausted (machine : Machine) (store : Store) (rest : List Frame) (taken : Nat)
    (current : frame.current? = none) :
    machine.Concludes store (frame :: rest) taken (machine.inState store (frame :: rest) taken).step := by
  have stepped : (machine.inState store (frame :: rest) taken).step =
      ((machine.inState store (frame :: rest) taken).completeFrames,
        .ok (machine.inState store (frame :: rest) taken).completeFrames.outcome) := by
    simp only [Machine.step, inState_result, inState_frames, current]
  rw [stepped]
  rcases @completeFrames_cases (machine.inState store (frame :: rest) taken) frame rest rfl with
    ⟨frames, settles, is⟩ | ⟨value, is, owned⟩
  · rw [is]
    exact .inr ⟨frames, _, _, _, settles, rfl⟩
  · rw [is]
    exact .inl ⟨value, _, _, _, rfl, owned.imp_right fun among => ⟨frame, List.mem_cons_self, among⟩⟩

/-! ### Abiding by a law -/

/-- A frame in a scope that may be used, with values that are admitted. -/
structure AbidesIn {tree : Tree} {natives : Natives} (law : Law tree natives) (count : Nat) (frame : Frame) : Prop where
  inside : law.Inside count frame.scope
  values : ∀ value ∈ frame.values, law.Admits count value

theorem AbidesIn.grown {tree : Tree} {natives : Natives} {law : Law tree natives} {count count' : Nat} {frame : Frame}
    (abides : AbidesIn law count frame) (grows : count ≤ count') : AbidesIn law count' frame :=
  ⟨abides.inside.later grows, fun value among => (abides.values value among).later grows⟩

theorem AbidesIn.push {tree : Tree} {natives : Natives} {law : Law tree natives} {count : Nat} {frame : Frame}
    {value : Value} (abides : AbidesIn law count frame) (admits : law.Admits count value) :
    AbidesIn law count (frame.push value) :=
  ⟨abides.inside, by simpa [Frame.push] using ⟨admits, abides.values⟩⟩

/-- A machine whose scopes and frames abide by a law. -/
structure Abides (program : Program) (natives : Natives) (limits : Limits) (law : Law program.tree natives)
    (machine : Machine) : Prop where
  program : machine.program = program
  natives : machine.natives = natives
  limits : machine.limits = limits
  root : law.base ≤ machine.root ∧ machine.root < machine.store.scopes.size
  borrowed : ∀ borrow ∈ machine.borrowed, law.Admits machine.store.scopes.size borrow.2
  store : machine.store.Abides law
  frames : ∀ frame ∈ machine.frames, AbidesIn law machine.store.scopes.size frame

/-- A frame of a machine that abides by a law is ready for a step. -/
theorem Abides.ready (abides : machine.Abides machine.program machine.natives machine.limits law)
    (among : frame ∈ machine.frames) : machine.Ready law machine.store frame :=
  ⟨abides.root, abides.borrowed, abides.store, (abides.frames frame among).inside, (abides.frames frame among).values⟩

/-- What one step of a machine comes to. -/
inductive ComesTo (machine : Machine) (law : Law machine.tree machine.natives) :
    Machine × Except Fault StepOutcome → Prop where
  | finished {value : Value} (result : machine.result = some value) : ComesTo machine law (machine, .ok (.finished value))
  | idle (result : machine.result = none) (active : machine.frames = []) :
      ComesTo machine law (machine, .error .notStarted)
  | completed {frame : Frame} {rest : List Frame} {ended : Machine × Except Fault StepOutcome}
      (result : machine.result = none) (active : machine.frames = frame :: rest) (current : frame.current? = none)
      (concludes : machine.Concludes machine.store (frame :: rest) machine.stepsTaken ended) : ComesTo machine law ended
  | faulted {frame frame' : Frame} {rest : List Frame} {step : Step} {store' : Store} {fault : Fault}
      (result : machine.result = none) (active : machine.frames = frame :: rest) (current : frame.current? = some step)
      (move : Move law machine.limits step (rest.length + 1) machine.store frame store' frame' (.error fault)) :
      ComesTo machine law (machine.inState store' (frame' :: rest) (machine.stepsTaken + 1), .error fault)
  | moved {frame frame' : Frame} {rest : List Frame} {step : Step} {store' : Store} {flow : Flow}
      {ended : Machine × Except Fault StepOutcome}
      (result : machine.result = none) (active : machine.frames = frame :: rest) (current : frame.current? = some step)
      (move : Move law machine.limits step (rest.length + 1) machine.store frame store' frame' (.ok flow))
      (concludes : machine.Concludes store' (flow.frames frame' rest) (machine.stepsTaken + 1) ended) :
      ComesTo machine law ended

theorem step_comesTo (abides : machine.Abides machine.program machine.natives machine.limits law) :
    machine.ComesTo law machine.step := by
  cases result : machine.result with
  | some value =>
    simp only [Machine.step, result]
    exact .finished result
  | none =>
    cases active : machine.frames with
    | nil =>
      simp only [Machine.step, result, active]
      exact .idle result active
    | cons frame rest =>
      have same : (machine.inState machine.store (frame :: rest) machine.stepsTaken).step = machine.step := by
        rw [inState_self result active]
      cases current : frame.current? with
      | none =>
        have concludes := step_of_exhausted machine machine.store rest machine.stepsTaken current
        rw [same] at concludes
        exact .completed result active current concludes
      | some step =>
        have ready := abides.ready (show frame ∈ machine.frames by simp [active])
        obtain ⟨store', frame', outcome, move, ended⟩ := step_cases rest machine.stepsTaken ready current
        rw [same] at ended
        rcases ended with ⟨fault, rfl, is⟩ | ⟨flow, rfl, concludes⟩
        · rw [is]
          exact .faulted result active current move
        · exact .moved result active current move concludes

/-- What frames have, and keep when a value of another one is pushed, they have after some are completed. -/
theorem Settles.keeps {property : Frame → Prop} {active frames : List Frame} (settles : Settles active frames)
    (pushed : ∀ frame other value, property frame → property other → value ∈ other.values → property (frame.push value))
    (each : ∀ frame ∈ active, property frame) : ∀ frame ∈ frames, property frame := by
  cases settles with
  | going left => exact each
  | handed exhausted holds left =>
    intro frame among
    rcases List.mem_cons.mp among with rfl | below
    · exact pushed _ _ _ (each _ (by simp)) (each _ (by simp)) holds
    · exact each frame (by simp [below])

/-- The frames that a flow leads to. -/
theorem mem_frames {flow : Flow} {other : Frame} (among : other ∈ flow.frames frame rest) :
    other ∈ rest ∨ other = frame.advance ∨ (∃ value, flow = .push value ∧ other = frame.advance.push value) ∨
      flow = .start other := by
  cases flow with
  | push value =>
    rcases List.mem_cons.mp among with rfl | below
    · exact .inr (.inr (.inl ⟨value, rfl, rfl⟩))
    · exact .inl below
  | start above =>
    rcases List.mem_cons.mp among with rfl | below
    · exact .inr (.inr (.inr rfl))
    · rcases List.mem_cons.mp below with rfl | below
      · exact .inr (.inl rfl)
      · exact .inl below
  | _ =>
    rcases List.mem_cons.mp among with rfl | below
    · exact .inr (.inl rfl)
    · exact .inl below

section

variable {ended : Machine × Except Fault StepOutcome} {active : List Frame}

/-- What holds of frames and is kept when some are completed holds when the step has ended. -/
theorem Concludes.keeps {property : Frame → Prop} (concludes : machine.Concludes store active taken ended)
    (pushed : ∀ frame other value, property frame → property other → value ∈ other.values → property (frame.push value))
    (each : ∀ frame ∈ active, property frame) : ∀ frame ∈ ended.1.frames, property frame := by
  rcases concludes with ⟨value, log, paused, observers, rfl, -⟩ | ⟨frames, log, paused, observers, settles, rfl⟩
  · intro frame among
    exact absurd among List.not_mem_nil
  · exact settles.keeps pushed each

theorem Concludes.store_eq (concludes : machine.Concludes store active taken ended) : ended.1.store = store := by
  rcases concludes with ⟨value, log, paused, observers, rfl, -⟩ | ⟨frames, log, paused, observers, settles, rfl⟩ <;> rfl

end

section

variable {program : Program} {natives : Natives} {limits : Limits} {law : Law program.tree natives}

/-- A machine in another state abides by the law that the machine abides by. -/
theorem Abides.inState (abides : machine.Abides program natives limits law) {frames : List Frame}
    (grows : machine.store.scopes.size ≤ store.scopes.size) (stored : store.Abides law)
    (each : ∀ frame ∈ frames, AbidesIn law store.scopes.size frame) :
    (machine.inState store frames taken).Abides program natives limits law where
  program := abides.program
  natives := abides.natives
  limits := abides.limits
  root := ⟨abides.root.1, Nat.lt_of_lt_of_le abides.root.2 grows⟩
  borrowed borrow among := (abides.borrowed borrow among).later grows
  store := stored
  frames := each

theorem Concludes.abides {active : List Frame} {ended : Machine × Except Fault StepOutcome}
    (concludes : machine.Concludes store active taken ended) (abides : machine.Abides program natives limits law)
    (grows : machine.store.scopes.size ≤ store.scopes.size) (stored : store.Abides law)
    (each : ∀ frame ∈ active, AbidesIn law store.scopes.size frame) :
    ended.1.Abides program natives limits law := by
  have kept := concludes.keeps (fun frame other value here there holds => here.push (there.values value holds)) each
  rcases concludes with ⟨value, log, paused, observers, rfl, -⟩ | ⟨frames, log, paused, observers, settles, rfl⟩
  · have after : (machine.inState store [] taken).Abides program natives limits law :=
      abides.inState grows stored (by simp)
    exact ⟨after.program, after.natives, after.limits, after.root, after.borrowed, after.store, after.frames⟩
  · have after : (machine.inState store frames taken).Abides program natives limits law :=
      abides.inState grows stored kept
    exact ⟨after.program, after.natives, after.limits, after.root, after.borrowed, after.store, after.frames⟩

/-- The frames that a move leads to abide by the law. -/
theorem Move.frames_abide {frame' : Frame} {store' : Store} {flow : Flow}
    (move : Move law limits step (rest.length + 1) store frame store' frame' (.ok flow))
    (fresh : law.base ≤ store.scopes.size) (each : ∀ other ∈ rest, AbidesIn law store.scopes.size other) :
    ∀ other ∈ flow.frames frame' rest, AbidesIn law store'.scopes.size other := by
  have here : AbidesIn law store'.scopes.size frame'.advance := ⟨move.inside, move.values⟩
  intro other among
  rcases mem_frames among with among | rfl | ⟨value, rfl, rfl⟩ | rfl
  · exact (each other among).grown move.evolves.size
  · exact here
  · exact here.push move.yields
  · obtain ⟨-, opened, grows⟩ := move.yields
    refine ⟨?_, by simp [opened.values]⟩
    rw [opened.scope]
    exact ⟨fresh, fun _ => grows⟩

/-- A step abides by the law, whatever comes of it. -/
theorem step_abides (abides : machine.Abides program natives limits law) :
    machine.step.1.Abides program natives limits law := by
  obtain ⟨rfl, rfl, rfl, root, borrowed, stored, frames⟩ := id abides
  have comes := step_comesTo abides
  generalize machine.step = ended at comes ⊢
  cases comes with
  | finished result => exact abides
  | idle result active => exact abides
  | completed result active current concludes =>
    rw [active] at frames
    exact concludes.abides abides (Nat.le_refl _) stored frames
  | @faulted frame frame' rest _ store' _ result active current move =>
    rw [active] at frames
    refine abides.inState move.evolves.size move.abides fun other among => ?_
    rcases List.mem_cons.mp among with rfl | among
    · exact ⟨move.inside, move.values⟩
    · exact (frames other (by simp [among])).grown move.evolves.size
  | @moved frame frame' rest _ store' flow _ result active current move concludes =>
    have fresh := (abides.ready (show frame ∈ machine.frames by simp [active])).fresh
    rw [active] at frames
    exact concludes.abides abides move.evolves.size move.abides
      (move.frames_abide fresh fun other among => frames other (List.mem_cons_of_mem _ among))

/-- Whether the result of a machine is admitted, if it has one. -/
def AdmitsResult {tree : Tree} {natives : Natives} (law : Law tree natives) (machine : Machine) : Prop :=
  ∀ value, machine.result = some value → law.Admits machine.store.scopes.size value

theorem Concludes.admits {active : List Frame} {ended : Machine × Except Fault StepOutcome}
    (concludes : machine.Concludes store active taken ended)
    (each : ∀ frame ∈ active, AbidesIn law store.scopes.size frame) : ended.1.AdmitsResult law := by
  rcases concludes with ⟨value, log, paused, observers, rfl, owned⟩ | ⟨frames, log, paused, observers, settles, rfl⟩
  · rintro _ ⟨⟩
    rcases owned with exception | ⟨frame, among, holds⟩
    · exact Law.admits_exception exception
    · exact (each frame among).values value holds
  · exact nofun

/-- The result of a step is admitted. -/
theorem step_admits (abides : machine.Abides program natives limits law) (admits : machine.AdmitsResult law) :
    machine.step.1.AdmitsResult law := by
  obtain ⟨rfl, rfl, rfl, -, -, -, frames⟩ := id abides
  have comes := step_comesTo abides
  generalize machine.step = ended at comes ⊢
  cases comes with
  | finished result => exact admits
  | idle result active => exact admits
  | completed result active current concludes =>
    rw [active] at frames
    exact concludes.admits frames
  | faulted result active current move => exact nofun
  | @moved frame frame' rest _ store' flow _ result active current move concludes =>
    have fresh := (abides.ready (show frame ∈ machine.frames by simp [active])).fresh
    rw [active] at frames
    exact concludes.admits (move.frames_abide fresh fun other among => frames other (List.mem_cons_of_mem _ among))

end

/-! ### Invariants -/

/-- What an evaluation under a law keeps about its scopes, and about each of its frames. -/
structure Invariant {tree : Tree} {natives : Natives} (law : Law tree natives) (limits : Limits) where
  scopes : Store → Prop
  frame : Store → Frame → Prop
  written : ∀ {store store' : Store} {active : Frame}, frame store active → scopes store →
    store.Evolves natives.BindNothing active.scope store' → scopes store'
  grown : ∀ {own : ScopeId} {store store' : Store} {active : Frame}, frame store active →
    store.Evolves natives.BindNothing own store' → frame store' active
  pushed : ∀ {store : Store} {active : Frame} (value : Value), frame store active → frame store (active.push value)
  moved : ∀ {step : Step} {depth : Nat} {active active' : Frame} {store store' : Store} {flow : Flow},
    scopes store → frame store active → active.current? = some step →
    Move law limits step depth store active store' active' (.ok flow) → frame store' active'.advance
  opened : ∀ {depth : Nat} {store store' : Store} {above : Frame},
    Opened tree natives limits depth store.scopes.size above → store.scopes.size < store'.scopes.size →
    scopes store → frame store' above

/-- A machine for which an invariant holds. -/
structure Satisfies (program : Program) (natives : Natives) (limits : Limits) {law : Law program.tree natives}
    (invariant : Invariant law limits) (machine : Machine) : Prop where
  abides : machine.Abides program natives limits law
  scopes : invariant.scopes machine.store
  frames : ∀ frame ∈ machine.frames, invariant.frame machine.store frame

section

variable {program : Program} {natives : Natives} {limits : Limits} {law : Law program.tree natives}
  {invariant : Invariant law limits}

/-- What moves keep about the scopes, a step keeps, whatever comes of it. -/
theorem step_scopes (satisfies : machine.Satisfies program natives limits invariant) :
    invariant.scopes machine.step.1.store := by
  obtain ⟨abides, scopes, frames⟩ := satisfies
  obtain ⟨rfl, rfl, rfl, root, borrowed, stored, -⟩ := id abides
  have comes := step_comesTo abides
  generalize machine.step = ended at comes ⊢
  cases comes with
  | finished result => exact scopes
  | idle result active => exact scopes
  | completed result active current concludes => rwa [concludes.store_eq]
  | faulted result active current move => exact invariant.written (frames _ (by simp [active])) scopes move.evolves
  | moved result active current move concludes =>
    rw [concludes.store_eq]
    exact invariant.written (frames _ (by simp [active])) scopes move.evolves

/-- What moves keep, a step that is no fault keeps. -/
theorem step_satisfies (satisfies : machine.Satisfies program natives limits invariant) {second : Machine}
    {outcome : StepOutcome} (stepped : machine.step = (second, .ok outcome)) :
    second.Satisfies program natives limits invariant := by
  have scopes := step_scopes satisfies
  have abides := step_abides satisfies.abides
  obtain ⟨abides', scopes', frames⟩ := satisfies
  obtain ⟨rfl, rfl, rfl, root, borrowed, stored, -⟩ := id abides'
  have comes := step_comesTo abides'
  rw [stepped] at comes scopes abides
  refine ⟨abides, scopes, ?_⟩
  cases comes with
  | finished result => exact frames
  | completed result active current concludes =>
    rw [active] at frames
    have kept := concludes.keeps (fun frame other value here there holds => invariant.pushed value here) frames
    rwa [concludes.store_eq]
  | @moved frame frame' rest _ store' flow _ result active current move concludes =>
    rw [active] at frames
    have here := invariant.moved scopes' (frames frame (by simp)) current move
    have each : ∀ other ∈ flow.frames frame' rest, invariant.frame store' other := by
      intro other among
      rcases mem_frames among with among | rfl | ⟨value, rfl, rfl⟩ | rfl
      · exact invariant.grown (frames other (by simp [among])) move.evolves
      · exact here
      · exact invariant.pushed value here
      · obtain ⟨-, opened, grows⟩ := move.yields
        exact invariant.opened opened grows scopes'
    have kept := concludes.keeps (fun frame other value here there holds => invariant.pushed value here) each
    rwa [concludes.store_eq]

end

/-- Every frame runs a compiled sequence. -/
def sequences {tree : Tree} {natives : Natives} (law : Law tree natives) (limits : Limits) : Invariant law limits where
  scopes _ := True
  frame _ frame := tree.IsSequence natives frame.steps
  written _ _ _ := trivial
  grown sequence _ := sequence
  pushed _ sequence := sequence
  moved _ sequence _ move := by
    have same := move.steps
    simpa [Frame.advance, same] using sequence
  opened opened _ _ := opened.sequence

end Machine

end Rivulet
