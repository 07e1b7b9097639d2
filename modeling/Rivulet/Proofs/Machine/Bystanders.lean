import Rivulet.Machine.Run

/-!
What steps do not look at. The count of steps, the wish for a pause, the observers and what they were told lie beside
an evaluation: executing a step in the topmost frame neither reads nor changes them (`execute_beside`).

So a machine can be looked at through a veil that hides some of this. Machines that look the same take steps that look
the same (`Veil.step`): if the wish for a pause is hidden (`calm`), and if observers and their notes are hidden as well
(`alone`).
-/

namespace Rivulet

namespace Machine

/-- What lies beside an evaluation. -/
structure Aside where
  result : Option Value
  stepsTaken : Nat
  paused : Bool
  observers : List Observer
  nextObserver : Nat
  log : Array (Nat × Event)

/-- A machine with something else beside its evaluation. -/
def beside (machine : Machine) (aside : Aside) : Machine :=
  { machine with
    result := aside.result
    stepsTaken := aside.stepsTaken
    paused := aside.paused
    observers := aside.observers
    nextObserver := aside.nextObserver
    log := aside.log }

/-- What lies beside the evaluation of a machine. -/
def aside (machine : Machine) : Aside :=
  ⟨machine.result, machine.stepsTaken, machine.paused, machine.observers, machine.nextObserver, machine.log⟩

/-- An effect on a machine with something else beside its evaluation. -/
def Effect.beside (effect : Effect) (aside : Aside) : Effect :=
  (effect.1.beside aside, effect.2)

variable {machine : Machine} {aside : Aside}

theorem collect_beside (frame : Frame) (count : Nat) (node : NodeId) (make : List Value → Value) :
    (machine.beside aside).collect frame count node make =
      Effect.beside (machine.collect frame count node make) aside := by
  unfold collect
  split <;> rfl

theorem consume_beside (frame : Frame) (node : NodeId) {next : Machine → Value → Effect}
    (each : ∀ machine value, next (machine.beside aside) value = Effect.beside (next machine value) aside) :
    (machine.beside aside).consume frame node next = Effect.beside (machine.consume frame node next) aside := by
  unfold consume
  split
  · rfl
  · exact each (machine.setTop _) _

theorem yield_beside (result : Except Failure Value) (node : NodeId) :
    (machine.beside aside).yield result node = Effect.beside (machine.yield result node) aside := by
  cases result <;> rfl

theorem bindName_beside (scope : ScopeId) (name : String) (value : Value) (node : NodeId) (flow : Flow) :
    (machine.beside aside).bindName scope name value node flow =
      Effect.beside (machine.bindName scope name value node flow) aside := by
  unfold bindName
  rw [show (machine.beside aside).store = machine.store from rfl]
  split <;> rfl

theorem jumpTop_beside (frame : Frame) (distance : Int) :
    (machine.beside aside).jumpTop frame distance = Effect.beside (machine.jumpTop frame distance) aside := by
  unfold jumpTop
  split <;> rfl

theorem startDefinition_beside (function : Function) (definition : NodeId) (arguments : List Value) (origin : NodeId) :
    (machine.beside aside).startDefinition function definition arguments origin =
      Effect.beside (machine.startDefinition function definition arguments origin) aside := by
  unfold startDefinition
  rw [show (machine.beside aside).tree = machine.tree from rfl]
  split
  · rfl
  · split <;> rfl

theorem startNative_beside (index : Nat) (arguments : List Value) (origin : NodeId) :
    (machine.beside aside).startNative index arguments origin =
      Effect.beside (machine.startNative index arguments origin) aside := by
  unfold startNative
  rw [show (machine.beside aside).natives = machine.natives from rfl]
  split
  · rfl
  · split
    · rfl
    · split <;> rfl

theorem startCall_beside (function : Function) (arguments : List Value) (origin : NodeId) :
    (machine.beside aside).startCall function arguments origin =
      Effect.beside (machine.startCall function arguments origin) aside := by
  unfold startCall
  rw [show (machine.beside aside).limits = machine.limits from rfl,
    show (machine.beside aside).depth = machine.depth from rfl]
  split
  · rfl
  · split
    · exact startDefinition_beside _ _ _ _
    · exact startNative_beside _ _ _

theorem finishBlock_beside (frame : Frame) (node : NodeId) (statements : ChildList) :
    (machine.beside aside).finishBlock frame node statements =
      Effect.beside (machine.finishBlock frame node statements) aside := by
  unfold finishBlock
  rw [show (machine.beside aside).tree = machine.tree from rfl]
  dsimp only
  split <;> rfl

theorem define_beside (frame : Frame) (node : NodeId) (name : String) :
    (machine.beside aside).define frame node name = Effect.beside (machine.define frame node name) aside := by
  unfold define
  rw [show (machine.beside aside).store = machine.store from rfl]
  dsimp only
  split
  · rfl
  · exact @bindName_beside { machine with store := (machine.store.capture frame.scope).2 } _ _ _ _ _ _

theorem finishBorrow_beside (frame : Frame) (node : NodeId) (source : String) :
    (machine.beside aside).finishBorrow frame node source =
      Effect.beside (machine.finishBorrow frame node source) aside := by
  unfold finishBorrow
  rw [show (machine.beside aside).borrowed = machine.borrowed from rfl]
  split
  · rfl
  · exact bindName_beside _ _ _ _ _

theorem finishProperty_beside (frame : Frame) (node : NodeId) (name : String) :
    (machine.beside aside).finishProperty frame node name =
      Effect.beside (machine.finishProperty frame node name) aside := by
  refine consume_beside _ _ fun machine value => ?_
  split
  · split <;> rfl
  · rfl

theorem finishBinary_beside (frame : Frame) (node : NodeId) (op : BinaryOp) :
    (machine.beside aside).finishBinary frame node op =
      Effect.beside (machine.finishBinary frame node op) aside := by
  unfold finishBinary
  split
  · refine consume_beside _ _ fun machine value => ?_
    split <;> rfl
  · split
    · exact @yield_beside (machine.setTop _) _ _ _
    · rfl

theorem finish_beside (frame : Frame) (node : NodeId) :
    (machine.beside aside).finish frame node = Effect.beside (machine.finish frame node) aside := by
  unfold finish
  rw [show (machine.beside aside).tree = machine.tree from rfl,
    show (machine.beside aside).store = machine.store from rfl]
  split
  · rfl
  · rename_i form _
    cases form with
    | program _ => dsimp only; split <;> rfl
    | conditional _ _ _ => dsimp only; split <;> rfl
    | call _ _ => dsimp only; split <;> rfl
    | block statements => exact finishBlock_beside _ _ _
    | number literal measure => dsimp only; split <;> rfl
    | sequence items => exact collect_beside _ _ _ _
    | set items => exact collect_beside _ _ _ _
    | mapping entries => exact collect_beside _ _ _ _
    | reference name => dsimp only; split <;> rfl
    | property owner name => exact finishProperty_beside _ _ _
    | binary op left right => exact finishBinary_beside _ _ _
    | unary op operand => exact consume_beside _ _ fun _ _ => yield_beside _ _
    | function name inputs body output => exact define_beside _ _ _
    | record name inputs => exact define_beside _ _ _
    | borrow source => exact finishBorrow_beside _ _ _
    | _ => rfl

theorem bindTop_beside (frame : Frame) (node : NodeId) :
    (machine.beside aside).bindTop frame node = Effect.beside (machine.bindTop frame node) aside := by
  unfold bindTop
  rw [show (machine.beside aside).tree = machine.tree from rfl]
  split
  · split
    · rfl
    · exact bindName_beside _ _ _ _ _
  · rfl

theorem jumpUnless_beside (frame : Frame) (node : NodeId) (distance : Int) :
    (machine.beside aside).jumpUnless frame node distance =
      Effect.beside (machine.jumpUnless frame node distance) aside := by
  unfold jumpUnless
  split
  · rfl
  · rfl
  · exact jumpTop_beside _ _
  · rfl

theorem branch_beside (frame : Frame) (node : NodeId) (whenValue : Bool) (distance : Int) :
    (machine.beside aside).branch frame node whenValue distance =
      Effect.beside (machine.branch frame node whenValue distance) aside := by
  unfold branch
  split
  · rfl
  · split
    · exact jumpTop_beside _ _
    · rfl
  · rfl

theorem skipIfBound_beside (frame : Frame) (input : NodeId) (distance : Int) :
    (machine.beside aside).skipIfBound frame input distance =
      Effect.beside (machine.skipIfBound frame input distance) aside := by
  unfold skipIfBound
  rw [show (machine.beside aside).tree = machine.tree from rfl,
    show (machine.beside aside).store = machine.store from rfl]
  split
  · split
    · exact jumpTop_beside _ _
    · rfl
  · rfl

theorem callTop_beside (frame : Frame) (node : NodeId) (arity : Nat) :
    (machine.beside aside).callTop frame node arity = Effect.beside (machine.callTop frame node arity) aside := by
  unfold callTop
  split
  · rfl
  · split
    · rfl
    · exact @startCall_beside (machine.setTop _) _ _ _ _
    · rfl

theorem instantiate_beside (frame : Frame) (definition : NodeId) :
    (machine.beside aside).instantiate frame definition =
      Effect.beside (machine.instantiate frame definition) aside := by
  unfold instantiate
  rw [show (machine.beside aside).tree = machine.tree from rfl]
  split <;> rfl

theorem applyNative_beside (frame : Frame) (index : Nat) :
    (machine.beside aside).applyNative frame index = Effect.beside (machine.applyNative frame index) aside := by
  unfold applyNative
  rw [show (machine.beside aside).natives = machine.natives from rfl]
  split <;> rfl

theorem loopStep_beside (frame : Frame) (op : HigherOrder) (phase : LoopPhase) :
    (machine.beside aside).loopStep frame op phase = Effect.beside (machine.loopStep frame op phase) aside := by
  have loopLocal (name : String) : (machine.beside aside).loopLocal frame name = machine.loopLocal frame name := rfl
  have loopIndex : (machine.beside aside).loopIndex frame = machine.loopIndex frame := rfl
  cases phase with
  | init =>
    show (machine.beside aside).loopInit frame op = Effect.beside (machine.loopInit frame op) aside
    unfold loopInit
    simp only [loopLocal]
    split
    · rfl
    · split
      · split <;> rfl
      · rfl
  | next =>
    show (machine.beside aside).loopNext frame op = Effect.beside (machine.loopNext frame op) aside
    unfold loopNext
    simp only [loopLocal, loopIndex]
    split
    · exact jumpTop_beside _ _
    · split
      · exact startCall_beside _ _ _
      · rfl
  | collect =>
    show (machine.beside aside).loopCollect frame op = Effect.beside (machine.loopCollect frame op) aside
    unfold loopCollect
    simp only [loopLocal, loopIndex]
    split
    · split
      · rfl
      · split
        · exact @jumpTop_beside ((machine.setLoopLocal frame Natives.resultName _).setLoopLocal frame _ _) _ _ _
        · exact @jumpTop_beside (machine.setLoopLocal frame _ _) _ _ _
    · rfl
  | done =>
    show (machine.beside aside).loopDone frame op = Effect.beside (machine.loopDone frame op) aside
    unfold loopDone
    split <;> rfl

/-- A step in the topmost frame neither reads nor changes what lies beside the evaluation. -/
theorem execute_beside (frame : Frame) (step : Step) :
    (machine.beside aside).execute frame step = Effect.beside (machine.execute frame step) aside := by
  cases step with
  | finish node => exact finish_beside frame node
  | bind node => exact bindTop_beside frame node
  | jump distance => exact jumpTop_beside frame distance
  | jumpUnless node distance => exact jumpUnless_beside frame node distance
  | branch node whenValue distance => exact branch_beside frame node whenValue distance
  | skipIfBound input distance => exact skipIfBound_beside frame input distance
  | call node arity => exact callTop_beside frame node arity
  | instantiate definition => exact instantiate_beside frame definition
  | apply index => exact applyNative_beside frame index
  | loop op phase => exact loopStep_beside frame op phase
  | enter _ | expected _ => rfl

/-! ### Single steps -/

section

variable {N : Type} [DecidableEq N] [Naming N]

/-- What a step does after it has been executed. -/
def conclude (step : Step) : Effect N → Machine N × Except Fault (StepOutcome N)
  | (machine, .error fault) => (machine, .error fault)
  | (machine, .ok (.throw exception)) =>
    ((machine.notifyStep step machine.depth).finishWith exception,
      .ok ((machine.notifyStep step machine.depth).finishWith exception).outcome)
  | (machine, .ok flow) =>
    ((machine.proceed flow).completeFrames.notifyStep step machine.depth,
      .ok ((machine.proceed flow).completeFrames.notifyStep step machine.depth).outcome)

variable {machine : Machine N} {frame : Frame N} {rest : List (Frame N)}

theorem step_of_result {value : Value N} (result : machine.result = some value) :
    machine.step = (machine, .ok (.finished value)) := by
  unfold step
  rw [result]

theorem step_of_idle (result : machine.result = none) (active : machine.frames = []) :
    machine.step = (machine, .error .notStarted) := by
  unfold step
  rw [result, active]

theorem step_of_completed (result : machine.result = none) (active : machine.frames = frame :: rest)
    (current : frame.current? = none) :
    machine.step = (machine.completeFrames, .ok machine.completeFrames.outcome) := by
  unfold step
  split
  · rename_i finished
    simp [result] at finished
  · split
    · rename_i idle
      simp [active] at idle
    · rename_i top below there
      rw [active] at there
      cases there
      rw [current]

theorem step_of_current {step : Step} (result : machine.result = none) (active : machine.frames = frame :: rest)
    (current : frame.current? = some step) :
    machine.step = conclude step ({ machine with stepsTaken := machine.stepsTaken + 1 }.execute frame step) := by
  unfold Machine.step
  split
  · rename_i finished
    simp [result] at finished
  · split
    · rename_i idle
      simp [active] at idle
    · rename_i top below there
      rw [active] at there
      cases there
      rw [current]
      rfl

end

/-! ### Telling observers -/

theorem tellSteps_eq (machine : Machine) (event : Event) (observers : List Observer) :
    ∃ log paused, (machine.tellSteps event observers).1 = { machine with log, paused } := by
  induction observers generalizing machine with
  | nil => exact ⟨machine.log, machine.paused, rfl⟩
  | cons observer rest hypothesis =>
    obtain ⟨log, paused, is⟩ := hypothesis (machine.tellStep event observer).1
    exact ⟨log, paused, is⟩

/-- Telling observers about a step changes their notes, and may add a wish for a pause. -/
theorem notifyStep_eq (machine : Machine) (step : Step) (depth : Nat) :
    machine.notifyStep step depth =
      { machine with
        log := (machine.tellSteps (.stepped step depth) machine.observers).1.log
        paused := (machine.tellSteps (.stepped step depth) machine.observers).1.paused
        observers := (machine.tellSteps (.stepped step depth) machine.observers).2 } := by
  unfold notifyStep
  split
  · rename_i none
    rw [none]
    simp only [tellSteps]
    rw [← none]
  · obtain ⟨log, paused, told⟩ := tellSteps_eq machine (.stepped step depth) machine.observers
    simp only [told]

/-! ### Veils -/

/-- A way to hide what lies beside an evaluation. It shows the result and the count of steps. -/
structure Veil where
  hide : Aside → Aside
  result : ∀ aside, (hide aside).result = aside.result
  stepsTaken : ∀ aside, (hide aside).stepsTaken = aside.stepsTaken
  charge : ∀ aside taken, hide { aside with stepsTaken := taken } = { hide aside with stepsTaken := taken }
  hidden : ∀ aside, hide (hide aside) = hide aside
  finish : ∀ (machine : Machine) (value : Value),
    hide ((machine.beside (hide machine.aside)).finishWith value).aside = hide (machine.finishWith value).aside
  notify : ∀ (machine : Machine) (step : Step) (depth : Nat),
    hide ((machine.beside (hide machine.aside)).notifyStep step depth).aside =
      hide (machine.notifyStep step depth).aside

/-- Telling observers about a step changes nothing but what lies beside the evaluation. -/
theorem notifyStep_beside (machine : Machine) (step : Step) (depth : Nat) :
    machine.notifyStep step depth = machine.beside (machine.notifyStep step depth).aside := by
  rw [notifyStep_eq]
  rfl

/-- What neither reads nor changes what lies beside an evaluation leaves it as it is. -/
theorem aside_of_apart (act : Machine → Machine)
    (apart : ∀ machine aside, act (machine.beside aside) = (act machine).beside aside) (machine : Machine) :
    (act machine).aside = machine.aside := by
  have itself : act machine = (act machine).beside machine.aside := apart machine machine.aside
  exact (congrArg Machine.aside itself).trans rfl

theorem proceed_beside (flow : Flow) :
    (machine.beside aside).proceed flow = (machine.proceed flow).beside aside := by
  unfold proceed
  rw [show (machine.beside aside).frames = machine.frames from rfl]
  split
  · rfl
  · cases flow <;> rfl

namespace Veil

variable {veil : Veil} {first second : Machine}

/-- A machine behind a veil. -/
def on (veil : Veil) (machine : Machine) : Machine :=
  machine.beside (veil.hide machine.aside)

/-- Whether two machines look the same behind a veil. -/
def Same (veil : Veil) (first second : Machine) : Prop :=
  veil.on first = veil.on second

theorem same_on (veil : Veil) (machine : Machine) : veil.Same (veil.on machine) machine := by
  show (machine.beside (veil.hide machine.aside)).beside (veil.hide (veil.hide machine.aside)) = _
  rw [veil.hidden]
  rfl

theorem Same.result (same : veil.Same first second) : first.result = second.result := by
  have shown : (veil.hide first.aside).result = (veil.hide second.aside).result := congrArg Machine.result same
  rwa [veil.result, veil.result] at shown

theorem Same.stepsTaken (same : veil.Same first second) : first.stepsTaken = second.stepsTaken := by
  have shown : (veil.hide first.aside).stepsTaken = (veil.hide second.aside).stepsTaken :=
    congrArg Machine.stepsTaken same
  rwa [veil.stepsTaken, veil.stepsTaken] at shown

theorem Same.frames (same : veil.Same first second) : first.frames = second.frames := by
  have shown : (veil.on first).frames = (veil.on second).frames := congrArg Machine.frames same
  exact shown

theorem Same.store (same : veil.Same first second) : first.store = second.store := by
  have shown : (veil.on first).store = (veil.on second).store := congrArg Machine.store same
  exact shown

theorem Same.depth (same : veil.Same first second) : first.depth = second.depth := by
  have shown : (veil.on first).depth = (veil.on second).depth := congrArg Machine.depth same
  exact shown

/-- What does the same behind a veil does the same to machines that look the same. -/
theorem Same.map (act : Machine → Machine) (acts : ∀ machine, veil.Same (act (veil.on machine)) (act machine))
    (same : veil.Same first second) : veil.Same (act first) (act second) :=
  (acts first).symm.trans ((congrArg (fun machine => veil.on (act machine)) same).trans (acts second))

theorem Same.finishWith (same : veil.Same first second) (value : Value) :
    veil.Same (first.finishWith value) (second.finishWith value) := by
  refine Same.map (fun machine => machine.finishWith value) (fun machine => ?_) same
  show ((veil.on machine).finishWith value).beside (veil.hide ((veil.on machine).finishWith value).aside) = _
  rw [on, veil.finish]
  rfl

theorem Same.notifyStep (same : veil.Same first second) (step : Step) (depth : Nat) :
    veil.Same (first.notifyStep step depth) (second.notifyStep step depth) := by
  refine Same.map (fun machine => machine.notifyStep step depth) (fun machine => ?_) same
  show ((veil.on machine).notifyStep step depth).beside (veil.hide ((veil.on machine).notifyStep step depth).aside) =
    (machine.notifyStep step depth).beside (veil.hide (machine.notifyStep step depth).aside)
  rw [notifyStep_beside (veil.on machine), notifyStep_beside machine]
  show machine.beside (veil.hide ((veil.on machine).notifyStep step depth).aside) =
    machine.beside (veil.hide (machine.notifyStep step depth).aside)
  rw [on, veil.notify]

/-- What neither reads nor changes what lies beside an evaluation. -/
theorem Same.act (act : Machine → Machine) (same : veil.Same first second)
    (apart : ∀ machine aside, act (machine.beside aside) = (act machine).beside aside) :
    veil.Same (act first) (act second) := by
  refine Same.map act (fun machine => ?_) same
  have kept := aside_of_apart act apart machine
  show (act (veil.on machine)).beside (veil.hide (act (veil.on machine)).aside) =
    (act machine).beside (veil.hide (act machine).aside)
  rw [on, apart, kept]
  show (act machine).beside (veil.hide (veil.hide machine.aside)) = _
  rw [veil.hidden]

theorem Same.proceed (same : veil.Same first second) (flow : Flow) :
    veil.Same (first.proceed flow) (second.proceed flow) :=
  same.act (fun machine => machine.proceed flow) fun _ _ => proceed_beside flow

theorem on_charged (veil : Veil) (machine : Machine) (taken : Nat) :
    veil.on { machine with stepsTaken := taken } = { veil.on machine with stepsTaken := taken } := by
  show machine.beside (veil.hide { machine.aside with stepsTaken := taken }) = _
  rw [veil.charge]
  rfl

theorem Same.charge (same : veil.Same first second) :
    veil.Same { first with stepsTaken := first.stepsTaken + 1 }
      { second with stepsTaken := second.stepsTaken + 1 } := by
  have shown : veil.on first = veil.on second := same
  have charged := congrArg (fun machine : Machine => { machine with stepsTaken := first.stepsTaken + 1 }) shown
  refine (veil.on_charged first _).trans (charged.trans ?_)
  rw [same.stepsTaken]
  exact (veil.on_charged second _).symm

theorem Same.completeFrames (same : veil.Same first second) :
    veil.Same first.completeFrames second.completeFrames := by
  refine Same.map Machine.completeFrames (fun machine => ?_) same
  have finished (value : Value) := (veil.same_on machine).finishWith value
  unfold Machine.completeFrames
  rw [show (veil.on machine).frames = machine.frames from rfl, show (veil.on machine).stack = machine.stack from rfl]
  split
  · exact veil.same_on machine
  · split
    · exact veil.same_on machine
    · dsimp only
      split
      · exact finished _
      · split
        · rename_i stack _
          exact veil.same_on { machine with stack }
        · exact finished _

theorem Same.outcome (same : veil.Same first second) : first.outcome = second.outcome := by
  unfold Machine.outcome
  rw [same.result]

/-- Executing a step looks the same, and gives the same flow or fault. -/
theorem Same.execute (same : veil.Same first second) (frame : Frame) (step : Step) :
    veil.Same (first.execute frame step).1 (second.execute frame step).1 ∧
      (first.execute frame step).2 = (second.execute frame step).2 := by
  have shown (machine : Machine) : ((veil.on machine).execute frame step).2 = (machine.execute frame step).2 := by
    rw [on, execute_beside]
    rfl
  refine ⟨same.act (fun machine => (machine.execute frame step).1) fun machine aside => ?_, ?_⟩
  · rw [execute_beside]
    rfl
  · rw [← shown first, ← shown second, show veil.on first = veil.on second from same]

theorem Same.conclude {effect effect' : Effect} (step : Step) (looks : veil.Same effect.1 effect'.1)
    (equal : effect.2 = effect'.2) :
    veil.Same (conclude step effect).1 (conclude step effect').1 ∧
      (Machine.conclude step effect).2 = (Machine.conclude step effect').2 := by
  obtain ⟨machine, outcome⟩ := effect
  obtain ⟨machine', outcome'⟩ := effect'
  cases equal
  have looks : veil.Same machine machine' := looks
  have goes (flow : Flow) :
      veil.Same ((machine.proceed flow).completeFrames.notifyStep step machine.depth)
        ((machine'.proceed flow).completeFrames.notifyStep step machine'.depth) := by
    rw [← looks.depth]
    exact (looks.proceed flow).completeFrames.notifyStep step machine.depth
  match outcome with
  | .error fault => exact ⟨looks, rfl⟩
  | .ok (.throw exception) =>
    have thrown : veil.Same ((machine.notifyStep step machine.depth).finishWith exception)
        ((machine'.notifyStep step machine'.depth).finishWith exception) := by
      rw [← looks.depth]
      exact (looks.notifyStep step machine.depth).finishWith exception
    exact ⟨thrown, congrArg Except.ok thrown.outcome⟩
  | .ok .proceed => exact ⟨goes _, congrArg Except.ok (goes .proceed).outcome⟩
  | .ok (.push value) => exact ⟨goes _, congrArg Except.ok (goes (.push value)).outcome⟩
  | .ok (.start above) => exact ⟨goes _, congrArg Except.ok (goes (.start above)).outcome⟩

/-- Machines that look the same take steps that look the same, with the same outcome. -/
theorem Same.step (same : veil.Same first second) :
    veil.Same first.step.1 second.step.1 ∧ first.step.2 = second.step.2 := by
  cases result : second.result with
  | some value =>
    rw [step_of_result result, step_of_result (same.result.trans result)]
    exact ⟨same, rfl⟩
  | none =>
    have result' := same.result.trans result
    cases active : second.frames with
    | nil =>
      rw [step_of_idle result active, step_of_idle result' (same.frames.trans active)]
      exact ⟨same, rfl⟩
    | cons frame rest =>
      have active' := same.frames.trans active
      cases current : frame.current? with
      | none =>
        rw [step_of_completed result active current, step_of_completed result' active' current]
        exact ⟨same.completeFrames, congrArg Except.ok same.completeFrames.outcome⟩
      | some step =>
        rw [step_of_current result active current, step_of_current result' active' current]
        obtain ⟨looks, equal⟩ := same.charge.execute frame step
        exact Same.conclude step looks equal

/-- Machines that look the same run out of steps in the same way. -/
theorem Same.exhaust (same : veil.Same first second) :
    veil.Same first.exhaust.1 second.exhaust.1 ∧ first.exhaust.2 = second.exhaust.2 := by
  have shown : (veil.on first).tree = (veil.on second).tree := congrArg Machine.tree same
  have tree : first.tree = second.tree := shown
  unfold Machine.exhaust
  rw [same.frames, tree]
  cases second.frames with
  | nil => exact ⟨same, rfl⟩
  | cons frame rest => exact ⟨same.finishWith _, rfl⟩

/-- What observers note does not depend on whether a pause is asked for. -/
theorem tellSteps_paused (machine : Machine) (paused : Bool) (event : Event) (observers : List Observer) :
    ({ machine with paused }.tellSteps event observers).2 = (machine.tellSteps event observers).2 ∧
      ({ machine with paused }.tellSteps event observers).1.log = (machine.tellSteps event observers).1.log := by
  induction observers generalizing machine paused with
  | nil => exact ⟨rfl, rfl⟩
  | cons observer rest hypothesis =>
    obtain ⟨told, logged⟩ := hypothesis (machine.tellStep event observer).1
      (paused || observer.pauseAfter == some (observer.seen + 1))
    exact ⟨congrArg (fun rest => (machine.tellStep event observer).2 :: rest) told, logged⟩

/-- The veil that hides the wish for a pause. -/
def calm : Veil where
  hide aside := { aside with paused := false }
  result _ := rfl
  stepsTaken _ := rfl
  charge _ _ := rfl
  hidden _ := rfl
  finish _ _ := rfl
  notify machine step depth := by
    obtain ⟨told, logged⟩ := tellSteps_paused machine false (.stepped step depth) machine.observers
    rw [notifyStep_eq, notifyStep_eq]
    show Aside.mk machine.result machine.stepsTaken false _ machine.nextObserver _ =
      Aside.mk machine.result machine.stepsTaken false _ machine.nextObserver _
    rw [Aside.mk.injEq]
    exact ⟨rfl, rfl, rfl, told, rfl, logged⟩

/-- The veil that hides observers and their notes as well. -/
def alone : Veil where
  hide aside := ⟨aside.result, aside.stepsTaken, false, [], 0, #[]⟩
  result _ := rfl
  stepsTaken _ := rfl
  charge _ _ := rfl
  hidden _ := rfl
  finish _ _ := rfl
  notify machine step depth := by
    rw [notifyStep_eq, notifyStep_eq]
    rfl

end Veil

/-! ### What steps keep beside an evaluation -/

/-- What steps do to what lies beside an evaluation: they are counted, observers are told, and the result is set. -/
structure KeptBeside (property : Machine → Prop) : Prop where
  of_aside : ∀ {machine second}, property machine → second.aside = machine.aside → property second
  charge : ∀ {machine}, property machine → property { machine with stepsTaken := machine.stepsTaken + 1 }
  finishWith : ∀ {machine} value, property machine → property (machine.finishWith value)
  notifyStep : ∀ {machine} step depth, property machine → property (machine.notifyStep step depth)

section

variable {property : Machine → Prop} (kept : KeptBeside property)

include kept

theorem KeptBeside.completeFrames (holds : property machine) : property machine.completeFrames := by
  unfold Machine.completeFrames
  split
  · exact holds
  · split
    · exact holds
    · dsimp only
      split
      · exact kept.finishWith _ holds
      · split
        · exact kept.of_aside holds rfl
        · exact kept.finishWith _ holds

/-- A step keeps what counting it, telling observers and setting the result keep. -/
theorem KeptBeside.step (holds : property machine) : property machine.step.1 := by
  cases result : machine.result with
  | some value => rwa [step_of_result result]
  | none =>
    cases active : machine.frames with
    | nil => rwa [step_of_idle result active]
    | cons frame rest =>
      cases current : frame.current? with
      | none =>
        rw [step_of_completed result active current]
        exact kept.completeFrames holds
      | some step =>
        rw [step_of_current result active current]
        have charged := kept.charge holds
        generalize { machine with stepsTaken := machine.stepsTaken + 1 } = machine at charged ⊢
        have executed : property (machine.execute frame step).1 := by
          refine kept.of_aside charged
            (aside_of_apart (fun machine => (machine.execute frame step).1) (fun machine aside => ?_) machine)
          rw [execute_beside]
          rfl
        generalize machine.execute frame step = effect at executed ⊢
        obtain ⟨second, outcome⟩ := effect
        have executed : property second := executed
        have goes (flow : Flow) : property (second.proceed flow).completeFrames := by
          refine kept.completeFrames (kept.of_aside executed ?_)
          exact aside_of_apart (fun machine => machine.proceed flow) (fun _ _ => proceed_beside flow) second
        match outcome with
        | .error fault => exact executed
        | .ok (.throw exception) => exact kept.finishWith _ (kept.notifyStep _ _ executed)
        | .ok .proceed => exact kept.notifyStep _ _ (goes _)
        | .ok (.push value) => exact kept.notifyStep _ _ (goes _)
        | .ok (.start above) => exact kept.notifyStep _ _ (goes _)

end

/-- Nobody observes. -/
theorem keptBeside_unobserved : KeptBeside fun machine => machine.observers = [] where
  of_aside none same := (congrArg Aside.observers same).trans none
  charge none := none
  finishWith _ none := none
  notifyStep step depth none := by
    rw [notifyStep_eq, none]
    rfl

/-- No pause is asked for, and no observer is going to ask for one. -/
structure IsQuiet (machine : Machine) : Prop where
  calm : machine.paused = false
  observers : ∀ observer ∈ machine.observers, ∀ count, observer.pauseAfter = some count → count ≤ observer.seen

theorem isQuiet_of_unobserved (calm : machine.paused = false) (none : machine.observers = []) : machine.IsQuiet :=
  ⟨calm, by simp [none]⟩

theorem tellSteps_quiet {observers : List Observer} (calm : machine.paused = false)
    (silent : ∀ observer ∈ observers, ∀ count, observer.pauseAfter = some count → count ≤ observer.seen)
    (event : Event) :
    (machine.tellSteps event observers).1.paused = false ∧
      ∀ observer ∈ (machine.tellSteps event observers).2, ∀ count,
        observer.pauseAfter = some count → count ≤ observer.seen := by
  induction observers generalizing machine with
  | nil => exact ⟨calm, fun _ among => absurd among List.not_mem_nil⟩
  | cons observer rest hypothesis =>
    have still : (machine.tellStep event observer).1.paused = false := by
      have later : observer.pauseAfter ≠ some (observer.seen + 1) := fun asks =>
        absurd (silent observer (by simp) _ asks) (by omega)
      simp [tellStep, calm, later]
    obtain ⟨told, kept⟩ := hypothesis still fun other among => silent other (by simp [among])
    refine ⟨told, fun other among count asks => ?_⟩
    rcases List.mem_cons.mp among with rfl | among
    · exact Nat.le_succ_of_le (silent observer (by simp) count asks)
    · exact kept other among count asks

theorem keptBeside_isQuiet : KeptBeside IsQuiet where
  of_aside {machine second} quiet same := by
    have calm : second.paused = machine.paused := congrArg Aside.paused same
    have observers : second.observers = machine.observers := congrArg Aside.observers same
    exact ⟨calm.trans quiet.calm, observers ▸ quiet.observers⟩
  charge quiet := ⟨quiet.calm, quiet.observers⟩
  finishWith _ quiet := ⟨quiet.calm, quiet.observers⟩
  notifyStep {machine} step depth quiet := by
    obtain ⟨calm, silent⟩ := tellSteps_quiet quiet.calm quiet.observers (.stepped step depth)
    rw [notifyStep_eq]
    exact ⟨calm, silent⟩

/-- A step leaves observers quiet. -/
theorem IsQuiet.step (quiet : machine.IsQuiet) : machine.step.1.IsQuiet :=
  keptBeside_isQuiet.step quiet

/-- A run leaves observers quiet, and none of them suspends it. -/
theorem IsQuiet.run (quiet : machine.IsQuiet) (limit : Nat) :
    (machine.run limit).1.IsQuiet ∧ (machine.run limit).2 ≠ .ok .suspended := by
  induction limit generalizing machine with
  | zero =>
    unfold Machine.run stop? exhaust
    rw [quiet.calm]
    cases machine.result with
    | some value => exact ⟨quiet, nofun⟩
    | none =>
      cases machine.frames with
      | nil => exact ⟨quiet, nofun⟩
      | cons frame rest => exact ⟨keptBeside_isQuiet.finishWith _ quiet, nofun⟩
  | succ limit hypothesis =>
    unfold Machine.run stop?
    rw [quiet.calm]
    cases machine.result with
    | some value => exact ⟨quiet, nofun⟩
    | none =>
      have kept := quiet.step
      generalize machine.step = ended at kept
      obtain ⟨second, outcome⟩ := ended
      cases outcome with
      | error fault => exact ⟨kept, nofun⟩
      | ok outcome => exact hypothesis kept

end Machine

end Rivulet
