import Mathlib.Data.List.Nodup
import Rivulet.Proofs.Host.Abiding

/-!
What observers are told. Whoever watches an evaluation from its start on is told about every step that is counted,
in order and with the depth of frames at which it ran, and once about the result. The result comes behind the steps
if the last of them threw an exception or used up the budget. A step that completes the last frame is reported
after the result, though (`result_told_before_last_step`): frames are completed before the step is told.

Main statement: what observers are told is the trace of the steps and of the result (`told_of_evaluation`).
-/

namespace Rivulet

/-! ### Traces -/

/-- A step that a machine takes at a depth of frames. -/
structure Stride where
  step : Step
  depth : Nat
  /-- Whether the last frame is completed by it. -/
  completes : Bool

/-- What observers are told about a step. -/
def Stride.event (stride : Stride) : Event :=
  .stepped stride.step stride.depth

/-- What observers are told about the steps of an evaluation and its result. -/
def Stride.trace (value : Value) : List Stride → List Event
  | [] => [.finished value]
  | [stride] => if stride.completes then [.finished value, stride.event] else [stride.event, .finished value]
  | stride :: second :: strides => stride.event :: trace value (second :: strides)

theorem Stride.trace_append (value : Value) (strides : List Stride) (last : Stride) :
    trace value (strides ++ [last]) = strides.map Stride.event ++ trace value [last] := by
  induction strides with
  | nil => rfl
  | cons stride strides hypothesis =>
    cases strides with
    | nil => rfl
    | cons second strides => exact congrArg (stride.event :: ·) hypothesis

/-- The result comes last unless a step completes the last frame. -/
theorem Stride.trace_of_incomplete {value : Value} {strides : List Stride}
    (incomplete : ∀ stride ∈ strides, stride.completes = false) :
    trace value strides = strides.map Stride.event ++ [.finished value] := by
  rcases List.eq_nil_or_concat strides with rfl | ⟨strides, last, rfl⟩
  · rfl
  · rw [List.concat_eq_append, trace_append, List.map_append, List.append_assoc]
    simp [trace, incomplete last (by simp)]

namespace Machine

/-- Whether a step of the topmost frame goes on and completes the last frame. -/
def completes (machine : Machine) (frame : Frame) (step : Step) : Bool :=
  match { machine with stepsTaken := machine.stepsTaken + 1 }.execute frame step with
  | (_, .error _) | (_, .ok (.throw _)) => false
  | (machine, .ok flow) => (machine.proceed flow).completeFrames.result.isSome

/-- The step that a machine takes next, if it takes any. -/
def stride? (machine : Machine) : Option Stride :=
  match machine.result, machine.frames with
  | none, frame :: _ => frame.current?.map fun step => ⟨step, machine.depth, machine.completes frame step⟩
  | _, _ => none

/-- The steps that a machine takes in a run during which others may ask for a pause. -/
def stridesAmid (machine : Machine) (requests : Nat → Option Bool) : Nat → List Stride
  | 0 => []
  | remaining + 1 =>
    let machine := machine.heed (requests 0)
    match machine.stop? with
    | some _ => []
    | none => machine.stride?.toList ++ machine.step.1.stridesAmid (fun index => requests (index + 1)) remaining

/-- The steps that a machine takes while its host does something. -/
def stridesDuring (machine : Machine) : Deed → List Stride
  | .step => machine.stride?.toList
  | .run limit requests => machine.stridesAmid requests limit
  | _ => []

/-- The steps that a machine takes while its host does one thing after the other. -/
def stridesAlong (machine : Machine) : List Deed → List Stride
  | [] => []
  | deed :: deeds => machine.stridesDuring deed ++ (machine.perform deed).1.stridesAlong deeds

/-- What an observer was told so far, in order. -/
def told (machine : Machine) (id : Nat) : List Event :=
  machine.log.toList.filterMap fun note => if note.1 = id then some note.2 else none

/-- The observers of a machine. -/
def watchers (machine : Machine) : List Nat :=
  machine.observers.map Observer.id

/-! ### Telling observers -/

section

variable {machine : Machine} {id : Nat}

theorem told_push (log : Array (Nat × Event)) (who : Nat) (event : Event) :
    { machine with log := log.push (who, event) }.told id =
      { machine with log }.told id ++ if who = id then [event] else [] := by
  unfold told
  rw [Array.toList_push, List.filterMap_append]
  split <;> rename_i same <;> simp [same]

/-- Each of some observers is told about a step, and stays who it is. -/
theorem told_tellSteps (event : Event) (observers : List Observer) :
    (machine.tellSteps event observers).1.told id =
        machine.told id ++ List.replicate ((observers.map Observer.id).count id) event ∧
      (machine.tellSteps event observers).2.map Observer.id = observers.map Observer.id := by
  induction observers generalizing machine with
  | nil => simp [tellSteps]
  | cons observer rest hypothesis =>
    obtain ⟨told, same⟩ := @hypothesis (machine.tellStep event observer).1
    refine ⟨told.trans ?_, congrArg (observer.id :: ·) same⟩
    have first : (machine.tellStep event observer).1.told id =
        machine.told id ++ if observer.id = id then [event] else [] := told_push machine.log observer.id event
    rw [first, List.map_cons, List.count_cons, List.append_assoc]
    by_cases here : observer.id = id <;> simp [here, List.replicate_succ]

theorem told_notifyStep (watched : machine.watchers.count id = 1) (step : Step) (depth : Nat) :
    (machine.notifyStep step depth).told id = machine.told id ++ [.stepped step depth] := by
  obtain ⟨told, -⟩ := @told_tellSteps machine id (.stepped step depth) machine.observers
  rw [show (machine.observers.map Observer.id).count id = 1 from watched] at told
  rw [notifyStep_eq]
  exact told

/-- Each of some observers is told about a result. -/
theorem told_foldl_finished (value : Value) (observers : List Observer) (log : Array (Nat × Event)) :
    { machine with
      log := observers.foldl (fun log (observer : Observer) => log.push (observer.id, .finished value)) log }.told id =
    { machine with log }.told id ++ List.replicate ((observers.map Observer.id).count id) (.finished value) := by
  induction observers generalizing log with
  | nil => simp
  | cons observer rest hypothesis =>
    rw [List.foldl_cons, hypothesis, told_push, List.map_cons, List.count_cons, List.append_assoc]
    by_cases here : observer.id = id <;> simp [here, List.replicate_succ]

theorem told_finishWith (watched : machine.watchers.count id = 1) (value : Value) :
    (machine.finishWith value).told id = machine.told id ++ [.finished value] := by
  have told := @told_foldl_finished machine id value machine.observers machine.log
  rw [show (machine.observers.map Observer.id).count id = 1 from watched] at told
  exact told

end

/-! ### Who observes -/

/-- Observers have different numbers, all of which have been given out. -/
structure Numbered (machine : Machine) : Prop where
  distinct : machine.watchers.Nodup
  given : ∀ id ∈ machine.watchers, id < machine.nextObserver

/-- The observers of a machine and the number that the next one gets. -/
def roster (machine : Machine) : List Nat × Nat :=
  (machine.watchers, machine.nextObserver)

theorem Numbered.of_roster {machine second : Machine} (numbered : machine.Numbered)
    (same : second.roster = machine.roster) : second.Numbered := by
  obtain ⟨watchers, next⟩ := Prod.mk.inj same
  exact ⟨watchers ▸ numbered.distinct, by rw [watchers, next]; exact numbered.given⟩

/-- Steps neither register observers nor drop them. -/
theorem keptBeside_roster (roster : List Nat × Nat) : KeptBeside fun machine => machine.roster = roster where
  of_aside {machine second} kept same := by
    have observers : second.observers = machine.observers := congrArg Aside.observers same
    have next : second.nextObserver = machine.nextObserver := congrArg Aside.nextObserver same
    rw [← kept]
    unfold Machine.roster watchers
    rw [observers, next]
  charge kept := kept
  finishWith _ kept := kept
  notifyStep {machine} step depth kept := by
    rw [← kept, notifyStep_eq]
    exact congrArg (·, machine.nextObserver) (@told_tellSteps _ 0 _ _).2

theorem numbered_create (program : Program) (natives : Natives) (limits : Limits) (store : Store) :
    (create program natives limits store).Numbered :=
  ⟨List.nodup_nil, fun _ among => absurd among List.not_mem_nil⟩

section

variable {machine : Machine}

theorem roster_step : machine.step.1.roster = machine.roster :=
  (keptBeside_roster machine.roster).step rfl

@[simp]
theorem roster_heed (request : Option Bool) : (machine.heed request).roster = machine.roster := by
  cases request <;> rfl

theorem roster_runAmid (requests : Nat → Option Bool) (limit : Nat) :
    (machine.runAmid requests limit).1.roster = machine.roster := by
  have kept : KeptByRuns (fun second => second.roster = machine.roster) fun second => second.roster = machine.roster :=
    { heed := fun _ request same => (roster_heed request).trans same
      step := fun other _ same => by
        have after := (@roster_step other).trans same
        generalize other.step = ended at after
        obtain ⟨second, outcome⟩ := ended
        cases outcome <;> exact after
      exhaust := fun _ _ _ _ same => same
      idle := fun _ _ _ same => same }
  have after := runAmid_keeps kept requests limit rfl
  generalize machine.runAmid requests limit = ended at after
  obtain ⟨last, outcome⟩ := ended
  cases outcome <;> exact after

theorem roster_call (function : Function) (arguments : List Value) (origin : NodeId) :
    (machine.call function arguments origin).1.roster = machine.roster := by
  have kept := keptBeside_roster machine.roster
  have dropped : machine.dropResult.roster = machine.roster := by
    unfold dropResult
    split <;> rfl
  rw [call_eq]
  generalize machine.dropResult = started at dropped
  have called : (started.startCall function arguments origin).1.roster = machine.roster := by
    refine kept.of_aside dropped
      (aside_of_apart (fun machine => (machine.startCall function arguments origin).1) (fun _ _ => ?_) started)
    rw [startCall_beside]
    rfl
  unfold enterCall
  generalize started.startCall function arguments origin = effect at called
  obtain ⟨second, outcome⟩ := effect
  match outcome with
  | .error fault => exact called
  | .ok (.throw exception) => exact kept.completeFrames called
  | .ok .proceed => exact kept.completeFrames called
  | .ok (.push value) => exact kept.completeFrames called
  | .ok (.start above) => exact @KeptBeside.completeFrames { second with stack := second.stack.push above } _ kept called

theorem roster_jump (distance : Int) : (machine.jump distance).1.roster = machine.roster := by
  unfold jump
  split
  · rfl
  · split <;> rfl

/-- Whatever a host does, observers keep different numbers. -/
theorem Numbered.perform (numbered : machine.Numbered) (deed : Deed) : (machine.perform deed).1.Numbered := by
  cases deed with
  | start inputs => exact numbered.of_roster rfl
  | step => exact numbered.of_roster roster_step
  | run limit requests => exact numbered.of_roster (roster_runAmid requests limit)
  | call function arguments origin => exact numbered.of_roster (roster_call function arguments origin)
  | jump distance => exact numbered.of_roster (roster_jump distance)
  | pause | resume => exact numbered.of_roster rfl
  | observe pauseAfter =>
    have watchers : (machine.observe pauseAfter).2.watchers = machine.watchers ++ [machine.nextObserver] :=
      List.map_append
    refine ⟨?_, fun id among => ?_⟩
    · rw [show (machine.perform (.observe pauseAfter)).1.watchers = _ from watchers, List.nodup_append]
      refine ⟨numbered.distinct, by simp, fun id among other new => ?_⟩
      exact List.mem_singleton.mp new ▸ Nat.ne_of_lt (numbered.given id among)
    · rcases List.mem_append.mp (watchers ▸ among) with among | new
      · exact Nat.lt_succ_of_lt (numbered.given id among)
      · exact List.mem_singleton.mp new ▸ Nat.lt_succ_self _
  | ignore id =>
    have sub : (machine.ignore id).2.watchers.Sublist machine.watchers := List.filter_sublist.map Observer.id
    exact ⟨numbered.distinct.sublist sub, fun other among => numbered.given other (sub.subset among)⟩

theorem Numbered.after (numbered : machine.Numbered) (deeds : List Deed) : (machine.after deeds).Numbered := by
  induction deeds generalizing machine with
  | nil => exact numbered
  | cons deed deeds hypothesis => exact hypothesis (numbered.perform deed)

end

/-! ### Evaluations under observation -/

section

variable {program : Program} {natives : Natives} {limits : Limits} {machine : Machine} {before : List Event} {who : Nat}
  {strides : List Stride}

/-- An evaluation that somebody has watched while it took some steps, and what was told before it. -/
structure Observed (program : Program) (natives : Natives) (limits : Limits) (before : List Event) (who : Nat)
    (machine : Machine) (strides : List Stride) : Prop where
  abides : machine.Abides program natives limits (.free program.tree natives)
  numbered : machine.Numbered
  watches : who ∈ machine.watchers
  counted : strides.length = machine.stepsTaken
  going : machine.result = none →
    machine.told who = before ++ strides.map Stride.event ∧ ∀ stride ∈ strides, stride.completes = false
  ending : ∀ value, machine.result = some value → machine.told who = before ++ Stride.trace value strides

theorem Observed.once (watched : machine.Observed program natives limits before who strides) :
    machine.watchers.count who = 1 :=
  List.count_eq_one_of_mem watched.numbered.distinct watched.watches

/-- Executing a step leaves what lies beside the evaluation, and as many frames as there were. -/
theorem execute_keeps (abides : machine.Abides program natives limits (.free program.tree natives))
    {frame : Frame} {rest : List Frame} (result : machine.result = none) (active : machine.frames = frame :: rest)
    (step : Step) :
    ({ machine with stepsTaken := machine.stepsTaken + 1 }.execute frame step).1.aside =
        { machine with stepsTaken := machine.stepsTaken + 1 }.aside ∧
      ({ machine with stepsTaken := machine.stepsTaken + 1 }.execute frame step).1.depth = machine.depth := by
  constructor
  · refine aside_of_apart (fun machine => (machine.execute frame step).1) (fun _ _ => ?_)
      { machine with stepsTaken := machine.stepsTaken + 1 }
    rw [execute_beside]
    rfl
  · obtain ⟨rfl, rfl, rfl, -⟩ := id abides
    have ready := abides.ready (show frame ∈ machine.frames by simp [active])
    obtain ⟨store', frame', outcome, executed, -⟩ := execute_leads ready rest (machine.stepsTaken + 1) step
    have charged : machine.inState machine.store (frame :: rest) (machine.stepsTaken + 1) =
        { machine with stepsTaken := machine.stepsTaken + 1 } := by
      rw [← inState_charged, inState_self result active]
    rw [← charged, executed, inState_depth]
    exact (machine.stack.depth_eq.trans (congrArg List.length active)).symm

/-- Completing frames ends the evaluation or leaves everything beside it. -/
theorem completeFrames_aside (machine : Machine) :
    machine.completeFrames.aside = machine.aside ∨ ∃ value, machine.completeFrames = machine.finishWith value := by
  cases active : machine.frames with
  | nil =>
    left
    unfold completeFrames
    rw [active]
  | cons frame rest =>
    rcases completeFrames_cases active with ⟨frames, -, is⟩ | ⟨value, is, -⟩
    · exact .inl (by rw [is]; rfl)
    · exact .inr ⟨value, is⟩

theorem told_of_log {second : Machine} (same : second.log = machine.log) : second.told who = machine.told who := by
  unfold told
  rw [same]

theorem count_of_observers {second : Machine} (same : second.observers = machine.observers) :
    second.watchers.count who = machine.watchers.count who := by
  unfold watchers
  rw [same]

/-- What an observer is told when a step goes on: the frames that it has exhausted are completed first. -/
theorem told_proceed (once : machine.watchers.count who = 1) (going : machine.result = none) (flow : Flow) (step : Step)
    (depth : Nat) :
    let ended := (machine.proceed flow).completeFrames
    (ended.notifyStep step depth).stepsTaken = machine.stepsTaken ∧
      (((ended.notifyStep step depth).result = none ∧ ended.result.isSome = false ∧
          (ended.notifyStep step depth).told who = machine.told who ++ [.stepped step depth]) ∨
        ∃ value, (ended.notifyStep step depth).result = some value ∧ (ended.notifyStep step depth).told who =
          machine.told who ++ Stride.trace value [⟨step, depth, ended.result.isSome⟩]) := by
  intro ended
  have same : (machine.proceed flow).aside = machine.aside :=
    aside_of_apart (fun machine => machine.proceed flow) (fun _ _ => proceed_beside flow) machine
  have counted : (ended.notifyStep step depth).stepsTaken = ended.stepsTaken := by rw [notifyStep_eq]
  have decided : (ended.notifyStep step depth).result = ended.result := by rw [notifyStep_eq]
  rw [counted, decided]
  rcases completeFrames_aside (machine.proceed flow) with kept | ⟨value, finished⟩
  · have kept : ended.aside = machine.aside := kept.trans same
    have still : ended.watchers.count who = 1 := (count_of_observers (congrArg Aside.observers kept)).trans once
    have none : ended.result = none := (congrArg Aside.result kept).trans going
    refine ⟨congrArg Aside.stepsTaken kept, .inl ⟨none, by rw [none]; rfl, ?_⟩⟩
    rw [told_notifyStep still, told_of_log (congrArg Aside.log kept)]
  · have is : ended = (machine.proceed flow).finishWith value := finished
    have watched : (machine.proceed flow).watchers.count who = 1 :=
      (count_of_observers (congrArg Aside.observers same)).trans once
    have still : ((machine.proceed flow).finishWith value).watchers.count who = 1 := watched
    rw [is]
    refine ⟨congrArg Aside.stepsTaken same, .inr ⟨value, rfl, ?_⟩⟩
    rw [told_notifyStep still, told_finishWith watched, told_of_log (congrArg Aside.log same), List.append_assoc]
    rfl

/-- What an observer is told about a step that is counted. -/
theorem told_step (abides : machine.Abides program natives limits (.free program.tree natives))
    (once : machine.watchers.count who = 1) {frame : Frame} {rest : List Frame} {step : Step}
    (result : machine.result = none) (active : machine.frames = frame :: rest) (current : frame.current? = some step)
    {second : Machine} {outcome : StepOutcome} (stepped : machine.step = (second, .ok outcome)) :
    second.stepsTaken = machine.stepsTaken + 1 ∧
      ((second.result = none ∧ machine.completes frame step = false ∧
          second.told who = machine.told who ++ [.stepped step machine.depth]) ∨
        ∃ value, second.result = some value ∧ second.told who =
          machine.told who ++ Stride.trace value [⟨step, machine.depth, machine.completes frame step⟩]) := by
  rw [step_of_current result active current] at stepped
  obtain ⟨aside, depth⟩ := execute_keeps abides result active step
  unfold completes
  generalize { machine with stepsTaken := machine.stepsTaken + 1 }.execute frame step = effect
    at stepped aside depth ⊢
  obtain ⟨after, flow⟩ := effect
  have depth : after.depth = machine.depth := depth
  have told : after.told who = machine.told who := told_of_log (congrArg Aside.log aside)
  have taken : after.stepsTaken = machine.stepsTaken + 1 := congrArg Aside.stepsTaken aside
  have watched : after.watchers.count who = 1 := (count_of_observers (congrArg Aside.observers aside)).trans once
  have goes (flow : Flow) := told_proceed watched ((congrArg Aside.result aside).trans result) flow step after.depth
  rw [← depth, ← told, ← taken]
  match flow with
  | .error fault => cases stepped
  | .ok (.throw exception) =>
    cases stepped
    have still : (after.notifyStep step after.depth).watchers.count who = 1 := by
      rw [notifyStep_eq]
      exact (congrArg (List.count who) (@told_tellSteps _ who _ _).2).trans watched
    have counted : (after.notifyStep step after.depth).stepsTaken = after.stepsTaken := by rw [notifyStep_eq]
    refine ⟨counted, .inr ⟨exception, rfl, ?_⟩⟩
    rw [told_finishWith still, told_notifyStep watched, List.append_assoc]
    rfl
  | .ok .proceed | .ok (.push value) | .ok (.start above) =>
    cases stepped
    exact goes _

/-- A step is counted and told, and so is the result that it leads to. -/
theorem Observed.step (watched : machine.Observed program natives limits before who strides) {second : Machine}
    {outcome : StepOutcome} (stepped : machine.step = (second, .ok outcome)) :
    second.Observed program natives limits before who (strides ++ machine.stride?.toList) := by
  have abides : second.Abides program natives limits (.free program.tree natives) := by
    simpa [stepped] using step_abides watched.abides
  have same : second.roster = machine.roster := by simpa [stepped] using @roster_step machine
  have numbered := watched.numbered.of_roster same
  have watches : who ∈ second.watchers := (Prod.mk.inj same).1 ▸ watched.watches
  cases result : machine.result with
  | some value =>
    rw [step_of_result result] at stepped
    cases stepped
    simpa [stride?, result] using watched
  | none =>
    obtain ⟨told, incomplete⟩ := watched.going result
    cases active : machine.frames with
    | nil => simp [step_of_idle result active] at stepped
    | cons frame rest =>
      cases current : frame.current? with
      | none =>
        -- No step is counted: this frame runs an empty sequence.
        rw [step_of_completed result active current] at stepped
        cases stepped
        simp only [stride?, result, active, current, Option.map_none, Option.toList_none, List.append_nil]
        rcases completeFrames_aside machine with kept | ⟨value, finished⟩
        · have going : machine.completeFrames.result = none := (congrArg Aside.result kept).trans result
          refine ⟨abides, numbered, watches, ?_, fun _ => ?_, by simp [going]⟩
          · rw [watched.counted]
            exact (congrArg Aside.stepsTaken kept).symm
          · rw [told_of_log (congrArg Aside.log kept)]
            exact ⟨told, incomplete⟩
        · rw [finished] at abides numbered watches ⊢
          refine ⟨abides, numbered, watches, watched.counted, nofun, fun _ is => ?_⟩
          cases is
          rw [told_finishWith watched.once, told, Stride.trace_of_incomplete incomplete, List.append_assoc]
      | some step =>
        obtain ⟨counted, ended⟩ := told_step watched.abides watched.once result active current stepped
        simp only [stride?, result, active, current, Option.map_some, Option.toList_some]
        have counts : (strides ++ [(⟨step, machine.depth, machine.completes frame step⟩ : Stride)]).length =
            second.stepsTaken := by
          rw [counted, ← watched.counted, List.length_append, List.length_singleton]
        -- A step that completes the last frame can only be the last one, since a result follows from it.
        rcases ended with ⟨going, open', shown⟩ | ⟨value, finished, shown⟩
        · refine ⟨abides, numbered, watches, counts, fun _ => ⟨?_, ?_⟩, by simp [going]⟩
          · rw [shown, told, List.map_append, List.append_assoc]
            rfl
          · simpa [or_imp, forall_and, open'] using incomplete
        · refine ⟨abides, numbered, watches, counts, by simp [finished], fun _ is => ?_⟩
          cases finished.symm.trans is
          rw [shown, told, Stride.trace_append, List.append_assoc]

theorem Observed.heed (watched : machine.Observed program natives limits before who strides) (request : Option Bool) :
    (machine.heed request).Observed program natives limits before who strides := by
  have abides := heed_abides watched.abides request
  have numbered := watched.numbered.of_roster (roster_heed request)
  cases request <;> exact ⟨abides, numbered, watched.watches, watched.counted, watched.going, watched.ending⟩

/-- Running out of steps is told as a result. -/
theorem Observed.finishWith (watched : machine.Observed program natives limits before who strides)
    (result : machine.result = none) (value : Value) :
    (machine.finishWith value).Observed program natives limits before who strides := by
  obtain ⟨told, incomplete⟩ := watched.going result
  refine ⟨finishWith_abides watched.abides value, watched.numbered.of_roster rfl, watched.watches, watched.counted,
    nofun, fun _ is => ?_⟩
  cases is
  rw [told_finishWith watched.once, told, Stride.trace_of_incomplete incomplete, List.append_assoc]

theorem Observed.runAmid (watched : machine.Observed program natives limits before who strides)
    {requests : Nat → Option Bool} {limit : Nat} {last : Machine} {outcome : RunOutcome}
    (ran : machine.runAmid requests limit = (last, .ok outcome)) :
    last.Observed program natives limits before who (strides ++ machine.stridesAmid requests limit) := by
  induction limit generalizing machine requests strides with
  | zero =>
    have heeded := watched.heed (requests 0)
    rw [stridesAmid, List.append_nil]
    unfold Machine.runAmid at ran
    dsimp only at ran
    split at ran
    · cases ran
      exact heeded
    · rename_i goes
      unfold exhaust at ran
      split at ran
      · cases ran
      · cases ran
        exact heeded.finishWith (stop?_eq_none goes).1 _
  | succ limit hypothesis =>
    have heeded := watched.heed (requests 0)
    unfold Machine.runAmid at ran
    unfold stridesAmid
    dsimp only at ran ⊢
    cases stops : (machine.heed (requests 0)).stop? with
    | some stop =>
      rw [stops] at ran
      cases ran
      simpa [stops] using heeded
    | none =>
      rw [stops] at ran
      simp only at ran ⊢
      split at ran
      · cases ran
      · rename_i second outcome is
        have after := hypothesis (heeded.step is) ran
        simp only [is]
        rwa [List.append_assoc] at after

end

end Machine

/-! ### Hosts that watch -/

/-- Whether a deed goes on with an evaluation and leaves an observer where it is. -/
def Deed.leaves (id : Nat) : Deed → Bool
  | .step | .run _ _ | .pause | .resume | .observe _ => true
  | .ignore other => other != id
  | _ => false

namespace Machine

section

variable {program : Program} {natives : Natives} {limits : Limits} {machine : Machine} {before : List Event} {who : Nat}
  {strides : List Stride}

theorem Observed.perform (watched : machine.Observed program natives limits before who strides) {deed : Deed}
    (leaves : deed.leaves who = true) (accepted : (machine.perform deed).2 = .ok ()) :
    (machine.perform deed).1.Observed program natives limits before who (strides ++ machine.stridesDuring deed) := by
  have abides := @perform_abides _ _ _ _ _ watched.abides deed (isSupplied_free machine [deed]).1
  have numbered := watched.numbered.perform deed
  cases deed with
  | step =>
    cases stepped : machine.step with
    | mk second outcome =>
      cases outcome with
      | error fault => simp [Machine.perform, stepped, Except.map] at accepted
      | ok outcome => simpa [Machine.perform, stridesDuring, stepped] using watched.step stepped
  | run limit requests =>
    cases ran : machine.runAmid requests limit with
    | mk last outcome =>
      cases outcome with
      | error fault => simp [Machine.perform, ran, Except.map] at accepted
      | ok outcome => simpa [Machine.perform, stridesDuring, ran] using watched.runAmid ran
  | pause | resume =>
    rw [show machine.stridesDuring _ = [] from rfl, List.append_nil]
    exact ⟨abides, numbered, watched.watches, watched.counted, watched.going, watched.ending⟩
  | observe pauseAfter =>
    have watches : who ∈ (machine.observe pauseAfter).2.watchers := by
      rw [show (machine.observe pauseAfter).2.watchers = machine.watchers ++ _ from List.map_append]
      exact List.mem_append_left _ watched.watches
    rw [show machine.stridesDuring _ = [] from rfl, List.append_nil]
    exact ⟨abides, numbered, watches, watched.counted, watched.going, watched.ending⟩
  | ignore other =>
    have watches : who ∈ (machine.ignore other).2.watchers := by
      obtain ⟨observer, among, rfl⟩ := List.mem_map.mp watched.watches
      have another : observer.id ≠ other := fun same => by simp [Deed.leaves, same] at leaves
      exact List.mem_map.mpr ⟨observer, List.mem_filter.mpr ⟨among, by simpa using another⟩, rfl⟩
    rw [show machine.stridesDuring _ = [] from rfl, List.append_nil]
    exact ⟨abides, numbered, watches, watched.counted, watched.going, watched.ending⟩
  | start _ | call _ _ _ | jump _ => simp [Deed.leaves] at leaves

theorem Observed.after {deeds : List Deed} (watched : machine.Observed program natives limits before who strides)
    (leaves : ∀ deed ∈ deeds, deed.leaves who = true) (accepted : machine.Accepts deeds) :
    (machine.after deeds).Observed program natives limits before who (strides ++ machine.stridesAlong deeds) := by
  induction deeds generalizing machine strides with
  | nil =>
    rw [stridesAlong, List.append_nil]
    exact watched
  | cons deed deeds hypothesis =>
    have first := watched.perform (leaves deed (by simp)) accepted.1
    have after := hypothesis first (fun other among => leaves other (by simp [among])) accepted.2
    rwa [List.append_assoc] at after

end

/-- Whatever a host did with a machine before it starts an evaluation that somebody watches: the steps that the
evaluation counts are told, one by one, with the depth of frames at which they ran, and its result is told once. The
result comes after the steps, unless the last frame is completed; then it comes before the step that completed it. -/
theorem told_of_evaluation (program : Program) (natives : Natives) (limits : Limits) (store : Store)
    (earlier : List Deed) (inputs : Inputs) (deeds : List Deed) (who : Nat)
    (watches : who ∈ ((create program natives limits store).after earlier).watchers)
    (leaves : ∀ deed ∈ deeds, deed.leaves who = true)
    (accepted : (((create program natives limits store).after earlier).start inputs).Accepts deeds) :
    let before := (create program natives limits store).after earlier
    let strides := (before.start inputs).stridesAlong deeds
    let last := (before.start inputs).after deeds
    last.stepsTaken = strides.length ∧
      (last.result = none → last.told who = before.told who ++ strides.map Stride.event) ∧
      ∀ value, last.result = some value → last.told who = before.told who ++ Stride.trace value strides := by
  intro before strides last
  have abides : before.Abides program natives limits (.free program.tree natives) :=
    after_abides (create_abides (Store.abides_free _ _ _) (Nat.zero_le _) limits) (isSupplied_free _ earlier)
  have numbered : before.Numbered := (numbered_create program natives limits store).after earlier
  have started : (before.start inputs).Observed program natives limits (before.told who) who [] := by
    refine ⟨?_, numbered.of_roster rfl, watches, rfl, fun _ => ⟨(List.append_nil _).symm, by simp⟩, nofun⟩
    exact @perform_abides _ _ _ _ _ abides (.start inputs) (isSupplied_free before [.start inputs]).1
  have ended := started.after leaves accepted
  exact ⟨ended.counted.symm, fun going => (ended.going going).1, ended.ending⟩

/-- A truth. -/
def truth : Tree where
  nodes := #[
    ⟨.boolean true, .none⟩,
    ⟨.program (.node 0), .none⟩]
  lists := #[]
  root := .node 1

theorem told_of_truth :
    let before := (create (.ofTree truth) .standard ⟨1000, 10⟩ .empty).after [.observe (some 1), .observe none]
    let deeds : List Deed := [.run 3 fun _ => none, .ignore 0, .resume, .step]
    (before.start {}).Accepts deeds ∧
      ((before.start {}).after deeds).told 1 = Stride.trace (.boolean true) ((before.start {}).stridesAlong deeds) := by
  intro before deeds
  have watched : before = { create (.ofTree truth) .standard ⟨1000, 10⟩ .empty with
      observers := [⟨0, some 1, 0⟩, ⟨1, none, 0⟩], nextObserver := 2 } := rfl
  have accepted : (before.start {}).Accepts deeds := by
    rw [watched, start_eq]
    exact ⟨rfl, rfl, rfl, rfl, trivial⟩
  have result : ((before.start {}).after deeds).result = some (.boolean true) := by
    rw [watched, start_eq]
    rfl
  have told := told_of_evaluation (.ofTree truth) .standard ⟨1000, 10⟩ .empty [.observe (some 1), .observe none] {}
    deeds 1 (by decide) (by simp [deeds, Deed.leaves]) accepted
  exact ⟨accepted, told.2.2 _ result⟩

/-- The result is told before the step that completes the last frame. -/
theorem result_told_before_last_step :
    let watched := ((create (.ofTree truth) .standard ⟨1000, 10⟩ .empty).observe none).2
    let last := (watched.evaluate {}).1
    (watched.evaluate {}).2 = .ok (.finished (.boolean true)) ∧
      last.told 0 = [.stepped (.finish (.node 0)) 1, .finished (.boolean true), .stepped (.finish (.node 1)) 1] ∧
      ¬ ∃ steps value, last.told 0 = steps ++ [.finished value] := by
  intro watched last
  have told : last.told 0 = [.stepped (.finish (.node 0)) 1, .finished (.boolean true),
      .stepped (.finish (.node 1)) 1] := by
    simp only [last, evaluate, start_eq]
    rfl
  refine ⟨by simp only [evaluate, start_eq]; rfl, told, ?_⟩
  rintro ⟨steps, value, ends⟩
  have same : some (Event.stepped (.finish (.node 1)) 1) = some (.finished value) := by
    simpa [told] using congrArg List.getLast? ends
  cases same

end Machine

end Rivulet
