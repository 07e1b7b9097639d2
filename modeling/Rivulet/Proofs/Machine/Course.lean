import Rivulet.Proofs.Machine.Bystanders
import Rivulet.Proofs.Meaning
import Mathlib.Tactic.Cases

/-!
Courses: what a machine does step by step. A machine that nobody observes changes four things as it
steps: its scopes, its frames, the number of steps taken, and in the end its result. `inState` names
such a state of an evaluation, and the lemmas on single steps lead from one state to the next. A
course leads through several states, and records the visits that its steps make.

Main statements: a run along a course that ends with a result yields that result, unless its budget is
smaller than the length of the course (`run_to_result`), and a run along a course to a fault has that
fault (`run_to_fault`).
-/

namespace Rivulet.Machine

/-! ### States of an evaluation -/

/-- A machine in another state of its evaluation. -/
def inState (machine : Machine) (store : Store) (frames : List Frame) (taken : Nat) : Machine :=
  { machine with
    store
    stack := ⟨frames, frames.length, rfl⟩
    result := none
    stepsTaken := taken }

section

variable {machine : Machine} {store store' : Store} {frames rest : List Frame} {taken : Nat}

@[simp]
theorem inState_store : (machine.inState store frames taken).store = store :=
  rfl

@[simp]
theorem inState_frames : (machine.inState store frames taken).frames = frames :=
  rfl

@[simp]
theorem inState_result : (machine.inState store frames taken).result = none :=
  rfl

@[simp]
theorem inState_tree : (machine.inState store frames taken).tree = machine.tree :=
  rfl

@[simp]
theorem inState_program : (machine.inState store frames taken).program = machine.program :=
  rfl

@[simp]
theorem inState_natives : (machine.inState store frames taken).natives = machine.natives :=
  rfl

@[simp]
theorem inState_limits : (machine.inState store frames taken).limits = machine.limits :=
  rfl

@[simp]
theorem inState_root : (machine.inState store frames taken).root = machine.root :=
  rfl

@[simp]
theorem inState_trigger : (machine.inState store frames taken).trigger = machine.trigger :=
  rfl

@[simp]
theorem inState_borrowed : (machine.inState store frames taken).borrowed = machine.borrowed :=
  rfl

@[simp]
theorem inState_observers : (machine.inState store frames taken).observers = machine.observers :=
  rfl

@[simp]
theorem inState_paused : (machine.inState store frames taken).paused = machine.paused :=
  rfl

@[simp]
theorem inState_depth : (machine.inState store frames taken).depth = frames.length :=
  rfl

@[simp]
theorem inState_stepsTaken : (machine.inState store frames taken).stepsTaken = taken :=
  rfl

/-- Writing to the scopes of a state. -/
@[simp]
theorem inState_withStore :
    ({ machine.inState store frames taken with store := store' } : Machine) =
      machine.inState store' frames taken :=
  rfl

@[simp]
theorem inState_charged :
    ({ machine.inState store frames taken with stepsTaken := taken + 1 } : Machine) =
      machine.inState store frames (taken + 1) :=
  rfl

@[simp]
theorem inState_setTop {frame top : Frame} :
    (machine.inState store (frame :: rest) taken).setTop top =
      machine.inState store (top :: rest) taken :=
  rfl

end

/-! ### Completing frames -/

section

variable {machine : Machine} {store : Store} {frame : Frame} {rest : List Frame} {taken : Nat}

/-- A frame with steps left is not completed. -/
theorem completeFrames_of_going (left : frame.isExhausted = false) :
    (machine.inState store (frame :: rest) taken).completeFrames =
      machine.inState store (frame :: rest) taken := by
  simp [completeFrames, left]

@[simp]
theorem observers_finishWith (value : Value) : (machine.finishWith value).observers = machine.observers :=
  rfl

@[simp]
theorem result_finishWith (value : Value) : (machine.finishWith value).result = some value :=
  rfl

@[simp]
theorem observers_completeFrames : machine.completeFrames.observers = machine.observers := by
  unfold completeFrames
  split
  · rfl
  · split
    · rfl
    · dsimp only
      split
      · rfl
      · split <;> rfl

@[simp]
theorem store_finishWith (value : Value) : (machine.finishWith value).store = machine.store :=
  rfl

@[simp]
theorem store_completeFrames : machine.completeFrames.store = machine.store := by
  unfold completeFrames
  split
  · rfl
  · split
    · rfl
    · dsimp only
      split
      · rfl
      · split <;> rfl

/-- An exception that a frame ends with ends the evaluation. -/
theorem completeFrames_of_exception {value : Value} {values : List Value}
    (exhausted : frame.isExhausted = true) (holds : frame.values = value :: values)
    (exception : value.isException = true) :
    (machine.inState store (frame :: rest) taken).completeFrames.result = some value := by
  simp [completeFrames, exhausted, Frame.peek?, holds, exception]

/-- Any other value goes to the caller, which has steps left. -/
theorem completeFrames_of_caller {value : Value} {values : List Value} {caller : Frame}
    (exhausted : frame.isExhausted = true) (holds : frame.values = value :: values)
    (regular : value.isException = false) (left : caller.isExhausted = false) :
    (machine.inState store (frame :: caller :: rest) taken).completeFrames =
      machine.inState store (caller.push value :: rest) taken := by
  simp only [completeFrames, inState_frames, exhausted, Frame.peek?, holds, List.head?_cons,
    Option.getD_some, regular]
  simp [inState, CallStack.deliver, CallStack.pop, CallStack.deliverTo, left]

/-- The value of the last frame is the result. -/
theorem completeFrames_of_last {value : Value} {values : List Value}
    (exhausted : frame.isExhausted = true) (holds : frame.values = value :: values) :
    (machine.inState store [frame] taken).completeFrames.result = some value := by
  by_cases exception : value.isException = true
  · exact completeFrames_of_exception exhausted holds exception
  · simp only [completeFrames, inState_frames, exhausted, Frame.peek?, holds, List.head?_cons,
      Option.getD_some, exception]
    simp [inState, CallStack.deliver, CallStack.pop, CallStack.deliverTo]

end

/-! ### Single steps -/

theorem notifyStep_of_unobserved {N : Type} [DecidableEq N] [Naming N] {machine : Machine N}
    (unobserved : machine.observers = [])
    (step : Step) (depth : Nat) : machine.notifyStep step depth = machine := by
  simp [notifyStep, unobserved]

section

variable {machine : Machine} {store store' : Store} {frame frame' : Frame} {rest : List Frame}
  {taken : Nat} {step : Step}

/-- A step executes the current step of the topmost frame and goes on with its flow. -/
theorem step_inState (current : frame.current? = some step) :
    (machine.inState store (frame :: rest) taken).step =
      match (machine.inState store (frame :: rest) (taken + 1)).execute frame step with
      | (machine, .error fault) => (machine, .error fault)
      | (machine, .ok (.throw exception)) =>
        ((machine.notifyStep step machine.depth).finishWith exception,
          .ok ((machine.notifyStep step machine.depth).finishWith exception).outcome)
      | (machine, .ok flow) =>
        ((machine.proceed flow).completeFrames.notifyStep step machine.depth,
          .ok ((machine.proceed flow).completeFrames.notifyStep step machine.depth).outcome) := by
  rw [step_of_current rfl rfl current]
  change conclude step ((machine.inState store (frame :: rest) (taken + 1)).execute frame step) = _
  rcases (machine.inState store (frame :: rest) (taken + 1)).execute frame step with ⟨machine, fault | flow⟩
  · rfl
  · cases flow <;> rfl

/-- A step that pushes a value. -/
theorem step_of_push (unobserved : machine.observers = []) (current : frame.current? = some step)
    {value : Value}
    (executed : (machine.inState store (frame :: rest) (taken + 1)).execute frame step =
      (machine.inState store' (frame' :: rest) (taken + 1), .ok (.push value))) :
    ∃ outcome, (machine.inState store (frame :: rest) taken).step =
      ((machine.inState store' ((frame'.push value).advance :: rest) (taken + 1)).completeFrames,
        .ok outcome) := by
  rw [step_inState current, executed]
  simp only [proceed, inState_frames, inState_setTop]
  rw [notifyStep_of_unobserved (by simp [unobserved])]
  exact ⟨_, rfl⟩

/-- A step that changes the frame only. -/
theorem step_of_proceed (unobserved : machine.observers = []) (current : frame.current? = some step)
    (executed : (machine.inState store (frame :: rest) (taken + 1)).execute frame step =
      (machine.inState store' (frame' :: rest) (taken + 1), .ok .proceed)) :
    ∃ outcome, (machine.inState store (frame :: rest) taken).step =
      ((machine.inState store' (frame'.advance :: rest) (taken + 1)).completeFrames,
        .ok outcome) := by
  rw [step_inState current, executed]
  simp only [proceed, inState_frames, inState_setTop]
  rw [notifyStep_of_unobserved (by simp [unobserved])]
  exact ⟨_, rfl⟩

/-- A step that starts a frame. -/
theorem step_of_start (unobserved : machine.observers = []) (current : frame.current? = some step)
    {above : Frame}
    (executed : (machine.inState store (frame :: rest) (taken + 1)).execute frame step =
      (machine.inState store' (frame' :: rest) (taken + 1), .ok (.start above))) :
    ∃ outcome, (machine.inState store (frame :: rest) taken).step =
      ((machine.inState store' (above :: frame'.advance :: rest) (taken + 1)).completeFrames,
        .ok outcome) := by
  rw [step_inState current, executed]
  have started : (machine.inState store' (frame' :: rest) (taken + 1)).proceed (.start above) =
      machine.inState store' (above :: frame'.advance :: rest) (taken + 1) := rfl
  simp only [started]
  rw [notifyStep_of_unobserved (by simp [unobserved])]
  exact ⟨_, rfl⟩

/-- A step that throws. -/
theorem step_of_throw (current : frame.current? = some step) {last : Machine} {exception : Value}
    (executed : (machine.inState store (frame :: rest) (taken + 1)).execute frame step =
      (last, .ok (.throw exception))) :
    ∃ finished outcome, (machine.inState store (frame :: rest) taken).step =
      (finished, .ok outcome) ∧ finished.result = some exception := by
  rw [step_inState current, executed]
  exact ⟨_, _, rfl, rfl⟩

/-- A step that is a fault. -/
theorem step_of_fault (current : frame.current? = some step) {last : Machine} {fault : Fault}
    (executed : (machine.inState store (frame :: rest) (taken + 1)).execute frame step =
      (last, .error fault)) :
    (machine.inState store (frame :: rest) taken).step = (last, .error fault) := by
  rw [step_inState current, executed]

end

/-! ### Courses -/

/-- A machine after some single steps, whatever they returned. -/
def stepped (machine : Machine) : Nat → Machine
  | 0 => machine
  | count + 1 => (machine.stepped count).step.1

theorem stepped_succ (machine : Machine) (count : Nat) :
    machine.stepped (count + 1) = machine.step.1.stepped count := by
  induction count with
  | zero => rfl
  | succ count hypothesis => exact congrArg (fun machine => machine.step.1) hypothesis

/-- The visit that the next step makes, which is one if the step completes a node that reads its
scope. -/
def visit? (machine : Machine) : Option Visit :=
  match machine.frames with
  | [] => none
  | frame :: _ =>
    match frame.current? with
    | some (.finish node) =>
      if (machine.tree.form? node).any Form.readsScope then
        some ⟨node, frame.scope, machine.store⟩
      else none
    | _ => none

/-- One machine becomes another in a number of steps through states of one evaluation, and these
steps make some visits. -/
inductive Course (machine : Machine) : Nat → List Visit → Machine → Machine → Prop where
  | here (last : Machine) : Course machine 0 [] last last
  | step {count : Nat} {visits : List Visit} {store : Store} {frames : List Frame} {taken : Nat}
      {second last : Machine} {outcome : StepOutcome}
      (stepped : (machine.inState store frames taken).step = (second, .ok outcome))
      (rest : Course machine count visits second last) :
      Course machine (count + 1) ((machine.inState store frames taken).visit?.toList ++ visits)
        (machine.inState store frames taken) last

namespace Course

variable {machine : Machine} {count count' : Nat} {visits visits' : List Visit}
  {first second last : Machine}

theorem trans (start : Course machine count visits first second)
    (rest : Course machine count' visits' second last) :
    Course machine (count + count') (visits ++ visits') first last := by
  induction start with
  | here => simpa using rest
  | step stepped _ hypothesis =>
    rw [Nat.add_right_comm, List.append_assoc]
    exact .step stepped (hypothesis rest)

/-- A course of one step. -/
theorem single {store : Store} {frames : List Frame} {taken : Nat} {outcome : StepOutcome}
    (stepped : (machine.inState store frames taken).step = (second, .ok outcome)) :
    Course machine 1 (machine.inState store frames taken).visit?.toList
      (machine.inState store frames taken) second := by
  simpa using Course.step stepped (.here second)

/-- A course leads along single steps. -/
theorem stepped (course : Course machine count visits first last) : first.stepped count = last := by
  induction course with
  | here => rfl
  | step is _ hypothesis => rw [stepped_succ, is, hypothesis]

/-- A course that is not over is in the middle of the evaluation after its first steps. -/
theorem exists_middle (course : Course machine (count + (count' + 1)) visits first last) :
    ∃ visits store frames taken, Course machine count visits first (machine.inState store frames taken) := by
  induction count generalizing visits first with
  | zero =>
    rw [Nat.zero_add] at course
    cases course with
    | step => exact ⟨[], _, _, _, .here _⟩
  | succ count hypothesis =>
    rw [Nat.add_right_comm] at course
    cases course with
    | step stepped rest =>
      obtain ⟨visits, store, frames, taken, onwards⟩ := hypothesis rest
      exact ⟨_, store, frames, taken, .step stepped onwards⟩

/-- A course that is not over begins with a step. -/
theorem cases_succ (course : Course machine (count + 1) visits first last) :
    first.result = none ∧ ∃ second outcome visits', first.step = (second, .ok outcome) ∧
      visits = first.visit?.toList ++ visits' ∧ Course machine count visits' second last := by
  generalize more : count + 1 = total at course
  cases course with
  | here => omega
  | step stepped rest =>
    cases more
    exact ⟨rfl, _, _, _, stepped, rfl, rest⟩

/-- Of two courses from one state the shorter one is the beginning of the longer one. -/
theorem goes_on (course : Course machine count visits first second)
    (longer : Course machine (count + count') visits' first last) :
    ∃ rest, visits' = visits ++ rest ∧ Course machine count' rest second last := by
  induction course generalizing visits' with
  | here => exact ⟨visits', by simp, by rwa [Nat.zero_add] at longer⟩
  | @step count visits _ _ _ _ _ outcome stepped _ hypothesis =>
    rw [Nat.add_right_comm] at longer
    obtain ⟨-, next, outcome', later, stepped', rfl, longer⟩ := longer.cases_succ
    rw [stepped] at stepped'
    cases stepped'
    obtain ⟨rest, rfl, goes_on⟩ := hypothesis longer
    exact ⟨rest, by rw [List.append_assoc], goes_on⟩

end Course

/-! ### Runs along courses -/

/-- The exception of a program whose budget has run out. -/
def stepLimitReached (tree : Tree) : Value :=
  .failed .stepLimit tree.root

theorem run_of_result {machine : Machine} {value : Value} (finished : machine.result = some value)
    (budget : Nat) : machine.run budget = (machine, .ok (.finished value)) := by
  cases budget <;> simp [run, stop?, finished]

/-- The next step of a state of the evaluation is a fault. -/
def IsFaulty (machine last : Machine) (fault : Fault) : Prop :=
  ∃ store frame rest taken final, last = machine.inState store (frame :: rest) taken ∧
    last.step = (final, .error fault)

section

variable {machine : Machine} {count : Nat} {visits : List Visit} {first last : Machine}
  (unpaused : machine.paused = false)

include unpaused

theorem stop?_inState (store : Store) (frames : List Frame) (taken : Nat) :
    (machine.inState store frames taken).stop? = none := by
  simp [stop?, unpaused]

/-- A run with enough steps left goes along a course. -/
theorem run_along_course (course : Course machine count visits first last) (budget : Nat) :
    first.run (count + budget) = last.run budget := by
  induction course with
  | here => rw [Nat.zero_add]
  | @step count _ store frames taken second _ _ stepped _ hypothesis =>
    rw [Nat.add_right_comm, run, stop?_inState unpaused store frames taken]
    simp only [stepped]
    exact hypothesis

/-- What a run comes to along a course, given what it comes to behind the course. -/
theorem run_of_course {outcome : Except Fault RunOutcome} {more : Nat}
    (course : Course machine count visits first last)
    (behind : ∀ budget, (last.run budget).2 =
      if more ≤ budget then outcome else .ok (.finished (stepLimitReached machine.tree)))
    (budget : Nat) :
    (first.run budget).2 =
      if count + more ≤ budget then outcome
      else .ok (.finished (stepLimitReached machine.tree)) := by
  induction course generalizing budget with
  | here => simpa using behind budget
  | @step count _ store frames taken second _ _ stepped _ hypothesis =>
    have going := stop?_inState unpaused store frames taken
    cases budget with
    | zero =>
      cases frames with
      | nil => simp [step] at stepped
      | cons frame rest => simp [run, going, exhaust, stepLimitReached]
    | succ budget =>
      rw [run, going]
      simp only [stepped]
      rw [hypothesis behind budget]
      simp only [Nat.add_right_comm count 1 more, Nat.add_le_add_iff_right]

/-- A run along a course to a result comes to that result within a sufficient budget, and to the
exception of an exhausted budget otherwise. -/
theorem run_to_result {value : Value} (course : Course machine count visits first last)
    (finished : last.result = some value) (budget : Nat) :
    (first.run budget).2 =
      if count ≤ budget then .ok (.finished value)
      else .ok (.finished (stepLimitReached machine.tree)) := by
  have behind (budget : Nat) : (last.run budget).2 =
      if 0 ≤ budget then .ok (.finished value)
      else .ok (.finished (stepLimitReached machine.tree)) := by
    simp [run_of_result finished]
  exact run_of_course unpaused course behind budget

/-- A run along a course to a fault has that fault if its budget goes beyond the course. -/
theorem run_to_fault {fault : Fault} (course : Course machine count visits first last)
    (faulty : machine.IsFaulty last fault) (budget : Nat) :
    (first.run budget).2 =
      if count + 1 ≤ budget then .error fault
      else .ok (.finished (stepLimitReached machine.tree)) := by
  refine run_of_course unpaused course (fun budget => ?_) budget
  obtain ⟨store, frame, rest, taken, final, rfl, stepped⟩ := faulty
  have going := stop?_inState unpaused store (frame :: rest) taken
  cases budget with
  | zero => simp [run, going, exhaust, stepLimitReached]
  | succ budget =>
    rw [run, going]
    simp [stepped]

end

end Rivulet.Machine
