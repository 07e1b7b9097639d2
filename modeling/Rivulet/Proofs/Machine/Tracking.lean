import Rivulet.Proofs.Machine.Course

/-!
How a machine keeps up with a computation. A machine tracks a computation in a world when a course
leads it to where the computation ends: to a state that its value describes, or to the exception or
the fault that the computation halts with, by way of the same visits.

The rules here build the tracking of a computation from that of its parts; `Leaves` and `Computes`
say what it means for a sequence of steps to compute a value wherever it stands.
-/

namespace Rivulet

/-! ### Frames along their steps -/

namespace Frame

/-- The steps that a frame has ahead of it. -/
def Ahead (frame : Frame) (steps : List Step) : Prop :=
  frame.steps.toList.drop frame.cursor = steps

/-- A frame after some more steps, with other values on its stack. -/
def after (frame : Frame) (count : Nat) (values : List Value) : Frame :=
  { frame with cursor := frame.cursor + count, values }

variable {frame : Frame} {step : Step} {steps following : List Step} {values : List Value}

@[simp]
theorem scope_after (count : Nat) : (frame.after count values).scope = frame.scope :=
  rfl

@[simp]
theorem values_after (count : Nat) : (frame.after count values).values = values :=
  rfl

@[simp]
theorem origin_after (count : Nat) : (frame.after count values).origin = frame.origin :=
  rfl

@[simp]
theorem after_after (count count' : Nat) (values' : List Value) :
    (frame.after count values).after count' values' = frame.after (count + count') values' := by
  simp [after, Nat.add_assoc]

theorem after_zero : frame.after 0 frame.values = frame :=
  rfl

@[simp]
theorem advance_push_after (count : Nat) (value : Value) :
    ((frame.after count values).push value).advance = frame.after (count + 1) (value :: values) :=
  rfl

@[simp]
theorem advance_after (count : Nat) :
    (frame.after count values).advance = frame.after (count + 1) values :=
  rfl

theorem Ahead.current? (ahead : frame.Ahead (step :: steps)) : frame.current? = some step := by
  have first := congrArg List.head? ahead
  simpa [Frame.current?] using first

theorem Ahead.isExhausted_eq_false (ahead : frame.Ahead (step :: steps)) :
    frame.isExhausted = false := by
  have length := congrArg List.length ahead
  simp [Frame.isExhausted] at length ⊢
  omega

theorem Ahead.going (ahead : frame.Ahead steps) (more : steps ≠ []) : frame.isExhausted = false := by
  obtain ⟨next, others, rfl⟩ := List.exists_cons_of_ne_nil more
  exact ahead.isExhausted_eq_false

theorem Ahead.isExhausted_eq_true (ahead : frame.Ahead []) : frame.isExhausted = true := by
  have length := congrArg List.length ahead
  simp [Frame.isExhausted] at length ⊢
  omega

/-- What lies ahead after a part of the steps. -/
theorem Ahead.after (ahead : frame.Ahead (steps ++ following)) :
    (frame.after steps.length values).Ahead following := by
  unfold Ahead at ahead ⊢
  simp only [Frame.after, ← List.drop_drop, ahead]
  simp

theorem Ahead.after_one (ahead : frame.Ahead (step :: following)) :
    (frame.after 1 values).Ahead following :=
  @Ahead.after frame [step] following values ahead

/-- What lies ahead does not depend on the scope. -/
theorem Ahead.withScope (ahead : frame.Ahead steps) (scope : ScopeId) :
    { frame with scope }.Ahead steps :=
  ahead

/-- A jump over steps that lie ahead stays inside the sequence. -/
theorem Ahead.jump (ahead : frame.Ahead steps) {distance : Nat} (inside : distance < steps.length) :
    frame.jump distance = .ok { frame with cursor := frame.cursor + distance } := by
  have length := congrArg List.length ahead
  simp only [List.length_drop, Array.length_toList] at length
  have within : (frame.cursor : Int) + distance < frame.steps.size := by omega
  have positive : (0 : Int) ≤ frame.cursor + distance := by omega
  simp only [Frame.jump, within, positive, decide_true, Bool.and_self, if_true]
  rfl

end Frame

namespace Machine

open Meaning

/-! ### Tracking -/

/-- How a course ends when a computation halts. -/
def Ends (machine last : Machine) : Halt → Prop
  | .exception value => last.result = some value
  | .fault fault => machine.IsFaulty last fault

variable {α β : Type}

/-- From a first state on, a course leads to where a computation ends. -/
def Tracks (machine first : Machine) (world : World) (computation : Eval α)
    (reached : α → Store → Machine → Prop) : Prop :=
  match computation world with
  | .ok value world' => ∃ count visits last, Course machine count visits first last ∧
      world'.visits = world.visits ++ visits ∧ reached value world'.store last
  | .error halt world' => ∃ count visits last, Course machine count visits first last ∧
      world'.visits = world.visits ++ visits ∧ machine.Ends last halt

section

variable {machine first second : Machine} {world world' : World} {reached : α → Store → Machine → Prop}

theorem tracks_pure {value : α} (there : reached value world.store first) :
    Tracks machine first world (pure value) reached :=
  ⟨0, [], first, .here first, by simp, there⟩

theorem tracks_ok {computation : Eval α} {value : α} {count : Nat} {visits : List Visit}
    (computed : computation world = .ok value world')
    (course : Course machine count visits first second)
    (seen : world'.visits = world.visits ++ visits) (there : reached value world'.store second) :
    Tracks machine first world computation reached := by
  unfold Tracks
  rw [computed]
  exact ⟨count, visits, second, course, seen, there⟩

theorem tracks_error {computation : Eval α} {halt : Halt} {count : Nat} {visits : List Visit}
    (computed : computation world = .error halt world')
    (course : Course machine count visits first second)
    (seen : world'.visits = world.visits ++ visits) (ended : machine.Ends second halt) :
    Tracks machine first world computation reached := by
  unfold Tracks
  rw [computed]
  exact ⟨count, visits, second, course, seen, ended⟩

/-- A computation that goes on as another one in another world, with the same visits before it. -/
theorem tracks_of_eq {computation computation' : Eval α} (world' : World)
    (same : computation world = computation' world')
    (seen : world'.visits = world.visits)
    (tracked : Tracks machine first world' computation' reached) :
    Tracks machine first world computation reached := by
  unfold Tracks at tracked ⊢
  rwa [same, ← seen]

/-- Steps without visits before a computation is tracked. -/
theorem tracks_after {computation : Eval α} {count : Nat}
    (course : Course machine count [] first second)
    (tracked : Tracks machine second world computation reached) :
    Tracks machine first world computation reached := by
  unfold Tracks at tracked ⊢
  split at tracked
  all_goals
    rename_i computed
    obtain ⟨count', visits, last, rest, seen, there⟩ := tracked
    exact ⟨_, visits, last, by simpa using course.trans rest, seen, there⟩

/-- A computation in two parts is tracked part by part. -/
theorem tracks_bind {computation : Eval α} {next : α → Eval β}
    {reached' : β → Store → Machine → Prop}
    (tracked : Tracks machine first world computation reached)
    (continued : ∀ value world' second, computation world = .ok value world' →
      reached value world'.store second → Tracks machine second world' (next value) reached') :
    Tracks machine first world (computation >>= next) reached' := by
  unfold Tracks at tracked
  cases computed : computation world with
  | error halt world' =>
    rw [computed] at tracked
    have halted : (computation >>= next) world = .error halt world' := by
      simp [bind, EStateM.bind, computed]
    unfold Tracks
    rw [halted]
    exact tracked
  | ok value world' =>
    rw [computed] at tracked
    obtain ⟨count, visits, second, course, seen, there⟩ := tracked
    have goesOn : (computation >>= next) world = next value world' := by
      simp [bind, EStateM.bind, computed]
    have later := continued value world' second computed there
    unfold Tracks at later ⊢
    rw [goesOn]
    split at later
    all_goals
      rename_i computed'
      obtain ⟨count', visits', last, rest, seen', there'⟩ := later
      exact ⟨_, _, last, course.trans rest, by rw [seen', seen, List.append_assoc], there'⟩

/-- Steps without visits after a computation is tracked. -/
theorem tracks_before {computation : Eval α} {reached' : α → Store → Machine → Prop}
    (tracked : Tracks machine first world computation reached)
    (further : ∀ value store last, reached value store last →
      ∃ count last', Course machine count [] last last' ∧ reached' value store last') :
    Tracks machine first world computation reached' := by
  unfold Tracks at tracked ⊢
  split at tracked
  · obtain ⟨count, visits, last, course, seen, there⟩ := tracked
    obtain ⟨count', last', rest, there'⟩ := further _ _ _ there
    exact ⟨_, _, last', course.trans rest, by simpa using seen, there'⟩
  · exact tracked

theorem tracks_mono {computation : Eval α} {reached' : α → Store → Machine → Prop}
    (tracked : Tracks machine first world computation reached)
    (implied : ∀ value store last, reached value store last → reached' value store last) :
    Tracks machine first world computation reached' := by
  unfold Tracks at tracked ⊢
  split at tracked
  · obtain ⟨count, visits, last, course, seen, there⟩ := tracked
    exact ⟨count, visits, last, course, seen, implied _ _ _ there⟩
  · exact tracked

end

/-! ### Single steps -/

/-- A step completes no node that reads its scope. -/
def Silent (tree : Tree) (step : Step) : Prop :=
  ∀ node, step = .finish node → (tree.form? node).any Form.readsScope = false

section

variable {machine : Machine} {store store' : Store} {frame frame' : Frame} {rest : List Frame}
  {taken : Nat} {step : Step} {world world' : World} {reached : α → Store → Machine → Prop}

theorem visit?_of_silent (current : frame.current? = some step) (silent : Silent machine.tree step) :
    (machine.inState store (frame :: rest) taken).visit? = none := by
  simp only [visit?, inState_frames, current, inState_tree]
  split
  · rename_i node finishes
    simp [silent node (by simpa using finishes)]
  · rfl

theorem visit?_of_form {node : NodeId} {form : Form} (current : frame.current? = some (.finish node))
    (is : machine.tree.form? node = some form) (reads : form.readsScope = true) :
    (machine.inState store (frame :: rest) taken).visit? = some ⟨node, frame.scope, store⟩ := by
  simp [visit?, current, is, reads]

/-- One silent step that pushes a value. -/
theorem course_of_push (unobserved : machine.observers = []) (current : frame.current? = some step)
    (silent : Silent machine.tree step) {value : Value}
    (executed : (machine.inState store (frame :: rest) (taken + 1)).execute frame step =
      (machine.inState store' (frame' :: rest) (taken + 1), .ok (.push value))) :
    Course machine 1 [] (machine.inState store (frame :: rest) taken)
      (machine.inState store' ((frame'.push value).advance :: rest) (taken + 1)).completeFrames := by
  obtain ⟨outcome, stepped⟩ := step_of_push unobserved current executed
  simpa [visit?_of_silent current silent] using Course.single stepped

/-- One silent step that changes the frame only. -/
theorem course_of_proceed (unobserved : machine.observers = [])
    (current : frame.current? = some step) (silent : Silent machine.tree step)
    (executed : (machine.inState store (frame :: rest) (taken + 1)).execute frame step =
      (machine.inState store' (frame' :: rest) (taken + 1), .ok .proceed)) :
    Course machine 1 [] (machine.inState store (frame :: rest) taken)
      (machine.inState store' (frame'.advance :: rest) (taken + 1)).completeFrames := by
  obtain ⟨outcome, stepped⟩ := step_of_proceed unobserved current executed
  simpa [visit?_of_silent current silent] using Course.single stepped

/-- One silent step that starts a frame. -/
theorem course_of_start (unobserved : machine.observers = [])
    (current : frame.current? = some step) (silent : Silent machine.tree step) {above : Frame}
    (executed : (machine.inState store (frame :: rest) (taken + 1)).execute frame step =
      (machine.inState store' (frame' :: rest) (taken + 1), .ok (.start above))) :
    Course machine 1 [] (machine.inState store (frame :: rest) taken)
      (machine.inState store' (above :: frame'.advance :: rest) (taken + 1)).completeFrames := by
  obtain ⟨outcome, stepped⟩ := step_of_start unobserved current executed
  simpa [visit?_of_silent current silent] using Course.single stepped

/-- A silent step that throws what a computation throws. -/
theorem tracks_of_throw {computation : Eval α} {exception : Value}
    (computed : computation world = .error (.exception exception) world')
    (seen : world'.visits = world.visits) (current : frame.current? = some step)
    (silent : Silent machine.tree step)
    (thrown : ((machine.inState store (frame :: rest) (taken + 1)).execute frame step).2 =
      .ok (.throw exception)) :
    Tracks machine (machine.inState store (frame :: rest) taken) world computation reached := by
  obtain ⟨finished, outcome, stepped, ended⟩ :=
    @step_of_throw machine store frame rest taken step current _ _ (Prod.ext rfl thrown)
  have course := Course.single stepped
  rw [visit?_of_silent current silent] at course
  exact tracks_error computed course (by simp [seen]) ended

/-- A step that is the fault of a computation. -/
theorem tracks_of_fault {computation : Eval α} {fault : Fault}
    (computed : computation world = .error (.fault fault) world')
    (seen : world'.visits = world.visits) (current : frame.current? = some step)
    (faulty : ((machine.inState store (frame :: rest) (taken + 1)).execute frame step).2 =
      .error fault) :
    Tracks machine (machine.inState store (frame :: rest) taken) world computation reached :=
  tracks_error computed (.here _) (by simp [seen])
    ⟨store, frame, rest, taken, _, rfl, step_of_fault current (Prod.ext rfl faulty)⟩

end

/-! ### Sequences of steps -/

theorem inState_after_congr {machine : Machine} {store : Store} {frame : Frame} {rest : List Frame}
    {taken count count' : Nat} {values : List Value} (same : count = count') :
    machine.inState store (frame.after count values :: rest) taken =
      machine.inState store (frame.after count' values :: rest) taken := by
  rw [same]

/-- Wherever they stand, steps with others behind them compute what a computation does in the scope
of the frame, and leave some values on its stack, the topmost first. -/
def Leaves (machine : Machine) (calls : Nat) (code : List Step) (computation : ScopeId → Eval α)
    (left : α → List Value) : Prop :=
  ∀ (frame : Frame) (rest : List Frame) (step : Step) (following : List Step) (world : World)
    (taken : Nat), frame.Ahead (code ++ step :: following) →
    machine.limits.maxDepth - (rest.length + 1) = calls →
    Tracks machine (machine.inState world.store (frame :: rest) taken) world
      (computation frame.scope) fun value store last => ∃ taken',
        last = machine.inState store (frame.after code.length (left value ++ frame.values) :: rest)
          taken'

/-- Wherever they stand, and even at the end of a frame, steps compute the value of a computation in
the scope of the frame. -/
def Computes (machine : Machine) (calls : Nat) (code : List Step)
    (computation : ScopeId → Eval Value) : Prop :=
  ∀ (frame : Frame) (rest : List Frame) (following : List Step) (world : World) (taken : Nat),
    frame.Ahead (code ++ following) → machine.limits.maxDepth - (rest.length + 1) = calls →
    Tracks machine (machine.inState world.store (frame :: rest) taken) world
      (computation frame.scope) fun value store last => ∃ taken',
        last = (machine.inState store (frame.after code.length (value :: frame.values) :: rest)
          taken').completeFrames

section

variable {machine : Machine} {calls : Nat} {code code' : List Step}

theorem Computes.leaves {computation : ScopeId → Eval Value}
    (computes : Computes machine calls code computation) :
    Leaves machine calls code computation fun value => [value] := by
  intro frame rest step following world taken ahead depth
  refine tracks_mono (computes frame rest (step :: following) world taken ahead depth) ?_
  rintro value store last ⟨taken', rfl⟩
  exact ⟨taken', completeFrames_of_going (Frame.Ahead.isExhausted_eq_false ahead.after)⟩

/-- The steps of no computation. -/
theorem leaves_nil (machine : Machine) (calls : Nat) {left : α → List Value} {value : α}
    (nothing : left value = []) :
    Leaves machine calls [] (fun _ => pure value) left := by
  intro frame rest step following world taken _ _
  refine tracks_pure ⟨taken, ?_⟩
  simp [nothing, Frame.after_zero]

/-- Steps one after the other compute one after the other. -/
theorem Leaves.append {γ : Type} {computation : ScopeId → Eval α} {next : ScopeId → α → Eval β}
    {combine : α → β → γ} {left : α → List Value} {left' : α → β → List Value}
    {left'' : γ → List Value} (leaves : Leaves machine calls code computation left)
    (later : ∀ value, Leaves machine calls code' (next · value) (left' value))
    (both : ∀ value value', left'' (combine value value') = left' value value' ++ left value) :
    Leaves machine calls (code ++ code')
      (fun scope => do
        let value ← computation scope
        let value' ← next scope value
        pure (combine value value')) left'' := by
  intro frame rest step following world taken ahead depth
  rw [List.append_assoc] at ahead
  obtain ⟨step', following', opened⟩ : ∃ step' following',
      code' ++ step :: following = step' :: following' := by
    cases code' <;> simp
  refine tracks_bind (leaves frame rest step' following' world taken (opened ▸ ahead) depth) ?_
  rintro value world' second - ⟨taken', rfl⟩
  refine tracks_bind (later value _ rest step following world' taken' ahead.after depth) ?_
  rintro value' world'' last - ⟨taken'', rfl⟩
  refine tracks_pure ⟨taken'', ?_⟩
  simp [both]

end

end Machine

end Rivulet
