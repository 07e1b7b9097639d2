import Rivulet.Proofs.Host.Lifecycle
import Rivulet.Proofs.Iteration.Awaiting

/-!
Charts of the parts of a sequence. A chart says which steps may come when something is known of a frame, how many of the
steps behind one it may skip, and what is known then. So it says of a part of a sequence what is known behind it, given
what was known in front of it, whichever way the frame takes through the jumps of the part (`Chart.Passes`).

Main statement: what a chart says is known does hold of a frame while it has not come to the end of the part, also while
it waits for the calls that it makes there (`Chart.Reading.finds`).
-/

namespace Rivulet

/-- Which steps may come when something is known, how many of the steps behind are skipped, and what is known then. -/
structure Chart (Knowledge : Type) where
  allows : Knowledge → Step → Prop
  leads : Knowledge → Step → Nat → Knowledge → Prop

namespace Chart

variable {Knowledge : Type} {chart : Chart Knowledge}

/-- All steps that a frame comes to on its way through some steps may come there, and in the end it knows something. -/
inductive Covers (chart : Chart Knowledge) (goal : Knowledge → Prop) : Knowledge → List Step → Prop where
  | nil {known : Knowledge} (holds : goal known) : Covers chart goal known []
  | cons {known : Knowledge} {step : Step} {behind : List Step} (allowed : chart.allows known step)
      (goesOn : ∀ skips later, chart.leads known step skips later →
        Covers chart goal later (behind.drop skips)) : Covers chart goal known (step :: behind)

/-- With one thing known in front of some steps, another is known behind them. -/
def Passes (chart : Chart Knowledge) (before : Knowledge → Prop) (steps : List Step) (after : Knowledge → Prop) :
    Prop :=
  ∀ goal behind, (∀ known, after known → chart.Covers goal known behind) →
    ∀ known, before known → chart.Covers goal known (steps ++ behind)

/-! ### Ways through a part -/

section

variable {before between between' after before' after' : Knowledge → Prop} {steps steps' skipped : List Step}
  {step turn : Step}

theorem Passes.covers (passes : chart.Passes before steps after) {known : Knowledge} (holds : before known) :
    chart.Covers after known steps := by
  simpa using passes after [] (fun _ => .nil) known holds

theorem Passes.mono (passes : chart.Passes before steps after) (stronger : ∀ known, before' known → before known)
    (weaker : ∀ known, after known → after' known) : chart.Passes before' steps after' :=
  fun goal behind covers known holds =>
    passes goal behind (fun known holds => covers known (weaker known holds)) known (stronger known holds)

theorem passes_nil (implies : ∀ known, before known → after known) : chart.Passes before [] after :=
  fun _ _ covers known holds => covers known (implies known holds)

theorem Passes.append (passes : chart.Passes before steps between) (passes' : chart.Passes between steps' after) :
    chart.Passes before (steps ++ steps') after := by
  intro goal behind covers known holds
  rw [List.append_assoc]
  exact passes goal _ (passes' goal behind covers) known holds

/-- A step that skips nothing. -/
theorem passes_step (allowed : ∀ known, before known → chart.allows known step)
    (leads : ∀ known skips later, before known → chart.leads known step skips later → skips = 0 ∧ after later) :
    chart.Passes before [step] after := by
  refine fun goal behind covers known holds => .cons (allowed known holds) fun skips later goes => ?_
  obtain ⟨rfl, holds'⟩ := leads known skips later holds goes
  exact covers later holds'

/-- A step that may skip some steps. -/
theorem passes_over (allowed : ∀ known, before known → chart.allows known step)
    (leads : ∀ known skips later, before known → chart.leads known step skips later →
      skips = 0 ∧ between later ∨ skips = skipped.length ∧ after later)
    (passes : chart.Passes between skipped after) : chart.Passes before (step :: skipped) after := by
  refine fun goal behind covers known holds => .cons (allowed known holds) fun skips later goes => ?_
  rcases leads known skips later holds goes with ⟨rfl, holds'⟩ | ⟨rfl, holds'⟩
  · exact passes goal behind covers later holds'
  · rw [List.append_eq, List.drop_left]
    exact covers later holds'

/-- A step that chooses between two parts, and a turn at the end of the first one that skips the second. -/
theorem passes_choice (allowed : ∀ known, before known → chart.allows known step)
    (leads : ∀ known skips later, before known → chart.leads known step skips later →
      skips = 0 ∧ between later ∨ skips = steps.length + 1 ∧ between' later)
    (passes : chart.Passes between steps before') (turns : ∀ known, before' known → chart.allows known turn)
    (jumps : ∀ known skips later, before' known → chart.leads known turn skips later →
      skips = steps'.length ∧ after later)
    (passes' : chart.Passes between' steps' after) : chart.Passes before (step :: (steps ++ turn :: steps')) after := by
  refine fun goal behind covers known holds => .cons (allowed known holds) fun skips later goes => ?_
  rw [List.append_eq, List.append_assoc, List.cons_append]
  rcases leads known skips later holds goes with ⟨rfl, holds'⟩ | ⟨rfl, holds'⟩
  · refine passes goal _ (fun known holds => .cons (turns known holds) fun skips later goes => ?_) later holds'
    obtain ⟨rfl, holds'⟩ := jumps known skips later holds goes
    rw [List.drop_left]
    exact covers later holds'
  · rw [← List.drop_drop, List.drop_left]
    exact passes' goal behind covers later holds'

end

section

variable {tree : Tree} {code : NodeId → List Step} {before after : Knowledge → Prop} {child : NodeId}

theorem passes_childCode (parent : NodeId) (expected : chart.Passes before [.expected parent] after)
    (compiled : (tree.form? child).isSome → chart.Passes before (code child) after) :
    chart.Passes before (tree.childCode code parent child) after := by
  unfold Tree.childCode
  split
  · exact compiled ‹_›
  · exact expected

/-- What is known in front of a child may depend on those before it. -/
theorem passes_childrenCode (parent : NodeId) {children : List NodeId} {known : List NodeId → Knowledge → Prop}
    (compiled : ∀ before child following, children = before ++ child :: following →
      chart.Passes (known before) (tree.childCode code parent child) (known (before ++ [child]))) :
    chart.Passes (known []) (tree.childrenCode code parent children) (known children) := by
  have walks (left : List NodeId) : ∀ before, children = before ++ left →
      chart.Passes (known before) (tree.childrenCode code parent left) (known children) := by
    induction left with
    | nil =>
      intro before split
      rw [split, List.append_nil]
      exact passes_nil fun _ holds => holds
    | cons child left hypothesis =>
      intro before split
      exact (compiled before child left split).append (hypothesis (before ++ [child]) (by simp [split]))
  exact walks children [] rfl

end

end Chart

/-! ### Steps of natives -/

/-- The steps that only the frames of natives take. -/
def Step.isNative : Step → Bool
  | apply _ | loop .. => true
  | _ => false

namespace Tree

variable {tree : Tree} {code : NodeId → List Step} {step : Step}

theorem notMem_childrenCode (native : step.isNative = true) (each : ∀ id, step ∉ code id) (parent : NodeId)
    (children : List NodeId) : step ∉ tree.childrenCode code parent children := by
  intro among
  obtain ⟨child, -, among⟩ := List.mem_flatMap.mp among
  unfold childCode at among
  split at among
  · exact each child among
  · obtain rfl := List.mem_singleton.mp among
    cases native

theorem notMem_codeWith (native : step.isNative = true) (each : ∀ id, step ∉ code id) (id : NodeId) :
    step ∉ tree.codeWith code id := by
  have children (children : List NodeId) : step ∉ tree.childrenCode code id children :=
    notMem_childrenCode native each id children
  have child (child : NodeId) : step ∉ tree.childCode code id child := by
    simpa [childrenCode] using children [child]
  cases step with
  | apply | loop =>
    unfold codeWith
    split
    · simp
    · split <;> (try split) <;> simp [child, children]
  | _ => cases native

/-- Only natives take their steps. -/
theorem isNative_of_mem_code {id : NodeId} (among : step ∈ tree.code id) : step.isNative = false := by
  by_contra native
  have compiled (depth : Nat) (id : NodeId) : step ∉ tree.codeTo depth id := by
    induction depth generalizing id with
    | zero => exact List.not_mem_nil
    | succ depth hypothesis => exact notMem_codeWith (by simpa using native) hypothesis id
  rw [code] at among
  exact compiled _ id among

theorem isNative_of_mem_defaultCode {input : NodeId} (among : step ∈ tree.defaultCode input) :
    step.isNative = false := by
  unfold defaultCode defaultWith at among
  split at among
  · exact absurd among List.not_mem_nil
  · simp only [List.mem_cons, List.mem_append, List.not_mem_nil, or_false] at among
    rcases among with (rfl | among) | rfl
    · rfl
    · exact isNative_of_mem_code among
    · rfl

end Tree

/-! ### Parts -/

namespace Tree

variable {tree : Tree} {id child parent : NodeId}

/-- What a node is compiled to has a part for another node. -/
def IsPart (tree : Tree) : NodeId → NodeId → Prop :=
  Relation.ReflTransGen fun child parent => child ∈ tree.codeChildren parent

/-- Definitions have no parts. -/
theorem of_mem_codeChildren (link : child ∈ tree.codeChildren parent) :
    tree.Child child parent ∧ (tree.form? child).isSome ∧ Machine.definitionOf? tree parent = none := by
  unfold codeChildren at link
  cases is : tree.form? parent with
  | none => simp [is] at link
  | some form =>
    cases form with
    | function | record | changed => simp [is] at link
    | _ =>
      rw [is] at link
      obtain ⟨among, there⟩ := List.mem_filter.mp link
      exact ⟨⟨_, is, among⟩, there, by simp [Machine.definitionOf?, is]⟩

/-- In a tree without cycles all nodes compile, so a cache keeps each sequence that it was asked for. -/
theorem compiles_of_acyclic (acyclic : tree.Acyclic) (id : NodeId) : tree.Compiles id := by
  obtain ⟨rank, lower, -⟩ := exists_rank acyclic
  exact Subrelation.accessible (fun link => lower _ _ (of_mem_codeChildren link).1)
    (InvImage.accessible rank (Nat.lt_wfRel.wf.apply (rank id)))

/-- What holds of the steps of a node if it holds of those of its children holds of the steps of all nodes. -/
theorem code_induction (acyclic : tree.Acyclic) {property : NodeId → List Step → Prop}
    (each : ∀ code id, (∀ child ∈ tree.codeChildren id, property child (code child)) →
      property id (tree.codeWith code id)) (id : NodeId) : property id (tree.code id) := by
  obtain ⟨rank, lower, bounded⟩ := exists_rank acyclic
  have compiled (depth : Nat) (id : NodeId) (within : rank id < depth) : property id (tree.codeTo depth id) := by
    induction depth generalizing id with
    | zero => exact absurd within (Nat.not_lt_zero _)
    | succ depth hypothesis =>
      refine each _ id fun child link => hypothesis child ?_
      have less := lower child id (of_mem_codeChildren link).1
      omega
  rw [code]
  exact compiled _ id (bounded id)

end Tree

/-! ### Frames on their way -/

theorem Tree.Laid.drop {tree : Tree} {natives : Natives} {steps : List Step} (laid : tree.Laid natives steps)
    (count : Nat) : tree.Laid natives (steps.drop count) := by
  induction laid generalizing count with
  | nil => simpa using Tree.Laid.nil
  | cons fits rest hypothesis =>
    cases count with
    | zero => exact .cons fits rest
    | succ count => exact hypothesis count

theorem Frame.length_of_takeTop {count : Nat} {stack taken values below : List Value}
    (took : takeTop count stack taken = some (values, below)) : values.length = count + taken.length := by
  induction count generalizing stack taken with
  | zero =>
    cases took
    simp
  | succ count hypothesis =>
    cases stack with
    | nil => simp [takeTop] at took
    | cons value stack =>
      have length := hypothesis took
      rw [List.length_cons] at length
      omega

theorem Frame.length_of_popMany? {frame below : Frame} {count : Nat} {values : List Value}
    (popped : frame.popMany? count = some (values, below)) : values.length = count := by
  unfold popMany? at popped
  split at popped
  · simp at popped
  · rename_i took
    cases popped
    exact length_of_takeTop took

/-- The values on the stack of a frame that goes on with a flow at once. -/
def Flow.stack? (values : List Value) : Flow → Option (List Value)
  | .proceed => some values
  | .push value => some (value :: values)
  | .start _ | .throw _ => none

theorem Flow.frames_of_stack? {flow : Flow} {frame : Frame} {rest : List Frame} {values : List Value}
    (goes : flow.stack? frame.values = some values) :
    flow.frames frame rest = { frame with values }.advance :: rest := by
  cases flow <;> cases goes <;> rfl

namespace Machine

/-- A frame is active, right above some others, whatever is above it. -/
def Holds (frame : Frame) (rest : List Frame) (machine : Machine) : Prop :=
  machine.result = none ∧ ∃ above, machine.frames = above ++ frame :: rest

/-- A machine takes a step before its frame right above some others has come to a place. -/
def StepsBefore (rest : List Frame) (place : Nat) (machine next : Machine) : Prop :=
  (∃ outcome, machine.step = (next, .ok outcome)) ∧ ∃ frame, machine.Holds frame rest ∧ frame.cursor < place

theorem stepsBefore_stepped {machine : Machine} {earlier place : Nat} {frame : Frame} {rest : List Frame}
    {outcome : StepOutcome} (stepped : (machine.stepped earlier).step.2 = .ok outcome)
    (holds : (machine.stepped earlier).Holds frame rest) (before : frame.cursor < place) :
    StepsBefore rest place (machine.stepped earlier) (machine.stepped (earlier + 1)) :=
  ⟨⟨outcome, Prod.ext rfl stepped⟩, frame, holds, before⟩

theorem Holds.unique {frame frame' : Frame} {above rest : List Frame} {machine : Machine}
    (holds : machine.Holds frame rest) (is : machine.frames = above ++ frame' :: rest) : frame = frame' := by
  obtain ⟨-, above', is'⟩ := holds
  have same := is.symm.trans is'
  have length : above.length = above'.length := by
    have length := congrArg List.length same
    simp only [List.length_append, List.length_cons] at length
    omega
  exact (List.cons.inj (List.append_inj same length).2).1.symm

theorem Holds.not_hasFailed {frame : Frame} {rest : List Frame} {machine : Machine} {exception : Value}
    (holds : machine.Holds frame rest) : ¬ machine.HasFailed exception := by
  rintro ⟨ends, -⟩
  rw [holds.1] at ends
  cases ends

/-- The topmost frame, if it is still active when frames have been completed. -/
theorem Holds.top {frame top : Frame} {rest : List Frame} {machine : Machine} {step : Step} {depth : Nat}
    (holds : (machine.completeFrames.notifyStep step depth).Holds frame rest) (is : machine.frames = top :: rest) :
    frame = top ∧ (machine.completeFrames.notifyStep step depth).frames = top :: rest := by
  rw [notifyStep_eq] at holds ⊢
  rcases completeFrames_cases is with ⟨frames, settles, same⟩ | ⟨value, same, -⟩
  · rw [same] at holds ⊢
    cases settles with
    | going left => exact ⟨holds.unique (show _ = [] ++ top :: rest from rfl), rfl⟩
    | handed exhausted own left =>
      obtain ⟨-, above, active⟩ := holds
      have length := congrArg List.length active
      simp only [Machine.frames, List.length_append, List.length_cons] at length
      omega
  · rw [same] at holds
    cases holds.1

/-- A call that starts a frame has taken its arguments and its function off the stack. -/
theorem callTop_starts {machine next : Machine} {frame above : Frame} {node : NodeId} {arity : Nat}
    (started : machine.callTop frame node arity = (next, .ok (.start above))) :
    ∃ function arguments below, arguments.length = arity ∧
      frame.values = arguments.reverse ++ .function function :: below ∧
      machine.callTop frame node arity =
        (machine.setTop { frame with values := below }).startCall function arguments node := by
  unfold callTop at started ⊢
  cases popped : frame.popMany? arity with
  | none => simp [popped, fail] at started
  | some popped' =>
    obtain ⟨arguments, rest⟩ := popped'
    obtain ⟨same, stack⟩ := Frame.popMany?_spec popped
    cases called : rest.pop? with
    | none => simp [popped, called, fail] at started
    | some called' =>
      obtain ⟨callee, below⟩ := called'
      obtain ⟨same', stack'⟩ := Frame.pop?_spec called
      cases callee with
      | function function =>
        refine ⟨function, arguments, below.values, Frame.length_of_popMany? popped, by rw [stack, stack'], ?_⟩
        simp only [called]
        rw [same', same]
      | _ => simp [popped, called, mismatch, fail] at started

end Machine

namespace Chart

variable {Knowledge : Type}

/-- What the knowledge of a chart means for frames that run in a tree, and for frames that wait for a value. Frames take
their steps as the chart says. -/
structure Reading (chart : Chart Knowledge) (tree : Tree) where
  knows : Store → ScopeId → List Value → Knowledge → Prop
  waits : Store → ScopeId → List Value → Knowledge → Prop
  moves : ∀ {natives : Natives} {limits : Limits} {machine : Machine} {store store' : Store} {frame frame' : Frame}
    {rest : List Frame} {taken : Nat} {step : Step} {flow : Flow} {values : List Value} {known : Knowledge},
    machine.tree = tree → knows store frame.scope frame.values known → chart.allows known step →
    step.isNative = false → (∀ distance, step.distance? = some distance → 0 ≤ distance) →
    (machine.inState store (frame :: rest) taken).execute frame step =
      (machine.inState store' (frame' :: rest) taken, .ok flow) →
    Machine.Move (.free tree natives) limits step (rest.length + 1) store frame store' frame' (.ok flow) →
    flow.stack? frame'.values = some values →
    ∃ skips later, chart.leads known step skips later ∧ frame'.cursor = frame.cursor + skips ∧
      knows store' frame'.scope values later
  calls : ∀ {store : Store} {scope : ScopeId} {values arguments : List Value} {function : Function} {node : NodeId}
    {known : Knowledge}, knows store scope (arguments.reverse ++ .function function :: values) known →
    chart.allows known (.call node arguments.length) →
    ∃ later, chart.leads known (.call node arguments.length) 0 later ∧ waits store scope values later
  returns : ∀ {store store' : Store} {scope : ScopeId} {values : List Value} {known : Knowledge} (value : Value),
    waits store scope values known → store.Retains store.HasInner store' → knows store' scope (value :: values) known

/-- Some steps are left of a part of the sequence of a frame, which ends at a place, and may come when something is
known, so that something is known in the end. -/
structure Stands (chart : Chart Knowledge) (goal : Knowledge → Prop) (tree : Tree) (natives : Natives) (place : Nat)
    (frame : Frame) (known : Knowledge) (left following : List Step) : Prop where
  ahead : frame.Ahead (left ++ following)
  ends : frame.cursor + left.length = place
  laid : tree.Laid natives left
  plain : ∀ step ∈ left, step.isNative = false
  covers : chart.Covers goal known left

/-- A frame right above some others is where a chart has it: it is the topmost one and what is known holds, or it waits
for a value, and what was known when it began to wait held then. -/
inductive Reading.Finds {chart : Chart Knowledge} {program : Program} (reading : chart.Reading program.tree)
    (goal : Knowledge → Prop) (natives : Natives) (limits : Limits) (place : Nat) (following : List Step)
    (rest : List Frame) (frame : Frame) (machine : Machine) : Prop where
  | runs {known : Knowledge} {left : List Step} (is : machine.frames = frame :: rest)
      (stands : chart.Stands goal program.tree natives place frame known left following)
      (knows : reading.knows machine.store frame.scope frame.values known)
  | waits {first : Store} {known : Knowledge} {left : List Step}
      (aloft : machine.HasAloft program natives limits first (frame :: rest))
      (stands : chart.Stands goal program.tree natives place frame known left following) (more : left ≠ [])
      (waits : reading.waits first frame.scope frame.values known)

section

variable {chart : Chart Knowledge} {tree : Tree} {natives : Natives} {limits : Limits} {place : Nat}
  {frame frame' : Frame} {rest : List Frame} {known later : Knowledge} {goal : Knowledge → Prop} {step : Step}
  {behind left following : List Step}

theorem Stands.ne_nil (stands : chart.Stands goal tree natives place frame known left following)
    (before : frame.cursor < place) : left ≠ [] := by
  rintro rfl
  have ends := stands.ends
  rw [List.length_nil] at ends
  omega

theorem Stands.fits (stands : chart.Stands goal tree natives place frame known (step :: behind) following) :
    step.Fits tree natives behind := by
  cases stands.laid with
  | cons fits _ => exact fits

theorem Stands.allowed (stands : chart.Stands goal tree natives place frame known (step :: behind) following) :
    chart.allows known step := by
  cases stands.covers with
  | cons allowed _ => exact allowed

/-- What is known in the end is known when the frame has come to the end. -/
theorem Stands.arrived (stands : chart.Stands goal tree natives place frame known left following)
    (there : frame.cursor = place) : goal known := by
  have none : left = [] := List.length_eq_zero_iff.mp (by have ends := stands.ends; omega)
  subst none
  cases stands.covers with
  | nil holds => exact holds

theorem Stands.goesOn {skips : Nat}
    (stands : chart.Stands goal tree natives place frame known (step :: behind) following)
    (leads : chart.leads known step skips later) (within : skips ≤ behind.length) (steps : frame'.steps = frame.steps)
    (cursor : frame'.cursor = frame.cursor + skips) :
    chart.Stands goal tree natives place frame'.advance later (behind.drop skips) following where
  ahead := by
    have moved := congrArg (List.drop (skips + 1)) stands.ahead
    rw [List.drop_drop] at moved
    simp only [Frame.Ahead, Frame.advance, steps, cursor, Nat.add_assoc, moved]
    simp [List.drop_append_of_le_length within]
  ends := by
    have ends := stands.ends
    simp only [Frame.advance, cursor, List.length_drop, List.length_cons] at ends ⊢
    omega
  laid := by
    cases stands.laid with
    | cons _ laid => exact laid.drop skips
  plain step among := stands.plain step (List.mem_cons_of_mem _ (List.mem_of_mem_drop among))
  covers := by
    cases stands.covers with
    | cons _ goesOn => exact goesOn skips later leads

/-- A frame skips no more steps than are behind. -/
theorem skips_le {law : Law tree natives} {store store' : Store} {depth skips : Nat} {outcome : Except Fault Flow}
    (fits : step.Fits tree natives behind)
    (move : Machine.Move law limits step depth store frame store' frame' outcome)
    (cursor : frame'.cursor = frame.cursor + skips) : skips ≤ behind.length := by
  rcases move.cursor with same | ⟨distance, jumps, -, -, same⟩
  · omega
  · obtain ⟨ahead, within, -⟩ := fits.lands distance jumps
    omega

end

/-! ### Steps of a part -/

section

open Machine

variable {chart : Chart Knowledge} {program : Program} {natives : Natives} {limits : Limits} {place : Nat}
  {frame frame' : Frame} {rest : List Frame} {known : Knowledge} {goal : Knowledge → Prop} {step : Step}
  {left behind following : List Step}
  {machine next : Machine} {outcome : StepOutcome} {reading : chart.Reading program.tree}

/-- The topmost frame waits for nothing. -/
theorem Reading.Finds.running (found : reading.Finds goal natives limits place following rest frame machine)
    (is : machine.frames = frame :: rest) : ∃ known left,
      chart.Stands goal program.tree natives place frame known left following ∧
      reading.knows machine.store frame.scope frame.values known := by
  cases found with
  | runs _ stands knows => exact ⟨_, _, stands, knows⟩
  | waits aloft =>
    obtain ⟨-, above, some, active, -⟩ := aloft.above
    have length := congrArg List.length (is.symm.trans active)
    simp only [List.length_cons, List.length_append] at length
    have positive := List.length_pos_iff.mpr some
    omega

/-- A frame goes on in its part after a step that starts no other frame. -/
theorem Reading.step_moves {moved : Frame} {store' : Store} {flow : Flow} {values : List Value}
    (same : machine.program.tree = program.tree)
    (stands : chart.Stands goal program.tree natives place frame known (step :: behind) following)
    (knows : reading.knows machine.store frame.scope frame.values known)
    (executed : (machine.inState machine.store (frame :: rest) (machine.stepsTaken + 1)).execute frame step =
      (machine.inState store' (moved :: rest) (machine.stepsTaken + 1), .ok flow))
    (move : Move (.free program.tree natives) limits step (rest.length + 1) machine.store frame store' moved (.ok flow))
    (goes : flow.stack? moved.values = some values)
    (stepped : (next, .ok outcome) =
      conclude step (machine.inState store' (moved :: rest) (machine.stepsTaken + 1), .ok flow))
    (holds : next.Holds frame' rest) : reading.Finds goal natives limits place following rest frame' next := by
  have fits := stands.fits
  obtain ⟨skips, later, leads, cursor, knows'⟩ := reading.moves same knows stands.allowed
    (stands.plain step List.mem_cons_self)
    (fun distance jumps => (fits.lands distance jumps).1) executed move goes
  have stored : next.store = store' := by
    have kept := store_conclude step (machine.inState store' (moved :: rest) (machine.stepsTaken + 1), .ok flow)
    rwa [← stepped] at kept
  have completed : next = (machine.inState store' ({ moved with values }.advance :: rest)
      (machine.stepsTaken + 1)).completeFrames.notifyStep step (rest.length + 1) := by
    rcases machine.conclude_flow store' moved rest (machine.stepsTaken + 1) step flow with ⟨exception, rfl, -⟩ | is
    · simp [Flow.stack?] at goes
    · rwa [← stepped, Flow.frames_of_stack? goes] at is
  subst completed
  obtain ⟨rfl, active⟩ := holds.top rfl
  refine .runs active (stands.goesOn leads (skips_le fits move cursor) move.steps cursor) ?_
  rw [stored]
  exact knows'

/-- A frame waits in its part when it calls a function. -/
theorem Reading.step_calls {node : NodeId} {arity : Nat} {after : Machine} {above : Frame}
    (abides : machine.Abides program natives limits (.free program.tree natives)) (going : machine.result = none)
    (is : machine.frames = frame :: rest)
    (stands : chart.Stands goal program.tree natives place frame known (.call node arity :: behind) following)
    (knows : reading.knows machine.store frame.scope frame.values known)
    (started : (machine.inState machine.store (frame :: rest) (machine.stepsTaken + 1)).callTop frame node arity =
      (after, .ok (.start above)))
    (stepped : machine.step = (next, .ok outcome)) (holds : next.Holds frame' rest) :
    reading.Finds goal natives limits place following rest frame' next := by
  obtain ⟨function, arguments, below, rfl, stack, calls⟩ := callTop_starts started
  rw [stack] at knows
  obtain ⟨later, leads, waits⟩ := reading.calls knows stands.allowed
  have stands' : chart.Stands goal program.tree natives place { frame with values := below }.advance later
      (behind.drop 0) following := stands.goesOn leads (Nat.zero_le _) rfl rfl
  have more : behind ≠ [] := stands.fits.followed rfl
  have callsNext : machine.CallsNext { frame with values := below }.advance rest function arguments node :=
    ⟨going, frame, below, .call node arguments.length, is, stands.ahead.current?, rfl, rfl, by
      rw [← @inState_self { machine with stepsTaken := machine.stepsTaken + 1 } _ going is]
      exact calls⟩
  have left : ({ frame with values := below }.advance).isExhausted = false :=
    Frame.Ahead.going stands'.ahead (by simp [more])
  obtain ⟨retains, has | ⟨exception, failed⟩⟩ := callsNext.step abides left stepped
  · obtain ⟨-, others, -, active, -⟩ := id has
    obtain rfl := holds.unique active
    have after := step_abides abides
    rw [stepped] at after
    exact .waits ⟨after, retains, has⟩ stands' more waits
  · exact absurd failed holds.not_hasFailed

/-- A frame that runs goes on as its chart says, or waits for the call that it makes. -/
theorem Reading.step_runs (abides : machine.Abides program natives limits (.free program.tree natives))
    (going : machine.result = none) (is : machine.frames = frame :: rest)
    (stands : chart.Stands goal program.tree natives place frame known left following)
    (knows : reading.knows machine.store frame.scope frame.values known) (before : frame.cursor < place)
    (stepped : machine.step = (next, .ok outcome)) (holds : next.Holds frame' rest) :
    reading.Finds goal natives limits place following rest frame' next := by
  obtain ⟨rfl, rfl, rfl, -⟩ := id abides
  obtain ⟨step, behind, rfl⟩ := List.exists_cons_of_ne_nil (stands.ne_nil before)
  have current : frame.current? = some step := stands.ahead.current?
  have ready := abides.ready (show frame ∈ machine.frames by simp [is])
  obtain ⟨store', moved, ended, executed, move⟩ := execute_leads ready rest (machine.stepsTaken + 1) step
  have concluded := step_eq_conclude going is current
  rw [executed, stepped] at concluded
  match ended with
  | .error fault => simp [conclude] at concluded
  | .ok .proceed => exact reading.step_moves rfl stands knows executed move rfl concluded holds
  | .ok (.push value) => exact reading.step_moves rfl stands knows executed move rfl concluded holds
  | .ok (.throw exception) =>
    exact absurd ⟨congrArg (fun ended => ended.1.result) concluded, move.yields⟩ holds.not_hasFailed
  | .ok (.start above) =>
    have opens : step.opens = true := move.yields.1
    cases step with
    | call node arity => exact reading.step_calls abides going is stands knows executed stepped holds
    | loop op phase => cases stands.plain _ List.mem_cons_self
    | _ => simp [Step.opens] at opens

/-- A frame that waits goes on waiting, or goes on with the value that it is handed. -/
theorem Reading.step_waits {first : Store} (aloft : machine.HasAloft program natives limits first (frame :: rest))
    (stands : chart.Stands goal program.tree natives place frame known left following) (more : left ≠ [])
    (waits : reading.waits first frame.scope frame.values known) (stepped : machine.step = (next, .ok outcome))
    (holds : next.Holds frame' rest) : reading.Finds goal natives limits place following rest frame' next := by
  have steps : frame.isExhausted = false := stands.ahead.going (by simp [more])
  obtain ⟨retains, settled⟩ := aloft.step steps stepped
  cases settled with
  | above has =>
    obtain ⟨-, others, -, active, -⟩ := id has
    obtain rfl := holds.unique active
    have after := step_abides aloft.abides
    rw [stepped] at after
    exact .waits ⟨after, retains, has⟩ stands more waits
  | @returned value has =>
    obtain ⟨-, active, -⟩ := has
    obtain rfl := holds.unique (show _ = [] ++ frame.push value :: rest from active)
    exact .runs active ⟨stands.ahead, stands.ends, stands.laid, stands.plain, stands.covers⟩
      (reading.returns value waits retains)
  | failed has => exact absurd has holds.not_hasFailed

/-- What a chart says is known holds as long as a frame has not come to the end of a part, and when it comes there. -/
theorem Reading.finds (abides : machine.Abides program natives limits (.free program.tree natives))
    (is : machine.frames = frame :: rest)
    (stands : chart.Stands goal program.tree natives place frame known left following)
    (knows : reading.knows machine.store frame.scope frame.values known)
    (within : Relation.ReflTransGen (StepsBefore rest place) machine next) (holds : next.Holds frame' rest) :
    reading.Finds goal natives limits place following rest frame' next ∧
      next.Abides program natives limits (.free program.tree natives) := by
  induction within generalizing frame' with
  | refl =>
    obtain rfl := holds.unique (show _ = [] ++ frame :: rest from is)
    exact ⟨.runs is stands knows, abides⟩
  | @tail mid next _ steps hypothesis =>
    obtain ⟨⟨outcome, stepped⟩, current, here, before⟩ := steps
    obtain ⟨found, abides⟩ := hypothesis here
    have after := step_abides abides
    rw [stepped] at after
    refine ⟨?_, after⟩
    cases found with
    | runs active stands knows => exact reading.step_runs abides here.1 active stands knows before stepped holds
    | waits aloft stands more waits => exact reading.step_waits aloft stands more waits stepped holds

end

end Chart

end Rivulet
