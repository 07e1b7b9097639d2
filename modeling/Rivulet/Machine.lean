import Rivulet.Machine.Stack
import Rivulet.Operators
import Rivulet.StepCache

/-!
The state of an evaluation. Between two steps it consists of a stack of frames, the scopes made so
far, and the final value once there is one; so a host can stop anywhere, look around, and go on
later.
-/

namespace Rivulet

/-! ### Limits -/

/-- How many steps one run may take, and how many frames may be active at once. -/
structure Limits where
  stepLimit : Nat := 1000000
  maxDepth : Nat := 1000
deriving DecidableEq, Repr, Inhabited

/-- The steps that one run has taken out of those it may take. -/
structure StepBudget where
  limit : Nat
  used : Nat
deriving DecidableEq, Repr, Inhabited

/-- A budget of which nothing is used. -/
def StepBudget.new (limit : Nat) : StepBudget :=
  ⟨limit, 0⟩

/-- Accounts for one more step; an exhausted budget gives nothing. -/
def StepBudget.charge? (budget : StepBudget) : Option StepBudget :=
  if budget.limit ≤ budget.used then none else some { budget with used := budget.used + 1 }

/-- How many steps are left. -/
def StepBudget.remaining (budget : StepBudget) : Nat :=
  budget.limit - budget.used

/-! ### Programs -/

/-- A tree, and what was compiled of it so far. Only the cache itself can tell what it holds and what it has yet to
compile, so programs that differ in that alone are not told apart. -/
structure Program (N : Type := String) [DecidableEq N] [Naming N] where
  tree : Tree N
  cache : Squash { cache : StepCache // cache.IsFaithful tree }

namespace Program

variable {N : Type} [DecidableEq N] [Naming N]

/-- The program of a tree, of which nothing is compiled yet. -/
def ofTree (tree : Tree N) : Program N :=
  ⟨tree, Squash.mk ⟨{}, StepCache.isFaithful_empty⟩⟩

/-- Programs of one tree give the same answers. -/
theorem eq_of_tree_eq {program program' : Program N} (same : program.tree = program'.tree) : program = program' := by
  obtain ⟨tree, cache⟩ := program
  obtain ⟨tree', cache'⟩ := program'
  cases same
  rw [Subsingleton.elim cache cache']

/-- What the cache answers to a question whose answer all faithful caches agree on, and the program after it. -/
def ask (program : Program N) (question : StepCache → Array Step × StepCache)
    (agree : ∃ steps, ∀ cache, cache.IsFaithful program.tree →
      (question cache).1 = steps ∧ (question cache).2.IsFaithful program.tree) : Array Step × Program N :=
  let (steps, cache) :=
    Quot.lift (fun held : { cache : StepCache // cache.IsFaithful program.tree } =>
        let answer := question held.1
        (answer.1, Squash.mk ⟨answer.2, agree.elim fun _ answers => (answers held.1 held.2).2⟩))
      (fun held held' _ => agree.elim fun _ answers =>
        Prod.ext ((answers held.1 held.2).1.trans (answers held'.1 held'.2).1.symm) (Subsingleton.elim _ _))
      program.cache
  (steps, { program with cache })

/-- The sequence of the root, and the program after it was asked for. -/
def compileRoot (program : Program N) : Array Step × Program N :=
  program.ask (fun cache => cache.compile program.tree program.tree.root) ⟨_, fun _ faithful => faithful.compile _⟩

/-- The sequence that a call of a definition runs, and the program after it was asked for. -/
def entry (program : Program N) (definition : NodeId) : Array Step × Program N :=
  program.ask (fun cache => cache.entry program.tree definition) ⟨_, fun _ faithful => faithful.entry _⟩

/-- Asking gives what every faithful cache gives, and makes no difference to be told from outside. -/
theorem ask_eq (program : Program N) {question : StepCache → Array Step × StepCache} {steps : Array Step}
    (answers : ∀ cache, cache.IsFaithful program.tree →
      (question cache).1 = steps ∧ (question cache).2.IsFaithful program.tree) :
    program.ask question ⟨steps, answers⟩ = (steps, program) := by
  obtain ⟨tree, cache⟩ := program
  induction cache using Quot.ind with
  | mk held => exact Prod.ext (answers held.1 held.2).1 (eq_of_tree_eq rfl)

theorem compileRoot_eq (program : Program N) :
    program.compileRoot = ((program.tree.code program.tree.root).toArray, program) :=
  program.ask_eq fun _ faithful => faithful.compile _

theorem entry_eq (program : Program N) (definition : NodeId) :
    program.entry definition = ((program.tree.entryCode definition).toArray, program) :=
  program.ask_eq fun _ faithful => faithful.entry _

end Program

/-! ### Observers -/

/-- What observers are told. -/
inductive Event (N : Type := String) where
  /-- A step ran at a depth of frames. -/
  | stepped (step : Step) (depth : Nat)
  /-- The evaluation ended with a value. -/
  | finished (value : Value N)

/-- An event as traces show it. -/
def Event.toText {N : Type} : Event N → String
  | stepped step depth => s!"{step.toText} @{depth}"
  | finished value => "finished " ++ value.toText

/-- Someone who is told about every event and may ask for a pause after a number of steps. -/
structure Observer where
  id : Nat
  pauseAfter : Option Nat
  seen : Nat
deriving Inhabited

/-! ### The machine -/

/-- What the host supplies when an evaluation starts. -/
structure Inputs (N : Type := String) where
  /-- The latest value of each stream, bound in the root scope. -/
  streams : List (N × Value N) := []
  /-- The values of other sources, for borrows. -/
  borrowed : List (N × Value N) := []
  /-- The stream whose change caused the evaluation. -/
  trigger : Option N := none
deriving Inhabited

/-- The state of an evaluation. -/
structure Machine (N : Type := String) [DecidableEq N] [Naming N] where
  program : Program N
  natives : Natives N
  limits : Limits
  store : Store N
  root : ScopeId
  stack : CallStack N
  result : Option (Value N)
  trigger : Option N
  borrowed : List (N × Value N)
  stepsTaken : Nat
  paused : Bool
  observers : List Observer
  nextObserver : Nat
  /-- Which observer was told what, in order. -/
  log : Array (Nat × Event N)

/-- What a step asks for the frame that ran it. -/
inductive Flow (N : Type := String) where
  | proceed
  | push (value : Value N)
  /-- Start a frame above the one that ran the step. -/
  | start (frame : Frame N)
  /-- End the evaluation with an exception. -/
  | throw (exception : Value N)

/-- What came of a step: the state after it, and either a flow or a fault. -/
abbrev Effect (N : Type := String) [DecidableEq N] [Naming N] := Machine N × Except Fault (Flow N)

namespace Machine

variable {N : Type} [DecidableEq N] [Naming N]

/-- A machine that has not been started, whose scopes are added to those of a store. -/
def create (program : Program N) (natives : Natives N) (limits : Limits) (store : Store N) : Machine N :=
  let (root, store) := store.root
  { program, natives, limits, store, root
    stack := .empty, result := none, trigger := none, borrowed := [], stepsTaken := 0
    paused := false, observers := [], nextObserver := 0, log := #[] }

/-- The tree that a machine evaluates. -/
def tree (machine : Machine N) : Tree N :=
  machine.program.tree

/-- The active frames, the topmost first. -/
def frames (machine : Machine N) : List (Frame N) :=
  machine.stack.frames

/-- How many frames are active. -/
def depth (machine : Machine N) : Nat :=
  machine.stack.depth

/-- The machine with its topmost frame replaced. -/
def setTop (machine : Machine N) (frame : Frame N) : Machine N :=
  { machine with stack := machine.stack.setTop frame }

/-- Goes on with a flow. -/
def flow (machine : Machine N) (flow : Flow N) : Effect N :=
  (machine, .ok flow)

/-- Ends the evaluation with a failure at a node. -/
def fail (machine : Machine N) (failure : Failure N) (node : NodeId) : Effect N :=
  (machine, .ok (.throw (.failed failure node)))

/-- Ends the evaluation because a value has the wrong kind. -/
def mismatch (machine : Machine N) (expected : ValueKind) (found : Value N) (node : NodeId) : Effect N :=
  machine.fail (.typeMismatch expected found.kind) node

/-- Pushes a result, or ends the evaluation with its failure at a node. -/
def yield (machine : Machine N) (result : Except (Failure N) (Value N)) (node : NodeId) : Effect N :=
  match result with
  | .ok value => machine.flow (.push value)
  | .error failure => machine.fail failure node

/-- Binds a name in a scope and goes on with a flow; a name that the scope binds already ends the
evaluation with a failure at a node. -/
def bindName (machine : Machine N) (scope : ScopeId) (name : N) (value : Value N) (node : NodeId)
    (flow : Flow N) : Effect N :=
  if machine.store.bindsLocally scope name then machine.fail (.alreadyBound name) node
  else ({ machine with store := machine.store.bindNew scope name value }).flow flow

/-- Moves the cursor of a frame that is to become the topmost one. -/
def jumpTop (machine : Machine N) (frame : Frame N) (distance : Int) : Effect N :=
  match frame.jump distance with
  | .ok moved => (machine.setTop moved).flow .proceed
  | .error fault => (machine.setTop frame, .error fault)

/-! ### Telling observers -/

/-- Tells one observer about a step; it may ask for a pause. -/
def tellStep (machine : Machine N) (event : Event N) (observer : Observer) : Machine N × Observer :=
  let seen := observer.seen + 1
  ({ machine with
      log := machine.log.push (observer.id, event)
      paused := machine.paused || observer.pauseAfter == some seen },
    { observer with seen })

/-- Tells some observers about a step, one after the other. -/
def tellSteps (machine : Machine N) (event : Event N) : List Observer → Machine N × List Observer
  | [] => (machine, [])
  | observer :: rest =>
    let (machine, observer) := machine.tellStep event observer
    let (machine, rest) := machine.tellSteps event rest
    (machine, observer :: rest)

/-- Tells all observers about a step. -/
def notifyStep (machine : Machine N) (step : Step) (depth : Nat) : Machine N :=
  match machine.observers with
  | [] => machine
  | observers =>
    let (machine, observers) := machine.tellSteps (.stepped step depth) observers
    { machine with observers }

/-- Records the final value and tells all observers about it. -/
def finishWith (machine : Machine N) (value : Value N) : Machine N :=
  { machine with
    stack := .empty
    result := some value
    log := machine.observers.foldl (fun log observer => log.push (observer.id, .finished value))
      machine.log }

/-- What observers were told so far, and a machine that has forgotten it. -/
def takeLog (machine : Machine N) : Array (Nat × Event N) × Machine N :=
  (machine.log, { machine with log := #[] })

/-- Registers an observer, who may ask for a pause after a number of steps. -/
def observe (machine : Machine N) (pauseAfter : Option Nat) : Nat × Machine N :=
  (machine.nextObserver,
    { machine with
      observers := machine.observers ++ [⟨machine.nextObserver, pauseAfter, 0⟩]
      nextObserver := machine.nextObserver + 1 })

/-- Drops an observer and tells whether it was registered. -/
def ignore (machine : Machine N) (id : Nat) : Bool × Machine N :=
  (machine.observers.any fun observer => observer.id == id,
    { machine with observers := machine.observers.filter fun observer => observer.id != id })

end Machine

end Rivulet
