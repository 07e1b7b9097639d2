import Rivulet.Proofs.Host.Faultless
import Rivulet.Proofs.Iteration.Awaiting
import Rivulet.Proofs.Iteration.Collections

/-!
What `map`, `filter` and `fold` compute. The frame of a loop goes round once per element: it calls the function, waits
for what it returns, and takes that in (`Loop.Rounds`). That goes on until all elements are done, or until the
evaluation ends with an exception (`Loop.Ends`).

Main statement: a call of one of the three goes round for the first elements of the collection, one after the other, and
if these are all of them it yields what the loop makes of the results (`Machine.CallsNext.loops`).
-/

namespace Rivulet

/-- A loop that a native runs above its caller. -/
structure Loop where
  op : HigherOrder
  collection : Value
  function : Function
  kind : FrameKind
  origin : NodeId
  scope : ScopeId
  caller : Frame
  below : List Frame

namespace Machine

/-- A frame above a caller is done. The caller has its value, or the evaluation ends with it if it is an exception. -/
def HasYielded (caller : Frame) (rest : List Frame) (value : Value) (machine : Machine) : Prop :=
  if value.isException then machine.result = some value
  else machine.result = none ∧ machine.frames = caller.push value :: rest

/-! ### Steps of one frame -/

section

variable {machine : Machine} {frame frame' top : Frame} {rest below : List Frame} {step : Step} {store' : Store}
  {flow : Flow} (going : machine.result = none) (active : machine.frames = frame :: rest)
  (current : frame.current? = some step)

include going active current

/-- A step that does not end the evaluation goes on in the frames that it asks for. -/
theorem step_goesOn
    (executed : (machine.inState machine.store (frame :: rest) (machine.stepsTaken + 1)).execute frame step =
      (machine.inState store' (frame' :: rest) (machine.stepsTaken + 1), .ok flow))
    (regular : ∀ exception, flow ≠ .throw exception) (asks : flow.frames frame' rest = top :: below)
    (left : top.isExhausted = false) :
    machine.step.1.result = none ∧ machine.step.1.frames = top :: below ∧ machine.step.1.store = store' := by
  rw [step_eq_conclude going active current, executed]
  rcases machine.conclude_flow store' frame' rest (machine.stepsTaken + 1) step flow with ⟨exception, is, -⟩ | goes
  · exact absurd is (regular exception)
  · rw [goes, asks, completeFrames_of_going left, notifyStep_eq]
    exact ⟨rfl, rfl, rfl⟩

/-- The last step of a frame hands down its value. -/
theorem step_yields {caller : Frame} {others : List Frame} {value : Value}
    (executed : (machine.inState machine.store (frame :: rest) (machine.stepsTaken + 1)).execute frame step =
      (machine.inState store' (frame' :: rest) (machine.stepsTaken + 1), .ok (.push value)))
    (exhausted : frame'.advance.isExhausted = true) (waits : rest = caller :: others)
    (left : caller.isExhausted = false) : machine.step.1.HasYielded caller others value := by
  subst waits
  have done : (frame'.push value).advance.isExhausted = true := exhausted
  rw [step_eq_conclude going active current, executed]
  rcases machine.conclude_flow store' frame' (caller :: others) (machine.stepsTaken + 1) step (.push value) with
    ⟨exception, is, -⟩ | goes
  · cases is
  · rw [goes, notifyStep_eq]
    unfold HasYielded
    cases exception : value.isException with
    | true => exact completeFrames_of_exception done rfl exception
    | false =>
      rw [if_neg Bool.false_ne_true]
      simp only [Flow.frames]
      rw [completeFrames_of_caller done rfl exception left]
      exact ⟨rfl, rfl⟩

end

end Machine

namespace Loop

open Machine Meaning

/-! ### States of a loop -/

/-- The frame of a loop. -/
def frame (loop : Loop) (cursor : Nat) (values : List Value) : Frame :=
  loopFrame loop.kind loop.origin loop.op loop.scope cursor values

/-- The frames below a loop. -/
def waiting (loop : Loop) : List Frame :=
  loop.caller :: loop.below

/-- What the function is called with for an element. A fold passes the result so far on. -/
def arguments (loop : Loop) (result : Value) (element : Element) : List Value :=
  (if loop.op == .fold then [result] else []) ++ elementArguments element

/-- The topmost frame is that of a loop, at one of its steps, and has come to a position in the collection. -/
structure IsAt (loop : Loop) (index : Nat) (result : Value) (cursor : Nat) (values : List Value) (machine : Machine) :
    Prop where
  going : machine.result = none
  frames : machine.frames = loop.frame cursor values :: loop.waiting
  holds : LoopHolds machine.store loop.scope loop.op loop.collection loop.function index result

section

variable {loop : Loop} {index : Nat} {result : Value} {values : List Value} {machine : Machine}

/-- What a loop that is no fold has as its result does not matter. -/
theorem holds_of_ne_fold {store : Store} {result' : Value} (other : (loop.op == .fold) = false)
    (holds : LoopHolds store loop.scope loop.op loop.collection loop.function index result) :
    LoopHolds store loop.scope loop.op loop.collection loop.function index result' :=
  ⟨holds.inner, holds.collection_eq, holds.function_eq, holds.index_eq, by simp [other]⟩

theorem IsAt.self {cursor : Nat} (here : loop.IsAt index result cursor values machine) (taken : Nat) :
    machine.inState machine.store (loop.frame cursor values :: loop.waiting) taken =
      { machine with stepsTaken := taken } := by
  have charged := @inState_self { machine with stepsTaken := taken } _ here.going here.frames
  exact charged

/-- A loop that has come to an element calls the function on it next. -/
theorem IsAt.callsNext (here : loop.IsAt index result 1 values machine) {element : Element}
    (there : loop.collection.element? index = some element) :
    machine.CallsNext (loop.frame 2 values) loop.waiting loop.function (loop.arguments result element) loop.origin := by
  refine ⟨here.going, loop.frame 1 values, values, .loop loop.op .next, here.frames, rfl, rfl, rfl, ?_⟩
  have executed := @execute_next machine machine.store loop.kind loop.origin loop.op loop.scope loop.collection result
    loop.function index (machine.stepsTaken + 1) values loop.waiting here.holds element there
  rw [← here.self (machine.stepsTaken + 1)]
  exact executed

/-- What the function returned is taken in, and the loop goes back. -/
theorem IsAt.collects {kept more : List Value} {produced : Value}
    (here : loop.IsAt index result 2 (produced :: kept.reverse) machine) {element : Element}
    (there : loop.collection.element? index = some element) (retains : retained loop.op element produced = .ok more) :
    loop.IsAt (index + 1) produced 1 (kept ++ more).reverse machine.step.1 := by
  have executed := @execute_collect machine machine.store loop.kind loop.origin loop.op loop.scope loop.collection
    result loop.function index (machine.stepsTaken + 1) loop.waiting here.holds element produced kept more there retains
  obtain ⟨going, frames, store⟩ := step_goesOn here.going here.frames rfl executed (by simp) rfl rfl
  refine ⟨going, frames, ?_⟩
  rw [store]
  have moved := here.holds.next produced
  cases fold : loop.op == .fold with
  | true => simpa [fold] using moved
  | false =>
    rw [fold] at moved
    exact holds_of_ne_fold fold moved

/-- What cannot be taken in ends the evaluation. -/
theorem IsAt.stops {kept : List Value} {produced other : Value}
    (here : loop.IsAt index result 2 (produced :: kept.reverse) machine) {element : Element}
    (there : loop.collection.element? index = some element)
    (unfit : retained loop.op element produced = .error other) :
    machine.step.1.result = some (.failed (.typeMismatch .boolean other.kind) loop.origin) := by
  have executed := @execute_stop machine machine.store loop.kind loop.origin loop.op loop.scope loop.collection result
    loop.function index (machine.stepsTaken + 1) loop.waiting here.holds element produced other kept there unfit
  have current : (loop.frame 2 (produced :: kept.reverse)).current? = some (.loop loop.op .collect) := rfl
  rw [step_eq_conclude here.going here.frames current]
  exact congrArg (fun effect => (conclude (.loop loop.op .collect) effect).1.result) executed

/-- Behind the last element a loop yields its value with its next two steps. -/
theorem IsAt.finishes {kept : List Value} (here : loop.IsAt index result 1 kept.reverse machine)
    (atEnd : loop.collection.element? index = none) (left : loop.caller.isExhausted = false) :
    (machine.stepped 1).frames = loop.frame 3 kept.reverse :: loop.waiting ∧
      (machine.stepped 2).HasYielded loop.caller loop.below
        (if loop.op == .fold then result else collectLike loop.collection kept) := by
  have passed := @execute_exhausted machine machine.store loop.kind loop.origin loop.op loop.scope loop.collection
    result loop.function index (machine.stepsTaken + 1) kept.reverse loop.waiting here.holds atEnd
  obtain ⟨going, frames, store⟩ := step_goesOn here.going here.frames rfl passed (by simp) rfl rfl
  refine ⟨frames, ?_⟩
  have holds := here.holds
  rw [← store] at holds
  have done := @execute_done machine.step.1 machine.step.1.store loop.kind loop.origin loop.op loop.scope
    loop.collection result loop.function index (machine.step.1.stepsTaken + 1) loop.waiting holds kept
  exact step_yields going frames rfl done rfl rfl left

end

/-! ### Going round -/

/-- The frame of a loop goes round: it calls the function on some elements in turn, one call for each, and every call
returns a value that the loop takes in with its next step. -/
inductive Rounds (loop : Loop) : Value → List Element → List Value → Machine → Machine → Prop where
  | none {result : Value} {machine : Machine} : loop.Rounds result [] [] machine machine
  | round {result produced : Value} {element : Element} {elements : List Element} {results values : List Value}
      {first second last : Machine}
      (calls : first.CallsNext (loop.frame 2 values) loop.waiting loop.function (loop.arguments result element)
        loop.origin)
      (returns : first.Returns (loop.frame 2 values) loop.waiting produced second)
      (fits : loop.op = .filter → produced.kind = .boolean)
      (rounds : loop.Rounds produced elements results second.step.1 last) :
      loop.Rounds result (element :: elements) (produced :: results) first last

/-- How a loop ends that has gone round for some elements and has a result so far. -/
inductive Ends (loop : Loop) (result value : Value) (machine : Machine) : List Element → Prop where
  /-- No element is left, and the loop yields a value. -/
  | yields {values : List Value} (passes : (machine.stepped 1).frames = loop.frame 3 values :: loop.waiting)
      (yielded : (machine.stepped 2).HasYielded loop.caller loop.below value) : loop.Ends result value machine []
  /-- The call for the next element ends the evaluation with an exception. -/
  | fails {element : Element} {elements : List Element} {values : List Value} {exception : Value}
      (calls : machine.CallsNext (loop.frame 2 values) loop.waiting loop.function (loop.arguments result element)
        loop.origin)
      (fails : machine.Fails (loop.frame 2 values) loop.waiting exception) :
      loop.Ends result value machine (element :: elements)
  /-- The call for the next element returns no boolean to a filter, which ends the evaluation. -/
  | stops {element : Element} {elements : List Element} {values : List Value} {produced : Value} {after : Machine}
      (calls : machine.CallsNext (loop.frame 2 values) loop.waiting loop.function (loop.arguments result element)
        loop.origin)
      (returns : machine.Returns (loop.frame 2 values) loop.waiting produced after)
      (filters : loop.op = .filter) (unfit : produced.kind ≠ .boolean)
      (mismatch : after.step.1.result = some (.failed (.typeMismatch .boolean produced.kind) loop.origin)) :
      loop.Ends result value machine (element :: elements)

section

variable {program : Program} {natives : Natives} {limits : Limits} {loop : Loop} {index : Nat} {result : Value}
  {machine : Machine}

/-- What a loop cannot take in is what a filter was given that is no boolean. -/
theorem unfit_of_retained {op : HigherOrder} {element : Element} {produced other : Value}
    (unfit : retained op element produced = .error other) :
    op = .filter ∧ other = produced ∧ produced.kind ≠ .boolean := by
  cases op with
  | map => cases element <;> cases unfit
  | fold => cases unfit
  | filter =>
    cases produced with
    | boolean value => cases value <;> cases unfit
    | _ =>
      cases unfit
      exact ⟨rfl, rfl, nofun⟩

theorem fit_of_retained {op : HigherOrder} {element : Element} {produced : Value} {more : List Value}
    (fit : retained op element produced = .ok more) : op = .filter → produced.kind = .boolean := by
  rintro rfl
  cases produced with
  | boolean value => rfl
  | _ => cases fit

/-- What a loop yields when it has kept something of some elements, and goes round for all others. -/
def final (loop : Loop) (result : Value) (kept : List Value) (elements : List Element) (results : List Value) : Value :=
  if loop.op == .fold then results.getLastD result
  else collectLike loop.collection (kept ++ (loop.op.collected elements results).flatMap elementArguments)

theorem final_none (kept : List Value) (elements : List Element) :
    loop.final result kept elements [] = if loop.op == .fold then result else collectLike loop.collection kept := by
  unfold final
  rw [HigherOrder.collected_none]
  simp

theorem final_cons {kept more results : List Value} {element : Element} {elements : List Element} {produced : Value}
    (retains : retained loop.op element produced = .ok more) :
    loop.final result kept (element :: elements) (produced :: results) =
      loop.final produced (kept ++ more) elements results := by
  unfold final
  rw [HigherOrder.collected_cons retains, List.getLastD_cons, List.append_assoc]

theorem final_outcome (results : List Value) :
    loop.final result [] loop.collection.elements results = loop.op.outcome loop.collection result results := by
  have collected := Value.collectLike_arguments (@HigherOrder.fits_collected loop.op loop.collection
    loop.collection.elements results Value.fits_elements)
  unfold final
  cases op : loop.op with
  | fold => rfl
  | _ =>
    rw [op] at collected
    exact collected

/-- From one element on, a loop goes round until it ends. -/
theorem IsAt.goesRound {elements : List Element} {kept : List Value}
    (here : loop.IsAt index result 1 kept.reverse machine)
    (abides : machine.Abides program natives limits (.free program.tree natives)) (formed : program.tree.WellFormed)
    (freely : machine.StepsFreely) (left : loop.caller.isExhausted = false)
    (behind : loop.collection.elements.drop index = elements) :
    ∃ done others results last, elements = done ++ others ∧ loop.Rounds result done results machine last ∧
      loop.Ends (results.getLastD result) (loop.final result kept elements results) last others := by
  induction elements generalizing index result kept machine with
  | nil =>
    obtain ⟨passes, yielded⟩ := here.finishes (element?_of_drop_nil behind) left
    rw [← loop.final_none kept []] at yielded
    exact ⟨[], [], [], machine, rfl, .none, .yields passes yielded⟩
  | cons element elements hypothesis =>
    obtain ⟨there, further⟩ := element?_of_drop behind
    have calls := here.callsNext there
    rcases calls.ends abides freely rfl formed with ⟨produced, after, returns, retains⟩ | ⟨exception, fails⟩
    · have returned : loop.IsAt index result 2 (produced :: kept.reverse) after := by
        obtain ⟨count, -, -, -, going, frames, -⟩ := returns
        exact ⟨going, frames, here.holds.keeps (retains.kept _ here.holds.inner)⟩
      cases retained : retained loop.op element produced with
      | error other =>
        obtain ⟨filters, rfl, unfit⟩ := unfit_of_retained retained
        have mismatch := returned.stops there retained
        exact ⟨[], _, [], machine, rfl, .none, .stops calls returns filters unfit mismatch⟩
      | ok more =>
        have next := returned.collects there retained
        obtain ⟨count, -, -, rfl, -⟩ := id returns
        obtain ⟨done, others, results, last, rfl, rounds, ends⟩ := hypothesis next
          (stepped_abides abides (count + 1)) (freely.stepped (count + 1)) further
        refine ⟨element :: done, others, produced :: results, last, rfl,
          .round calls returns (fit_of_retained retained) rounds, ?_⟩
        rw [final_cons retained, List.getLastD_cons]
        exact ends
    · exact ⟨[], _, [], machine, rfl, .none, .fails calls fails⟩

end

end Loop

/-! ### Calls of loops -/

namespace HigherOrder

/-- What one of the three natives is called with. Only a fold has an initial value. -/
def inputs (op : HigherOrder) (collection initial : Value) (function : Function) : List Value :=
  match op with
  | fold => [collection, initial, .function function]
  | _ => [collection, .function function]

/-- What the scope of a loop binds at first. -/
def bindings (op : HigherOrder) (collection initial : Value) (function : Function) : List (String × Value) :=
  match op with
  | fold => [(Natives.collectionName, collection), (Natives.initialName, initial),
      (Natives.functionName, .function function)]
  | _ => [(Natives.collectionName, collection), (Natives.functionName, .function function)]

/-- The three natives as the standard table has them. -/
theorem get?_standard {op : HigherOrder} {index : Nat} (known : Natives.standard.find? op.toText = some index) :
    ∃ names signature, Natives.standard.get? index = some ⟨op.toText, names, signature, .loop op⟩ ∧
      ∀ collection initial function, names.length = (op.inputs collection initial function).length ∧
        (names.zip (op.inputs collection initial function)).foldl
          (fun bound input => Scope.setBinding input.1 input.2 bound) [] = op.bindings collection initial function := by
  cases op with
  | map =>
    obtain rfl : 5 = index := Option.some.inj known
    exact ⟨_, _, rfl, fun _ _ _ => ⟨rfl, rfl⟩⟩
  | filter =>
    obtain rfl : 6 = index := Option.some.inj known
    exact ⟨_, _, rfl, fun _ _ _ => ⟨rfl, rfl⟩⟩
  | fold =>
    obtain rfl : 7 = index := Option.some.inj known
    exact ⟨_, _, rfl, fun _ _ _ => ⟨rfl, rfl⟩⟩

end HigherOrder

namespace Machine

section

variable {machine : Machine} {op : HigherOrder} {index : Nat} {context : Option ScopeId} {name : String}
  {collection initial : Value} {function : Function} {origin : NodeId}

/-- A call of one of the three starts the frame of a loop, in a scope that binds what it was called with. -/
theorem startCall_loop {store : Store} {frames : List Frame} {taken : Nat} (standard : machine.natives = .standard)
    (known : Natives.standard.find? op.toText = some index) (room : frames.length < machine.limits.maxDepth) :
    (machine.inState store frames taken).startCall ⟨.native index, context, name⟩
        (op.inputs collection initial function) origin =
      (machine.inState (store.add ⟨op.bindings collection initial function, some machine.root⟩).2 frames taken,
        .ok (.start (loopFrame (.native index) origin op store.scopes.size 0 []))) := by
  obtain ⟨names, signature, there, takes⟩ := op.get?_standard known
  obtain ⟨length, bound⟩ := takes collection initial function
  have steps : (Natives.standard : Natives).steps index = op.steps := by simp [Natives.steps, there]
  have none : names[(op.inputs collection initial function).length]? = none := by simp [length]
  simp only [startCall, startNative, inState_limits, inState_depth, inState_natives, standard, there, none, length,
    Nat.lt_irrefl, Nat.not_le.mpr room, if_false, bound, steps]
  rfl

/-- The scope of a loop at its first step. -/
theorem local?_bindings (store : Store) (outer : Option ScopeId) :
    let opened := (store.add ⟨op.bindings collection initial function, outer⟩).2
    (opened.local? store.scopes.size Natives.collectionName).getD .none = collection ∧
      (opened.local? store.scopes.size Natives.functionName).getD .none = .function function ∧
      ∃ given, (opened.local? store.scopes.size Natives.initialName).getD .none = given ∧
        (op = .fold → given = initial) := by
  simp only [Store.local?_add_self]
  cases op with
  | fold => exact ⟨rfl, rfl, _, rfl, fun _ => rfl⟩
  | _ => exact ⟨rfl, rfl, _, rfl, nofun⟩

variable {caller : Frame} {rest : List Frame}

/-- The loop that a call of one of the three starts. -/
def loopOf (op : HigherOrder) (index : Nat) (collection : Value) (function : Function) (origin : NodeId)
    (caller : Frame) (rest : List Frame) (machine : Machine) : Loop where
  op := op
  collection := collection
  function := function
  kind := .native index
  origin := origin
  scope := machine.store.scopes.size
  caller := caller
  below := rest

/-- The step of the call starts the frame of the loop, and the next one comes to the first element. -/
theorem CallsNext.starts (calls : machine.CallsNext caller rest ⟨.native index, context, name⟩
      (op.inputs collection initial function) origin)
    (standard : machine.natives = .standard) (known : Natives.standard.find? op.toText = some index)
    (collects : collection.isCollection = true) (room : rest.length + 1 < machine.limits.maxDepth) :
    let loop := machine.loopOf op index collection function origin caller rest
    (machine.stepped 1).frames = loop.frame 0 [] :: loop.waiting ∧ loop.IsAt 0 initial 1 [] (machine.stepped 2) := by
  intro loop
  obtain ⟨going, frame, values, step, active, current, -, rfl, executed⟩ := calls
  have charged := @inState_self { machine with stepsTaken := machine.stepsTaken + 1 } _ going active
  rw [← charged, inState_setTop] at executed
  have executed := executed.trans (startCall_loop standard known room)
  obtain ⟨going, frames, store⟩ := step_goesOn going active current executed (by simp) rfl rfl
  refine ⟨frames, ?_⟩
  obtain ⟨isCollection, isFunction, given, isInitial, isGiven⟩ := @local?_bindings op collection initial function
    machine.store (some machine.root)
  have inner : ((machine.stepped 1).store.parent? loop.scope).isSome := by
    rw [show (machine.stepped 1).store = _ from store]
    simp [loop, loopOf]
  rw [← store] at isCollection isFunction isInitial
  have executed := @execute_init (machine.stepped 1) (machine.stepped 1).store (.native index) origin op loop.scope
    collection function ((machine.stepped 1).stepsTaken + 1) loop.waiting given (Store.lt_size_of_inner inner) collects
    isCollection isFunction
    isInitial
  obtain ⟨going, frames, store⟩ := step_goesOn going frames rfl executed (by simp) rfl rfl
  refine ⟨going, frames, ?_⟩
  have holds := @loopHolds_start (machine.stepped 1).store loop.scope op collection function given inner isCollection
    isFunction
  rw [← store] at holds
  cases fold : op == .fold with
  | true => rwa [isGiven (by simpa using fold)] at holds
  | false => exact Loop.holds_of_ne_fold fold holds

end

section

variable {program : Program} {natives : Natives} {limits : Limits} {base : ScopeId} {machine : Machine}

theorem IsSafe.stepped {makeNone : natives.MakeNoFunctions} (safe : machine.IsSafe program limits makeNone base)
    (count : Nat) : (machine.stepped count).IsSafe program limits makeNone base := by
  induction count with
  | zero => exact safe
  | succ count hypothesis =>
    obtain ⟨second, outcome, stepped, safe⟩ := hypothesis.step
    unfold Machine.stepped
    rwa [stepped]

theorem IsSafe.stepsFreely {makeNone : natives.MakeNoFunctions} (safe : machine.IsSafe program limits makeNone base) :
    machine.StepsFreely := by
  intro count
  obtain ⟨second, outcome, stepped⟩ := (safe.stepped count).step_ok
  exact ⟨outcome, congrArg Prod.snd stepped⟩

theorem IsLive.stepped (live : machine.IsLive program natives limits) (freely : machine.StepsFreely) (count : Nat) :
    (machine.stepped count).IsLive program natives limits := by
  induction count with
  | zero => exact live
  | succ count hypothesis =>
    obtain ⟨outcome, stepped⟩ := freely.step_eq count
    exact hypothesis.step stepped

/-- The active frames of an evaluation have steps left. -/
theorem IsLive.left (live : machine.IsLive program natives limits) {frame : Frame} (among : frame ∈ machine.frames) :
    frame.isExhausted = false := by
  rcases live.phase with finished | going
  · simp [finished.frames] at among
  · exact current?_isSome_iff.mp (going.current frame among)

end

/-- A call of `map`, `filter` or `fold` with a collection and a function starts the frame of a loop above the caller.
The frame goes round for the elements of the collection in order, one call of the function for each of them. If all
calls return, and return what the loop can take in, it yields the outcome of the loop. Otherwise the evaluation ends
with the first exception. -/
theorem CallsNext.loops {op : HigherOrder} {index : Nat} {context : Option ScopeId} {name : String}
    {collection initial : Value} {function : Function} {origin : NodeId} {caller : Frame} {rest : List Frame}
    {program : Program} {limits : Limits} {base : ScopeId} {machine : Machine}
    (calls : machine.CallsNext caller rest ⟨.native index, context, name⟩ (op.inputs collection initial function)
      origin)
    (known : Natives.standard.find? op.toText = some index) (collects : collection.isCollection = true)
    (live : machine.IsLive program .standard limits)
    (safe : machine.IsSafe program limits Natives.standard_makeNoFunctions base) (formed : program.tree.WellFormed)
    (room : rest.length + 1 < limits.maxDepth) :
    let loop := machine.loopOf op index collection function origin caller rest
    (machine.stepped 1).frames = loop.frame 0 [] :: caller :: rest ∧
      (machine.stepped 2).frames = loop.frame 1 [] :: caller :: rest ∧
      ∃ done left results last, collection.elements = done ++ left ∧
        loop.Rounds initial done results (machine.stepped 2) last ∧
        loop.Ends (results.getLastD initial) (op.outcome collection initial results) last left ∧
        (collection.IsProper → op ≠ .fold → (op = .map → collection.kind ≠ .set) →
          (op.outcome collection initial results).elements = op.collected collection.elements results) := by
  intro loop
  obtain ⟨abides, -, -⟩ := live.satisfies
  obtain ⟨rfl, standard, rfl, -⟩ := id abides
  have freely := safe.stepsFreely
  obtain ⟨first, here⟩ := calls.starts standard known collects room
  have left : loop.caller.isExhausted = false := (live.stepped freely 1).left (by rw [first]; simp [Loop.waiting, loop])
  have here : loop.IsAt 0 initial 1 ([] : List Value).reverse (machine.stepped 2) := here
  obtain ⟨done, others, results, last, split, rounds, ends⟩ := here.goesRound (stepped_abides abides 2) formed
    (freely.stepped 2) left rfl
  rw [List.drop_zero, loop.final_outcome] at ends
  exact ⟨first, here.frames, done, others, results, last, split, rounds, ends,
    fun proper loops distinct => op.elements_outcome collects proper loops distinct initial⟩

/-- Pairs what there is so far with one item after the other, at first nothing. -/
def pairing : Tree where
  nodes := #[
    ⟨.reference "fold", .none⟩,
    ⟨.boolean true, .none⟩,
    ⟨.boolean false, .none⟩,
    ⟨.sequence ⟨0, 2⟩, .none⟩,
    ⟨.none, .none⟩,
    ⟨.bind "total" .missing none false, .none⟩,
    ⟨.bind "item" .missing none false, .none⟩,
    ⟨.reference "total", .none⟩,
    ⟨.reference "item", .none⟩,
    ⟨.sequence ⟨2, 2⟩, .none⟩,
    ⟨.function "" ⟨4, 2⟩ (.node 9) none, .none⟩,
    ⟨.call (.node 0) ⟨6, 3⟩, .none⟩,
    ⟨.program (.node 11), .none⟩]
  lists := #[.node 1, .node 2, .node 7, .node 8, .node 5, .node 6, .node 3, .node 4, .node 10]
  root := .node 12

/-- A machine that is about to call `fold`. -/
def pairer : Machine :=
  ((create (.ofTree pairing) .standard ⟨1000, 10⟩ .empty).start {}).stepped 6

theorem loops_of_pairing :
    let function : Function := ⟨.definition (.node 10), some 3, ""⟩
    let collection := Value.sequence #[.boolean true, .boolean false]
    let caller : Frame := ⟨.program, .node 12, (pairing.code (.node 12)).toArray, 7, 2, []⟩
    let loop := pairer.loopOf .fold 7 collection function (.node 11) caller []
    pairer.CallsNext caller [] ⟨.native 7, none, ""⟩ [collection, .none, .function function] (.node 11) ∧
      (pairer.stepped 2).frames = [loop.frame 1 [], caller] ∧
      ∃ done left results last, collection.elements = done ++ left ∧
        loop.Rounds .none done results (pairer.stepped 2) last ∧
        loop.Ends (results.getLastD .none) (results.getLastD .none) last left ∧
        (pairer.stepped 16).result = some (.sequence #[.sequence #[.none, .boolean true], .boolean false]) := by
  intro function collection caller loop
  let machine := create (.ofTree pairing) .standard ⟨1000, 10⟩ .empty
  have calls : pairer.CallsNext caller [] ⟨.native 7, none, ""⟩ (HigherOrder.fold.inputs collection .none function)
      (.node 11) := by
    unfold pairer
    rw [start_eq]
    exact ⟨rfl, _, [], .call (.node 11) 3, rfl, rfl, rfl, rfl, rfl⟩
  have result : (pairer.stepped 16).result = some (.sequence #[.sequence #[.none, .boolean true], .boolean false]) := by
    unfold pairer
    rw [start_eq]
    rfl
  have formed : pairing.WellFormed := Tree.wellFormed_of_isOrderly (by decide)
  have safe : (machine.start {}).IsSafe machine.program machine.limits Natives.standard_makeNoFunctions 1 :=
    .start (by simp [Inputs.HoldNoFunctions])
  have live : (machine.start {}).IsLive machine.program .standard machine.limits :=
    @IsLive.start machine (code_ne_nil_of_acyclic formed.acyclic _) {}
  obtain ⟨-, first, done, left, results, last, split, rounds, ends, -⟩ := calls.loops rfl rfl
    (live.stepped safe.stepsFreely 6) (safe.stepped 6) formed (by decide)
  exact ⟨calls, first, done, left, results, last, split, rounds, ends, result⟩

end Machine

end Rivulet
