import Rivulet.Proofs.Host.Abiding

/-!
Evaluations without faults. A fault is a misuse of the host: a jump out of a sequence, a node that no step can
complete, a call of what is no function. Whatever the tree looks like, compiled sequences suit the nodes that their
steps name, jumps land among the steps, and every function that an evaluation ever holds is a definition of the tree
or a registered native. So once an evaluation has started, going on with it in whatever way never returns a fault.
-/

namespace Rivulet

/-- A function whose callee exists. -/
structure Function.HasCallee (tree : Tree) (natives : Natives) (function : Function) : Prop where
  definition : ∀ id, function.callee = .definition id → (Machine.definitionOf? tree id).isSome
  native : ∀ index, function.callee = .native index → (natives.get? index).isSome

/-- The functions in what natives of one step hand to an evaluation come from their inputs: those in the value that a
native returns, and those in what it binds. What it leaves behind in a scope is as good as returned, since whoever looks
the name up finds it there. -/
def Natives.MakeNoFunctions (natives : Natives) : Prop :=
  ∀ native ∈ natives.definitions, ∀ run, native.body = .apply run → ∀ call scope store,
    let (returned, bindings) := run call scope store
    ∀ value ∈ returned :: bindings.map NativeBinding.value, ∀ function, Value.Occurs (.function function) value →
      ∃ input ∈ call.inputs, Value.Occurs (.function function) input

/-- There is no function in the inputs of an evaluation. -/
def Inputs.HoldNoFunctions (inputs : Inputs) : Prop :=
  ∀ binding ∈ inputs.streams ++ inputs.borrowed, ∀ function, ¬ Value.Occurs (.function function) binding.2

/-- The natives of the standard table only pass functions on. -/
theorem Natives.standard_makeNoFunctions : Natives.standard.MakeNoFunctions := by
  intro native among run is call scope store
  obtain ⟨made, is, rfl⟩ := Natives.standard_arePure _ among _ is
  intro value only function occurs
  obtain rfl : value = made call := by simpa using only
  cases exception : (made call).isException with
  | true =>
    -- Nothing occurs in an exception but the exception.
    have every : (made call).Every fun part => part.isException = true := by
      refine Value.every_of_no_parts exception ?_
      cases made : made call <;> simp [made, Value.isException] at exception
      rfl
    exact absurd (every.occurs occurs) Bool.false_ne_true
  | false =>
    have passed : (made call).Only fun function => ∃ input ∈ call.inputs, Value.Occurs (.function function) input :=
      Value.every_standard (fun value plain function is => by simp [is, Value.isPlain] at plain) among is
        (fun input among => Value.only_iff.mpr fun _ occurs => ⟨input, among, occurs⟩) exception
    exact Value.only_iff.mp passed function occurs

/-- What holds of the functions in all inputs of a native of one step holds of those in what it returns and binds. -/
theorem Natives.MakeNoFunctions.only {natives : Natives} (makeNone : natives.MakeNoFunctions)
    {allowed : Function → Prop} {index : Nat} {native : Native}
    {run : NativeCall → ScopeId → Store → Value × List NativeBinding} {call : NativeCall} {scope : ScopeId}
    {store : Store} (known : natives.get? index = some native) (is : native.body = .apply run)
    (each : ∀ input ∈ call.inputs, input.Only allowed) :
    (run call scope store).1.Only allowed ∧ ∀ binding ∈ (run call scope store).2, binding.value.Only allowed := by
  have only (value : Value)
      (among : value ∈ (run call scope store).1 :: (run call scope store).2.map NativeBinding.value) :
      value.Only allowed := by
    refine Value.only_iff.mpr fun function occurs => ?_
    obtain ⟨input, given, there⟩ :=
      makeNone _ (List.mem_of_getElem? known) _ is call scope store value among function occurs
    exact Value.only_iff.mp (each input given) function there
  exact ⟨only _ List.mem_cons_self, fun binding among => only _ (List.mem_cons_of_mem _ (List.mem_map_of_mem among))⟩

/-- The law that functions have callees, and captured scopes that are not older than some scope. -/
def Law.callable (tree : Tree) {natives : Natives} (makeNone : natives.MakeNoFunctions) (base : ScopeId) :
    Law tree natives where
  base := base
  strict := False
  allows _ function := function.HasCallee tree natives ∧ ∀ scope, function.context = some scope → base ≤ scope
  later _ allowed := allowed
  context allowed is := ⟨allowed.2 _ is, False.elim⟩
  renamed _ allowed := ⟨⟨allowed.1.definition, allowed.1.native⟩, allowed.2⟩
  native _ index known := ⟨⟨by simp, by rintro _ ⟨⟩; exact known⟩, by simp⟩
  closure name defined later _ := ⟨⟨by rintro _ ⟨⟩; exact defined, by simp⟩, by rintro _ ⟨⟩; exact later⟩
  applied := makeNone.only

namespace Machine

/-! ### Steps without faults -/

/-- An effect that is no fault. -/
def IsFaultless (effect : Effect) : Prop :=
  ∃ flow, effect.2 = .ok flow

theorem faultless_flow (machine : Machine) (flow : Flow) : IsFaultless (machine.flow flow) :=
  ⟨flow, rfl⟩

theorem faultless_fail (machine : Machine) (failure : Failure) (node : NodeId) :
    IsFaultless (machine.fail failure node) :=
  ⟨_, rfl⟩

theorem faultless_yield (machine : Machine) (result : Except Failure Value) (node : NodeId) :
    IsFaultless (machine.yield result node) := by
  cases result with
  | ok value => exact faultless_flow _ _
  | error failure => exact faultless_fail _ _ _

theorem faultless_bindName (machine : Machine) (scope : ScopeId) (name : String) (value : Value) (node : NodeId)
    (flow : Flow) : IsFaultless (machine.bindName scope name value node flow) := by
  unfold bindName
  split
  · exact faultless_fail _ _ _
  · exact faultless_flow _ _

theorem faultless_jumpTop (machine : Machine) {frame : Frame} {distance : Int}
    (lands : 0 ≤ frame.cursor + distance ∧ frame.cursor + distance < frame.steps.size) :
    IsFaultless (machine.jumpTop frame distance) := by
  unfold jumpTop Frame.jump
  dsimp only
  rw [if_pos (by simpa using lands)]
  exact faultless_flow _ _

theorem faultless_collect (machine : Machine) (frame : Frame) (count : Nat) (node : NodeId)
    (make : List Value → Value) : IsFaultless (machine.collect frame count node make) := by
  unfold collect
  split
  · exact faultless_fail _ _ _
  · exact faultless_flow _ _

theorem faultless_consume (machine : Machine) (frame : Frame) (node : NodeId) {next : Machine → Value → Effect}
    (each : ∀ machine value, IsFaultless (next machine value)) : IsFaultless (machine.consume frame node next) := by
  unfold consume
  split
  · exact faultless_fail _ _ _
  · exact each _ _

/-- A call of a function with a callee. -/
theorem faultless_startCall (machine : Machine) {function : Function}
    (hasCallee : function.HasCallee machine.tree machine.natives) (arguments : List Value) (origin : NodeId) :
    IsFaultless (machine.startCall function arguments origin) := by
  unfold startCall
  split
  · exact faultless_fail _ _ _
  · split
    · rename_i definition called
      have defined := hasCallee.definition definition called
      unfold startDefinition
      split
      · rename_i unknown
        simp [unknown] at defined
      · split <;> exact ⟨_, rfl⟩
    · rename_i index called
      have registered := hasCallee.native index called
      unfold startNative
      split
      · rename_i unknown
        simp [unknown] at registered
      · split
        · exact faultless_fail _ _ _
        · split
          · exact faultless_fail _ _ _
          · exact ⟨_, rfl⟩

/-- A node that a step suits is completed without a fault. -/
theorem faultless_finish (machine : Machine) (frame : Frame) {node : NodeId}
    (suits : (Step.finish node).Suits machine.tree machine.natives) : IsFaultless (machine.finish frame node) := by
  unfold finish
  cases is : machine.tree.form? node with
  | none => exact faultless_fail _ _ _
  | some form =>
    obtain ⟨noBind, noPair⟩ := suits form is
    cases form with
    | bind name value declared variadic => exact absurd ⟨_, _, _, _, rfl⟩ noBind
    | pair key value => exact absurd ⟨_, _, rfl⟩ noPair
    | program _ =>
      dsimp only
      split <;> exact ⟨_, rfl⟩
    | conditional _ _ _ =>
      dsimp only
      split <;> exact ⟨_, rfl⟩
    | call _ _ =>
      dsimp only
      split <;> exact ⟨_, rfl⟩
    | block statements =>
      dsimp only
      unfold finishBlock
      dsimp only
      split <;> exact ⟨_, rfl⟩
    | number literal measure =>
      dsimp only
      split <;> exact ⟨_, rfl⟩
    | boolean value => exact faultless_flow _ _
    | text value => exact faultless_flow _ _
    | none => exact faultless_flow _ _
    | sequence items => exact faultless_collect _ _ _ _ _
    | set items => exact faultless_collect _ _ _ _ _
    | mapping entries => exact faultless_collect _ _ _ _ _
    | reference name =>
      dsimp only
      split <;> exact ⟨_, rfl⟩
    | property _ name =>
      refine faultless_consume _ _ _ fun machine value => ?_
      split
      · split <;> exact ⟨_, rfl⟩
      · exact faultless_fail _ _ _
    | binary op _ _ =>
      dsimp only
      unfold finishBinary
      split
      · refine faultless_consume _ _ _ fun machine value => ?_
        split <;> exact ⟨_, rfl⟩
      · split
        · exact faultless_yield _ _ _
        · exact faultless_fail _ _ _
    | unary op _ => exact faultless_consume _ _ _ fun machine operand => faultless_yield _ _ _
    | function name inputs body declared =>
      dsimp only
      unfold define
      dsimp only
      split
      · exact faultless_flow _ _
      · exact faultless_bindName _ _ _ _ _ _
    | record name inputs =>
      dsimp only
      unfold define
      dsimp only
      split
      · exact faultless_flow _ _
      · exact faultless_bindName _ _ _ _ _ _
    | changed stream => exact faultless_flow _ _
    | borrow source =>
      dsimp only
      unfold finishBorrow
      split
      · exact faultless_fail _ _ _
      · exact faultless_bindName _ _ _ _ _ _
    | placeholder => exact faultless_fail _ _ _
    | unparsable _ => exact faultless_fail _ _ _

section

variable {machine : Machine} {makeNone : machine.natives.MakeNoFunctions} {base : ScopeId} {store : Store}
  {frame : Frame} {rest : List Frame} {taken : Nat} {step : Step}

/-- A step of a sequence, run by a frame whose functions all have callees, is no fault. -/
theorem execute_faultless (rest : List Frame) (taken : Nat)
    (ready : machine.Ready (.callable machine.tree makeNone base) store frame)
    (sequence : machine.tree.IsSequence machine.natives frame.steps) (current : frame.current? = some step) :
    IsFaultless ((machine.inState store (frame :: rest) taken).execute frame step) := by
  have suits := sequence.suits frame.cursor step current
  have lands {distance : Int} (jumps : step.distance? = some distance) :
      0 ≤ frame.cursor + distance ∧ frame.cursor + distance < frame.steps.size :=
    ⟨(sequence.lands frame.cursor step distance current jumps).1,
      (sequence.lands frame.cursor step distance current jumps).2.1⟩
  have hasCallee {value : Value} {function : Function} (admits : (Law.callable machine.tree makeNone base).Admits
      store.scopes.size value) (is : value = .function function) : function.HasCallee machine.tree machine.natives :=
    (admits.own function is).1
  cases step with
  | finish node => exact faultless_finish _ frame suits
  | enter node => exact faultless_flow _ _
  | bind node =>
    obtain ⟨name, value, declared, variadic, is⟩ := suits
    unfold execute bindTop
    simp only [inState_tree, is]
    split
    · exact faultless_fail _ _ _
    · exact faultless_bindName _ _ _ _ _ _
  | jump distance => exact faultless_jumpTop _ (lands rfl)
  | jumpUnless node distance =>
    unfold execute jumpUnless
    dsimp only
    split
    · exact faultless_fail _ _ _
    · exact faultless_flow _ _
    · rename_i below popped
      rw [(Frame.pop?_spec popped).1]
      exact faultless_jumpTop _ (lands rfl)
    · exact faultless_fail _ _ _
  | branch node whenValue distance =>
    unfold execute branch
    dsimp only
    split
    · exact faultless_fail _ _ _
    · split
      · exact faultless_jumpTop _ (lands rfl)
      · exact faultless_flow _ _
    · exact faultless_fail _ _ _
  | skipIfBound input distance =>
    obtain ⟨name, value, declared, variadic, is⟩ := suits
    unfold execute skipIfBound
    simp only [inState_tree, is]
    split
    · exact faultless_jumpTop _ (lands rfl)
    · exact faultless_flow _ _
  | call node arity =>
    unfold execute callTop
    dsimp only
    split
    · exact faultless_fail _ _ _
    · rename_i arguments below popped
      split
      · exact faultless_fail _ _ _
      · rename_i function below' popped'
        have among : .function function ∈ frame.values := by
          rw [(Frame.popMany?_spec popped).2, (Frame.pop?_spec popped').2]
          simp
        exact faultless_startCall ((machine.inState store (frame :: rest) taken).setTop below')
          (hasCallee (ready.values _ among) rfl) arguments node
      · exact faultless_fail _ _ _
  | instantiate definition =>
    obtain ⟨name, inputs, is⟩ := suits
    unfold execute instantiate
    simp only [inState_tree, is]
    exact faultless_flow _ _
  | expected node => exact faultless_fail _ _ _
  | apply index =>
    obtain ⟨⟨name, inputs, signature, body⟩, run, known, rfl⟩ := suits
    unfold execute applyNative
    simp only [inState_natives, known]
    exact faultless_flow _ _
  | loop op phase =>
    cases phase with
    | init =>
      unfold execute loopStep loopInit
      dsimp only
      split
      · exact faultless_fail _ _ _
      · split
        · exact faultless_flow _ _
        · exact faultless_fail _ _ _
    | next =>
      unfold execute loopStep loopNext
      dsimp only
      split
      · exact faultless_jumpTop _ (lands rfl)
      · split
        · rename_i function is
          have admits := ready.admits_loopLocal rest taken Natives.functionName
          exact faultless_startCall (machine.inState store (frame :: rest) taken) (hasCallee admits is) _ _
        · exact faultless_fail _ _ _
    | collect =>
      unfold execute loopStep loopCollect
      dsimp only
      split
      · rename_i produced below element popped found
        split
        · exact faultless_fail _ _ _
        · rename_i kept keeps
          have same := (keep_spec (fun _ => True) keeps trivial (by simp) (by simp)).1
          rw [same, (Frame.pop?_spec popped).1]
          exact faultless_jumpTop _ (lands rfl)
      · exact faultless_fail _ _ _
    | done =>
      unfold execute loopStep loopDone
      dsimp only
      split <;> exact faultless_flow _ _

end

/-! ### Evaluations without faults -/

/-- An evaluation that is over, or goes on in some frame. -/
def IsStarted (machine : Machine) : Prop :=
  machine.result.isSome ∨ machine.frames ≠ []

section

variable {program : Program} {natives : Natives} {makeNone : natives.MakeNoFunctions} {limits : Limits}
  {base : ScopeId}

/-- What keeps faults away: functions have callees, frames run compiled sequences, and the evaluation has started. -/
structure IsSafe (program : Program) (limits : Limits) (makeNone : natives.MakeNoFunctions) (base : ScopeId)
    (machine : Machine) : Prop where
  satisfies : machine.Satisfies program natives limits (sequences (.callable program.tree makeNone base) limits)
  started : machine.IsStarted

variable {machine : Machine}

theorem IsSafe.start {makeNone : machine.natives.MakeNoFunctions} {inputs : Inputs} (plain : inputs.HoldNoFunctions) :
    (machine.start inputs).IsSafe machine.program machine.limits makeNone machine.store.scopes.size := by
  have admits (binding : String × Value) (among : binding ∈ inputs.streams ++ inputs.borrowed) :
      (Law.callable machine.program.tree makeNone machine.store.scopes.size).Admits machine.store.scopes.size
        binding.2 :=
    Value.only_iff.mpr fun function occurs => absurd occurs (plain binding among function)
  have stored : machine.store.Abides (.callable machine.program.tree makeNone machine.store.scopes.size) :=
    ⟨Store.holds_of_size_le (Nat.le_refl _), False.elim⟩
  have abides : (machine.start inputs).Abides machine.program machine.natives machine.limits
      (.callable machine.program.tree makeNone machine.store.scopes.size) := start_abides stored (Nat.le_refl _)
    (fun stream among => admits stream (by simp [among])) (fun borrow among => admits borrow (by simp [among]))
  refine ⟨⟨abides, trivial, ?_⟩, .inr (by simp [start_frames])⟩
  intro frame among
  rw [start_frames] at among
  rw [List.mem_singleton.mp among]
  exact isSequence_code machine.program.tree machine.natives machine.program.tree.root

theorem Concludes.isStarted {store : Store} {active : List Frame} {taken : Nat}
    {ended : Machine × Except Fault StepOutcome} (concludes : machine.Concludes store active taken ended) :
    ended.1.IsStarted := by
  rcases concludes with ⟨value, log, paused, observers, rfl, -⟩ | ⟨frames, log, paused, observers, settles, rfl⟩
  · exact .inl rfl
  · refine .inr ?_
    cases settles <;> exact List.cons_ne_nil _ _

/-- A safe machine takes its next step without a fault. -/
theorem IsSafe.step_ok (safe : machine.IsSafe program limits makeNone base) :
    ∃ second outcome, machine.step = (second, .ok outcome) := by
  obtain ⟨⟨abides, -, frames⟩, started⟩ := safe
  obtain ⟨rfl, rfl, rfl, -⟩ := id abides
  cases result : machine.result with
  | some value =>
    simp only [Machine.step, result]
    exact ⟨_, _, rfl⟩
  | none =>
    cases active : machine.frames with
    | nil => simp [IsStarted, result, active] at started
    | cons frame rest =>
      rw [← inState_self result active]
      cases current : frame.current? with
      | none =>
        simp only [Machine.step, inState_result, inState_frames, current]
        exact ⟨_, _, rfl⟩
      | some step =>
        have among : frame ∈ machine.frames := by simp [active]
        obtain ⟨flow, is⟩ := execute_faultless rest (machine.stepsTaken + 1) (abides.ready among)
          (frames frame among) current
        rw [step_inState current]
        generalize (machine.inState machine.store (frame :: rest) (machine.stepsTaken + 1)).execute frame step =
          effect at is
        obtain ⟨second, outcome⟩ := effect
        subst is
        cases flow <;> exact ⟨_, _, rfl⟩

/-- A safe machine takes a step, and is safe then. -/
theorem IsSafe.step (safe : machine.IsSafe program limits makeNone base) :
    ∃ second outcome, machine.step = (second, .ok outcome) ∧ second.IsSafe program limits makeNone base := by
  obtain ⟨second, outcome, stepped⟩ := safe.step_ok
  refine ⟨second, outcome, stepped, step_satisfies safe.satisfies stepped, ?_⟩
  obtain ⟨⟨abides, -, -⟩, started⟩ := safe
  obtain ⟨rfl, rfl, rfl, -⟩ := id abides
  have comes := step_comesTo abides
  rw [stepped] at comes
  cases comes with
  | finished result => exact started
  | completed result active current concludes => exact concludes.isStarted
  | moved result active current move concludes => exact concludes.isStarted

theorem IsSafe.heed (safe : machine.IsSafe program limits makeNone base) (request : Option Bool) :
    (machine.heed request).IsSafe program limits makeNone base := by
  refine ⟨⟨heed_abides safe.satisfies.abides request, trivial, ?_⟩, ?_⟩
  · cases request <;> exact safe.satisfies.frames
  · cases request <;> exact safe.started

/-- A safe machine runs without a fault, and is safe then. -/
theorem IsSafe.runAmid (safe : machine.IsSafe program limits makeNone base) (requests : Nat → Option Bool)
    (limit : Nat) : ∃ last outcome, machine.runAmid requests limit = (last, .ok outcome) ∧
      last.IsSafe program limits makeNone base := by
  have kept : KeptByRuns (IsSafe program limits makeNone base) fun _ => False :=
    { heed := fun _ request safe => safe.heed request
      step := fun machine _ safe => by
        obtain ⟨second, outcome, stepped, after⟩ := safe.step
        rw [stepped]
        exact after
      exhaust := fun machine value _ _ safe =>
        ⟨⟨finishWith_abides safe.satisfies.abides value, trivial, fun _ among => absurd among List.not_mem_nil⟩,
          .inl rfl⟩
      idle := fun machine result active safe => by
        have started := safe.started
        simp [IsStarted, result, active] at started }
  have ended := runAmid_keeps kept requests limit safe
  generalize machine.runAmid requests limit = last at ended
  match last with
  | (last, .ok outcome) => exact ⟨last, outcome, rfl, ended⟩
  | (_, .error _) => exact ended.elim

/-- A safe machine goes on without a fault, and is safe then. -/
theorem IsSafe.perform (safe : machine.IsSafe program limits makeNone base) {deed : Deed}
    (goesOn : deed.goesOn = true) :
    (machine.perform deed).2 = .ok () ∧ (machine.perform deed).1.IsSafe program limits makeNone base := by
  cases deed with
  | step =>
    obtain ⟨second, outcome, stepped, after⟩ := safe.step
    simp only [Machine.perform, stepped]
    exact ⟨rfl, after⟩
  | run limit requests =>
    obtain ⟨last, outcome, ran, after⟩ := safe.runAmid requests limit
    simp only [Machine.perform, ran]
    exact ⟨rfl, after⟩
  | pause => exact ⟨rfl, safe.heed (some true)⟩
  | resume => exact ⟨rfl, safe.heed (some false)⟩
  | _ => simp [Deed.goesOn] at goesOn

end

end Machine

end Rivulet
