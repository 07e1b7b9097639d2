import Rivulet.Proofs.Machine.Course
import Rivulet.Proofs.Machine.Laws
import Rivulet.Proofs.Machine.Sequences

/-!
What one step does. It changes the topmost frame and the scope that the frame is in, may add scopes, and may start a
frame above; the cursor moves by the distance of the step if it moves at all, and what the frame and the scopes hold
afterwards abides by the law that held before (`Move`).

Main statement: every step is such a move (`execute_leads`).
-/

namespace Rivulet

/-- Where a step leads from a scope. -/
def Step.scopeFrom (tree : Tree) (store : Store) (scope : ScopeId) : Step → ScopeId
  | .enter _ => store.scopes.size
  | step => if step.leaves tree then (store.parent? scope).getD scope else scope

namespace Step

variable {tree : Tree} {step : Step}

theorem not_enter_of_flat (flat : step.rise tree = 0) (id : NodeId) : step ≠ .enter id := by
  rintro rfl
  simp at flat

theorem leaves_of_flat (flat : step.rise tree = 0) : step.leaves tree = false := by
  cases step with
  | finish id =>
    unfold rise at flat
    cases leaves : (finish id).leaves tree with
    | false => rfl
    | true => simp [leaves] at flat
  | _ => rfl

theorem scopeFrom_of_flat (flat : step.rise tree = 0) (store : Store) (scope : ScopeId) :
    step.scopeFrom tree store scope = scope := by
  have stays := leaves_of_flat flat
  cases step with
  | enter id => simp at flat
  | finish id =>
    show (if (finish id).leaves tree then (store.parent? scope).getD scope else scope) = scope
    rw [stays]
    rfl
  | _ => rfl

end Step

namespace Frame

/-- A stack falls into the values taken off its top and the rest. -/
theorem takeTop_spec {count : Nat} {stack taken values below : List Value}
    (took : takeTop count stack taken = some (values, below)) : values.reverse ++ below = taken.reverse ++ stack := by
  induction count generalizing stack taken with
  | zero =>
    cases took
    rfl
  | succ count hypothesis =>
    cases stack with
    | nil => simp [takeTop] at took
    | cons value stack => simpa using hypothesis took

theorem popMany?_spec {frame below : Frame} {count : Nat} {values : List Value}
    (popped : frame.popMany? count = some (values, below)) :
    below = { frame with values := below.values } ∧ frame.values = values.reverse ++ below.values := by
  unfold popMany? at popped
  split at popped
  · simp at popped
  · rename_i taken rest took
    cases popped
    exact ⟨rfl, (takeTop_spec took).symm⟩

theorem pop?_spec {frame below : Frame} {value : Value} (popped : frame.pop? = some (value, below)) :
    below = { frame with values := below.values } ∧ frame.values = value :: below.values := by
  unfold pop? at popped
  split at popped
  · simp at popped
  · rename_i top rest is
    cases popped
    exact ⟨rfl, is⟩

end Frame

namespace Machine

/-! ### Calls -/

/-- A frame that a call started when there were so many frames and scopes. -/
structure Opened (tree : Tree) (natives : Natives) (limits : Limits) (depth count : Nat) (above : Frame) : Prop where
  within : depth < limits.maxDepth
  cursor : above.cursor = 0
  values : above.values = []
  scope : above.scope = count
  sequence : tree.IsSequence natives above.steps

/-- What comes of a call: at most a frame in a new scope. -/
structure Calls (machine : Machine) (law : Law machine.tree machine.natives) (store' : Store)
    (outcome : Except Fault Flow) : Prop where
  abides : store'.Abides law
  evolves : ∀ own, machine.store.Evolves machine.natives.BindNothing own store'
  opens : (∃ fault, outcome = .error fault) ∨
    (∃ exception, outcome = .ok (.throw exception) ∧ exception.isException = true) ∨
    ∃ above, outcome = .ok (.start above) ∧
      Opened machine.tree machine.natives machine.limits machine.depth machine.store.scopes.size above ∧
      machine.store.scopes.size < store'.scopes.size

section

variable {machine : Machine} {law : Law machine.tree machine.natives}

theorem calls_fault (abides : machine.store.Abides law) (fault : Fault) :
    machine.Calls law machine.store (.error fault) :=
  ⟨abides, fun own => .refl own _, .inl ⟨fault, rfl⟩⟩

theorem calls_throw (abides : machine.store.Abides law) {thrown : Value} (exception : thrown.isException = true) :
    machine.Calls law machine.store (.ok (.throw thrown)) :=
  ⟨abides, fun own => .refl own _, .inr (.inl ⟨thrown, rfl, exception⟩)⟩

theorem calls_frame (abides : machine.store.Abides law) {outer : ScopeId} {bindings : List (String × Value)}
    (inside : law.Inside machine.store.scopes.size outer)
    (admits : ∀ binding ∈ bindings, law.Admits machine.store.scopes.size binding.2)
    (within : machine.depth < machine.limits.maxDepth) (kind : FrameKind) (origin : NodeId) {steps : Array Step}
    (sequence : machine.tree.IsSequence machine.natives steps) :
    machine.Calls law (machine.store.add ⟨bindings, some outer⟩).2
      (.ok (.start (.start kind origin steps machine.store.scopes.size))) where
  abides := abides.nest admits inside
  evolves own := Store.evolves_add own _ _ _
  opens := .inr (.inr ⟨_, rfl, ⟨within, rfl, rfl, rfl, sequence⟩, by simp⟩)

/-- A call of a function starts a frame at most, in a scope inside the one that the function captured. -/
theorem startCall_calls (abides : machine.store.Abides law)
    (root : law.base ≤ machine.root ∧ machine.root < machine.store.scopes.size) {function : Function}
    (allowed : law.allows machine.store.scopes.size function) {arguments : List Value}
    (admits : ∀ argument ∈ arguments, law.Admits machine.store.scopes.size argument) (origin : NodeId) :
    ∃ store' outcome, machine.startCall function arguments origin = ({ machine with store := store' }, outcome) ∧
      machine.Calls law store' outcome := by
  have outermost : law.Inside machine.store.scopes.size machine.root := ⟨root.1, fun _ => root.2⟩
  unfold startCall
  split
  · exact ⟨_, _, rfl, calls_throw abides rfl⟩
  · rename_i shallow
    have within : machine.depth < machine.limits.maxDepth := Nat.lt_of_not_le shallow
    split
    · rename_i definition called
      rw [startDefinition_eq]
      split
      · exact ⟨_, _, rfl, calls_fault abides _⟩
      · rename_i kind inputs defined
        split
        · rename_i failed
          exact ⟨_, _, rfl, calls_throw abides (Value.isException_of_bindInputs failed)⟩
        · rename_i bound is
          have captured : law.Inside machine.store.scopes.size (function.context.getD machine.root) := by
            cases context : function.context with
            | none => exact outermost
            | some scope => exact law.context allowed context
          have bindings := @Value.every_callBindings _ machine.tree _ (Law.admits_function allowed) inputs _
            (Value.every_bindInputs (law.plain _) admits (by simp) is)
          exact ⟨_, _, rfl, calls_frame abides captured bindings within _ _ (isSequence_entry machine.tree _ _)⟩
    · rename_i index called
      unfold startNative
      split
      · exact ⟨_, _, rfl, calls_fault abides _⟩
      · rename_i native known
        split
        · exact ⟨_, _, rfl, calls_throw abides rfl⟩
        · split
          · exact ⟨_, _, rfl, calls_throw abides rfl⟩
          · have bindings := Value.every_inputs native.inputs admits
            exact ⟨_, _, rfl, calls_frame abides outermost bindings within _ _ (isSequence_native _ known)⟩

end

/-! ### Moves -/

/-- What may come of a step: a value that a law admits, a frame if the step may start one, or an end. -/
def Yields {tree : Tree} {natives : Natives} (law : Law tree natives) (limits : Limits) (step : Step)
    (depth count count' : Nat) : Except Fault Flow → Prop
  | .ok (.push value) => law.Admits count' value
  | .ok (.start above) => step.opens = true ∧ Opened tree natives limits depth count above ∧ count < count'
  | .ok (.throw exception) => exception.isException = true
  | _ => True

/-- How a step leads on from some scopes and a frame. -/
structure Move {tree : Tree} {natives : Natives} (law : Law tree natives) (limits : Limits) (step : Step) (depth : Nat)
    (store : Store) (frame : Frame) (store' : Store) (frame' : Frame) (outcome : Except Fault Flow) : Prop where
  steps : frame'.steps = frame.steps
  cursor : frame'.cursor = frame.cursor ∨ ∃ distance, step.distance? = some distance ∧
    0 ≤ frame.cursor + distance ∧ frame.cursor + distance < frame.steps.size ∧
    frame'.cursor = (frame.cursor + distance).toNat
  /-- A frame that starts another one has not moved. -/
  stays : ∀ above, outcome = .ok (.start above) → frame'.cursor = frame.cursor
  /-- A fault leaves the frame at its place and in its scope. -/
  faulted : ∀ fault, outcome = .error fault → frame'.cursor = frame.cursor ∧ step.rise tree = 0
  scope : frame'.scope = step.scopeFrom tree store frame.scope
  entered : ∀ id, step = .enter id → store' = (store.child frame.scope).2
  inside : law.Inside store'.scopes.size frame'.scope
  values : ∀ value ∈ frame'.values, law.Admits store'.scopes.size value
  evolves : store.Evolves natives.BindNothing frame.scope store'
  abides : store'.Abides law
  yields : Yields law limits step depth store.scopes.size store'.scopes.size outcome

/-- An effect that is a move of the topmost frame. -/
def Leads (machine : Machine) (law : Law machine.tree machine.natives) (step : Step) (store : Store) (frame : Frame)
    (rest : List Frame) (taken : Nat) (effect : Effect) : Prop :=
  ∃ store' frame' outcome, effect = (machine.inState store' (frame' :: rest) taken, outcome) ∧
    Move law machine.limits step (rest.length + 1) store frame store' frame' outcome

/-- What holds when a step starts. -/
structure Ready (machine : Machine) (law : Law machine.tree machine.natives) (store : Store) (frame : Frame) :
    Prop where
  root : law.base ≤ machine.root ∧ machine.root < store.scopes.size
  borrowed : ∀ borrow ∈ machine.borrowed, law.Admits store.scopes.size borrow.2
  abides : store.Abides law
  scope : law.Inside store.scopes.size frame.scope
  values : ∀ value ∈ frame.values, law.Admits store.scopes.size value

variable {machine : Machine} {law : Law machine.tree machine.natives} {step : Step} {store store' : Store}
  {frame : Frame} {rest : List Frame} {taken : Nat} {values : List Value} {outcome : Except Fault Flow}

section

variable (ready : machine.Ready law store frame)

include ready

theorem Ready.fresh : law.base ≤ store.scopes.size :=
  Nat.le_of_lt (Nat.lt_of_le_of_lt ready.root.1 ready.root.2)

/-- What a scope of the frame binds, or none. -/
theorem Ready.admits_local (name : String) :
    law.Admits store.scopes.size ((store.local? frame.scope name).getD .none) :=
  ready.abides.admits_local ready.scope name

end

section

variable (ready : machine.Ready law store frame) (flat : step.rise machine.tree = 0)

include ready flat

/-- A step that stays in its scope and at its place. -/
theorem leads (evolves : store.Evolves machine.natives.BindNothing frame.scope store') (abides : store'.Abides law)
    (admits : ∀ value ∈ values, law.Admits store'.scopes.size value)
    (yields : Yields law machine.limits step (rest.length + 1) store.scopes.size store'.scopes.size outcome) :
    machine.Leads law step store frame rest taken
      (machine.inState store' ({ frame with values } :: rest) taken, outcome) :=
  ⟨_, _, _, rfl,
    { steps := rfl
      cursor := .inl rfl
      stays := fun _ _ => rfl
      faulted := fun _ _ => ⟨rfl, flat⟩
      scope := (Step.scopeFrom_of_flat flat store frame.scope).symm
      entered := fun id is => absurd is (Step.not_enter_of_flat flat id)
      inside := ready.scope.later evolves.size
      values := admits
      evolves, abides, yields }⟩

/-- A step that only changes the values of its frame. -/
theorem leads_here (admits : ∀ value ∈ values, law.Admits store.scopes.size value)
    (yields : Yields law machine.limits step (rest.length + 1) store.scopes.size store.scopes.size outcome) :
    machine.Leads law step store frame rest taken
      (machine.inState store ({ frame with values } :: rest) taken, outcome) :=
  leads ready flat (.refl _ _) ready.abides admits yields

theorem leads_fail (failure : Failure) (node : NodeId) :
    machine.Leads law step store frame rest taken ((machine.inState store (frame :: rest) taken).fail failure node) :=
  leads_here ready flat ready.values rfl

theorem leads_fault (fault : Fault) :
    machine.Leads law step store frame rest taken (machine.inState store (frame :: rest) taken, .error fault) :=
  leads_here ready flat ready.values trivial

theorem leads_proceed :
    machine.Leads law step store frame rest taken ((machine.inState store (frame :: rest) taken).flow .proceed) :=
  leads_here ready flat ready.values trivial

theorem leads_push {value : Value} (admits : law.Admits store.scopes.size value) :
    machine.Leads law step store frame rest taken
      ((machine.inState store (frame :: rest) taken).flow (.push value)) :=
  leads_here ready flat ready.values admits

/-- A step that jumps within the sequence of its frame, or cannot. -/
theorem leads_jumpTop {distance : Int} (jumps : step.distance? = some distance)
    (evolves : store.Evolves machine.natives.BindNothing frame.scope store') (abides : store'.Abides law)
    (admits : ∀ value ∈ values, law.Admits store'.scopes.size value) :
    machine.Leads law step store frame rest taken
      ((machine.inState store' (frame :: rest) taken).jumpTop { frame with values } distance) := by
  unfold jumpTop Frame.jump
  dsimp only
  by_cases within : 0 ≤ frame.cursor + distance ∧ frame.cursor + distance < frame.steps.size
  · rw [if_pos (by simpa using within)]
    exact ⟨_, _, _, rfl,
      { steps := rfl
        cursor := .inr ⟨distance, jumps, within.1, within.2, rfl⟩
        stays := fun _ is => by simp at is
        faulted := fun _ is => by simp at is
        scope := (Step.scopeFrom_of_flat flat store frame.scope).symm
        entered := fun id is => absurd is (Step.not_enter_of_flat flat id)
        inside := ready.scope.later evolves.size
        values := admits
        evolves, abides
        yields := trivial }⟩
  · rw [if_neg (by simpa using within)]
    exact leads ready flat evolves abides admits trivial

/-- A step that binds a name in its scope. -/
theorem leads_bindName (evolves : store.Evolves machine.natives.BindNothing frame.scope store')
    (abides : store'.Abides law)
    (name : String) {value : Value} (admits : law.Admits store'.scopes.size value) (node : NodeId) {flow : Flow}
    (yields : Yields law machine.limits step (rest.length + 1) store.scopes.size store'.scopes.size (.ok flow)) :
    machine.Leads law step store frame rest taken
      ((machine.inState store' (frame :: rest) taken).bindName frame.scope name value node flow) := by
  have earlier (value : Value) (among : value ∈ frame.values) : law.Admits store'.scopes.size value :=
    (ready.values value among).later evolves.size
  unfold bindName
  split
  · exact leads ready flat evolves abides earlier rfl
  · refine leads ready flat (evolves.trans (Store.evolves_bindNew store' frame.scope name value))
      (abides.bindNew frame.scope name admits) ?_ ?_
    · simpa using earlier
    · simpa using yields

/-- A step that takes some values off the stack. -/
theorem leads_collect (count : Nat) (node : NodeId) {make : List Value → Value}
    (admits : ∀ values, (∀ value ∈ values, law.Admits store.scopes.size value) →
      law.Admits store.scopes.size (make values)) :
    machine.Leads law step store frame rest taken
      ((machine.inState store (frame :: rest) taken).collect frame count node make) := by
  unfold collect
  split
  · exact leads_fail ready flat _ _
  · rename_i taken' below popped
    obtain ⟨same, stack⟩ := Frame.popMany?_spec popped
    have each (value : Value) (among : value ∈ taken' ∨ value ∈ below.values) : law.Admits store.scopes.size value :=
      ready.values value (by simpa [stack] using among)
    rw [same]
    exact leads_here ready flat (fun value among => each value (.inr among))
      (admits taken' fun value among => each value (.inl among))

/-- A step that takes one value off the stack. -/
theorem leads_consume (node : NodeId) {next : Machine → Value → Effect}
    (each : ∀ value values, law.Admits store.scopes.size value →
      (∀ value ∈ values, law.Admits store.scopes.size value) →
      machine.Leads law step store frame rest taken
        (next (machine.inState store ({ frame with values } :: rest) taken) value)) :
    machine.Leads law step store frame rest taken
      ((machine.inState store (frame :: rest) taken).consume frame node next) := by
  unfold consume
  split
  · exact leads_fail ready flat _ _
  · rename_i value below popped
    obtain ⟨same, stack⟩ := Frame.pop?_spec popped
    rw [same]
    exact each value _ (ready.values value (by simp [stack]))
      fun value among => ready.values value (by simp [stack, among])

end

/-! ### Steps -/

section

variable (ready : machine.Ready law store frame)

include ready

theorem leads_startCall (flat : step.rise machine.tree = 0) (opens : step.opens = true) {function : Function}
    (allowed : law.allows store.scopes.size function) {arguments : List Value}
    (admits : ∀ argument ∈ arguments, law.Admits store.scopes.size argument)
    (admits' : ∀ value ∈ values, law.Admits store.scopes.size value) (origin : NodeId) :
    machine.Leads law step store frame rest taken
      ((machine.inState store ({ frame with values } :: rest) taken).startCall function arguments origin) := by
  obtain ⟨store', outcome, started, calls⟩ := @startCall_calls
    (machine.inState store ({ frame with values } :: rest) taken) law ready.abides ready.root _ allowed _ admits origin
  rw [started]
  have evolves := calls.evolves frame.scope
  refine leads ready flat evolves calls.abides (fun value among => (admits' value among).later evolves.size) ?_
  rcases calls.opens with ⟨fault, rfl⟩ | ⟨thrown, rfl, exception⟩ | ⟨above, rfl, opened, grows⟩
  · trivial
  · exact exception
  · exact ⟨opens, opened, grows⟩

theorem leads_yield (flat : step.rise machine.tree = 0) (admits : ∀ value ∈ values, law.Admits store.scopes.size value)
    {result : Except Failure Value} (node : NodeId)
    (made : ∀ value, result = .ok value → law.Admits store.scopes.size value) :
    machine.Leads law step store frame rest taken
      ((machine.inState store ({ frame with values } :: rest) taken).yield result node) := by
  cases result with
  | ok value => exact leads_here ready flat admits (made value rfl)
  | error failure => exact leads_here ready flat admits rfl

theorem leads_finishBinary (flat : step.rise machine.tree = 0) (node : NodeId) (op : BinaryOp) :
    machine.Leads law step store frame rest taken
      ((machine.inState store (frame :: rest) taken).finishBinary frame node op) := by
  unfold finishBinary
  split
  · refine leads_consume ready flat node fun value values _ admits => ?_
    split
    · exact leads_here ready flat admits (Law.admits_boolean _)
    · exact leads_here ready flat admits rfl
  · split
    · rename_i left right below popped
      obtain ⟨same, stack⟩ := Frame.popMany?_spec popped
      have each (value : Value) (among : value ∈ [right, left] ∨ value ∈ below.values) :
          law.Admits store.scopes.size value := ready.values value (by simpa [stack, or_assoc] using among)
      rw [same]
      refine leads_yield ready flat (fun value among => each value (.inr among)) node fun value made => ?_
      exact Value.every_binary (law.plain _) (each left (by simp)) (each right (by simp)) made
    · exact leads_fail ready flat _ _

theorem leads_finishProperty (flat : step.rise machine.tree = 0) (node : NodeId) (name : String) :
    machine.Leads law step store frame rest taken
      ((machine.inState store (frame :: rest) taken).finishProperty frame node name) := by
  refine leads_consume ready flat node fun value values owner admits => ?_
  split
  · split
    · rename_i found
      exact leads_here ready flat admits (Value.every_field owner found)
    · exact leads_here ready flat admits rfl
  · exact leads_here ready flat admits rfl

theorem leads_finishBorrow (flat : step.rise machine.tree = 0) (node : NodeId) (source : String) :
    machine.Leads law step store frame rest taken
      ((machine.inState store (frame :: rest) taken).finishBorrow frame node source) := by
  unfold finishBorrow
  split
  · exact leads_fail ready flat _ _
  · rename_i value found
    have admits : law.Admits store.scopes.size value := ready.borrowed _ (mem_of_lookup found)
    exact leads_bindName ready flat (.refl _ _) ready.abides source admits node admits

theorem leads_define (flat : step.rise machine.tree = 0) {node : NodeId}
    (defined : (definitionOf? machine.tree node).isSome) (name : String) :
    machine.Leads law step store frame rest taken
      ((machine.inState store (frame :: rest) taken).define frame node name) := by
  have evolves : store.Evolves machine.natives.BindNothing frame.scope (store.capture frame.scope).2 :=
    Store.evolves_add _ _ _ _
  have abides : (store.capture frame.scope).2.Abides law := ready.abides.capture ready.scope
  have closure : law.Admits (store.capture frame.scope).2.scopes.size
      (.function ⟨.definition node, some store.scopes.size, name⟩) := by
    refine Law.admits_function (law.closure name defined ready.fresh ?_)
    rw [Store.capture, Store.size_add]
    exact Nat.lt_succ_self _
  unfold define
  dsimp only
  split
  · exact leads ready flat evolves abides (fun value among => (ready.values value among).later evolves.size) closure
  · exact leads_bindName ready flat evolves abides name closure node closure

/-- A block leaves its scope if it entered one. -/
theorem leads_finishBlock {node : NodeId} {statements : ChildList}
    (is : machine.tree.form? node = some (.block statements)) :
    machine.Leads law (.finish node) store frame rest taken
      ((machine.inState store (frame :: rest) taken).finishBlock frame node statements) := by
  obtain ⟨values, admits, popped⟩ : ∃ values, (∀ value ∈ values, law.Admits store.scopes.size value) ∧
      ((frame.popMany? (machine.tree.list statements).length).map Prod.snd).getD frame = { frame with values } := by
    cases popped : frame.popMany? (machine.tree.list statements).length with
    | none => exact ⟨_, ready.values, rfl⟩
    | some both =>
      obtain ⟨same, stack⟩ := Frame.popMany?_spec popped
      exact ⟨_, fun value among => ready.values value (by simp [stack, among]), same⟩
  have outside : law.Inside store.scopes.size ((store.parent? frame.scope).getD frame.scope) := by
    cases around : store.parent? frame.scope with
    | none => exact ready.scope
    | some outer => exact ready.abides.parent? ready.scope around
  have leaves : (Step.finish node).leaves machine.tree = machine.tree.declaresNames (machine.tree.list statements) := by
    simp [Step.leaves, is]
  have moved : ∃ scope, scope = (Step.finish node).scopeFrom machine.tree store frame.scope ∧
      law.Inside store.scopes.size scope ∧
      (if machine.tree.declaresNames (machine.tree.list statements) then
        (machine.inState store (frame :: rest) taken).exitScope { frame with values }
      else { frame with values }) = { frame with scope, values } := by
    by_cases declares : machine.tree.declaresNames (machine.tree.list statements) = true
    · refine ⟨_, rfl, ?_, ?_⟩
      · simpa [Step.scopeFrom, leaves, declares] using outside
      · simp only [declares, if_true, exitScope, inState_store, Step.scopeFrom, leaves]
        cases store.parent? frame.scope <;> rfl
    · refine ⟨_, rfl, ?_, ?_⟩
      · simpa [Step.scopeFrom, leaves, declares] using ready.scope
      · simp [Step.scopeFrom, leaves, declares]
  obtain ⟨scope, leads, inside, moved⟩ := moved
  have move {flow : Flow}
      (yields :
        Yields law machine.limits (.finish node) (rest.length + 1) store.scopes.size store.scopes.size (.ok flow)) :
      machine.Leads law (.finish node) store frame rest taken
        (machine.inState store ({ frame with scope, values } :: rest) taken, .ok flow) :=
    ⟨_, _, _, rfl,
      { steps := rfl
        cursor := .inl rfl
        stays := fun _ _ => rfl
        faulted := by simp
        scope := leads
        entered := by simp
        inside
        values := admits
        evolves := .refl _ _
        abides := ready.abides
        yields }⟩
  unfold finishBlock
  simp only [inState_tree, popped, moved, inState_setTop]
  split
  · rename_i last among
    refine move ?_
    obtain ⟨both, taken, is⟩ := Option.bind_eq_some_iff.mp among
    obtain ⟨-, stack⟩ := Frame.popMany?_spec taken
    exact ready.values last (by simp [stack, List.mem_of_getLast? is])
  · exact move rfl

/-- A node is completed in the scope where it is evaluated, and a block in the scope around it. -/
theorem leads_finish (node : NodeId) :
    machine.Leads law (.finish node) store frame rest taken
      ((machine.inState store (frame :: rest) taken).finish frame node) := by
  unfold finish
  simp only [inState_tree, inState_store]
  cases is : machine.tree.form? node with
  | none => exact leads_fail ready (by simp [Step.rise, Step.leaves, is]) _ _
  | some form =>
    have flat (plain : ∀ statements, form ≠ .block statements) : (Step.finish node).rise machine.tree = 0 :=
      rise_finish is plain
    have checked (flat : (Step.finish node).rise machine.tree = 0) :
        machine.Leads law (.finish node) store frame rest taken
          (if frame.values.isEmpty then (machine.inState store (frame :: rest) taken).fail .expectedValue node
          else (machine.inState store (frame :: rest) taken).flow .proceed) := by
      split
      · exact leads_fail ready flat _ _
      · exact leads_proceed ready flat
    cases form with
    | block statements => exact leads_finishBlock ready is
    | program _ => exact checked (flat (by simp))
    | conditional _ _ _ => exact checked (flat (by simp))
    | call _ _ => exact checked (flat (by simp))
    | number literal measure =>
      dsimp only
      split
      · exact leads_push ready (flat (by simp)) (Law.admits_number _)
      · exact leads_fail ready (flat (by simp)) _ _
    | boolean value => exact leads_push ready (flat (by simp)) (Law.admits_boolean _)
    | text value => exact leads_push ready (flat (by simp)) (Law.admits_text _)
    | none => exact leads_push ready (flat (by simp)) Law.admits_none
    | sequence items =>
      exact leads_collect ready (flat (by simp)) _ node fun values each => Value.every_sequence (law.plain _) each
    | set items =>
    exact leads_collect ready (flat (by simp)) _ node fun values each => Value.every_setOf (law.plain _) each
    | mapping entries =>
      exact leads_collect ready (flat (by simp)) _ node fun values each =>
        Value.every_mappingOf (law.plain _) (Value.every_entriesOf each)
    | reference name =>
      dsimp only
      split
      · rename_i value found
        exact leads_push ready (flat (by simp)) (ready.abides.holds.lookup ready.scope.1 found)
      · exact leads_fail ready (flat (by simp)) _ _
    | property _ name => exact leads_finishProperty ready (flat (by simp)) node name
    | binary op _ _ => exact leads_finishBinary ready (flat (by simp)) node op
    | unary op _ =>
      refine leads_consume ready (flat (by simp)) node fun operand values _ admits => ?_
      exact leads_yield ready (flat (by simp)) admits node fun value made => Value.every_unary (law.plain _) made
    | function name inputs body declared =>
      exact leads_define ready (flat (by simp)) (by simp [definitionOf?, is]) name
    | record name inputs => exact leads_define ready (flat (by simp)) (by simp [definitionOf?, is]) name
    | changed stream => exact leads_push ready (flat (by simp)) (Law.admits_boolean _)
    | borrow source => exact leads_finishBorrow ready (flat (by simp)) node source
    | placeholder => exact leads_fail ready (flat (by simp)) _ _
    | unparsable _ => exact leads_fail ready (flat (by simp)) _ _
    | bind _ _ _ _ => exact leads_fault ready (flat (by simp)) _
    | pair _ _ => exact leads_fault ready (flat (by simp)) _

theorem leads_bindTop (node : NodeId) :
    machine.Leads law (.bind node) store frame rest taken
      ((machine.inState store (frame :: rest) taken).bindTop frame node) := by
  unfold bindTop
  split
  · rename_i name bound declared variadic is
    split
    · exact leads_fail ready rfl _ _
    · rename_i value top
      have admits : law.Admits store.scopes.size value := ready.values value (List.mem_of_mem_head? top)
      refine leads_bindName ready rfl (.refl _ _) ready.abides name ?_ node trivial
      split
      · split
        · exact Law.admits_function (law.renamed name admits.allows)
        · exact admits
      · exact admits
  · exact leads_fault ready rfl _

theorem leads_jumpUnless (node : NodeId) (distance : Int) :
    machine.Leads law (.jumpUnless node distance) store frame rest taken
      ((machine.inState store (frame :: rest) taken).jumpUnless frame node distance) := by
  unfold jumpUnless
  split
  · exact leads_fail ready rfl _ _
  · rename_i below popped
    obtain ⟨same, stack⟩ := Frame.pop?_spec popped
    rw [same]
    exact leads_here ready rfl (fun value among => ready.values value (by simp [stack, among])) trivial
  · rename_i below popped
    obtain ⟨same, stack⟩ := Frame.pop?_spec popped
    rw [same]
    exact leads_jumpTop ready rfl rfl (.refl _ _) ready.abides
      fun value among => ready.values value (by simp [stack, among])
  · exact leads_fail ready rfl _ _

theorem leads_branch (node : NodeId) (whenValue : Bool) (distance : Int) :
    machine.Leads law (.branch node whenValue distance) store frame rest taken
      ((machine.inState store (frame :: rest) taken).branch frame node whenValue distance) := by
  unfold branch
  split
  · exact leads_fail ready rfl _ _
  · rename_i decided below popped
    obtain ⟨same, stack⟩ := Frame.pop?_spec popped
    split
    · exact leads_jumpTop ready rfl rfl (.refl _ _) ready.abides ready.values
    · rw [same]
      exact leads_here ready rfl (fun value among => ready.values value (by simp [stack, among])) trivial
  · exact leads_fail ready rfl _ _

theorem leads_skipIfBound (input : NodeId) (distance : Int) :
    machine.Leads law (.skipIfBound input distance) store frame rest taken
      ((machine.inState store (frame :: rest) taken).skipIfBound frame input distance) := by
  unfold skipIfBound
  split
  · split
    · exact leads_jumpTop ready rfl rfl (.refl _ _) ready.abides ready.values
    · exact leads_proceed ready rfl
  · exact leads_fault ready rfl _

theorem leads_callTop (node : NodeId) (arity : Nat) :
    machine.Leads law (.call node arity) store frame rest taken
      ((machine.inState store (frame :: rest) taken).callTop frame node arity) := by
  unfold callTop
  split
  · exact leads_fail ready rfl _ _
  · rename_i arguments below popped
    obtain ⟨same, stack⟩ := Frame.popMany?_spec popped
    split
    · exact leads_fail ready rfl _ _
    · rename_i function below' popped'
      obtain ⟨same', stack'⟩ := Frame.pop?_spec popped'
      have each (value : Value) (among : value ∈ arguments ∨ value = .function function ∨ value ∈ below'.values) :
          law.Admits store.scopes.size value := ready.values value (by simpa [stack, stack'] using among)
      rw [same', same]
      exact leads_startCall ready rfl rfl (each (.function function) (by simp)).allows
        (fun value among => each value (.inl among)) (fun value among => each value (.inr (.inr among))) node
    · exact leads_fail ready rfl _ _

theorem leads_instantiate (definition : NodeId) :
    machine.Leads law (.instantiate definition) store frame rest taken
      ((machine.inState store (frame :: rest) taken).instantiate frame definition) := by
  unfold instantiate
  split
  · refine leads_push ready rfl (Value.every_record (law.plain _) ?_)
    intro field among
    obtain ⟨name, -, rfl⟩ := List.mem_map.mp among
    exact ready.admits_local name
  · exact leads_fault ready rfl _

theorem leads_applyNative (index : Nat) :
    machine.Leads law (.apply index) store frame rest taken
      ((machine.inState store (frame :: rest) taken).applyNative frame index) := by
  unfold applyNative
  split
  · rename_i name inputs signature run known
    let values := inputs.map fun name => (store.local? frame.scope name).getD .none
    have each : ∀ input ∈ values, law.Admits store.scopes.size input := by
      intro input among
      obtain ⟨name, -, rfl⟩ := List.mem_map.mp among
      exact ready.admits_local name
    obtain ⟨returned, bound⟩ := @law.applied _ _ _ _ ⟨frame.origin, values⟩ frame.scope store known rfl each
    have quiet (calm : machine.natives.BindNothing) : (run ⟨frame.origin, values⟩ frame.scope store).2 = [] :=
      calm _ (List.mem_of_getElem? known) _ rfl _ _ _
    refine leads ready rfl (Store.evolves_bindFor store frame.scope quiet) (ready.abides.bindFor frame.scope bound)
      ?_ ?_
    · simpa using ready.values
    · rw [Store.size_bindFor]
      split
      · assumption
      · exact returned
  · exact leads_fault ready rfl _

/-! ### Loops -/

theorem Ready.admits_loopLocal (rest : List Frame) (taken : Nat) (name : String) :
    law.Admits store.scopes.size ((machine.inState store (frame :: rest) taken).loopLocal frame name) :=
  ready.admits_local name

/-- A loop binds its position and its result in the scope of its frame. -/
theorem leads_loopInit (op : HigherOrder) :
    machine.Leads law (.loop op .init) store frame rest taken
      ((machine.inState store (frame :: rest) taken).loopInit frame op) := by
  have evolves (name : String) (value : Value) :=
    @Store.evolves_rebind machine.natives.BindNothing store frame.scope name value
  have indexed := ready.abides.rebind frame.scope Natives.indexName
    (@Law.admits_number _ _ law store.scopes.size (.ofNat 0))
  unfold loopInit
  dsimp only
  split
  · exact leads_fail ready rfl _ _
  · split
    · split
      · have initial : law.Admits (store.rebind frame.scope Natives.indexName (.number (.ofNat 0))).scopes.size
            (((store.rebind frame.scope Natives.indexName (.number (.ofNat 0))).local? frame.scope
              Natives.initialName).getD .none) :=
          indexed.admits_local (by simpa using ready.scope) _
        refine leads ready rfl ((evolves _ _).trans (Store.evolves_rebind _ _ _ _)) (indexed.rebind _ _ initial) ?_
          trivial
        simpa [setLoopLocal] using ready.values
      · exact leads ready rfl (evolves _ _) indexed (by simpa using ready.values) trivial
    · exact leads_fail ready rfl _ _

/-- A loop calls its function, or leaves for its last step. -/
theorem leads_loopNext (op : HigherOrder) :
    machine.Leads law (.loop op .next) store frame rest taken
      ((machine.inState store (frame :: rest) taken).loopNext frame op) := by
  unfold loopNext
  dsimp only
  split
  · exact leads_jumpTop ready rfl rfl (.refl _ _) ready.abides ready.values
  · rename_i element found
    split
    · rename_i function is
      have allowed := ready.admits_loopLocal rest taken Natives.functionName
      rw [is] at allowed
      have collection := ready.admits_loopLocal rest taken Natives.collectionName
      refine leads_startCall ready rfl rfl allowed.allows ?_ ready.values frame.origin
      intro argument among
      rcases List.mem_append.mp among with result | part
      · split at result
        · rw [List.mem_singleton.mp result]
          exact ready.admits_loopLocal _ _ _
        · simp at result
      · refine Value.every_element collection ?_ argument part
        rw [← Value.getElem?_elements] at found
        exact List.mem_of_getElem? found
    · exact leads_fail ready rfl _ _

omit ready in
/-- What a loop keeps is made of what its function produced, and of the element it was called on. -/
theorem keep_spec {op : HigherOrder} {element : Element} {produced : Value} {kept : Frame}
    (property : Value → Prop) (is : keep op element produced frame = .ok kept) (producedToo : property produced)
    (elementToo : ∀ value ∈ elementArguments element, property value)
    (before : ∀ value ∈ frame.values, property value) :
    kept = { frame with values := kept.values } ∧ ∀ value ∈ kept.values, property value := by
  unfold keep at is
  split at is
  · split at is
    · cases is
      exact ⟨rfl, by simpa [Frame.push] using ⟨producedToo, before⟩⟩
    · rename_i key value
      cases is
      have keyToo := elementToo key (by simp [elementArguments])
      exact ⟨rfl, by simpa [Frame.push] using ⟨producedToo, keyToo, before⟩⟩
  · cases is
    cases element with
    | single value =>
      have valueToo := elementToo value (by simp [elementArguments])
      exact ⟨rfl, by simpa [elementArguments, Frame.push] using ⟨valueToo, before⟩⟩
    | entry key value =>
      have keyToo := elementToo key (by simp [elementArguments])
      have valueToo := elementToo value (by simp [elementArguments])
      exact ⟨rfl, by simpa [elementArguments, Frame.push] using ⟨valueToo, keyToo, before⟩⟩
  · cases is
    exact ⟨rfl, before⟩
  · simp at is
  · cases is
    exact ⟨rfl, before⟩

/-- A loop takes in what its function produced and goes back. -/
theorem leads_loopCollect (op : HigherOrder) :
    machine.Leads law (.loop op .collect) store frame rest taken
      ((machine.inState store (frame :: rest) taken).loopCollect frame op) := by
  unfold loopCollect
  dsimp only
  split
  · rename_i produced below element popped found
    obtain ⟨same, stack⟩ := Frame.pop?_spec popped
    have producedToo : law.Admits store.scopes.size produced := ready.values produced (by simp [stack])
    split
    · exact leads_fail ready rfl _ _
    · rename_i kept keeps
      have collection := ready.admits_loopLocal rest taken Natives.collectionName
      have elementToo : ∀ value ∈ elementArguments element, law.Admits store.scopes.size value := by
        refine Value.every_element collection ?_
        rw [← Value.getElem?_elements] at found
        exact List.mem_of_getElem? found
      obtain ⟨same', admits⟩ := keep_spec _ keeps producedToo elementToo
        fun value among => ready.values value (by simp [stack, among])
      rw [same', same]
      split
      · refine leads_jumpTop ready rfl rfl
          ((Store.evolves_rebind store _ _ produced).trans (Store.evolves_rebind _ _ _ _))
          ((ready.abides.rebind _ _ producedToo).rebind _ _ (Law.admits_number _)) ?_
        simpa [setLoopLocal] using admits
      · refine leads_jumpTop ready rfl rfl (Store.evolves_rebind store _ _ _)
          (ready.abides.rebind _ _ (Law.admits_number _)) ?_
        simpa using admits
  · exact leads_fail ready rfl _ _

/-- A loop ends with its result, or with what it kept. -/
theorem leads_loopDone (op : HigherOrder) :
    machine.Leads law (.loop op .done) store frame rest taken
      ((machine.inState store (frame :: rest) taken).loopDone frame op) := by
  unfold loopDone
  split
  · exact leads_push ready rfl (ready.admits_loopLocal _ _ _)
  · refine leads_here ready rfl (by simp) (Value.every_collectLike (law.plain _) _ ?_)
    intro value among
    exact ready.values value (List.mem_reverse.mp among)

/-! ### All steps -/

/-- Every step is a move of the topmost frame. -/
theorem execute_leads (rest : List Frame) (taken : Nat) (step : Step) :
    machine.Leads law step store frame rest taken
      ((machine.inState store (frame :: rest) taken).execute frame step) := by
  cases step with
  | finish node => exact leads_finish ready node
  | enter node =>
    have evolves : store.Evolves machine.natives.BindNothing frame.scope (store.child frame.scope).2 :=
      Store.evolves_add _ _ _ _
    refine ⟨_, _, _, rfl,
      { steps := rfl
        cursor := .inl rfl
        stays := fun _ _ => rfl
        faulted := by simp
        scope := rfl
        entered := fun _ _ => rfl
        inside := ⟨ready.fresh, fun _ => ?_⟩
        values := fun value among => (ready.values value among).later evolves.size
        evolves
        abides := ready.abides.nest (by simp) ready.scope
        yields := trivial }⟩
    simp
  | bind node => exact leads_bindTop ready node
  | jump distance => exact leads_jumpTop ready rfl rfl (.refl _ _) ready.abides ready.values
  | jumpUnless node distance => exact leads_jumpUnless ready node distance
  | branch node whenValue distance => exact leads_branch ready node whenValue distance
  | skipIfBound input distance => exact leads_skipIfBound ready input distance
  | call node arity => exact leads_callTop ready node arity
  | instantiate definition => exact leads_instantiate ready definition
  | expected node => exact leads_fail ready rfl _ _
  | apply index => exact leads_applyNative ready index
  | loop op phase =>
    cases phase with
    | init => exact leads_loopInit ready op
    | next => exact leads_loopNext ready op
    | collect => exact leads_loopCollect ready op
    | done => exact leads_loopDone ready op

end

end Machine

end Rivulet
