import Rivulet.Proofs.Machine.Bystanders
import Rivulet.Proofs.Machine.Course
import Rivulet.Proofs.Meaning.Discipline
import Rivulet.Proofs.Store.Insertion

/-!
Evaluations among other scopes and under other names. A machine whose store has more scopes does the same: its frames,
its values and its result are those of the machine without them, but for the places of the scopes; and so does a machine
whose tree has other names. This holds for every step, as long as scopes lie inside older ones (`execute_machine`).
-/

namespace Rivulet

/-! ### Frames -/

section

variable {M : Type} [Naming M]

/-- A frame whose scope, and those that its values captured, are kept at other places, and whose names are others. -/
def Frame.relocated (relocation : Relocation M) (frame : Frame) : Frame M where
  kind := frame.kind
  origin := frame.origin
  steps := frame.steps
  cursor := frame.cursor
  scope := relocation.place frame.scope
  values := frame.values.map (Value.relocated relocation)

/-- A flow with all scopes at other places, and all names others. -/
def Flow.relocated (relocation : Relocation M) : Flow → Flow M
  | .proceed => .proceed
  | .push value => .push (value.relocated relocation)
  | .start frame => .start (frame.relocated relocation)
  | .throw exception => .throw (exception.relocated relocation)

/-- A stack with all scopes at other places, and all names others. -/
def CallStack.relocated (relocation : Relocation M) (stack : CallStack) : CallStack M :=
  ⟨stack.frames.map (Frame.relocated relocation), stack.depth, by rw [List.length_map, stack.depth_eq]⟩

variable {relocation : Relocation M}

@[simp]
theorem Flow.relocated_proceed : Flow.proceed.relocated relocation = .proceed :=
  rfl

namespace Frame

@[simp]
theorem scope_relocated (frame : Frame) : (frame.relocated relocation).scope = relocation.place frame.scope :=
  rfl

@[simp]
theorem origin_relocated (frame : Frame) : (frame.relocated relocation).origin = frame.origin :=
  rfl

@[simp]
theorem values_relocated (frame : Frame) :
    (frame.relocated relocation).values = frame.values.map (Value.relocated relocation) :=
  rfl

theorem takeTop_relocated (count : Nat) (stack taken : List Value) :
    takeTop count (stack.map (Value.relocated relocation)) (taken.map (Value.relocated relocation)) =
      (takeTop count stack taken).map fun both =>
        (both.1.map (Value.relocated relocation), both.2.map (Value.relocated relocation)) := by
  induction count generalizing stack taken with
  | zero => rfl
  | succ count hypothesis =>
    cases stack with
    | nil => rfl
    | cons value stack => exact hypothesis stack (value :: taken)

theorem popMany?_relocated (frame : Frame) (count : Nat) :
    (frame.relocated relocation).popMany? count =
      (frame.popMany? count).map fun both =>
        (both.1.map (Value.relocated relocation), both.2.relocated relocation) := by
  unfold popMany?
  rw [values_relocated,
    show ([] : List (Value M)) = ([] : List Value).map (Value.relocated relocation) from rfl, takeTop_relocated]
  cases takeTop count frame.values [] <;> rfl

theorem pop?_relocated (frame : Frame) :
    (frame.relocated relocation).pop? =
      frame.pop?.map fun both => (both.1.relocated relocation, both.2.relocated relocation) := by
  unfold pop?
  rw [values_relocated]
  cases frame.values <;> rfl

theorem peek?_relocated (frame : Frame) :
    (frame.relocated relocation).peek? = frame.peek?.map (Value.relocated relocation) := by
  unfold peek?
  rw [values_relocated, List.head?_map]

theorem jump_relocated (frame : Frame) (distance : Int) :
    (frame.relocated relocation).jump distance = (frame.jump distance).map (Frame.relocated relocation) := by
  unfold jump
  dsimp only
  rw [apply_ite (Except.map (Frame.relocated relocation))]
  rfl

theorem foldl_push_relocated (values : List Value) (frame : Frame) :
    (values.map (Value.relocated relocation)).foldl push (frame.relocated relocation) =
      (values.foldl push frame).relocated relocation := by
  induction values generalizing frame with
  | nil => rfl
  | cons value values hypothesis => exact hypothesis (frame.push value)

end Frame

namespace CallStack

theorem pop_relocated (stack : CallStack) : (stack.relocated relocation).pop = stack.pop.relocated relocation := by
  obtain ⟨frames, depth, same⟩ := stack
  cases frames <;> rfl

theorem setTop_relocated (stack : CallStack) (frame : Frame) :
    (stack.relocated relocation).setTop (frame.relocated relocation) = (stack.setTop frame).relocated relocation := by
  obtain ⟨frames, depth, same⟩ := stack
  cases frames <;> rfl

theorem deliverTo_relocated (value : Value) (frames : List Frame) (depth : Nat)
    (same : depth = (frames.map (Frame.relocated relocation)).length) (same' : depth = frames.length) :
    deliverTo (value.relocated relocation) (frames.map (Frame.relocated relocation)) depth same =
      ((deliverTo value frames depth same').1.relocated relocation,
        (deliverTo value frames depth same').2.map (Value.relocated relocation)) := by
  induction frames generalizing depth with
  | nil => rfl
  | cons caller rest hypothesis =>
    simp only [List.map_cons]
    unfold deliverTo
    rw [show (caller.relocated relocation).isExhausted = caller.isExhausted from rfl]
    split
    · exact hypothesis _ _ _
    · rfl

theorem deliver_relocated (stack : CallStack) (value : Value) :
    (stack.relocated relocation).deliver (value.relocated relocation) =
      ((stack.deliver value).1.relocated relocation, (stack.deliver value).2.map (Value.relocated relocation)) :=
  deliverTo_relocated value stack.frames stack.depth _ stack.depth_eq

end CallStack

/-- An event with all scopes at other places, and all names others. -/
def Event.relocated (relocation : Relocation M) : Event → Event M
  | .stepped step depth => .stepped step depth
  | .finished value => .finished (value.relocated relocation)

/-- Inputs with all scopes at other places, and all names others. -/
def Inputs.relocated (relocation : Relocation M) (inputs : Inputs) : Inputs M where
  streams := inputs.streams.map (Value.relocatedBinding relocation)
  borrowed := inputs.borrowed.map (Value.relocatedBinding relocation)
  trigger := inputs.trigger.map relocation.name

/-- What a step came to, with all scopes at other places, and all names others. -/
def Machine.StepOutcome.relocated (relocation : Relocation M) : Machine.StepOutcome → Machine.StepOutcome M
  | .pending => .pending
  | .finished value => .finished (value.relocated relocation)

end

namespace Insertion

variable {M : Type} [DecidableEq M] [Naming M]

/-- A machine with scopes inserted into its store, and with other names. -/
def machine (insertion : Insertion M) (machine : Machine) : Machine M where
  program := .ofTree (machine.tree.renamed insertion.name)
  natives := .standard
  limits := machine.limits
  store := insertion.store machine.store
  root := insertion.place machine.root
  stack := machine.stack.relocated insertion.relocation
  result := machine.result.map (Value.relocated insertion.relocation)
  trigger := machine.trigger.map insertion.name
  borrowed := machine.borrowed.map (Value.relocatedBinding insertion.relocation)
  stepsTaken := machine.stepsTaken
  paused := machine.paused
  observers := machine.observers
  nextObserver := machine.nextObserver
  log := (machine.log.toList.map fun entry => (entry.1, entry.2.relocated insertion.relocation)).toArray

/-- An effect on a machine with scopes inserted. -/
def effect (insertion : Insertion M) (effect : Effect) : Effect M :=
  (insertion.machine effect.1, effect.2.map (Flow.relocated insertion.relocation))

variable {insertion : Insertion M} {machine : Machine}

@[simp]
theorem store_machine (machine : Machine) : (insertion.machine machine).store = insertion.store machine.store :=
  rfl

omit [DecidableEq M] in
theorem place_scope (frame : Frame) : (frame.relocated insertion.relocation).scope = insertion.place frame.scope :=
  rfl

@[simp]
theorem tree_machine (machine : Machine) :
    (insertion.machine machine).tree = machine.tree.renamed insertion.name :=
  rfl

/-! ### Flows -/

theorem setTop_machine (machine : Machine) (frame : Frame) :
    (insertion.machine machine).setTop (frame.relocated insertion.relocation) =
      insertion.machine (machine.setTop frame) := by
  unfold Machine.setTop
  rw [show (insertion.machine machine).stack = machine.stack.relocated insertion.relocation from rfl,
    CallStack.setTop_relocated]
  rfl

theorem mismatch_machine (machine : Machine) (expected : ValueKind) (found : Value) (node : NodeId) :
    (insertion.machine machine).mismatch expected (found.relocated insertion.relocation) node =
      insertion.effect (machine.mismatch expected found node) := by
  unfold Machine.mismatch
  rw [Value.kind_relocated]
  rfl

theorem yield_machine (machine : Machine) (result : Except Failure Value) (node : NodeId) :
    (insertion.machine machine).yield (Value.relocatedResult insertion.relocation result) node =
      insertion.effect (machine.yield result node) := by
  cases result <;> rfl

theorem collect_machine (frame : Frame) (count : Nat) (node : NodeId) {make : List Value → Value}
    {make' : List (Value M) → Value M}
    (same : ∀ values, make' (values.map (Value.relocated insertion.relocation)) =
      (make values).relocated insertion.relocation) :
    (insertion.machine machine).collect (frame.relocated insertion.relocation) count node make' =
      insertion.effect (machine.collect frame count node make) := by
  unfold Machine.collect
  rw [Frame.popMany?_relocated]
  cases frame.popMany? count with
  | none => rfl
  | some both =>
    show ((insertion.machine machine).setTop (both.2.relocated insertion.relocation)).flow _ = _
    rw [setTop_machine, same]
    rfl

theorem consume_machine (frame : Frame) (node : NodeId) {next : Machine → Value → Effect}
    {next' : Machine M → Value M → Effect M}
    (each : ∀ machine value,
      next' (insertion.machine machine) (value.relocated insertion.relocation) =
        insertion.effect (next machine value)) :
    (insertion.machine machine).consume (frame.relocated insertion.relocation) node next' =
      insertion.effect (machine.consume frame node next) := by
  unfold Machine.consume
  rw [Frame.pop?_relocated]
  cases frame.pop? with
  | none => rfl
  | some both =>
    show next' ((insertion.machine machine).setTop (both.2.relocated insertion.relocation)) _ = _
    rw [setTop_machine]
    exact each _ _

theorem jumpTop_machine (machine : Machine) (frame : Frame) (distance : Int) :
    (insertion.machine machine).jumpTop (frame.relocated insertion.relocation) distance =
      insertion.effect (machine.jumpTop frame distance) := by
  unfold Machine.jumpTop
  rw [Frame.jump_relocated]
  cases frame.jump distance with
  | ok moved =>
    show ((insertion.machine machine).setTop (moved.relocated insertion.relocation)).flow _ = _
    rw [setTop_machine]
    rfl
  | error fault =>
    show ((insertion.machine machine).setTop (frame.relocated insertion.relocation), _) = _
    rw [setTop_machine]
    rfl

section

variable (within : insertion.base ≤ machine.store.scopes.size)

include within

theorem bindName_machine (scope : ScopeId) (name : String) (value : Value) (node : NodeId) (flow : Flow) :
    (insertion.machine machine).bindName (insertion.place scope) (insertion.name name)
        (value.relocated insertion.relocation) node (flow.relocated insertion.relocation) =
      insertion.effect (machine.bindName scope name value node flow) := by
  unfold Machine.bindName
  rw [store_machine, bindsLocally_store within, bindNew_store within]
  split
  · rfl
  · rfl

/-! ### Calls -/

theorem startFrame_machine (kind : FrameKind) (origin : NodeId) (steps : Array Step) (outer : ScopeId)
    (bindings : List (String × Value)) :
    (insertion.machine machine).startFrame kind origin steps (insertion.place outer)
        (bindings.map (Value.relocatedBinding insertion.relocation)) =
      insertion.effect (machine.startFrame kind origin steps outer bindings) := by
  have added := add_store within ⟨bindings, some outer⟩
  have store := congrArg Prod.snd added
  have scope := congrArg Prod.fst added
  unfold Machine.startFrame
  rw [store_machine]
  refine Prod.ext ?_ ?_
  · exact congrArg (fun store => { insertion.machine machine with store }) store
  · exact congrArg (fun scope => Except.ok (Flow.start (.start kind origin steps scope))) scope

theorem startDefinition_machine (function : Function) (definition : NodeId) (arguments : List Value) (origin : NodeId) :
    (insertion.machine machine).startDefinition (function.relocated insertion.relocation) definition
        (arguments.map (Value.relocated insertion.relocation)) origin =
      insertion.effect (machine.startDefinition function definition arguments origin) := by
  have context : (function.relocated insertion.relocation).context.getD (insertion.place machine.root) =
      insertion.place (function.context.getD machine.root) := by
    unfold Function.relocated
    cases function.context <;> rfl
  have defined := @Machine.definitionOf?_renamed _ _ insertion.toRenaming machine.tree definition
  have entry := @Tree.entryCode_renamed _ _ insertion.toRenaming _ machine.tree definition
  rw [Machine.startDefinition_eq, Machine.startDefinition_eq, tree_machine, defined, entry]
  cases Machine.definitionOf? machine.tree definition with
  | none => rfl
  | some both =>
    obtain ⟨kind, inputs⟩ := both
    have bound := @Machine.bindInputs_relocated _ _ insertion.relocation _ machine.tree origin inputs arguments []
    have bound : Machine.bindInputs (machine.tree.renamed insertion.name) origin inputs
        (arguments.map (Value.relocated insertion.relocation)) [] = _ := bound
    dsimp only
    rw [bound]
    cases Machine.bindInputs machine.tree origin inputs arguments [] with
    | error exception => rfl
    | ok bound =>
      have bindings := @Machine.callBindings_relocated _ _ insertion.relocation _ machine.tree function inputs bound
      show (insertion.machine machine).startFrame _ _ _
        ((function.relocated insertion.relocation).context.getD (insertion.place machine.root))
        (Machine.callBindings (machine.tree.renamed insertion.relocation.name) _ _ _) = _
      rw [context, bindings]
      exact startFrame_machine within _ _ _ _ _

theorem startNative_machine (standard : machine.natives = .standard) (index : Nat) (arguments : List Value)
    (origin : NodeId) :
    (insertion.machine machine).startNative index (arguments.map (Value.relocated insertion.relocation)) origin =
      insertion.effect (machine.startNative index arguments origin) := by
  have steps := @Natives.steps_standard _ _ insertion.relocation _ (place_injective insertion) index
  unfold Machine.startNative
  rw [standard, show (insertion.machine machine).natives = .standard from rfl, steps]
  rcases @Natives.get?_standard _ _ insertion.relocation _ (place_injective insertion) index with
    ⟨none, none'⟩ | ⟨native, native', is, is', corresponds⟩
  · rw [none, none']
    rfl
  · rw [is, is']
    dsimp only
    rw [corresponds.inputs, List.length_map, List.length_map, List.getElem?_map]
    cases native.inputs[arguments.length]? with
    | some missing => rfl
    | none =>
      simp only [Option.map_none]
      split
      · rfl
      · have zipped : (native.inputs.map insertion.relocation.name).zip
            (arguments.map (Value.relocated insertion.relocation)) =
              (native.inputs.zip arguments).map (Value.relocatedBinding insertion.relocation) := by
          rw [List.zip_map]
          rfl
        have bindings := @Scope.setBindings_relocated _ _ insertion.relocation _ (native.inputs.zip arguments) []
        rw [List.map_nil] at bindings
        rw [zipped, bindings]
        exact startFrame_machine within _ _ _ _ _

theorem startCall_machine (standard : machine.natives = .standard) (function : Function) (arguments : List Value)
    (origin : NodeId) :
    (insertion.machine machine).startCall (function.relocated insertion.relocation)
        (arguments.map (Value.relocated insertion.relocation)) origin =
      insertion.effect (machine.startCall function arguments origin) := by
  unfold Machine.startCall
  rw [show (insertion.machine machine).limits = machine.limits from rfl,
    show (insertion.machine machine).depth = machine.depth from rfl,
    show (function.relocated insertion.relocation).callee = function.callee from rfl]
  split
  · rfl
  · cases function.callee with
    | definition definition => exact startDefinition_machine within function definition arguments origin
    | native index => exact startNative_machine within standard index arguments origin

/-! ### Completing nodes -/

theorem exitScope_machine (frame : Frame) :
    (insertion.machine machine).exitScope (frame.relocated insertion.relocation) =
      (machine.exitScope frame).relocated insertion.relocation := by
  unfold Machine.exitScope
  rw [store_machine, place_scope, parent?_store within]
  cases machine.store.parent? frame.scope <;> rfl

theorem finishBlock_machine (frame : Frame) (node : NodeId) (statements : ChildList) :
    (insertion.machine machine).finishBlock (frame.relocated insertion.relocation) node statements =
      insertion.effect (machine.finishBlock frame node statements) := by
  have declares := @Tree.declaresNames_renamed _ _ insertion.toRenaming _ machine.tree (machine.tree.list statements)
  unfold Machine.finishBlock
  rw [tree_machine, Tree.list_renamed]
  dsimp only
  rw [declares]
  have left (frame : Frame) : (if machine.tree.declaresNames (machine.tree.list statements) then
      (insertion.machine machine).exitScope (frame.relocated insertion.relocation)
        else frame.relocated insertion.relocation) =
        (if machine.tree.declaresNames (machine.tree.list statements) then
          machine.exitScope frame else frame).relocated insertion.relocation := by
    split
    · exact exitScope_machine within frame
    · rfl
  rw [Frame.popMany?_relocated]
  cases frame.popMany? (machine.tree.list statements).length with
  | none =>
    simp only [Option.map_none, Option.getD_none, Option.bind_none]
    rw [left, setTop_machine]
    rfl
  | some both =>
    simp only [Option.map_some, Option.getD_some, Option.bind_some]
    rw [left, setTop_machine, List.getLast?_map]
    cases both.1.getLast? with
    | none => rfl
    | some last => rfl

theorem define_machine (ascends : insertion.Ascends machine.store) (frame : Frame) (node : NodeId) (name : String) :
    (insertion.machine machine).define (frame.relocated insertion.relocation) node (insertion.name name) =
      insertion.effect (machine.define frame node name) := by
  have captured := capture_store within ascends frame.scope
  have later : insertion.base ≤ (machine.store.capture frame.scope).2.scopes.size := by
    rw [Store.capture_eq_add, Store.size_add]
    exact Nat.le_succ_of_le within
  unfold Machine.define
  rw [store_machine, place_scope, captured]
  simp only [insertion.eq_anonymous_iff, Naming.anonymous_string]
  split
  · rfl
  · have bound (closure : Value) := @bindName_machine _ _ _ _
      { machine with store := (machine.store.capture frame.scope).2 } later frame.scope name closure node
      (.push closure)
    exact bound (.function ⟨.definition node, some (machine.store.capture frame.scope).1, name⟩)

theorem finishBorrow_machine (frame : Frame) (node : NodeId) (source : String) :
    (insertion.machine machine).finishBorrow (frame.relocated insertion.relocation) node (insertion.name source) =
      insertion.effect (machine.finishBorrow frame node source) := by
  have found := @lookup_relocated _ _ insertion.relocation _ machine.borrowed source
  unfold Machine.finishBorrow
  rw [show (insertion.machine machine).borrowed.lookup (insertion.name source) = _ from found]
  cases machine.borrowed.lookup source with
  | none => rfl
  | some value => exact bindName_machine within frame.scope source value node (.push value)

omit within

theorem finishProperty_machine (machine : Machine) (frame : Frame) (node : NodeId) (name : String) :
    (insertion.machine machine).finishProperty (frame.relocated insertion.relocation) node (insertion.name name) =
      insertion.effect (machine.finishProperty frame node name) := by
  refine consume_machine frame node fun machine value => ?_
  have other := @mismatch_machine _ _ _ insertion machine .record value node
  cases value with
  | record definition fields =>
    have found := @lookup_relocated _ _ insertion.relocation _ fields name
    rw [Value.relocated_record]
    dsimp only
    unfold Value.field?
    rw [show List.lookup (insertion.name name) _ = _ from found]
    cases fields.lookup name with
    | none => rfl
    | some field => rfl
  | _ => simpa using other

theorem finishBinary_machine (machine : Machine) (frame : Frame) (node : NodeId) (op : BinaryOp) :
    (insertion.machine machine).finishBinary (frame.relocated insertion.relocation) node op =
      insertion.effect (machine.finishBinary frame node op) := by
  unfold Machine.finishBinary
  split
  · refine consume_machine frame node fun machine value => ?_
    have other := @mismatch_machine _ _ _ insertion machine .boolean value node
    cases value with
    | boolean decided =>
      rfl
    | _ => simpa using other
  · rw [Frame.popMany?_relocated]
    match frame.popMany? 2 with
    | some ([left, right], rest) =>
      show ((insertion.machine machine).setTop (rest.relocated insertion.relocation)).yield
        (Operators.binary op (left.relocated insertion.relocation) (right.relocated insertion.relocation)) node = _
      rw [setTop_machine, Value.binary_relocated (place_injective insertion)]
      exact yield_machine _ _ _
    | none | some ([], _) | some ([_], _) | some (_ :: _ :: _ :: _, _) => rfl

theorem triggeredBy_machine (machine : Machine) (stream : NodeId) :
    (insertion.machine machine).triggeredBy stream = machine.triggeredBy stream := by
  unfold Machine.triggeredBy
  rw [tree_machine, Tree.form?_renamed,
    show (insertion.machine machine).trigger = machine.trigger.map insertion.name from rfl]
  cases machine.tree.form? stream with
  | none => rfl
  | some form =>
    cases form with
    | reference name =>
      have same := (Option.map_injective insertion.injective).eq_iff (a := machine.trigger) (b := some name)
      exact Bool.eq_iff_iff.mpr (by simpa [Form.renamed] using same)
    | _ => rfl

/-- Completing a node gives the same among other scopes and under other names, as long as the literal of the node
reads the same. -/
theorem finish_machine (within : insertion.base ≤ machine.store.scopes.size) (ascends : insertion.Ascends machine.store)
    (reads : machine.tree.Reads insertion.name) (frame : Frame) (node : NodeId) :
    (insertion.machine machine).finish (frame.relocated insertion.relocation) node =
      insertion.effect (machine.finish frame node) := by
  have kept : (if (frame.relocated insertion.relocation).values.isEmpty then
      (insertion.machine machine).fail .expectedValue node else (insertion.machine machine).flow .proceed) =
        insertion.effect
          (if frame.values.isEmpty then machine.fail .expectedValue node else machine.flow .proceed) := by
    rw [Frame.values_relocated, List.isEmpty_map]
    split <;> rfl
  unfold Machine.finish
  rw [tree_machine, Tree.form?_renamed]
  cases is : machine.tree.form? node with
  | none => rfl
  | some form =>
    have read (literal : String) (literal? : form.literal? = some literal) :
        Naming.text (insertion.name literal) = literal :=
      reads node form is literal literal?
    cases form with
    | program _ => exact kept
    | conditional _ _ _ => exact kept
    | call _ _ => exact kept
    | block statements => exact finishBlock_machine within _ _ _
    | number literal measure =>
      simp only [Option.map_some, Form.renamed]
      rw [read literal rfl, Naming.text_string]
      cases Quantity.ofText? literal measure <;> rfl
    | text value =>
      simp only [Option.map_some, Form.renamed]
      rw [read value rfl]
      rfl
    | boolean value => rfl
    | none => rfl
    | sequence items =>
      exact collect_machine frame _ node fun values => by rw [Value.relocated_sequence, List.map_toArray]
    | set items => exact collect_machine frame _ node (Value.setOf_relocated (place_injective insertion))
    | mapping entries =>
      exact collect_machine frame _ node fun values => by
        rw [Value.entriesOf_relocated, Value.mappingOf_relocated (place_injective insertion)]
    | reference name =>
      simp only [Option.map_some, Form.renamed]
      rw [store_machine, place_scope, lookup_store within ascends]
      cases machine.store.lookup frame.scope name <;> rfl
    | property owner name => exact finishProperty_machine _ _ _ _
    | binary op left right => exact finishBinary_machine _ _ _ _
    | unary op operand =>
      refine consume_machine frame node fun machine operand => ?_
      rw [Value.unary_relocated]
      exact yield_machine _ _ _
    | function name inputs body output => exact define_machine within ascends _ _ _
    | record name inputs => exact define_machine within ascends _ _ _
    | changed stream =>
      simp only [Option.map_some, Form.renamed]
      rw [triggeredBy_machine]
      rfl
    | borrow source => exact finishBorrow_machine within _ _ _
    | placeholder => rfl
    | unparsable text => rfl
    | bind _ _ _ _ | pair _ _ => rfl

end

/-! ### Other steps -/

section

variable (within : insertion.base ≤ machine.store.scopes.size) (frame : Frame)

include within

theorem bindTop_machine (node : NodeId) :
    (insertion.machine machine).bindTop (frame.relocated insertion.relocation) node =
      insertion.effect (machine.bindTop frame node) := by
  unfold Machine.bindTop
  rw [tree_machine, Tree.form?_renamed, Frame.peek?_relocated]
  cases machine.tree.form? node with
  | none => rfl
  | some form =>
    cases form with
    | bind name _ declared variadic =>
      cases frame.peek? with
      | none => rfl
      | some value =>
        have kept := bindName_machine within frame.scope name value node .proceed
        cases value with
        | function function =>
          have named := bindName_machine within frame.scope name (.function { function with name }) node .proceed
          simp only [Option.map_some, Form.renamed, Value.relocated_function] at kept named ⊢
          rw [show (function.relocated insertion.relocation).name = insertion.name function.name from rfl]
          simp only [insertion.eq_anonymous_iff, Naming.anonymous_string]
          split
          · exact named
          · exact kept
        | _ => simpa [Form.renamed] using kept
    | _ => rfl

theorem skipIfBound_machine (input : NodeId) (distance : Int) :
    (insertion.machine machine).skipIfBound (frame.relocated insertion.relocation) input distance =
      insertion.effect (machine.skipIfBound frame input distance) := by
  unfold Machine.skipIfBound
  rw [tree_machine, Tree.form?_renamed, store_machine, place_scope]
  cases machine.tree.form? input with
  | none => rfl
  | some form =>
    cases form with
    | bind name value declared variadic =>
      simp only [Option.map_some, Form.renamed]
      rw [bindsLocally_store within]
      split
      · exact jumpTop_machine _ _ _
      · rfl
    | _ => rfl

/-- What a scope of the frame binds, or none. -/
theorem localValue_store (name : String) :
    ((insertion.store machine.store).local? (insertion.place frame.scope) (insertion.name name)).getD .none =
      ((machine.store.local? frame.scope name).getD .none).relocated insertion.relocation := by
  rw [local?_store within]
  cases machine.store.local? frame.scope name with
  | none => exact Value.relocated_none.symm
  | some value => rfl

theorem callTop_machine (standard : machine.natives = .standard) (node : NodeId) (arity : Nat) :
    (insertion.machine machine).callTop (frame.relocated insertion.relocation) node arity =
      insertion.effect (machine.callTop frame node arity) := by
  unfold Machine.callTop
  rw [Frame.popMany?_relocated]
  cases frame.popMany? arity with
  | none => rfl
  | some both =>
    obtain ⟨arguments, rest⟩ := both
    simp only [Option.map_some]
    rw [Frame.pop?_relocated]
    cases rest.pop? with
    | none => rfl
    | some both =>
      obtain ⟨callee, rest⟩ := both
      have other := @mismatch_machine _ _ _ insertion machine .function callee node
      simp only [Option.map_some]
      cases callee with
      | function function =>
        simp only [Value.relocated_function]
        rw [setTop_machine]
        exact @startCall_machine _ _ _ _ (machine.setTop rest) within standard _ _ _
      | _ => simpa using other

theorem instantiate_machine (definition : NodeId) :
    (insertion.machine machine).instantiate (frame.relocated insertion.relocation) definition =
      insertion.effect (machine.instantiate frame definition) := by
  have declared (input : NodeId) : ((machine.tree.renamed insertion.name).form? input).bind Form.declaredName? =
      ((machine.tree.form? input).bind Form.declaredName?).map insertion.name := by
    rw [Tree.form?_renamed]
    cases machine.tree.form? input with
    | none => rfl
    | some form => exact Tree.declaredName?_renamed insertion.toRenaming form
  unfold Machine.instantiate
  rw [tree_machine, Tree.form?_renamed, store_machine, place_scope]
  cases machine.tree.form? definition with
  | none => rfl
  | some form =>
    cases form with
    | record name inputs =>
      simp only [Option.map_some, Form.renamed, Tree.list_renamed, declared]
      refine Prod.ext rfl (congrArg (fun value => Except.ok (Flow.push value)) ?_)
      rw [Value.relocated_record, ← List.map_filterMap, List.map_map, List.map_map]
      refine congrArg (Value.record definition) (List.map_congr_left fun name _ => ?_)
      exact congrArg (Prod.mk (insertion.name name)) (localValue_store within frame name)
    | _ => rfl

omit within

theorem jumpUnless_machine (machine : Machine) (node : NodeId) (distance : Int) :
    (insertion.machine machine).jumpUnless (frame.relocated insertion.relocation) node distance =
      insertion.effect (machine.jumpUnless frame node distance) := by
  unfold Machine.jumpUnless
  rw [Frame.pop?_relocated]
  cases frame.pop? with
  | none => rfl
  | some both =>
    obtain ⟨value, rest⟩ := both
    have other := @mismatch_machine _ _ _ insertion machine .boolean value node
    simp only [Option.map_some]
    cases value with
    | boolean decided =>
      rw [Value.relocated_boolean]
      cases decided with
      | true =>
        dsimp only
        rw [setTop_machine]
        rfl
      | false => exact jumpTop_machine _ _ _
    | _ => simpa using other

theorem branch_machine (machine : Machine) (node : NodeId) (whenValue : Bool) (distance : Int) :
    (insertion.machine machine).branch (frame.relocated insertion.relocation) node whenValue distance =
      insertion.effect (machine.branch frame node whenValue distance) := by
  unfold Machine.branch
  rw [Frame.pop?_relocated]
  cases frame.pop? with
  | none => rfl
  | some both =>
    obtain ⟨value, rest⟩ := both
    have other := @mismatch_machine _ _ _ insertion machine .boolean value node
    simp only [Option.map_some]
    cases value with
    | boolean decided =>
      rw [Value.relocated_boolean]
      dsimp only
      split
      · exact jumpTop_machine _ _ _
      · rw [setTop_machine]
        rfl
    | _ => simpa using other

end

/-! ### Natives -/

section

variable (within : insertion.base ≤ machine.store.scopes.size) (frame : Frame)

include within

theorem applyNative_machine (standard : machine.natives = .standard) (index : Nat) :
    (insertion.machine machine).applyNative (frame.relocated insertion.relocation) index =
      insertion.effect (machine.applyNative frame index) := by
  unfold Machine.applyNative
  rw [standard, show (insertion.machine machine).natives = .standard from rfl]
  rcases @Natives.get?_standard _ _ insertion.relocation _ (place_injective insertion) index with
    ⟨none, none'⟩ | ⟨⟨name, inputs, signature, body⟩, ⟨name', inputs', signature', body'⟩, is, is', corresponds⟩
  · rw [none, none']
    rfl
  · rw [is, is']
    have named : inputs' = inputs.map insertion.name := corresponds.inputs
    rcases corresponds.body with ⟨op, loop, loop'⟩ | ⟨value, value', pure, pure', made⟩
    · cases loop
      cases loop'
      rfl
    · cases pure
      cases pure'
      have values : (inputs'.map fun name => ((insertion.machine machine).store.local?
          (frame.relocated insertion.relocation).scope name).getD .none) =
            (inputs.map fun name => (machine.store.local? frame.scope name).getD .none).map
              (Value.relocated insertion.relocation) := by
        rw [named, List.map_map, List.map_map]
        exact List.map_congr_left fun name _ => localValue_store within frame name
      have made := made ⟨frame.origin, inputs.map fun name => (machine.store.local? frame.scope name).getD .none⟩
      unfold NativeCall.relocated at made
      dsimp only [NativeBody.pure]
      rw [values, Frame.origin_relocated]
      simp only [made, Value.isException_relocated]
      split <;> rfl

theorem loopLocal_machine {name : String} {name' : M} (same : insertion.name name = name') :
    (insertion.machine machine).loopLocal (frame.relocated insertion.relocation) name' =
      (machine.loopLocal frame name).relocated insertion.relocation :=
  same ▸ localValue_store within frame name

theorem loopIndex_machine :
    (insertion.machine machine).loopIndex (frame.relocated insertion.relocation) = machine.loopIndex frame := by
  unfold Machine.loopIndex
  rw [loopLocal_machine within frame insertion.indexName]
  cases machine.loopLocal frame Natives.indexName <;> simp

theorem setLoopLocal_machine {name : String} {name' : M} (same : insertion.name name = name') (value : Value) :
    (insertion.machine machine).setLoopLocal (frame.relocated insertion.relocation) name'
        (value.relocated insertion.relocation) = insertion.machine (machine.setLoopLocal frame name value) := by
  subst same
  exact congrArg (fun store => { insertion.machine machine with store }) (rebind_store within frame.scope name value)

omit [DecidableEq M] in
theorem within_setLoopLocal (name : String) (value : Value) :
    insertion.base ≤ (machine.setLoopLocal frame name value).store.scopes.size := by
  unfold Machine.setLoopLocal
  rwa [Store.size_rebind]

/-- The position of a loop. -/
theorem setIndex_machine (index : Nat) :
    (insertion.machine machine).setLoopLocal (frame.relocated insertion.relocation) Natives.indexName
        (.number (.ofNat index)) =
      insertion.machine (machine.setLoopLocal frame Natives.indexName (.number (.ofNat index))) :=
  setLoopLocal_machine within frame insertion.indexName (.number (.ofNat index))

theorem loopInit_machine (op : HigherOrder) :
    (insertion.machine machine).loopInit (frame.relocated insertion.relocation) op =
      insertion.effect (machine.loopInit frame op) := by
  unfold Machine.loopInit
  dsimp only
  rw [loopLocal_machine within frame insertion.collectionName, loopLocal_machine within frame insertion.functionName,
    Value.isCollection_relocated]
  split
  · exact mismatch_machine _ _ _ _
  · have other := @mismatch_machine _ _ _ insertion machine .function (machine.loopLocal frame Natives.functionName)
      frame.origin
    have later := within_setLoopLocal within frame Natives.indexName (.number (.ofNat 0))
    rw [setIndex_machine within, loopLocal_machine later frame insertion.initialName,
      setLoopLocal_machine later frame insertion.resultName]
    cases called : machine.loopLocal frame Natives.functionName with
    | function function =>
      simp only [Value.relocated_function]
      split <;> rfl
    | _ =>
      rw [called] at other
      simpa using other

theorem loopNext_machine (standard : machine.natives = .standard) (op : HigherOrder) :
    (insertion.machine machine).loopNext (frame.relocated insertion.relocation) op =
      insertion.effect (machine.loopNext frame op) := by
  unfold Machine.loopNext
  dsimp only
  rw [loopLocal_machine within frame insertion.collectionName, loopLocal_machine within frame insertion.functionName,
    loopLocal_machine within frame insertion.resultName, loopIndex_machine within, Value.element?_relocated]
  cases (machine.loopLocal frame Natives.collectionName).element? (machine.loopIndex frame) with
  | none => exact jumpTop_machine _ _ _
  | some element =>
    simp only [Option.map_some]
    have result : (if op == .fold then [(machine.loopLocal frame Natives.resultName).relocated insertion.relocation]
        else []) = (if op == .fold then [machine.loopLocal frame Natives.resultName] else []).map
          (Value.relocated insertion.relocation) := by
      split <;> rfl
    cases machine.loopLocal frame Natives.functionName with
    | function function =>
      simp only [Value.relocated_function]
      rw [result, Machine.elementArguments_relocated, ← List.map_append]
      exact startCall_machine within standard _ _ _
    | _ => rfl

omit within [DecidableEq M] in
theorem keep_relocated {relocation : Relocation M} (op : HigherOrder) (element : Element) (produced : Value)
    (frame : Frame) :
    Machine.keep op (element.relocated relocation) (produced.relocated relocation) (frame.relocated relocation) =
      ((Machine.keep op element produced frame).map (Frame.relocated relocation)).mapError
        (Value.relocated relocation) := by
  cases op with
  | map => cases element <;> rfl
  | fold => cases produced <;> rfl
  | filter =>
    cases produced with
    | boolean decided =>
      rw [Value.relocated_boolean]
      cases decided with
      | true =>
        unfold Machine.keep
        rw [Machine.elementArguments_relocated, Frame.foldl_push_relocated]
        rfl
      | false => rfl
    | _ => simp [Machine.keep, Except.map, Except.mapError]

theorem loopCollect_machine (op : HigherOrder) :
    (insertion.machine machine).loopCollect (frame.relocated insertion.relocation) op =
      insertion.effect (machine.loopCollect frame op) := by
  unfold Machine.loopCollect
  dsimp only
  rw [loopLocal_machine within frame insertion.collectionName, loopIndex_machine within, Value.element?_relocated,
    Frame.pop?_relocated]
  cases frame.pop? with
  | none => rfl
  | some both =>
    obtain ⟨produced, rest⟩ := both
    cases (machine.loopLocal frame Natives.collectionName).element? (machine.loopIndex frame) with
    | none => rfl
    | some element =>
      simp only [Option.map_some]
      rw [keep_relocated]
      cases Machine.keep op element produced rest with
      | error other => exact mismatch_machine _ _ _ _
      | ok kept =>
        have later := within_setLoopLocal within frame Natives.resultName produced
        simp only [Except.map, Except.mapError]
        split
        · rw [setLoopLocal_machine within frame insertion.resultName, setIndex_machine later]
          exact jumpTop_machine _ _ _
        · rw [setIndex_machine within]
          exact jumpTop_machine _ _ _

theorem loopDone_machine (op : HigherOrder) :
    (insertion.machine machine).loopDone (frame.relocated insertion.relocation) op =
      insertion.effect (machine.loopDone frame op) := by
  unfold Machine.loopDone
  dsimp only
  rw [loopLocal_machine within frame insertion.collectionName, loopLocal_machine within frame insertion.resultName]
  split
  · rfl
  · have emptied := @setTop_machine _ _ _ insertion machine { frame with values := [] }
    rw [Frame.values_relocated, ← List.map_reverse, Value.collectLike_relocated (place_injective insertion)]
    exact congrArg (fun machine : Machine M => machine.flow (.push _)) emptied

/-- A step in the topmost frame does the same among other scopes and under other names. -/
theorem execute_machine (ascends : insertion.Ascends machine.store) (reads : machine.tree.Reads insertion.name)
    (standard : machine.natives = .standard) (step : Step) :
    (insertion.machine machine).execute (frame.relocated insertion.relocation) step =
      insertion.effect (machine.execute frame step) := by
  cases step with
  | finish node => exact finish_machine within ascends reads frame node
  | enter node =>
    have entered := child_store within frame.scope
    show (Machine.setTop { insertion.machine machine with
        store := ((insertion.store machine.store).child (insertion.place frame.scope)).2 }
      { frame.relocated insertion.relocation with
        scope := ((insertion.store machine.store).child (insertion.place frame.scope)).1 }).flow .proceed = _
    rw [entered]
    have same := @setTop_machine _ _ _ insertion { machine with store := (machine.store.child frame.scope).2 }
      { frame with scope := (machine.store.child frame.scope).1 }
    exact congrArg (fun machine : Machine M => machine.flow .proceed) same
  | bind node => exact bindTop_machine within frame node
  | jump distance => exact jumpTop_machine machine frame distance
  | jumpUnless node distance => exact jumpUnless_machine frame machine node distance
  | branch node whenValue distance => exact branch_machine frame machine node whenValue distance
  | skipIfBound input distance => exact skipIfBound_machine within frame input distance
  | call node arity => exact callTop_machine within frame standard node arity
  | instantiate definition => exact instantiate_machine within frame definition
  | expected node => rfl
  | apply index => exact applyNative_machine within frame standard index
  | loop op phase =>
    cases phase with
    | init => exact loopInit_machine within frame op
    | next => exact loopNext_machine within frame standard op
    | collect => exact loopCollect_machine within frame op
    | done => exact loopDone_machine within frame op

end

/-! ### Single steps -/

section

variable (unobserved : machine.observers = [])

include unobserved

theorem finishWith_machine (value : Value) :
    (insertion.machine machine).finishWith (value.relocated insertion.relocation) =
      insertion.machine (machine.finishWith value) := by
  unfold Machine.finishWith
  rw [show (insertion.machine machine).observers = machine.observers from rfl, unobserved]
  rfl

theorem completeFrames_machine :
    (insertion.machine machine).completeFrames = insertion.machine machine.completeFrames := by
  have frames : (insertion.machine machine).frames = machine.frames.map (Frame.relocated insertion.relocation) := rfl
  unfold Machine.completeFrames
  rw [frames]
  cases machine.frames with
  | nil => rfl
  | cons frame rest =>
    have value : (frame.relocated insertion.relocation).peek?.getD (.failed .expectedValue frame.origin) =
        (frame.peek?.getD (.failed .expectedValue frame.origin)).relocated insertion.relocation := by
      rw [Frame.peek?_relocated]
      cases frame.peek? <;> rfl
    simp only [List.map_cons]
    rw [show (frame.relocated insertion.relocation).isExhausted = frame.isExhausted from rfl, Frame.origin_relocated,
      value, Value.isException_relocated]
    split
    · rfl
    · split
      · exact finishWith_machine unobserved _
      · rw [show (insertion.machine machine).stack = machine.stack.relocated insertion.relocation from rfl,
          CallStack.pop_relocated, CallStack.deliver_relocated]
        generalize machine.stack.pop.deliver (frame.peek?.getD (.failed .expectedValue frame.origin)) = delivered
        obtain ⟨stack, left⟩ := delivered
        cases left with
        | none => rfl
        | some final => exact finishWith_machine unobserved final

omit unobserved in
theorem proceed_machine (machine : Machine) (flow : Flow) :
    (insertion.machine machine).proceed (flow.relocated insertion.relocation) =
      insertion.machine (machine.proceed flow) := by
  have frames : (insertion.machine machine).frames = machine.frames.map (Frame.relocated insertion.relocation) := rfl
  unfold Machine.proceed
  rw [frames]
  cases machine.frames with
  | nil => rfl
  | cons frame rest =>
    have moved := @setTop_machine _ _ _ insertion machine frame.advance
    cases flow with
    | proceed => exact moved
    | throw exception => exact moved
    | push value => exact setTop_machine machine (frame.push value).advance
    | start above =>
      have topped := @CallStack.setTop_relocated _ _ insertion.relocation machine.stack frame.advance
      show ({ insertion.machine machine with
        stack := ((machine.stack.relocated insertion.relocation).setTop
          (frame.advance.relocated insertion.relocation)).push (above.relocated insertion.relocation) } : Machine M) = _
      rw [topped]
      rfl

omit unobserved in
theorem outcome_machine (machine : Machine) :
    (insertion.machine machine).outcome = machine.outcome.relocated insertion.relocation := by
  unfold Machine.outcome
  rw [show (insertion.machine machine).result = machine.result.map (Value.relocated insertion.relocation) from rfl]
  cases machine.result <;> rfl

end

/-- What follows the execution of a step does the same among other scopes. -/
theorem conclude_machine (step : Step) (effect : Effect) (unobserved : effect.1.observers = []) :
    Machine.conclude step (insertion.effect effect) =
      (insertion.machine (Machine.conclude step effect).1,
        (Machine.conclude step effect).2.map (Machine.StepOutcome.relocated insertion.relocation)) := by
  obtain ⟨machine, outcome⟩ := effect
  have unobserved : machine.observers = [] := unobserved
  have shown {first : Machine M} {second : Machine} (same : first = insertion.machine second) :
      ((first, .ok first.outcome) : Machine M × Except Fault (Machine.StepOutcome M)) =
        (insertion.machine second,
          (Except.ok second.outcome).map (Machine.StepOutcome.relocated insertion.relocation)) := by
    rw [same, outcome_machine]
    rfl
  have goes (flow : Flow) :
      ((insertion.machine machine).proceed (flow.relocated insertion.relocation)).completeFrames.notifyStep step
          machine.depth =
        insertion.machine ((machine.proceed flow).completeFrames.notifyStep step machine.depth) := by
    have kept := Machine.aside_of_apart (fun machine => machine.proceed flow)
      (fun _ _ => Machine.proceed_beside flow) machine
    have proceeded : (machine.proceed flow).observers = [] := (congrArg Machine.Aside.observers kept).trans unobserved
    have completed : (machine.proceed flow).completeFrames.observers = [] := by
      rw [Machine.observers_completeFrames, proceeded]
    rw [proceed_machine, completeFrames_machine proceeded, Machine.notifyStep_of_unobserved completed,
      Machine.notifyStep_of_unobserved]
    exact completed
  have thrown (exception : Value) :
      ((insertion.machine machine).notifyStep step machine.depth).finishWith
          (exception.relocated insertion.relocation) =
        insertion.machine ((machine.notifyStep step machine.depth).finishWith exception) := by
    rw [Machine.notifyStep_of_unobserved unobserved, Machine.notifyStep_of_unobserved]
    · exact finishWith_machine unobserved exception
    · exact unobserved
  match outcome with
  | .error fault => rfl
  | .ok (.throw exception) => exact shown (thrown exception)
  | .ok .proceed => exact shown (goes .proceed)
  | .ok (.push value) => exact shown (goes (.push value))
  | .ok (.start above) => exact shown (goes (.start above))

/-- What it takes for a machine to do the same among other scopes. -/
structure Suits (insertion : Insertion M) (machine : Machine) : Prop where
  within : insertion.base ≤ machine.store.scopes.size
  ascends : insertion.Ascends machine.store
  reads : machine.tree.Reads insertion.name
  standard : machine.natives = .standard
  unobserved : machine.observers = []

/-- A step does the same among other scopes. -/
theorem step_machine (suits : insertion.Suits machine) :
    (insertion.machine machine).step =
      (insertion.machine machine.step.1,
        machine.step.2.map (Machine.StepOutcome.relocated insertion.relocation)) := by
  cases result : machine.result with
  | some value =>
    have result' : (insertion.machine machine).result = some (value.relocated insertion.relocation) := by
      show machine.result.map _ = _
      rw [result]
      rfl
    rw [Machine.step_of_result result, Machine.step_of_result result']
    rfl
  | none =>
    have result' : (insertion.machine machine).result = none := by
      show machine.result.map _ = _
      rw [result]
      rfl
    cases active : machine.frames with
    | nil =>
      have active' : (insertion.machine machine).frames = [] := congrArg (List.map _) active
      rw [Machine.step_of_idle result active, Machine.step_of_idle result' active']
      rfl
    | cons frame rest =>
      have active' : (insertion.machine machine).frames =
          frame.relocated insertion.relocation :: rest.map (Frame.relocated insertion.relocation) :=
        congrArg (List.map _) active
      cases current : frame.current? with
      | none =>
        rw [Machine.step_of_completed result active current, Machine.step_of_completed result' active' current,
          completeFrames_machine suits.unobserved, outcome_machine]
        rfl
      | some step =>
        rw [Machine.step_of_current result active current, Machine.step_of_current result' active' current]
        have executed := @execute_machine _ _ _ _ { machine with stepsTaken := machine.stepsTaken + 1 } suits.within
          frame suits.ascends suits.reads suits.standard step
        have kept := Machine.aside_of_apart (fun machine => (machine.execute frame step).1)
          (fun machine aside => by rw [Machine.execute_beside]; rfl)
          { machine with stepsTaken := machine.stepsTaken + 1 }
        refine Eq.trans ?_ (conclude_machine step _ ((congrArg Machine.Aside.observers kept).trans suits.unobserved))
        exact congrArg (Machine.conclude step) executed

/-! ### Starts -/

section

open Meaning

theorem outermostStore_store {store : Store} (within : insertion.base ≤ store.scopes.size) (inputs : Inputs) :
    insertion.store (outermostStore .standard inputs store) =
      outermostStore .standard (inputs.relocated insertion.relocation) (insertion.store store) := by
  have rooted : (insertion.store store).root.2 = insertion.store store.root.2 :=
    congrArg Prod.snd (add_store within ⟨[], none⟩)
  have bindings : (Natives.standard : Natives M).values ++ (inputs.relocated insertion.relocation).streams =
      ((Natives.standard : Natives).values ++ inputs.streams).map (Value.relocatedBinding insertion.relocation) := by
    rw [List.map_append, ← Natives.values_relocated (place_injective insertion)]
    rfl
  have later : insertion.base ≤ store.root.2.scopes.size := by
    rw [Store.root, Store.size_add]
    exact Nat.le_succ_of_le within
  unfold outermostStore
  rw [bindings, rooted, ← place_size within]
  exact (rebinds_store later _ _).symm

/-- An evaluation starts with the same among other scopes and under other names. -/
theorem start_machine (within : insertion.base ≤ machine.store.scopes.size) (standard : machine.natives = .standard)
    (inputs : Inputs) :
    (insertion.machine machine).start (inputs.relocated insertion.relocation) =
      insertion.machine (machine.start inputs) := by
  have outermost := outermostStore_store within inputs
  have later : insertion.base ≤ (outermostStore .standard inputs machine.store).scopes.size := by
    rw [size_outermostStore]
    exact Nat.le_succ_of_le within
  have added := child_store later machine.store.scopes.size
  rw [outermost, place_size within] at added
  have borrowed : (inputs.relocated insertion.relocation).borrowed.reverse =
      inputs.borrowed.reverse.map (Value.relocatedBinding insertion.relocation) := List.map_reverse.symm
  have scope : _ = insertion.place _ := congrArg Prod.fst added
  have store : _ = insertion.store _ := congrArg Prod.snd added
  have code := congrFun (@Tree.code_renamed _ _ insertion.toRenaming _ machine.tree) machine.tree.root
  rw [Machine.start_eq, Machine.start_eq, standard]
  show { insertion.machine machine with
      store := ((outermostStore .standard (inputs.relocated insertion.relocation) (insertion.store machine.store)).child
        (insertion.store machine.store).scopes.size).2
      root := (insertion.store machine.store).scopes.size
      stack := CallStack.empty.push (.start .program machine.tree.root
        ((machine.tree.renamed insertion.name).code machine.tree.root).toArray
        ((outermostStore .standard (inputs.relocated insertion.relocation) (insertion.store machine.store)).child
          (insertion.store machine.store).scopes.size).1)
      result := none
      trigger := (inputs.relocated insertion.relocation).trigger
      borrowed := (inputs.relocated insertion.relocation).borrowed.reverse
      stepsTaken := 0
      paused := false } = _
  rw [borrowed, store, scope, code, ← place_size within]
  rfl

end

end Insertion

end Rivulet
