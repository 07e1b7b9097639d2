import Rivulet.Proofs.Machine.Tracking
import Rivulet.Proofs.Meaning.Computation

/-!
What single steps compute. A step performs a computation when, with some values on top of the stack,
its effect is what the computation comes to (`Performs`); steps that compute those values, followed
by such a step, compute the whole (`Leaves.performs`). Most of this module goes through the steps
that complete a node.
-/

namespace Rivulet.Machine

open Meaning

/-! ### Performing a computation -/

/-- An effect on the topmost frame, with some values left on its stack, is what a computation comes
to, with some visits made. -/
def Comes (machine : Machine) (frame : Frame) (rest : List Frame) (taken : Nat)
    (values : List Value) (visits : List Visit) (effect : Effect) :
    EStateM.Result Halt World Value → Prop
  | .ok value world => world.visits = visits ∧
      (effect = (machine.inState world.store ({ frame with values } :: rest) taken,
          .ok (.push value)) ∨
        effect = (machine.inState world.store ({ frame with values := value :: values } :: rest) taken,
          .ok .proceed))
  | .error (.exception exception) world =>
    world.visits = visits ∧ effect.2 = .ok (.throw exception)
  | .error (.fault fault) world => world.visits = visits ∧ effect.2 = .error fault

/-- A step that finds some values on top of the stack has the effect of a computation in the scope of
the frame. -/
def Performs (machine : Machine) (step : Step) (arguments : List Value)
    (computation : ScopeId → Eval Value) : Prop :=
  ∀ (frame : Frame) (rest : List Frame) (world : World) (taken : Nat) (values : List Value),
    frame.values = arguments ++ values →
    machine.Comes frame rest taken values world.visits
      ((machine.inState world.store (frame :: rest) taken).execute frame step)
      (computation frame.scope world)

section

variable {machine : Machine} {step : Step} {α : Type}

/-- A step whose effect is what a computation comes to in another world, the visit of the step being
written down there. -/
theorem tracks_of_comes (unobserved : machine.observers = []) {computation computation' : Eval Value}
    {frame : Frame} {rest : List Frame} {world world' : World} {taken : Nat} {values : List Value}
    (current : frame.current? = some step)
    (seen : world'.visits =
      world.visits ++ (machine.inState world.store (frame :: rest) taken).visit?.toList)
    (same : computation world = computation' world')
    (harmless : (machine.inState world.store (frame :: rest) taken).visit?.isSome →
      ∀ fault world'', computation world ≠ .error (.fault fault) world'')
    (comes : machine.Comes frame rest (taken + 1) values world'.visits
      ((machine.inState world.store (frame :: rest) (taken + 1)).execute frame step)
      (computation' world')) :
    Tracks machine (machine.inState world.store (frame :: rest) taken) world computation
      fun value store last => ∃ taken',
        last = (machine.inState store (frame.after 1 (value :: values) :: rest)
          taken').completeFrames := by
  rw [← same] at comes
  cases computed : computation world with
  | ok value world'' =>
    rw [computed] at comes
    obtain ⟨seen', pushed | proceeded⟩ := comes
    · obtain ⟨outcome, stepped⟩ := step_of_push unobserved current pushed
      exact tracks_ok computed (.single stepped) (by rw [seen', seen]) ⟨taken + 1, rfl⟩
    · obtain ⟨outcome, stepped⟩ := step_of_proceed unobserved current proceeded
      exact tracks_ok computed (.single stepped) (by rw [seen', seen]) ⟨taken + 1, rfl⟩
  | error halt world'' =>
    rw [computed] at comes
    cases halt with
    | exception exception =>
      obtain ⟨seen', thrown⟩ := comes
      obtain ⟨finished, outcome, stepped, ended⟩ := step_of_throw current (Prod.ext rfl thrown)
      exact tracks_error computed (.single stepped) (by rw [seen', seen]) ended
    | fault fault =>
      obtain ⟨seen', faulty⟩ := comes
      have silent : (machine.inState world.store (frame :: rest) taken).visit? = none := by
        refine Option.not_isSome_iff_eq_none.mp fun visits => ?_
        exact harmless visits fault world'' computed
      exact tracks_of_fault computed (by simp [seen', seen, silent]) current faulty

theorem tracks_of_performs (unobserved : machine.observers = []) (silent : Silent machine.tree step)
    {arguments : List Value} {computation : ScopeId → Eval Value}
    (performs : Performs machine step arguments computation) {frame : Frame} {rest : List Frame}
    {world : World} {taken : Nat} {values : List Value} (current : frame.current? = some step)
    (holds : frame.values = arguments ++ values) :
    Tracks machine (machine.inState world.store (frame :: rest) taken) world
      (computation frame.scope) fun value store last => ∃ taken',
        last = (machine.inState store (frame.after 1 (value :: values) :: rest)
          taken').completeFrames := by
  have none : (machine.inState world.store (frame :: rest) taken).visit? = none :=
    visit?_of_silent current silent
  exact tracks_of_comes unobserved current (by simp [none]) rfl (by simp [none])
    (performs frame rest world (taken + 1) values holds)

/-- Steps that compute some values, followed by a step that makes one value of them. -/
theorem Leaves.performs {calls : Nat} {code : List Step} {computation : ScopeId → Eval α}
    {left : α → List Value} {next : ScopeId → α → Eval Value}
    (unobserved : machine.observers = []) (silent : Silent machine.tree step)
    (leaves : Leaves machine calls code computation left)
    (performed : ∀ scope world value world', computation scope world = .ok value world' →
      Performs machine step (left value) (next · value)) :
    Computes machine calls (code ++ [step]) (fun scope => computation scope >>= next scope) := by
  intro frame rest following world taken ahead depth
  rw [List.append_assoc] at ahead
  refine tracks_bind (leaves frame rest step following world taken ahead depth) ?_
  rintro value world' second computed ⟨taken', rfl⟩
  have current : (frame.after code.length (left value ++ frame.values)).current? = some step :=
    Frame.Ahead.current? ahead.after
  refine tracks_mono (tracks_of_performs unobserved silent
    (performed _ _ _ _ computed) current rfl) ?_
  rintro value' store last ⟨taken'', rfl⟩
  exact ⟨taken'', by simp⟩

/-- A step that needs no values before it. -/
theorem Performs.computes {calls : Nat} {computation : ScopeId → Eval Value}
    (unobserved : machine.observers = []) (silent : Silent machine.tree step)
    (performs : Performs machine step [] computation) :
    Computes machine calls [step] computation := by
  intro frame rest following world taken ahead depth
  have current : frame.current? = some step := Frame.Ahead.current? ahead
  exact tracks_of_performs unobserved silent performs current rfl

end

/-! ### Taking values off the stack -/

theorem takeTop_append (top below taken : List Value) :
    Frame.takeTop top.length (top ++ below) taken = some (top.reverse ++ taken, below) := by
  induction top generalizing taken with
  | nil => rfl
  | cons value top hypothesis => simp [Frame.takeTop, hypothesis]

theorem popMany?_reverse {frame : Frame} {values below : List Value} {count : Nat}
    (holds : frame.values = values.reverse ++ below) (length : values.length = count) :
    frame.popMany? count = some (values, { frame with values := below }) := by
  have taken := takeTop_append values.reverse below []
  rw [List.length_reverse, length] at taken
  simp [Frame.popMany?, holds, taken]

theorem pop?_cons {frame : Frame} {value : Value} {values : List Value}
    (holds : frame.values = [value] ++ values) :
    frame.pop? = some (value, { frame with values }) := by
  simp [Frame.pop?, holds]

/-! ### Completing nodes -/

section

variable {machine : Machine} {id : NodeId} {form : Form}

/-- A node that yields the value of its last child. -/
theorem performs_kept (is : machine.tree.form? id = some form)
    (kept : (∃ body, form = .program body) ∨ (∃ condition yes no, form = .conditional condition yes no) ∨
      ∃ callee arguments, form = .call callee arguments) (value : Value) :
    Performs machine (.finish id) [value] fun _ => pure value := by
  intro frame rest world taken values holds
  have nonempty : frame.values.isEmpty = false := by simp [holds]
  have same : { frame with values := value :: values } = frame := by
    rw [← List.singleton_append, ← holds]
  refine ⟨rfl, .inr ?_⟩
  rw [same]
  obtain ⟨body, rfl⟩ | ⟨condition, yes, no, rfl⟩ | ⟨callee, arguments, rfl⟩ := kept
  all_goals simp [execute, finish, is, nonempty, flow]

/-- A node that needs no values pushes one. -/
theorem performs_pushed {value : Value}
    (executed : ∀ frame rest store taken,
      (machine.inState store (frame :: rest) taken).finish frame id =
        (machine.inState store (frame :: rest) taken, .ok (.push value))) :
    Performs machine (.finish id) [] fun _ => pure value := by
  intro frame rest world taken values holds
  rw [List.nil_append] at holds
  subst holds
  exact ⟨rfl, .inl (executed _ _ _ _)⟩

/-- A node that needs no values fails. -/
theorem performs_fail {failure : Failure}
    (executed : ∀ frame rest store taken,
      ((machine.inState store (frame :: rest) taken).finish frame id).2 =
        .ok (.throw (.failed failure id))) :
    Performs machine (.finish id) [] fun _ => Meaning.fail failure id := by
  intro frame rest world taken values _
  exact ⟨rfl, executed _ _ _ _⟩

theorem performs_number {literal : String} {measure : Measure}
    (is : machine.tree.form? id = some (.number literal measure)) :
    Performs machine (.finish id) [] fun _ =>
      match Quantity.ofText? literal measure with
      | some number => pure (.number number)
      | none => Meaning.fail .notANumber id := by
  cases read : Quantity.ofText? literal measure with
  | some number =>
    refine performs_pushed fun frame rest store taken => ?_
    simp [finish, is, read, flow]
  | none =>
    refine performs_fail fun frame rest store taken => ?_
    simp [finish, is, read, Machine.fail]

/-- A node that collects the values of its children. -/
theorem performs_collect {count : Nat} {values : List Value} {make : List Value → Value}
    (executed : ∀ frame rest store taken,
      (machine.inState store (frame :: rest) taken).finish frame id =
        (machine.inState store (frame :: rest) taken).collect frame count id make)
    (length : values.length = count) :
    Performs machine (.finish id) values.reverse fun _ => pure (make values) := by
  intro frame rest world taken below holds
  refine ⟨rfl, .inl ?_⟩
  show (machine.inState world.store (frame :: rest) taken).finish frame id = _
  rw [executed]
  simp [collect, popMany?_reverse holds length, flow]

theorem performs_property {owner : NodeId} {name : String}
    (is : machine.tree.form? id = some (.property owner name)) (value : Value) :
    Performs machine (.finish id) [value] fun _ => field value name id := by
  intro frame rest world taken values holds
  simp only [execute, finish, inState_tree, is, finishProperty, consume, pop?_cons holds]
  cases value with
  | record definition fields =>
    dsimp only [field]
    cases Value.field? fields name with
    | some found => exact ⟨rfl, .inl rfl⟩
    | none => exact ⟨rfl, rfl⟩
  | _ => exact ⟨rfl, rfl⟩

/-- The right operand of a logical operator decides alone. -/
theorem performs_logical {op : BinaryOp} {left right : NodeId}
    (is : machine.tree.form? id = some (.binary op left right)) (logical : op.isLogical = true)
    (value : Value) :
    Performs machine (.finish id) [value] fun _ => do
      let decided ← truth value id
      return .boolean decided := by
  intro frame rest world taken values holds
  simp only [execute, finish, inState_tree, is, finishBinary, logical, if_true, consume,
    pop?_cons holds]
  cases value with
  | boolean decided => exact ⟨rfl, .inl rfl⟩
  | _ => exact ⟨rfl, rfl⟩

theorem performs_binary {op : BinaryOp} {left right : NodeId}
    (is : machine.tree.form? id = some (.binary op left right)) (plain : op.isLogical = false)
    (first second : Value) :
    Performs machine (.finish id) [second, first] fun _ =>
      Meaning.yield (Operators.binary op first second) id := by
  intro frame rest world taken values holds
  have popped : frame.popMany? 2 = some ([first, second], { frame with values }) :=
    popMany?_reverse (by simpa using holds) rfl
  simp only [execute, finish, inState_tree, is, finishBinary, plain, popped, Bool.false_eq_true,
    if_false]
  cases Operators.binary op first second with
  | ok value => exact ⟨rfl, .inl rfl⟩
  | error failure => exact ⟨rfl, rfl⟩

theorem performs_unary {op : UnaryOp} {operand : NodeId}
    (is : machine.tree.form? id = some (.unary op operand)) (value : Value) :
    Performs machine (.finish id) [value] fun _ =>
      Meaning.yield (Operators.unary op value) id := by
  intro frame rest world taken values holds
  simp only [execute, finish, inState_tree, is, consume, pop?_cons holds]
  cases Operators.unary op value with
  | ok value => exact ⟨rfl, .inl rfl⟩
  | error failure => exact ⟨rfl, rfl⟩

theorem performs_reference {name : String}
    (is : machine.tree.form? id = some (.reference name)) :
    Performs machine (.finish id) [] fun scope => lookUp id scope name := by
  intro frame rest world taken values holds
  rw [List.nil_append] at holds
  subst holds
  dsimp only
  rw [lookUp_eq]
  simp only [execute, finish, inState_tree, is, inState_store]
  cases world.store.lookup frame.scope name with
  | some value => exact ⟨rfl, .inl rfl⟩
  | none => exact ⟨rfl, rfl⟩

/-- Binding a name, on either side. -/
theorem comes_bindName {frame : Frame} {rest : List Frame} {world : World} {taken : Nat}
    (scope : ScopeId) (name : String) (bound value : Value) :
    machine.Comes frame rest taken frame.values world.visits
      ((machine.inState world.store (frame :: rest) taken).bindName scope name bound id
        (.push value))
      ((Meaning.bindName scope name bound id >>= fun _ => pure value : Eval Value) world) := by
  unfold Machine.bindName
  by_cases taken : world.store.bindsLocally scope name = true
  · have halts : Meaning.bindName scope name bound id world =
        .error (.exception (.failed (.alreadyBound name) id)) world := by
      simp [bindName_eq, taken]
    rw [bind_of_error halts]
    simp only [inState_store, taken, if_true]
    exact ⟨rfl, rfl⟩
  · have binds : Meaning.bindName scope name bound id world =
        .ok () { world with store := world.store.bindNew scope name bound } := by
      simp [bindName_eq, taken]
    rw [bind_of_ok binds]
    simp only [inState_store, taken]
    exact ⟨rfl, .inl rfl⟩

theorem performs_define {name : String}
    (is : (∃ inputs body output, machine.tree.form? id = some (.function name inputs body output)) ∨
      ∃ inputs, machine.tree.form? id = some (.record name inputs)) :
    Performs machine (.finish id) [] fun scope => Meaning.define scope id name := by
  intro frame rest world taken values holds
  dsimp only
  rw [List.nil_append] at holds
  subst holds
  have executed : (machine.inState world.store (frame :: rest) taken).execute frame (.finish id) =
      (machine.inState world.store (frame :: rest) taken).define frame id name := by
    obtain ⟨inputs, body, output, is⟩ | ⟨inputs, is⟩ := is
    all_goals simp [execute, finish, is]
  have captures : (machine.inState world.store (frame :: rest) taken).define frame id name =
      let closure := Value.function ⟨.definition id, some (world.store.capture frame.scope).1, name⟩
      let machine := machine.inState (world.store.capture frame.scope).2 (frame :: rest) taken
      if name = "" then machine.flow (.push closure)
      else machine.bindName frame.scope name closure id (.push closure) := rfl
  rw [executed, captures, define_eq]
  dsimp only
  split
  · exact ⟨rfl, .inl rfl⟩
  · let captured : World := { world with store := (world.store.capture frame.scope).2 }
    exact @comes_bindName machine id frame rest captured taken _ _ _ _

theorem performs_bind {name : String} {input : NodeId} {declared : Option Ty} {variadic : Bool}
    (is : machine.tree.form? id = some (.bind name input declared variadic)) (value : Value) :
    Performs machine (.bind id) [value] fun scope => do
      Meaning.bindName scope name (named name value) id
      return value := by
  intro frame rest world taken values holds
  dsimp only
  have top : frame.peek? = some value := by simp [Frame.peek?, holds]
  have same : { frame with values := value :: values } = frame := by
    rw [← List.singleton_append, ← holds]
  have executed : (machine.inState world.store (frame :: rest) taken).execute frame (.bind id) =
      (machine.inState world.store (frame :: rest) taken).bindName frame.scope name
        (named name value) id .proceed := by
    simp only [execute, bindTop, inState_tree, is, top]
    cases value <;> rfl
  rw [executed]
  unfold Machine.bindName
  by_cases bound : world.store.bindsLocally frame.scope name = true
  · have halts : Meaning.bindName frame.scope name (named name value) id world =
        .error (.exception (.failed (.alreadyBound name) id)) world := by
      simp [bindName_eq, bound]
    rw [bind_of_error halts]
    simp only [inState_store, bound, if_true]
    exact ⟨rfl, rfl⟩
  · have binds : Meaning.bindName frame.scope name (named name value) id world =
        .ok () { world with store := world.store.bindNew frame.scope name (named name value) } := by
      simp [bindName_eq, bound]
    rw [bind_of_ok binds]
    simp only [inState_store, bound]
    exact ⟨rfl, .inr (by rw [same]; rfl)⟩

theorem performs_changed {stream : NodeId}
    (is : machine.tree.form? id = some (.changed stream)) :
    Performs machine (.finish id) [] fun _ =>
      pure (.boolean (machine.triggeredBy stream)) := by
  refine performs_pushed fun frame rest store taken => ?_
  simp only [finish, inState_tree, is]
  rfl

theorem performs_borrow {source : String}
    (is : machine.tree.form? id = some (.borrow source)) :
    Performs machine (.finish id) [] fun scope =>
      match machine.borrowed.lookup source with
      | none => Meaning.fail (.unknownSource source) id
      | some value => do
        Meaning.bindName scope source value id
        return value := by
  intro frame rest world taken values holds
  rw [List.nil_append] at holds
  subst holds
  simp only [execute, finish, inState_tree, is, finishBorrow, inState_borrowed]
  cases machine.borrowed.lookup source with
  | none => exact ⟨rfl, rfl⟩
  | some value => exact comes_bindName _ _ _ _

end

end Rivulet.Machine
