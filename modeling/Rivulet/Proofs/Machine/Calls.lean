import Rivulet.Proofs.Machine.Loops

/-!
Calls. The entry of a definition evaluates the defaults of omitted inputs and then the body, in a frame
above that of the caller, and what the frame ends with goes to the caller (`tracks_handOver`).

Main statement: a machine follows calls as deep as its limit allows (`follows_callTo`).
-/

namespace Rivulet.Machine

open Meaning

/-! ### Ending a frame -/

/-- The topmost frame has come to its end with a value on its stack. -/
def Ended (machine : Machine) (rest : List Frame) (value : Value) (store : Store) (last : Machine) :
    Prop :=
  ∃ (callee : Frame) (values : List Value) (taken : Nat), callee.isExhausted = true ∧
    callee.values = value :: values ∧
    last = (machine.inState store (callee :: rest) taken).completeFrames

/-- What a frame ends with goes to its caller, unless it is an exception. -/
theorem tracks_handOver {machine first : Machine} {world : World} {computation : Eval Value}
    {caller : Frame} {rest : List Frame} (going : caller.isExhausted = false)
    (tracked : Tracks machine first world computation (Ended machine (caller :: rest))) :
    Tracks machine first world (computation >>= handOver) fun value store last => ∃ taken,
      last = machine.inState store (caller.push value :: rest) taken := by
  refine tracks_bind tracked ?_
  rintro value world' second - ⟨callee, values, taken, exhausted, holds, rfl⟩
  unfold handOver
  cases exception : value.isException with
  | true =>
    exact tracks_error rfl (.here _) (by simp)
      (completeFrames_of_exception exhausted holds exception)
  | false =>
    refine tracks_pure ⟨taken, ?_⟩
    exact completeFrames_of_caller exhausted holds exception going

/-! ### Entries of definitions -/

/-- The steps of a call of a definition after those for its inputs. -/
def bodyCode (tree : Tree) (definition : NodeId) : List Step :=
  match tree.form? definition with
  | some (.function _ _ body _) => if body.isMissing then [.expected definition] else tree.code body
  | some (.record ..) => [.instantiate definition]
  | _ => [.expected definition]

/-- Every node but a pair has steps. -/
theorem code_ne_nil {tree : Tree} {id : NodeId} (regular : tree.isPair id = false) :
    tree.code id ≠ [] := by
  rw [Tree.code]
  show tree.codeWith (tree.codeTo tree.size) id ≠ []
  unfold Tree.codeWith
  cases is : tree.form? id with
  | none => simp
  | some form =>
    cases form with
    | pair key value => simp [Tree.isPair, is] at regular
    | binary op left right =>
      dsimp only
      split <;> simp
    | _ => simp

theorem bodyCode_ne_nil {tree : Tree} (formed : tree.WellFormed) (definition : NodeId) :
    bodyCode tree definition ≠ [] := by
  unfold bodyCode
  split
  · rename_i name inputs body output is
    split
    · simp
    · exact code_ne_nil (formed.isPair_eq_false is (by simp [Form.links]) rfl)
  · simp
  · simp

theorem entryCode_eq {tree : Tree} {definition : NodeId} {kind : FrameKind} {inputs : List NodeId}
    (is : definitionOf? tree definition = some (kind, inputs)) :
    tree.entryCode definition = inputs.flatMap tree.defaultCode ++ bodyCode tree definition := by
  cases found : tree.form? definition with
  | none => simp [definitionOf?, found] at is
  | some form =>
    cases form with
    | function | record =>
      simp only [definitionOf?, found, Option.some.injEq, Prod.mk.injEq] at is
      simp only [Tree.entryCode, Tree.entryWith, bodyCode, found, is.2]
      rfl
    | _ => simp [definitionOf?, found] at is

/-- Wherever they stand, steps with others behind them do what a computation does in the scope of the
frame, whatever they leave on its stack. -/
def Prepares (machine : Machine) (calls : Nat) (code : List Step)
    (computation : ScopeId → Eval PUnit) : Prop :=
  ∀ (frame : Frame) (rest : List Frame) (step : Step) (following : List Step) (world : World)
    (taken : Nat), frame.Ahead (code ++ step :: following) →
    machine.limits.maxDepth - (rest.length + 1) = calls →
    Tracks machine (machine.inState world.store (frame :: rest) taken) world
      (computation frame.scope) fun _ store last => ∃ taken' values,
        last = machine.inState store (frame.after code.length values :: rest) taken'

section

variable {machine : Machine} {calls : Nat} {node : Evaluator}

theorem prepares_nothing : Prepares machine calls [] fun _ => pure () := by
  intro frame rest step following world taken _ _
  exact tracks_pure ⟨taken, frame.values, rfl⟩

theorem Prepares.append {code code' : List Step} {computation next : ScopeId → Eval PUnit}
    (first : Prepares machine calls code computation) (later : Prepares machine calls code' next) :
    Prepares machine calls (code ++ code') fun scope => computation scope >>= fun _ => next scope := by
  intro frame rest step following world taken ahead depth
  rw [List.append_assoc] at ahead
  obtain ⟨step', following', opened⟩ : ∃ step' following',
      code' ++ step :: following = step' :: following' := by
    cases code' <;> simp
  refine tracks_bind (first frame rest step' following' world taken (opened ▸ ahead) depth) ?_
  rintro _ world' second - ⟨taken', values, rfl⟩
  refine tracks_mono (later _ rest step following world' taken' ahead.after depth) ?_
  rintro _ store last ⟨taken'', values', rfl⟩
  exact ⟨taken'', values', by simp⟩

/-- The default of a bound input is jumped over. -/
theorem skip_of_bound {frame : Frame} {rest : List Frame} {store : Store} {taken : Nat}
    {distance : Int} {input value : NodeId} {name : String} {declared : Option Ty} {variadic : Bool}
    (is : machine.tree.form? input = some (.bind name value declared variadic))
    (bound : store.bindsLocally frame.scope name = true) :
    (machine.inState store (frame :: rest) taken).execute frame (.skipIfBound input distance) =
      (machine.inState store (frame :: rest) taken).jumpTop frame distance := by
  simp only [execute, skipIfBound, inState_tree, is, inState_store, bound, if_true]

/-- The default of an input that is not bound is entered. -/
theorem enter_of_unbound {frame : Frame} {rest : List Frame} {store : Store} {taken : Nat}
    {distance : Int} {input value : NodeId} {name : String} {declared : Option Ty} {variadic : Bool}
    (is : machine.tree.form? input = some (.bind name value declared variadic))
    (unbound : ¬store.bindsLocally frame.scope name = true) :
    (machine.inState store (frame :: rest) taken).execute frame (.skipIfBound input distance) =
      (machine.inState store (frame :: rest) taken, .ok .proceed) := by
  simp only [execute, skipIfBound, inState_tree, is, inState_store, unbound]
  rfl

variable (unobserved : machine.observers = [])
  (computes : ∀ id, machine.tree.isPair id = false →
    Computes machine calls (machine.tree.code id) (node · id))
  (formed : machine.tree.WellFormed)

include unobserved computes formed

/-- The steps for an input bind its default unless the caller supplied it. -/
theorem prepares_default (input : NodeId) :
    Prepares machine calls (machine.tree.defaultCode input)
      fun scope => defaultWith machine.tree node scope input := by
  cases is : machine.tree.form? input with
  | none =>
    simp only [Tree.defaultCode, Tree.defaultWith, Tree.default?, defaultWith, is]
    exact prepares_nothing
  | some form =>
    cases form with
    | bind name value declared variadic =>
      by_cases missing : value.isMissing = true
      · simp only [Tree.defaultCode, Tree.defaultWith, Tree.default?, defaultWith, is, missing, if_true]
        exact prepares_nothing
      · have other : machine.tree.isPair value = false := by
          cases there : machine.tree.form? value with
          | none => simp [Tree.isPair, there]
          | some form =>
            exact formed.pair_iff_entry input _ value is (by simp [Form.links]) (by simp [there])
        have binds := (computes value other).leaves.performs unobserved (silent_of_node (by simp))
          fun _ _ value _ _ => performs_bind is value
        let steps := machine.tree.code value ++ [.bind input]
        have compiled : machine.tree.defaultCode input =
            .skipIfBound input steps.length :: steps := by
          simp [Tree.defaultCode, Tree.defaultWith, Tree.default?, is, missing, steps]
        rw [compiled]
        simp only [defaultWith, is, missing]
        intro frame rest step following world taken ahead depth
        refine tracks_of_eq _ (bind_of_ok (bindsLocally_eq _ _)) rfl ?_
        by_cases bound : world.store.bindsLocally frame.scope name = true
        · have jumps : Course machine 1 [] (machine.inState world.store (frame :: rest) taken) _ :=
            course_of_jump_inside unobserved frame.values (silent_of_node (by simp)) ahead (by simp)
              (skip_of_bound is bound)
          simp only [bound, if_true]
          exact tracks_after jumps (tracks_pure ⟨taken + 1, frame.values, rfl⟩)
        · have goesOn : (frame.after 1 frame.values).Ahead (steps ++ step :: following) :=
            Frame.Ahead.after_one ahead
          have enters : Course machine 1 [] (machine.inState world.store (frame :: rest) taken)
              (machine.inState world.store (frame.after 1 frame.values :: rest) (taken + 1)) :=
            course_of_change unobserved frame ahead.current? (silent_of_node (by simp))
              (enter_of_unbound is bound) goesOn (by simp [steps])
          have whole := binds.leaves _ rest step following world (taken + 1) goesOn depth
          have same : (do
              let value ← node frame.scope value
              Meaning.bindName frame.scope name (named name value) input) =
              (do
                let value ← node frame.scope value
                Meaning.bindName frame.scope name (named name value) input
                pure value) >>= fun _ => pure PUnit.unit := by
            simp
          simp only [bound]
          refine tracks_after enters ?_
          show Tracks machine _ world (do
            let value ← node frame.scope value
            Meaning.bindName frame.scope name (named name value) input) _
          rw [same]
          refine tracks_bind whole ?_
          rintro found world' second - ⟨taken', rfl⟩
          refine tracks_pure ⟨taken', [found] ++ frame.values, ?_⟩
          simp only [Frame.after_after]
          exact inState_after_congr (by simp [steps]; omega)
    | _ =>
      simp only [Tree.defaultCode, Tree.defaultWith, Tree.default?, defaultWith, is]
      exact prepares_nothing

/-- The steps for some inputs. -/
theorem prepares_inputs (inputs : List NodeId) :
    Prepares machine calls (inputs.flatMap machine.tree.defaultCode)
      fun scope => inputs.forM (defaultWith machine.tree node scope) := by
  induction inputs with
  | nil => exact prepares_nothing
  | cons input inputs hypothesis =>
    exact (prepares_default unobserved computes formed input).append hypothesis

omit unobserved computes formed in
/-- Reading the inputs of an instance. -/
theorem instanceOf_eq {world : World} (scope : ScopeId) (definition : NodeId) (inputs : List NodeId) :
    instanceOf machine.tree scope definition inputs world =
      .ok (.record definition ((inputs.filterMap fun input =>
        (machine.tree.form? input).bind Form.declaredName?).map fun name =>
          (name, (world.store.local? scope name).getD .none))) world := by
  have reads (names : List String) :
      (names.mapM fun name => do return (name, ← localValue scope name) : Eval _) world =
        .ok (names.map fun name => (name, (world.store.local? scope name).getD .none)) world := by
    induction names with
    | nil => rfl
    | cons name names hypothesis =>
      rw [List.mapM_cons]
      refine (bind_of_ok rfl).trans ?_
      rw [bind_of_ok hypothesis]
      rfl
  exact bind_of_ok (reads _)

/-- The body of a definition, which ends its frame. -/
theorem tracks_body {kind : FrameKind} {definition : NodeId} {inputs : List NodeId}
    (is : definitionOf? machine.tree definition = some (kind, inputs)) {frame : Frame}
    {rest : List Frame} {world : World} {taken : Nat}
    (ahead : frame.Ahead (bodyCode machine.tree definition))
    (depth : machine.limits.maxDepth - (rest.length + 1) = calls) :
    Tracks machine (machine.inState world.store (frame :: rest) taken) world
      (bodyWith machine.tree node frame.scope definition) (Ended machine rest) := by
  cases form : machine.tree.form? definition with
  | none => simp [definitionOf?, form] at is
  | some found =>
    cases found with
    | function name inputs body output =>
      simp only [bodyCode, form] at ahead
      simp only [bodyWith, form]
      by_cases missing : body.isMissing = true
      · simp only [missing, if_true] at ahead ⊢
        exact tracks_of_throw rfl rfl ahead.current? (silent_of_node (by simp)) rfl
      · simp only [missing, Bool.false_eq_true, if_false] at ahead ⊢
        have other : machine.tree.isPair body = false :=
          formed.isPair_eq_false form (by simp [Form.links]) rfl
        have whole := computes body other frame rest [] world taken (by simpa using ahead) depth
        refine tracks_mono whole ?_
        rintro value store last ⟨taken', rfl⟩
        have done : (frame.after _ (value :: frame.values)).Ahead [] :=
          Frame.Ahead.after (by simpa using ahead)
        exact ⟨_, frame.values, taken', done.isExhausted_eq_true, rfl, rfl⟩
    | record name inputs =>
      simp only [bodyCode, form] at ahead
      simp only [bodyWith, form]
      have executed : (machine.inState world.store (frame :: rest) (taken + 1)).execute frame
          (.instantiate definition) =
          (machine.inState world.store (frame :: rest) (taken + 1), .ok (.push (.record definition
            (((machine.tree.list inputs).filterMap fun input =>
              (machine.tree.form? input).bind Form.declaredName?).map fun name =>
                (name, (world.store.local? frame.scope name).getD .none))))) := by
        simp only [execute, instantiate, inState_tree, form]
        rfl
      have pushes := course_of_push unobserved ahead.current? (silent_of_node (by simp)) executed
      have done (values : List Value) : (frame.after 1 values).Ahead [] := ahead.after_one
      exact tracks_ok (instanceOf_eq _ _ _) pushes (by simp)
        ⟨_, frame.values, taken + 1, (done _).isExhausted_eq_true, rfl, rfl⟩
    | _ => simp [definitionOf?, form] at is

/-- A frame of a definition at its start comes to its end with the value of the definition. -/
theorem tracks_definition {kind : FrameKind} {definition : NodeId} {inputs : List NodeId}
    (is : definitionOf? machine.tree definition = some (kind, inputs)) {frame : Frame}
    {rest : List Frame} {world : World} {taken : Nat}
    (ahead : frame.Ahead (machine.tree.entryCode definition))
    (depth : machine.limits.maxDepth - (rest.length + 1) = calls) :
    Tracks machine (machine.inState world.store (frame :: rest) taken) world
      (do
        inputs.forM (defaultWith machine.tree node frame.scope)
        bodyWith machine.tree node frame.scope definition)
      (Ended machine rest) := by
  rw [entryCode_eq is] at ahead
  obtain ⟨step, following, opened⟩ := List.exists_cons_of_ne_nil (bodyCode_ne_nil formed definition)
  have prepares := prepares_inputs unobserved computes formed inputs
  refine tracks_bind (prepares frame rest step following world taken (opened ▸ ahead) depth) ?_
  rintro _ world' second - ⟨taken', values, rfl⟩
  exact tracks_body unobserved computes formed is ahead.after depth

end

section

variable {machine : Machine} {calls : Nat} {node : Evaluator}

theorem ahead_entry (machine : Machine) (kind : FrameKind) (origin definition : NodeId)
    (scope : ScopeId) :
    (Frame.start kind origin (machine.tree.entryCode definition).toArray scope).Ahead
      (machine.tree.entryCode definition) := by
  simp only [Frame.Ahead, Frame.start]
  rfl

/-- The frame of a definition at its start hands the value of the definition to its caller. -/
theorem tracks_called (world : World) {kind : FrameKind} {origin definition : NodeId}
    {inputs : List NodeId} {scope : ScopeId} {caller : Frame} {rest : List Frame} {taken : Nat}
    (unobserved : machine.observers = [])
    (computes : ∀ id, machine.tree.isPair id = false →
      Computes machine calls (machine.tree.code id) (node · id))
    (formed : machine.tree.WellFormed)
    (is : definitionOf? machine.tree definition = some (kind, inputs))
    (depth : machine.limits.maxDepth - ((caller :: rest).length + 1) = calls)
    (going : caller.isExhausted = false) :
    Tracks machine (machine.inState world.store
        (.start kind origin (machine.tree.entryCode definition).toArray scope :: caller :: rest) taken) world
      (do
        inputs.forM (defaultWith machine.tree node scope)
        let value ← bodyWith machine.tree node scope definition
        handOver value)
      fun value store last => ∃ taken',
        last = machine.inState store (caller.push value :: rest) taken' := by
  rw [← bind_assoc]
  exact tracks_handOver going (tracks_definition unobserved computes formed is
    (ahead_entry machine kind origin definition scope) depth)

end

/-! ### Natives -/

/-- The frame of a native at its start hands the value of the native to its caller. -/
theorem tracks_native (world : World) {machine : Machine} {calls : Nat} {call : Caller} {index : Nat}
    {native : Native} {origin : NodeId} {scope : ScopeId} {caller : Frame} {rest : List Frame}
    {taken : Nat} {bindings : List (String × Value)}
    (unobserved : machine.observers = []) (follows : Follows machine calls call)
    (keeps : ∀ function arguments origin, Along Store.KeepsInner (call function arguments origin))
    (is : machine.natives.get? index = some native) (inner : (world.store.parent? scope).isSome)
    (supplied : ∀ name, world.store.local? scope name = bindings.lookup name)
    (depth : machine.limits.maxDepth - ((caller :: rest).length + 1) = calls)
    (going : caller.isExhausted = false) :
    Tracks machine (machine.inState world.store
        (.start (.native index) origin (machine.natives.steps index).toArray scope :: caller :: rest)
        taken) world
      (nativeWith call native bindings scope origin >>= handOver)
      fun value store last => ∃ taken',
        last = machine.inState store (caller.push value :: rest) taken' := by
  obtain ⟨name, inputs, signature, body⟩ := native
  cases body with
  | loop op =>
    have compiled : machine.natives.steps index = op.steps := by simp [Natives.steps, is]
    rw [compiled]
    refine tracks_handOver going (tracks_mono (tracks_loop unobserved follows
      (fun function arguments => keeps function arguments origin) depth inner
      (by rw [supplied]) (by rw [supplied]) (by rw [supplied])) ?_)
    rintro value store last ⟨taken', values, rfl⟩
    exact ⟨_, values, taken', rfl, rfl, rfl⟩
  | apply run =>
    have compiled : machine.natives.steps index = [.apply index] := by simp [Natives.steps, is]
    rw [compiled]
    let frame : Frame := .start (.native index) origin [.apply index].toArray scope
    let made := run ⟨origin, inputs.map fun name => (world.store.local? scope name).getD .none⟩ scope world.store
    let after : World := { world with store := world.store.bindFor scope made.2 }
    have current : frame.current? = some (.apply index) := rfl
    have executed : (machine.inState world.store (frame :: caller :: rest) (taken + 1)).execute frame
        (.apply index) =
        (machine.inState after.store (frame :: caller :: rest) (taken + 1),
          .ok (if made.1.isException then .throw made.1 else .push made.1)) := by
      simp only [execute, applyNative, inState_natives, is, inState_store]
      rfl
    have handed : (nativeWith call ⟨name, inputs, signature, .apply run⟩ bindings scope origin >>=
        handOver) world = handOver made.1 after := by
      simp only [made, after, supplied]
      rfl
    cases exception : made.1.isException with
    | true =>
      simp only [exception, if_true] at executed
      have throws : (nativeWith call ⟨name, inputs, signature, .apply run⟩ bindings scope origin >>=
          handOver) world = .error (.exception made.1) after := by
        rw [handed]
        simp [handOver, exception]
      exact tracks_of_throw throws rfl current (silent_of_node (by simp)) (congrArg Prod.snd executed)
    | false =>
      simp only [exception, Bool.false_eq_true, if_false] at executed
      have pushes := course_of_push unobserved current (silent_of_node (by simp)) executed
      have yields : (nativeWith call ⟨name, inputs, signature, .apply run⟩ bindings scope origin >>=
          handOver) world = .ok made.1 after := by
        rw [handed]
        simp [handOver, exception]
      refine tracks_ok yields pushes (List.append_nil _).symm ⟨taken + 1, ?_⟩
      exact completeFrames_of_caller rfl rfl exception going

/-! ### Calls to any depth -/

/-- A step that starts a frame in a scope of its own, before what happens there is tracked. -/
theorem tracks_started {α : Type} {machine : Machine} {frame frame' above : Frame}
    {rest : List Frame} {step : Step} {world : World} {taken : Nat} {added : Scope}
    {next : ScopeId → Eval α} {reached : α → Store → Machine → Prop}
    (unobserved : machine.observers = []) (current : frame.current? = some step)
    (silent : Silent machine.tree step)
    (executed : (machine.inState world.store (frame :: rest) (taken + 1)).execute frame step =
      (machine.inState (world.store.add added).2 (frame' :: rest) (taken + 1), .ok (.start above)))
    (starts : above.isExhausted = false)
    (tracked : Tracks machine
      (machine.inState (world.store.add added).2 (above :: frame'.advance :: rest) (taken + 1))
      ⟨(world.store.add added).2, world.visits⟩ (next world.store.scopes.size) reached) :
    Tracks machine (machine.inState world.store (frame :: rest) taken) world
      (addScope added >>= next) reached := by
  have course := course_of_start unobserved current silent executed
  rw [completeFrames_of_going starts] at course
  exact tracks_after course (tracks_of_eq _ (bind_of_ok (addScope_eq added)) rfl tracked)

/-- A machine follows calls as deep as its limit allows. -/
theorem follows_callTo {machine : Machine} (unobserved : machine.observers = [])
    (formed : machine.tree.WellFormed) (calls : Nat) :
    Follows machine calls (callTo machine.setting calls) := by
  induction calls with
  | zero =>
    intro function arguments origin frame frame' rest step world taken current silent _ executed
      depth
    refine tracks_of_throw rfl rfl current silent ?_
    have full : machine.limits.maxDepth ≤ rest.length + 1 := by omega
    rw [executed]
    simp only [startCall, inState_limits, inState_depth, List.length_cons, full, if_true]
    rfl
  | succ calls hypothesis =>
    intro function arguments origin frame frame' rest step world taken current silent going executed
      depth
    have room : ¬machine.limits.maxDepth ≤ rest.length + 1 := by omega
    have inside : machine.limits.maxDepth - ((frame'.advance :: rest).length + 1) = calls := by
      rw [List.length_cons]
      omega
    have keeps := callTo_keeps machine.setting calls
    simp only [startCall, inState_limits, inState_depth, List.length_cons, room, if_false] at executed
    show Tracks machine _ world (callWith machine.setting (nodeTo machine.setting
      (callTo machine.setting calls) machine.tree.height) (callTo machine.setting calls) function
        arguments origin) _
    unfold callWith
    dsimp only [setting]
    cases callee : function.callee with
    | definition definition =>
      rw [callee] at executed
      dsimp only at executed
      rw [startDefinition_eq] at executed
      dsimp only [inState_tree] at executed ⊢
      cases is : definitionOf? machine.tree definition with
      | none =>
        rw [is] at executed
        exact tracks_of_fault rfl rfl current (congrArg Prod.snd executed)
      | some found =>
        obtain ⟨kind, inputs⟩ := found
        rw [is] at executed
        dsimp only at executed ⊢
        cases binds : bindInputs machine.tree origin inputs arguments [] with
        | error exception =>
          rw [binds] at executed
          exact tracks_of_throw rfl rfl current silent (congrArg Prod.snd executed)
        | ok bound =>
          rw [binds] at executed
          dsimp only at executed ⊢
          have starts (scope : ScopeId) := (ahead_entry machine kind origin definition scope).going
            (by simp [entryCode_eq is, bodyCode_ne_nil formed])
          refine tracks_started unobserved current silent executed (starts _) ?_
          exact tracks_called ⟨_, world.visits⟩ unobserved
            (computes_node unobserved formed hypothesis keeps) formed is inside going
    | native index =>
      rw [callee] at executed
      dsimp only [startNative, inState_natives] at executed ⊢
      cases is : machine.natives.get? index with
      | none =>
        rw [is] at executed
        exact tracks_of_fault rfl rfl current (congrArg Prod.snd executed)
      | some native =>
        rw [is] at executed
        dsimp only at executed ⊢
        cases lacks : native.inputs[arguments.length]? with
        | some missing =>
          rw [lacks] at executed
          exact tracks_of_throw rfl rfl current silent (congrArg Prod.snd executed)
        | none =>
          rw [lacks] at executed
          dsimp only at executed ⊢
          by_cases many : native.inputs.length < arguments.length
          · simp only [many, if_true] at executed ⊢
            exact tracks_of_throw rfl rfl current silent (congrArg Prod.snd executed)
          · simp only [many, if_false] at executed ⊢
            have starts : (Frame.start (.native index) origin (machine.natives.steps index).toArray
                world.store.scopes.size : Frame).isExhausted = false := by
              unfold Natives.steps
              split <;> rfl
            refine tracks_started unobserved current silent executed starts ?_
            exact tracks_native ⟨_, world.visits⟩ unobserved hypothesis keeps is (by simp) (by simp) inside going

end Rivulet.Machine
