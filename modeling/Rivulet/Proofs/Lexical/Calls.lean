import Rivulet.Proofs.Lexical.Terms
import Rivulet.Proofs.Meaning.Growth

/-!
Calls on a stage. A call of a good function with good arguments leaves all scopes as they are and has a
good value (`runs_callTo`): its scope binds the inputs, and besides them the function itself at most.
-/

namespace Rivulet

open Meaning Store Value

/-! ### Arguments -/

namespace Machine

/-- Arguments are bound to the inputs in order, if there are as many. -/
theorem bindInputs_of_inputs {tree : Tree} (origin : NodeId) {inputs : List NodeId}
    (fit : ∀ input ∈ inputs, tree.IsInput input) (arguments : List Value)
    {before : List (String × Value)}
    (distinct : (before.map Prod.fst ++ declaredNames tree inputs).Nodup) :
    match bindInputs tree origin inputs arguments before with
    | .ok bound => bound.map Prod.fst = before.map Prod.fst ++ declaredNames tree inputs ∧
        ∀ binding ∈ bound, binding ∈ before ∨ binding.2 ∈ arguments
    | .error thrown => ∃ failure node, thrown = .failed failure node ∧ failure.isStatic = false := by
  induction inputs generalizing arguments before with
  | nil =>
    cases arguments with
    | nil => simp [bindInputs, declaredNames]
    | cons argument rest => exact ⟨_, _, rfl, rfl⟩
  | cons input inputs hypothesis =>
    obtain ⟨name, -, is⟩ := fit input (by simp)
    have names : declaredNames tree (input :: inputs) = name :: declaredNames tree inputs := by
      simp [declaredNames, Checking.declaredName?, is, Form.declaredName?]
    rw [names] at distinct ⊢
    have fresh : (before.lookup name).isSome = false := by
      have apart : name ∉ before.map Prod.fst := fun among =>
        (List.nodup_append.mp distinct).2.2 name among name (by simp) rfl
      cases found : before.lookup name with
      | none => rfl
      | some value => exact absurd (List.mem_map.mpr ⟨_, mem_of_lookup found, rfl⟩) apart
    unfold bindInputs
    simp only [is]
    cases arguments with
    | nil => exact ⟨_, _, rfl, rfl⟩
    | cons argument rest =>
      have goesOn := hypothesis (fun other among => fit other (by simp [among])) rest
        (show ((before ++ [(name, argument)]).map Prod.fst ++ _).Nodup by simpa using distinct)
      simp only [fresh]
      cases bound : bindInputs tree origin inputs rest (before ++ [(name, argument)]) with
      | error thrown =>
        rw [bound] at goesOn
        exact goesOn
      | ok bindings =>
        rw [bound] at goesOn
        refine ⟨by simpa using goesOn.1, fun binding among => ?_⟩
        rcases goesOn.2 binding among with old | new
        · rcases List.mem_append.mp old with before | now
          · exact .inl before
          · rw [List.mem_singleton.mp now]
            exact .inr (by simp)
        · exact .inr (by simp [new])

end Machine

theorem isSome_lookup_iff {bindings : List (String × Value)} {name : String} :
    (bindings.lookup name).isSome ↔ name ∈ bindings.map Prod.fst := by
  induction bindings with
  | nil => simp
  | cons binding rest hypothesis =>
    obtain ⟨first, value⟩ := binding
    by_cases same : name = first
    · simp [same]
    · have apart : (name == first) = false := by simpa using same
      simp [List.lookup_cons, apart, same, hypothesis]

/-! ### Failures of natives -/

/-- A native of the standard table fails for the kinds of its inputs only. -/
theorem dynamic_of_standard {native : Native} (standard : native ∈ Natives.standard.definitions)
    {value : NativeCall → Value} (is : native.body = .pure value) {call : NativeCall}
    (failed : (value call).isException = true) :
    ∃ failure node, value call = .failed failure node ∧ failure.isStatic = false := by
  have mismatched (expected : ValueKind) (found : Value) :
      ∃ failure node, call.mismatch expected found = .failed failure node ∧ failure.isStatic = false :=
    ⟨_, _, rfl, rfl⟩
  simp only [Natives.standard, List.mem_cons, List.not_mem_nil, or_false] at standard
  rcases standard with rfl | rfl | rfl | rfl | rfl | rfl | rfl | rfl
  · obtain rfl := NativeBody.pure_inj is
    unfold Natives.length at failed ⊢
    dsimp only at failed ⊢
    split
    · rename_i counted
      simp [counted, isException] at failed
    · exact mismatched _ _
  · obtain rfl := NativeBody.pure_inj is
    unfold Natives.contains at failed ⊢
    dsimp only at failed ⊢
    split at failed
    all_goals first
      | exact mismatched _ _
      | simp [isException] at failed
  · obtain rfl := NativeBody.pure_inj is
    unfold Natives.keys at failed ⊢
    split at failed
    · simp [isException] at failed
    · exact mismatched _ _
  · obtain rfl := NativeBody.pure_inj is
    unfold Natives.entryValues at failed ⊢
    split at failed
    · simp [isException] at failed
    · exact mismatched _ _
  · obtain rfl := NativeBody.pure_inj is
    unfold Natives.text at failed
    split at failed <;> simp [isException] at failed
  all_goals cases is

namespace Stage

variable {α : Type} {stage : Stage} {visits : List Visit} {store : Store} {scope : ScopeId} {id : NodeId}
  {world : World} {call : Caller} {node : Evaluator}

/-! ### Scopes of calls -/

/-- Whatever happens in a scope that was just added leaves the scopes from before alone. -/
theorem runs_in_added {required : α → World → Prop} {added : Scope} {outer : ScopeId}
    {next : ScopeId → Eval α} (ready : stage.Ready world) (around : added.parent = some outer)
    (inside : stage.root ≤ outer) (bound : outer < world.store.scopes.size)
    (good : ∀ binding ∈ added.bindings, stage.Good world.visits world.store binding.2)
    (later : stage.Ready ⟨(world.store.add added).2, world.visits⟩ →
      stage.Runs (KeepsOthers world.store.scopes.size) (next world.store.scopes.size)
        ⟨(world.store.add added).2, world.visits⟩ required) :
    stage.Runs Keeps (addScope added >>= next) world required := by
  have runs := later ⟨ready.consistent.add around inside bound good, ready.recorded⟩
  unfold Runs at runs ⊢
  rw [bind_of_ok (addScope_eq added)]
  split at runs
  · obtain ⟨⟨kept, size, more, same, after⟩, rest⟩ := runs
    have wider : world.store.scopes.size ≤ (world.store.add added).2.scopes.size := by simp
    refine ⟨⟨keeps_of_fresh kept, Nat.le_trans wider size, more, same, fun visit among => ?_⟩, rest⟩
    exact Nat.le_trans wider (after visit among)
  · exact runs

/-- The bindings of a call: the inputs, and the function itself unless an input has its name. -/
theorem lookup_callBindings {tree : Tree} {function : Function} {inputs : List NodeId}
    {bound : List (String × Value)} (name : String) :
    (Machine.callBindings tree function inputs bound).lookup name =
      if name ∉ declaredNames tree inputs ∧ name = function.name ∧ name ≠ "" then
        some (.function function)
      else bound.lookup name := by
  have declared (name : String) :
      Machine.declaredByInput tree inputs name = true ↔ name ∈ declaredNames tree inputs := by
    simp [Machine.declaredByInput, declaredNames, Checking.declaredName?]
  unfold Machine.callBindings
  split
  · rename_i either
    rw [if_neg]
    rintro ⟨other, rfl, spelled⟩
    simp [spelled, declared, other] at either
  · rename_i neither
    simp only [Naming.anonymous_string, Bool.or_eq_true, declared, decide_eq_true_eq, not_or] at neither
    rw [Scope.lookup_setBinding]
    by_cases same : name = function.name
    · subst same
      simp [neither]
    · simp [same]

/-- The body of a good function is situated in the scope of a call with good bindings. -/
theorem situated_in_call {function : Function} {inputs : ChildList} {body : NodeId} {context : ScopeId}
    (consistent : stage.Consistent visits store)
    (called : function.callee = .definition id) (captured : function.context = some context)
    (grounded : stage.Grounded visits store function id)
    (is : stage.tree.form? id = some (.function "" inputs body none))
    {bound : List (String × Value)}
    (names : bound.map Prod.fst = declaredNames stage.tree (stage.tree.list inputs)) :
    stage.Situated visits
      (store.add ⟨Machine.callBindings stage.tree function (stage.tree.list inputs) bound, some context⟩).2
      store.scopes.size body := by
  obtain ⟨visit, among, same, made⟩ := grounded.made
  subst same
  rw [captured, Option.some.injEq] at made
  subst made
  have local_ (name : String) := @lookup_callBindings stage.tree function (stage.tree.list inputs) bound name
  refine .body {
    made := among
    is_function := is
    within := .here
    later := consistent.rooted.inside
    around := by rw [parent?_add_self]
    inputs_bound := fun name input => ?_
    own_bound := fun name value other => ?_
    literal_bound := fun name spelled literal other => ?_ }
  · rw [local?_add_self, local_, if_neg (fun own => own.1 input), isSome_lookup_iff, names]
    exact input
  · rw [local?_add_self, local_]
    split
    · rename_i itself
      rintro ⟨⟩
      obtain ⟨-, rfl, -⟩ := itself
      rw [← called, ← captured]
    · intro found
      have : name ∈ bound.map Prod.fst := List.mem_map.mpr ⟨_, mem_of_lookup found, rfl⟩
      exact absurd (names ▸ this) other
  · obtain ⟨named, there⟩ := grounded.bound name literal
    refine ⟨.function function, ?_, ?_⟩
    · rw [local?_add_self, local_, if_pos ⟨other, named.symm, spelled⟩]
    · rw [(keeps_add store _).local? consistent.bound, there]

theorem runs_handOver (ready : stage.Ready world) {value : Value}
    (good : stage.Good world.visits world.store value) :
    stage.Runs Keeps (handOver value) world stage.Yields := by
  unfold handOver
  split
  · rename_i exception
    refine runs_of_halt ready.recorded (good.own.2.imp_right fun regular => ?_)
    simp [exception] at regular
  · exact runs_pure ready good

theorem forM_defaultWith {tree : Tree} {inputs : List NodeId} (fit : ∀ input ∈ inputs, tree.IsInput input)
    (node : Evaluator) (scope : ScopeId) : inputs.forM (defaultWith tree node scope) = pure () := by
  induction inputs with
  | nil => rfl
  | cons input inputs hypothesis =>
    obtain ⟨name, -, is⟩ := fit input (by simp)
    have nothing : defaultWith tree node scope input = pure () := by
      simp [defaultWith, is, NodeId.isMissing]
    change (defaultWith tree node scope input >>= fun _ => inputs.forM _) = pure ()
    rw [nothing, pure_bind, hypothesis fun other among => fit other (by simp [among])]

theorem runs_definition (callRuns : ∀ id, stage.TermRuns node id) (ready : stage.Ready world)
    {function : Function} (called : function.callee = .definition id)
    (good : stage.Good world.visits world.store (.function function)) {arguments : List Value}
    (goods : ∀ argument ∈ arguments, stage.Good world.visits world.store argument) (origin : NodeId) :
    stage.Runs Keeps (callWith stage.setting node call function arguments origin) world stage.Yields := by
  have grounded := good.grounded called
  obtain ⟨visit, among, same, captured⟩ := grounded.made
  obtain ⟨inputs, body, is⟩ := form?_of_isFunction grounded.defined
  obtain ⟨-, -, fit, term⟩ : stage.tree.Fits (.function "" inputs body none) := stage.written.fits id _ is
  have known : Machine.definitionOf? stage.tree id = some (.function id, stage.tree.list inputs) := by
    simp [Machine.definitionOf?, is]
  have distinct := stage.accepted.inputs id "" inputs body none is
  have arguments_bound := Machine.bindInputs_of_inputs origin fit arguments
    (show (([] : List (String × Value)).map Prod.fst ++ _).Nodup by simpa using distinct)
  have tree : stage.setting.tree = stage.tree := rfl
  unfold callWith
  simp only [called, tree, known]
  cases bindings : Machine.bindInputs stage.tree origin (stage.tree.list inputs) arguments [] with
  | error thrown =>
    rw [bindings] at arguments_bound
    exact runs_of_halt ready.recorded (.inr arguments_bound)
  | ok bound =>
    rw [bindings] at arguments_bound
    obtain ⟨names, supplied⟩ := arguments_bound
    have boundGood : ∀ binding ∈ bound, stage.Good world.visits world.store binding.2 := by
      intro binding there
      rcases supplied binding there with none | argument
      · simp at none
      · exact goods _ argument
    have addedGood : ∀ binding ∈ Machine.callBindings stage.tree function (stage.tree.list inputs) bound,
        stage.Good world.visits world.store binding.2 := by
      intro binding there
      unfold Machine.callBindings at there
      split at there
      · exact boundGood binding there
      · rcases Scope.mem_setBinding there with rfl | old
        · exact good
        · exact boundGood binding old
    have situated := situated_in_call ready.consistent called captured grounded is
      (by simpa using names)
    have function : (stage.tree.form? visit.node).any Form.isFunction = true := same ▸ grounded.defined
    have older := ready.consistent.captured_lt among function
    obtain ⟨before, after, split⟩ := List.append_of_mem among
    have inside := (ready.recorded before visit after split).1.rooted.inside
    dsimp only
    rw [captured, Option.getD_some]
    refine runs_in_added ready rfl (Nat.le_of_lt inside) older addedGood fun ready' => ?_
    rw [forM_defaultWith fit, pure_bind]
    have present : body.isMissing = false := by
      cases body with
      | missing => simp [Tree.isTerm, Tree.form?_missing] at term
      | node => rfl
    have link : body ∈ stage.tree.children id := Context.body_mem_children stage.written is
    have unbound := not_literal_of_child link (by simp [is])
    have runs := callRuns body _ _ ready' situated term unbound
    have evaluated : bodyWith stage.tree node world.store.scopes.size id =
        node world.store.scopes.size body := by
      simp [bodyWith, is, present]
    rw [evaluated]
    refine runs_mono (runs_bind runs fun value world' _ ready'' good => runs_handOver ready'' good) ?_ ?_
    · exact fun _ kept => kept.others
    · exact fun _ _ _ yields => yields

/-! ### Loops -/

theorem runs_rebind (ready : stage.Ready world) (spare : stage.Spare world.visits world.store scope)
    (name : String) {value : Value} (good : stage.Good world.visits world.store value) :
    stage.Runs (KeepsOthers scope) (rebind scope name value) world fun _ _ => True :=
  ⟨⟨keepsOthers_rebind _ _ _ _, by simp, [], by simp, by simp⟩,
    ⟨ready.consistent.rebind spare name good, ready.recorded⟩, trivial⟩

theorem runs_eachWith (calls : stage.CallRuns call) {function : Function} (op : HigherOrder)
    (collection : Value) (origin : NodeId) (index : Nat) {result : Value} {kept : List Value}
    {elements : List Element} (ready : stage.Ready world)
    (spare : stage.Spare world.visits world.store scope)
    (functionGood : stage.Good world.visits world.store (.function function))
    (resultGood : stage.Good world.visits world.store result)
    (keptGood : ∀ value ∈ kept, stage.Good world.visits world.store value)
    (elementsGood : ∀ element ∈ elements, ∀ argument ∈ Machine.elementArguments element,
      stage.Good world.visits world.store argument) :
    stage.Runs (KeepsOthers scope)
      (eachWith (fun arguments => call function arguments origin) op collection scope origin index
        result kept elements) world stage.Yields := by
  have other := Nat.ne_of_lt spare.later
  induction elements generalizing index result kept world with
  | nil =>
    unfold eachWith
    split
    · exact runs_pure ready resultGood
    · exact runs_pure ready (every_collectLike plain_good collection keptGood)
  | cons element rest hypothesis =>
    have elementGood := elementsGood element (by simp)
    have argumentsGood : ∀ argument ∈ (if op == .fold then [result] else []) ++ Machine.elementArguments element,
        stage.Good world.visits world.store argument := by
      intro argument among
      rcases List.mem_append.mp among with first | own
      · split at first
        · rwa [List.mem_singleton.mp first]
        · simp at first
      · exact elementGood argument own
    have called := calls function _ origin world ready functionGood argumentsGood
    refine runs_bind (runs_mono called (fun _ kept => kept.others) fun _ _ _ yields => yields) ?_
    intro produced world' toProduced ready' good
    split
    · exact runs_fail ready'.recorded (.inr rfl) _
    · rename_i more is
      -- Everything that was good before the call still is, in every later world of this round.
      have goesOn {world'' : World} {next : Value} (after : Advances (KeepsOthers scope) world' world'')
          (ready'' : stage.Ready world'') (nextGood : stage.Good world''.visits world''.store next) :
          stage.Runs (KeepsOthers scope) (do
            rebind scope Natives.indexName (.number (.ofNat (index + 1)))
            eachWith (fun arguments => call function arguments origin) op collection scope origin (index + 1)
              next (kept ++ more) rest) world'' stage.Yields := by
        have toHere := toProduced.trans after
        have spare'' := spare.advances toHere
        refine runs_bind (runs_rebind ready'' spare'' _ (every_number plain_good _)) ?_
        intro _ last toLast readyLast _
        have toLast' := toHere.trans toLast
        refine hypothesis (index + 1) readyLast (spare.advances toLast') ?_ ?_ ?_ ?_
        · exact functionGood.others ready toLast' other
        · exact nextGood.others ready'' toLast other
        · intro value among
          rcases List.mem_append.mp among with old | new
          · exact (keptGood value old).others ready toLast' other
          · have elementGood' : ∀ argument ∈ Machine.elementArguments element,
                stage.Good world'.visits world'.store argument :=
              fun argument among => (elementGood argument among).others ready toProduced other
            have retained : stage.Good world'.visits world'.store value :=
              every_retained elementGood' good is value new
            exact retained.others ready' (after.trans toLast) other
        · intro element' among argument own
          exact (elementsGood element' (by simp [among]) argument own).others ready toLast' other
      split
      · refine runs_bind (runs_rebind ready' (spare.advances toProduced) _ good) ?_
        exact fun _ world'' after ready'' _ => goesOn after ready'' (good.others ready' after other)
      · exact goesOn (.refl world') ready' (resultGood.others ready toProduced other)

theorem runs_loopWith (calls : stage.CallRuns call) (op : HigherOrder)
    {collection function initial : Value} (origin : NodeId) (ready : stage.Ready world)
    (spare : stage.Spare world.visits world.store scope)
    (collectionGood : stage.Good world.visits world.store collection)
    (functionGood : stage.Good world.visits world.store function)
    (initialGood : stage.Good world.visits world.store initial) :
    stage.Runs (KeepsOthers scope) (loopWith call op collection function initial scope origin) world
      stage.Yields := by
  have other := Nat.ne_of_lt spare.later
  unfold loopWith
  split
  · exact runs_fail ready.recorded (.inr rfl) _
  · split
    · rename_i function
      have each {world' : World} (after : Advances (KeepsOthers scope) world world')
          (ready' : stage.Ready world') :
          stage.Runs (KeepsOthers scope) (eachWith (fun arguments => call function arguments origin) op
            collection scope origin 0 initial [] collection.elements) world' stage.Yields := by
        refine runs_eachWith calls op collection origin 0 ready' (spare.advances after) ?_ ?_ (by simp) ?_
        · exact functionGood.others ready after other
        · exact initialGood.others ready after other
        · intro element among argument own
          have good : stage.Good world.visits world.store argument := every_element collectionGood among argument own
          exact good.others ready after other
      refine runs_bind (runs_rebind ready spare _ (every_number plain_good _)) ?_
      intro _ world' after ready' _
      dsimp only
      split
      · have initialGood' := initialGood.others ready after other
        refine runs_bind (runs_rebind ready' (spare.advances after) _ initialGood') ?_
        exact fun _ world'' after' ready'' _ => each (after.trans after') ready''
      · exact each after ready'
    · exact runs_fail ready.recorded (.inr rfl) _

/-! ### Natives -/

theorem runs_nativeWith (calls : stage.CallRuns call) {native : Native}
    (registered : native ∈ stage.context.natives.definitions) {inputs : List (String × Value)}
    (origin : NodeId) (ready : stage.Ready world) (spare : stage.Spare world.visits world.store scope)
    (goods : ∀ input ∈ inputs, stage.Good world.visits world.store input.2) :
    stage.Runs (KeepsOthers scope) (nativeWith call native inputs scope origin >>= handOver) world
      stage.Yields := by
  have inputGood (name : String) : stage.Good world.visits world.store ((inputs.lookup name).getD .none) := by
    cases found : inputs.lookup name with
    | none => exact every_none plain_good
    | some value => exact goods _ (mem_of_lookup found)
  cases is : native.body with
  | apply run =>
    obtain ⟨made, is, derives⟩ := stage.derive native registered run is
    rw [nativeWith_of_pure is, pure_bind, handOver]
    split
    · rename_i exception
      refine runs_of_halt ready.recorded ?_
      exact stage.strict.imp_right fun strict => dynamic_of_standard (strict.1 ▸ registered) is exception
    · rename_i regular
      refine runs_pure ready ?_
      refine derives _ plain_good _ (fun input among => ?_) (by simpa using regular)
      obtain ⟨name, _, rfl⟩ := List.mem_map.mp among
      exact inputGood name
  | loop op =>
    unfold nativeWith
    rw [is]
    have runs := runs_loopWith calls op origin ready spare (inputGood Natives.collectionName)
      (inputGood Natives.functionName) (inputGood Natives.initialName)
    refine runs_bind runs fun value world' _ ready' good => ?_
    exact runs_mono (runs_handOver ready' good) (fun _ kept => kept.others) fun _ _ _ yields => yields

theorem runs_native (calls : stage.CallRuns call) (ready : stage.Ready world) {function : Function}
    {index : Nat} (called : function.callee = .native index) {arguments : List Value}
    (goods : ∀ argument ∈ arguments, stage.Good world.visits world.store argument) (origin : NodeId) :
    stage.Runs Keeps (callWith stage.setting node call function arguments origin) world stage.Yields := by
  have natives : stage.setting.natives = stage.context.natives := rfl
  have root : stage.setting.root = stage.root := rfl
  unfold callWith
  simp only [called, natives, root]
  split
  · exact runs_misuse ready.recorded _
  · rename_i native known
    split
    · exact runs_fail ready.recorded (.inr rfl) _
    · split
      · exact runs_fail ready.recorded (.inr rfl) _
      · have bindings : ∀ binding ∈ (native.inputs.zip arguments).foldl
            (fun bound input => Scope.setBinding input.1 input.2 bound) [],
            stage.Good world.visits world.store binding.2 := by
          intro binding among
          rcases Scope.mem_setBindings among with input | none
          · exact goods _ (List.of_mem_zip input).2
          · simp at none
        refine runs_in_added ready rfl (Nat.le_refl _) ready.consistent.rooted.inside bindings fun ready' => ?_
        have spare (added : Scope) : stage.Spare world.visits (world.store.add added).2 world.store.scopes.size :=
          ⟨ready.consistent.bound, by simp,
            fun visit among function => Nat.ne_of_lt (ready.consistent.captured_lt among function)⟩
        refine runs_nativeWith calls (List.mem_of_getElem? known) origin ready' (spare _) fun input among => ?_
        exact (bindings input among).mono (List.Subset.refl _) fun name value is => by
          rwa [(keeps_add _ _).local? ready.consistent.bound]

/-! ### All calls -/

/-- A good function runs on good arguments, however deep calls may nest. -/
theorem runs_callTo (stage : Stage) (calls : Nat) : stage.CallRuns (callTo stage.setting calls) := by
  induction calls with
  | zero =>
    intro function arguments origin world ready _ _
    exact runs_fail ready.recorded (.inr rfl) _
  | succ calls hypothesis =>
    intro function arguments origin world ready good goods
    cases called : function.callee with
    | definition id => exact runs_definition (runs_term hypothesis) ready called good goods origin
    | native index => exact runs_native hypothesis ready called goods origin

end Stage

end Rivulet
