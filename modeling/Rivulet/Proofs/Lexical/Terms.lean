import Rivulet.Proofs.Lexical.Names
import Rivulet.Proofs.Lexical.Rules
import Rivulet.Proofs.Meaning.Recursion

/-!
Expressions on a stage. An expression leaves all scopes as they are and has a good value; it adds scopes
only for what it captures and calls (`runs_term`, given the same of calls).
-/

namespace Rivulet

/-! ### Failures of operators -/

namespace Operators

theorem dynamic_of_misfit {left right : Value} {failure : Failure}
    (failed : misfit left right = .error failure) : failure.isStatic = false := by
  unfold misfit at failed
  split at failed <;> cases failed <;> rfl

theorem dynamic_of_numeric {result : Except ArithmeticError Quantity} {failure : Failure}
    (failed : numeric result = .error failure) : failure.isStatic = false := by
  cases result with
  | ok number => simp [numeric] at failed
  | error error =>
    cases failed
    cases error <;> rfl

theorem dynamic_of_onNumbers {op : BinaryOp} {left right : Quantity} {failure : Failure}
    (failed : onNumbers op left right = .error failure) : failure.isStatic = false := by
  unfold onNumbers at failed
  split at failed
  · exact dynamic_of_numeric failed
  · exact dynamic_of_numeric failed
  · simp at failed
  · exact dynamic_of_numeric failed
  · exact dynamic_of_numeric failed
  · split at failed
    · simp at failed
    · rename_i error _
      cases failed
      cases error <;> rfl

theorem dynamic_of_logical {op : BinaryOp} {left right : Value} {failure : Failure}
    (failed : logical op left right = .error failure) : failure.isStatic = false := by
  unfold logical mismatch at failed
  split at failed <;> cases failed <;> rfl

/-- An operator fails for the kinds, the units or the amounts of its operands only. -/
theorem dynamic_of_binary {op : BinaryOp} {left right : Value} {failure : Failure}
    (failed : binary op left right = .error failure) : failure.isStatic = false := by
  unfold binary at failed
  split at failed
  · simp at failed
  · simp at failed
  · exact dynamic_of_logical failed
  · exact dynamic_of_logical failed
  · split at failed
    · exact dynamic_of_onNumbers failed
    · split at failed
      · simp at failed
      · split at failed
        · simp at failed
        · exact dynamic_of_misfit failed
    · split at failed
      · simp at failed
      · exact dynamic_of_misfit failed
    · exact dynamic_of_misfit failed

theorem dynamic_of_unary {op : UnaryOp} {operand : Value} {failure : Failure}
    (failed : unary op operand = .error failure) : failure.isStatic = false := by
  unfold unary mismatch at failed
  split at failed <;> cases failed <;> rfl

end Operators

namespace Stage

open Meaning Store Value

variable {stage : Stage} {visits : List Visit} {store : Store} {scope : ScopeId} {id child : NodeId}
  {world : World}

/-- What expressions and calls come to: a good value. -/
def Yields (stage : Stage) (value : Value) (world : World) : Prop :=
  stage.Good world.visits world.store value

/-- What lists of expressions come to: good values. -/
def YieldsAll (stage : Stage) (values : List Value) (world : World) : Prop :=
  ∀ value ∈ values, stage.Good world.visits world.store value

/-! ### Visits -/

/-- A visit that makes no closure leaves a store consistent. -/
theorem Consistent.visit (consistent : stage.Consistent visits store) {visit : Visit}
    (kept : ∀ name value, visit.store.local? stage.scope name = some value →
      store.local? stage.scope name = some value)
    (captured : (stage.tree.form? visit.node).any Form.isFunction = true →
      store.scopes[visit.store.scopes.size]? = some (visit.store.snapshot visit.scope)) :
    stage.Consistent (visits ++ [visit]) store where
  rooted := consistent.rooted
  outermost := consistent.outermost
  bound := consistent.bound
  around := consistent.around
  captured other among function := by
    rcases List.mem_append.mp among with earlier | now
    · exact consistent.captured other earlier function
    · rw [List.mem_singleton] at now
      subst now
      exact captured function
  remembers other among := by
    rcases List.mem_append.mp among with earlier | now
    · exact consistent.remembers other earlier
    · rw [List.mem_singleton] at now
      exact now ▸ kept
  holds id found later there := by
    have held := consistent.holds id found later there
    refine ⟨fun binding among => ?_, held.parent⟩
    exact (held.bindings binding among).mono (List.subset_append_left _ _) fun _ _ is => is

theorem Consistent.capture (consistent : stage.Consistent visits store)
    (situated : stage.Situated visits store scope id) :
    stage.Consistent (visits ++ [⟨id, scope, store⟩]) (store.capture scope).2 := by
  have later := Nat.le_of_lt situated.root_lt
  have outer := (snapshot_spec consistent.rooted later (situated.bound consistent)).1
  have held := consistent.holds.capture later store.scopes.size (store.snapshot scope)
    (Nat.le_of_lt consistent.rooted.inside) (by rw [capture_eq_add, getElem?_add_self])
  have added := consistent.add outer (Nat.le_refl _) consistent.rooted.inside held.bindings
  refine added.visit (fun name value bound => ?_) fun _ => by rw [getElem?_add_self]
  rwa [(keeps_add store _).local? consistent.bound]

theorem Ready.visit (ready : stage.Ready world)
    (situated : stage.Situated world.visits world.store scope id)
    (other : (stage.tree.form? id).any Form.isFunction = false) :
    stage.Ready ⟨world.store, world.visits ++ [⟨id, scope, world.store⟩]⟩ where
  consistent := ready.consistent.visit (fun _ _ bound => bound) fun function => by simp [other] at function
  recorded := ready.recorded.concat ready.consistent situated

/-- A reference has the value that its name is bound to. -/
theorem runs_reference (ready : stage.Ready world)
    (situated : stage.Situated world.visits world.store scope id) {name : String}
    (is : stage.tree.form? id = some (.reference name)) :
    stage.Runs Keeps (visit id scope >>= fun _ => lookUp id scope name) world stage.Yields := by
  have visited := ready.visit situated (by simp [is, Form.isFunction])
  obtain ⟨value, found⟩ := Option.isSome_iff_exists.mp (ready.isSome_lookup situated is)
  have good := visited.consistent.holds.lookup (Nat.le_of_lt situated.root_lt) found
  have computed : (visit id scope >>= fun _ => lookUp id scope name) world =
      .ok value ⟨world.store, world.visits ++ [⟨id, scope, world.store⟩]⟩ := by
    rw [bind_of_ok (visit_eq id scope), lookUp_eq]
    dsimp only
    rw [found]
  unfold Runs
  rw [computed]
  exact ⟨⟨refl_of Keeps _, Nat.le_refl _, _, rfl, by simp⟩, visited, good⟩

/-- A definition without a name yields a closure over what is visible. -/
theorem runs_closure (ready : stage.Ready world)
    (situated : stage.Situated world.visits world.store scope id) :
    stage.Runs Keeps (visit id scope >>= fun _ => define scope id "") world fun value world' =>
      value = .function ⟨.definition id, some world.store.scopes.size, ""⟩ ∧
        ⟨id, scope, world.store⟩ ∈ world'.visits := by
  have computed : (visit id scope >>= fun _ => define scope id "") world =
      .ok (.function ⟨.definition id, some world.store.scopes.size, ""⟩)
        ⟨(world.store.capture scope).2, world.visits ++ [⟨id, scope, world.store⟩]⟩ := by
    rw [bind_of_ok (visit_eq id scope), define_eq]
    rfl
  have consistent := ready.consistent.capture situated
  unfold Runs
  rw [computed]
  refine ⟨⟨keeps_capture _ _, ?_, _, rfl, by simp⟩, ⟨consistent, ?_⟩, rfl, by simp⟩
  · rw [capture_eq_add, size_add]
    exact Nat.le_succ _
  · exact ready.recorded.concat ready.consistent situated

/-! ### Parts of expressions -/

theorem runs_mapM {β : Type} {elements : List β} {each : β → Eval Value} (ready : stage.Ready world)
    (first : ∀ element ∈ elements, ∀ world', Advances Keeps world world' → stage.Ready world' →
      stage.Runs Keeps (each element) world' stage.Yields) :
    stage.Runs Keeps (elements.mapM each) world stage.YieldsAll := by
  induction elements generalizing world with
  | nil =>
    rw [List.mapM_nil]
    exact runs_pure ready (by simp [YieldsAll])
  | cons element rest hypothesis =>
    rw [List.mapM_cons]
    refine runs_bind (first element (by simp) world (.refl world) ready) fun value world' toValue ready' good => ?_
    have others : ∀ other ∈ rest, ∀ world'', Advances Keeps world' world'' → stage.Ready world'' →
        stage.Runs Keeps (each other) world'' stage.Yields :=
      fun other among world'' advances => first other (by simp [among]) world'' (toValue.trans advances)
    refine runs_bind (hypothesis ready' others) fun values world'' toValues ready'' goods => ?_
    refine runs_pure ready'' fun other among => ?_
    rcases List.mem_cons.mp among with rfl | later
    · exact good.advances ready' toValues
    · exact goods other later

theorem runs_truth (ready : stage.Ready world) (value : Value) (node : NodeId) :
    stage.Runs Keeps (truth value node) world fun _ _ => True := by
  unfold truth
  split
  · exact runs_pure ready trivial
  · exact runs_fail ready.recorded (.inr rfl) _

theorem runs_yield (ready : stage.Ready world) {result : Except Failure Value} (node : NodeId)
    (good : ∀ value, result = .ok value → stage.Good world.visits world.store value)
    (dynamic : ∀ failure, result = .error failure → failure.isStatic = false) :
    stage.Runs Keeps (yield result node) world stage.Yields := by
  cases result with
  | ok value => exact runs_pure ready (good value rfl)
  | error failure => exact runs_fail ready.recorded (.inr (dynamic failure rfl)) _

theorem runs_field (ready : stage.Ready world) {owner : Value}
    (good : stage.Good world.visits world.store owner) (name : String) (node : NodeId) :
    stage.Runs Keeps (field owner name node) world stage.Yields := by
  unfold field
  split
  · split
    · rename_i found
      exact runs_pure ready (every_field good found)
    · exact runs_fail ready.recorded (.inr rfl) _
  · exact runs_fail ready.recorded (.inr rfl) _

/-! ### Expressions -/

/-- An expression runs wherever it is situated. -/
def TermRuns (stage : Stage) (node : Evaluator) (id : NodeId) : Prop :=
  ∀ scope world, stage.Ready world → stage.Situated world.visits world.store scope id →
    stage.tree.isTerm id = true → (∀ name, ¬ stage.tree.IsLiteral id name) →
    stage.Runs Keeps (node scope id) world stage.Yields

/-- A good function runs on good arguments. -/
def CallRuns (stage : Stage) (call : Caller) : Prop :=
  ∀ function arguments origin world, stage.Ready world →
    stage.Good world.visits world.store (.function function) →
    (∀ argument ∈ arguments, stage.Good world.visits world.store argument) →
    stage.Runs Keeps (call function arguments origin) world stage.Yields

/-- The children of an expression are not the values of binds. -/
theorem not_literal_of_child (link : child ∈ stage.tree.children id)
    (other : ∀ name value declared variadic,
      stage.tree.form? id ≠ some (.bind name value declared variadic)) (name : String) :
    ¬ stage.tree.IsLiteral child name := by
  rintro ⟨-, bind, declared, variadic, is⟩
  have present : child ∈ stage.tree.children bind :=
    Tree.mem_children_iff.mpr ⟨⟨_, is, by simp [Form.links]⟩, Tree.isPresent_of_mem_children link⟩
  have same := stage.written.single child bind id present link
  exact other _ _ _ _ (same ▸ is)

section

variable {node : Evaluator} {call : Caller}

/-- An expression runs when its children do, and calls do. -/
theorem runs_nodeWith (calls : stage.CallRuns call)
    (children : ∀ child, stage.tree.Child child id → stage.TermRuns node child)
    (ready : stage.Ready world) (situated : stage.Situated world.visits world.store scope id)
    (term : stage.tree.isTerm id = true) (unbound : ∀ name, ¬ stage.tree.IsLiteral id name) :
    stage.Runs Keeps (nodeWith stage.setting node call scope id) world stage.Yields := by
  obtain ⟨form, is, isTerm⟩ := Tree.form?_of_isTerm term
  have fits : stage.tree.Fits form := stage.written.fits id form is
  -- What follows for children holds in every world that comes later.
  have child {world' : World} (passes : form.opensScope = false) (child : NodeId)
      (link : child ∈ form.links stage.tree.list) (childTerm : stage.tree.isTerm child = true)
      (ready' : stage.Ready world') (advances : Advances Keeps world world') :
      stage.Runs Keeps (childWith stage.tree (node scope) id child) world' stage.Yields := by
    have there := Tree.isSome_of_isTerm childTerm
    have link' : child ∈ stage.tree.children id :=
      Tree.mem_children_iff.mpr ⟨⟨form, is, link⟩, Context.isPresent_of_isSome there⟩
    rw [childWith, if_pos there]
    refine children child ⟨form, is, link⟩ scope world' ready' ?_ childTerm ?_
    · exact (situated.advances ready advances).child is passes link'
    · refine not_literal_of_child link' ?_
      rintro name value declared variadic is'
      rw [is] at is'
      cases is'
      simp [Form.isTerm] at isTerm
  have list {world' : World} (passes : form.opensScope = false) (list : List NodeId)
      (links : ∀ child ∈ list, child ∈ form.links stage.tree.list ∧ stage.tree.isTerm child = true)
      (ready' : stage.Ready world') (advances : Advances Keeps world world') :
      stage.Runs Keeps (list.mapM (childWith stage.tree (node scope) id)) world' stage.YieldsAll :=
    runs_mapM ready' fun element among world'' advances' ready'' =>
      child passes element (links element among).1 (links element among).2 ready''
        (advances.trans advances')
  have here : Advances Keeps world world := Advances.refl world
  have tree : stage.setting.tree = stage.tree := rfl
  unfold nodeWith
  simp only [tree, is]
  cases form with
  | number literal measure =>
    obtain ⟨number, read⟩ := Option.isSome_iff_exists.mp (stage.accepted.numbers id literal measure is)
    dsimp only
    rw [read]
    exact runs_pure ready (every_number plain_good _)
  | boolean value => exact runs_pure ready (every_boolean plain_good _)
  | text value => exact runs_pure ready (every_text plain_good _)
  | none => exact runs_pure ready (every_none plain_good)
  | sequence items =>
    have terms := fits.2
    refine runs_bind (list rfl _ (fun item among => ?_) ready here) fun values world' _ ready' goods => ?_
    · exact ⟨by simpa [Form.links] using among, terms item (by simpa [Form.links] using among)⟩
    · exact runs_pure ready' (every_sequence plain_good goods)
  | reference name => exact runs_reference ready situated is
  | property owner name =>
    refine runs_bind (child rfl owner (by simp [Form.links]) (fits.2 owner (by simp [Form.links])) ready here) ?_
    exact fun owner world' _ ready' good => runs_field ready' good name id
  | binary op left right =>
    have leftTerm := fits.2 left (by simp [Form.links])
    have rightTerm := fits.2 right (by simp [Form.links])
    have leftRuns := child rfl left (by simp [Form.links]) leftTerm ready here
    dsimp only
    split
    · refine runs_bind leftRuns fun left world' toLeft ready' _ => ?_
      refine runs_bind (runs_truth ready' _ _) fun first world'' toFirst ready'' _ => ?_
      split
      · exact runs_pure ready'' (every_boolean plain_good _)
      · have toRight := toLeft.trans toFirst
        refine runs_bind (child rfl right (by simp [Form.links]) rightTerm ready'' toRight) ?_
        refine fun right world' _ ready' _ => runs_bind (runs_truth ready' _ _) ?_
        exact fun second world' _ ready' _ => runs_pure ready' (every_boolean plain_good _)
    · refine runs_bind leftRuns fun left world' toLeft ready' leftGood => ?_
      refine runs_bind (child rfl right (by simp [Form.links]) rightTerm ready' toLeft) ?_
      intro right world'' toRight ready'' rightGood
      refine runs_yield ready'' _ (fun _ made => ?_) fun _ => Operators.dynamic_of_binary
      exact every_binary plain_good (leftGood.advances ready' toRight) rightGood made
  | unary op operand =>
    refine runs_bind (child rfl operand (by simp [Form.links]) (fits.2 operand (by simp [Form.links])) ready here) ?_
    intro operand world' _ ready' _
    exact runs_yield ready' _ (fun _ made => every_unary plain_good made) fun _ => Operators.dynamic_of_unary
  | function own inputs body output =>
    obtain ⟨rfl, -⟩ := fits
    refine runs_weaken (runs_closure ready situated) ?_
    rintro _ world' ⟨rfl, visited⟩
    refine good_function ?_
    rintro _ ⟨⟩
    exact ⟨⟨_, visited, rfl, rfl⟩, by simp [is, Form.isFunction], fun name literal => absurd literal (unbound name)⟩
  | call callee arguments =>
    have calleeTerm := fits.2 callee (by simp [Form.links])
    refine runs_bind (child rfl callee (by simp [Form.links]) calleeTerm ready here) ?_
    intro function world' toCallee ready' good
    refine runs_bind (list rfl _ (fun argument among => ?_) ready' toCallee) ?_
    · have link : argument ∈ (Form.call callee arguments : Form).links stage.tree.list := by
        simp [Form.links, among]
      exact ⟨link, fits.2 argument link⟩
    · intro values world'' toValues ready'' goods
      split
      · exact calls _ _ _ _ ready'' (good.advances ready' toValues) goods
      · exact runs_fail ready''.recorded (.inr rfl) _
  | changed stream => exact runs_pure ready (every_boolean plain_good _)
  | placeholder => exact absurd is (stage.accepted.placeholders id)
  | _ => simp [Form.isTerm] at isTerm

end

/-- An expression runs wherever it is situated, given that calls run. -/
theorem runs_term {calls : Nat} (callRuns : stage.CallRuns (callTo stage.setting calls)) (id : NodeId) :
    stage.TermRuns (node stage.setting calls) id := by
  obtain ⟨rank, lower, -⟩ := Tree.exists_rank stage.written.acyclic
  induction bound : rank id using Nat.strong_induction_on generalizing id with
  | _ height hypothesis =>
    intro scope world ready situated term unbound
    rw [node_eq stage.written.acyclic]
    refine runs_nodeWith callRuns (fun child link => ?_) ready situated term unbound
    exact hypothesis (rank child) (bound ▸ lower child id link) child rfl

end Stage

end Rivulet
