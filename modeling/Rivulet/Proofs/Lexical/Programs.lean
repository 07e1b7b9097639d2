import Rivulet.Proofs.Lexical.Calls
import Rivulet.Proofs.Line.Layout
import Rivulet.Proofs.Meaning.Opening
import Rivulet.Proofs.Machine.Compilation

/-!
Programs on a stage. Each statement binds the names that it declares, and no others, so the statements run
one after the other (`runs_statements`), and with them the program, from the scopes that an evaluation
starts with (`runs_program`).
-/

namespace Rivulet

open Meaning Store

namespace Stage

variable {stage : Stage} {visits : List Visit} {store : Store} {world : World} {calls position : Nat}
  {statement : NodeId}

/-! ### Bound names -/

/-- Before the statement at a position exactly the names of the statements before it are bound. -/
def BoundBefore (stage : Stage) (store : Store) (position : Nat) : Prop :=
  ∀ name, (store.local? stage.scope name).isSome ↔
    name ∈ declaredNames stage.tree (stage.statements.take position)

theorem declaredNames_take_succ (there : stage.statements[position]? = some statement) :
    declaredNames stage.tree (stage.statements.take (position + 1)) =
      declaredNames stage.tree (stage.statements.take position) ++
        (Checking.declaredName? stage.tree statement).toList := by
  rw [List.take_add_one, there, Option.toList_some, declaredNames, List.filterMap_append]
  cases declared : Checking.declaredName? stage.tree statement <;> simp [declaredNames, declared]

theorem BoundBefore.situated (bound : stage.BoundBefore store position)
    (there : stage.statements[position]? = some statement) :
    stage.Situated visits store stage.scope statement :=
  .top ⟨there, .here, bound⟩

theorem BoundBefore.keeps {store' : Store} (bound : stage.BoundBefore store position)
    (kept : store.Keeps store') (inside : stage.scope < store.scopes.size) :
    stage.BoundBefore store' position := by
  intro name
  rw [kept.local? inside, bound]

/-- A statement that declares nothing leaves the names bound that were. -/
theorem BoundBefore.succ_of_none (bound : stage.BoundBefore store position)
    (there : stage.statements[position]? = some statement)
    (nothing : Checking.declaredName? stage.tree statement = none) :
    stage.BoundBefore store (position + 1) := by
  intro name
  rw [bound, declaredNames_take_succ there, nothing, Option.toList_none, List.append_nil]

/-- A name is free when its statement is reached. -/
theorem BoundBefore.free (bound : stage.BoundBefore store position)
    (there : stage.statements[position]? = some statement) {name : String}
    (declared : Checking.declaredName? stage.tree statement = some name) :
    store.local? stage.scope name = none := by
  have distinct := (stage.accepted.blocks stage.block stage.list stage.is_block).2
  have split : declaredNames stage.tree stage.statements =
      declaredNames stage.tree (stage.statements.take (position + 1)) ++
        declaredNames stage.tree (stage.statements.drop (position + 1)) := by
    rw [declaredNames, declaredNames, declaredNames, ← List.filterMap_append, List.take_append_drop]
  change (declaredNames stage.tree stage.statements).Nodup at distinct
  rw [split, declaredNames_take_succ there, declared] at distinct
  have apart := (List.nodup_append.mp (List.nodup_append.mp distinct).1).2.2
  rw [← Option.not_isSome_iff_eq_none, bound]
  exact fun among => apart name among name (by simp) rfl

/-- Binding the name of a statement binds the names of all statements up to it. -/
theorem BoundBefore.succ_of_some (bound : stage.BoundBefore store position)
    (there : stage.statements[position]? = some statement) {name : String}
    (declared : Checking.declaredName? stage.tree statement = some name)
    (inside : stage.scope < store.scopes.size) (value : Value) :
    stage.BoundBefore (store.bindNew stage.scope name value) (position + 1) := by
  intro other
  rw [local?_bindNew inside, declaredNames_take_succ there, declared, List.mem_append, ← bound]
  by_cases same : other = name <;> simp [same]

/-! ### Binding names -/

/-- Binding a free name to a good value leaves a store consistent. -/
theorem Consistent.bindNew (consistent : stage.Consistent visits store) (recorded : stage.Recorded visits)
    {name : String} {value : Value} (free : store.local? stage.scope name = none)
    (good : stage.Good visits (store.bindNew stage.scope name value) value) :
    stage.Consistent visits (store.bindNew stage.scope name value) := by
  have kept : KeepsOthers stage.scope store (store.bindNew stage.scope name value) :=
    (extends_bindNew store stage.scope name value).others
  -- What the scope bound before, it still binds.
  have still (other : String) (old : Value) (is : store.local? stage.scope other = some old) :
      (store.bindNew stage.scope name value).local? stage.scope other = some old := by
    rw [local?_bindNew consistent.bound, if_neg, is]
    rintro rfl
    simp [free] at is
  refine {
    rooted := consistent.rooted.bindNew _ _ _
    outermost := fun other => ?_
    bound := by simpa [Store.bindNew] using consistent.bound
    around := ?_
    captured := fun visit among function => ?_
    remembers := fun visit among other old is => still other old (consistent.remembers visit among other old is)
    holds := ?_ }
  · rw [kept.local? (Nat.ne_of_lt stage.inside) consistent.rooted.inside, consistent.outermost]
  · obtain ⟨program, around, kind⟩ := consistent.around
    have older := (consistent.rooted.parent? (Nat.le_of_lt stage.inside) around).2
    exact ⟨program, by rw [parent?_bindNew, around],
      kind.imp_right fun empty => kept program _ (Nat.ne_of_lt older) empty⟩
  · obtain ⟨before, after, rfl⟩ := List.append_of_mem among
    have earlier := (recorded before visit after rfl).1.bound
    exact kept _ _ (Nat.ne_of_gt earlier) (consistent.captured visit among function)
  · have before : store.Holds stage.root (stage.Good visits (store.bindNew stage.scope name value)) := by
      intro id found later there
      have held := consistent.holds id found later there
      exact ⟨fun binding among => (held.bindings binding among).mono (List.Subset.refl _) still, held.parent⟩
    exact before.bindNew good

/-- Binding the name of a statement to a value that is good then. -/
theorem runs_bindName (ready : stage.Ready world) {name : String} {value : Value}
    (free : world.store.local? stage.scope name = none)
    (good : stage.Good world.visits (world.store.bindNew stage.scope name value) value) (id : NodeId) :
    stage.Runs (Extends stage.scope) (bindName stage.scope name value id) world fun _ world' =>
      world' = { world with store := world.store.bindNew stage.scope name value } := by
  have computed : bindName stage.scope name value id world =
      .ok () { world with store := world.store.bindNew stage.scope name value } := by
    rw [bindName_eq, if_neg]
    simp [Store.bindsLocally, free]
  unfold Runs
  rw [computed]
  refine ⟨⟨extends_bindNew _ _ _ _, by simp [Store.bindNew], [], by simp, by simp⟩, ⟨?_, ready.recorded⟩, rfl⟩
  exact ready.consistent.bindNew ready.recorded free good

/-- A good value is good under the name of the bind that it is the value of. -/
theorem good_named {name : String} {value : Value} (good : stage.Good visits store value)
    (unnamed : store.local? stage.scope "" = none) : stage.Good visits store (named name value) := by
  unfold named
  split
  · rename_i function
    split
    · rename_i empty
      refine good_function fun id called => ?_
      have grounded := good.grounded called
      refine ⟨grounded.made, grounded.defined, fun other literal => ?_⟩
      obtain ⟨own, bound⟩ := grounded.bound other literal
      rw [empty] at own
      subst own
      simp [unnamed] at bound
    · exact good
  · exact good

/-- No statement declares the empty name. -/
theorem BoundBefore.unnamed (bound : stage.BoundBefore store position) :
    store.local? stage.scope "" = none := by
  rw [← Option.not_isSome_iff_eq_none, bound, mem_declaredNames_iff]
  rintro ⟨node, among, declares⟩
  rw [Context.declares_iff] at declares
  have fits : stage.tree.IsStatement node :=
    stage.written.fits stage.block _ stage.is_block node (List.mem_of_mem_take among)
  rcases fits with term | ⟨name, value, spelled, is, -⟩ | ⟨source, spelled, is⟩
  · have := Context.not_declares_of_isTerm term stage.written ""
    rw [← Bool.not_eq_true, Context.declares_iff] at this
    exact this declares
  · have is' : stage.context.tree.form? node = _ := is
    simp [is', Form.declaredName?, spelled] at declares
  · have is' : stage.context.tree.form? node = _ := is
    simp [is', Form.declaredName?, spelled] at declares

/-! ### Statements -/

/-- A value that is no exception, unless exceptions are let in. -/
def Passes (stage : Stage) (value : Value) : Prop :=
  stage.lax ∨ value.isException = false

section

variable (callRuns : stage.CallRuns (callTo stage.setting calls))

include callRuns

/-- The value of a bind may go on, and is good once it has the name of the bind. -/
theorem runs_boundValue (ready : stage.Ready world) (bound : stage.BoundBefore world.store position)
    (there : stage.statements[position]? = some statement) {name : String} {value : NodeId}
    (is : stage.tree.form? statement = some (.bind name value none false))
    (term : stage.tree.isTerm value = true) :
    stage.Runs Keeps (childWith stage.tree (node stage.setting calls stage.scope) statement value) world
      fun result world' => stage.Passes result ∧ stage.BoundBefore world'.store position ∧
        stage.Good world'.visits (world'.store.bindNew stage.scope name (named name result))
          (named name result) := by
  have declared : Checking.declaredName? stage.tree statement = some name := by
    simp [Checking.declaredName?, is, Form.declaredName?]
  have present := Tree.isSome_of_isTerm term
  have link : value ∈ stage.tree.children statement :=
    Tree.mem_children_iff.mpr ⟨⟨_, is, by simp [Form.links]⟩, Context.isPresent_of_isSome present⟩
  have situated : stage.Situated world.visits world.store stage.scope value :=
    (bound.situated there).child is rfl link
  rw [childWith, if_pos present]
  by_cases function : (stage.tree.form? value).any Form.isFunction = true
  · obtain ⟨inputs, body, isFunction⟩ := form?_of_isFunction function
    have tree : stage.setting.tree = stage.tree := rfl
    rw [node_eq stage.written.acyclic]
    unfold nodeWith
    simp only [tree, isFunction]
    refine runs_mono (runs_closure ready situated) (fun _ kept => kept) ?_
    rintro _ world' advances ⟨rfl, visited⟩
    have inside : stage.scope < world'.store.scopes.size :=
      Nat.lt_of_lt_of_le ready.consistent.bound advances.size
    refine ⟨.inr rfl, bound.keeps advances.store ready.consistent.bound, good_function ?_⟩
    rintro _ ⟨⟩
    refine ⟨⟨_, visited, rfl, rfl⟩, function, ?_⟩
    rintro other ⟨-, bind, declared, variadic, is'⟩
    have link' : value ∈ stage.tree.children bind :=
      Tree.mem_children_iff.mpr ⟨⟨_, is', by simp [Form.links]⟩, Context.isPresent_of_isSome present⟩
    obtain rfl := stage.written.single value bind statement link' link
    rw [is] at is'
    cases is'
    refine ⟨rfl, ?_⟩
    rw [local?_bindNew inside, if_pos rfl]
    rfl
  · have runs := runs_term callRuns value stage.scope world ready situated term
      fun other literal => function literal.1
    refine runs_mono runs (fun _ kept => kept) fun result world' advances good => ?_
    have bound' := bound.keeps advances.store ready.consistent.bound
    have inside : stage.scope < world'.store.scopes.size :=
      Nat.lt_of_lt_of_le ready.consistent.bound advances.size
    refine ⟨good.own.2, bound', (good_named good bound'.unnamed).mono (List.Subset.refl _) fun other old found => ?_⟩
    rw [local?_bindNew inside, if_neg, found]
    rintro rfl
    simp [bound'.free there declared] at found

/-- A statement runs once those before it have, and binds the names that it declares. -/
theorem runs_statement (ready : stage.Ready world) (bound : stage.BoundBefore world.store position)
    (there : stage.statements[position]? = some statement) :
    stage.Runs (Extends stage.scope) (node stage.setting calls stage.scope statement) world
      fun value world' => stage.Passes value ∧ stage.BoundBefore world'.store (position + 1) := by
  have tree : stage.setting.tree = stage.tree := rfl
  have among : statement ∈ stage.tree.children stage.block :=
    Context.statement_mem_children stage.written stage.is_block there
  have fits : stage.tree.IsStatement statement :=
    stage.written.fits stage.block _ stage.is_block statement (List.mem_of_getElem? there)
  rcases fits with term | ⟨name, value, -, is, term⟩ | ⟨source, -, is⟩
  · have nothing : Checking.declaredName? stage.tree statement = none := by
      have undeclared := Context.not_declares_of_isTerm term stage.written
      cases declared : Checking.declaredName? stage.tree statement with
      | none => rfl
      | some name =>
        have := Context.declares_iff.mpr (show (stage.context.tree.form? statement).bind _ = some name from declared)
        simp [undeclared name] at this
    have unbound := not_literal_of_child among (by simp [stage.is_block])
    refine runs_mono (runs_term callRuns statement _ _ ready (bound.situated there) term unbound)
      (fun _ => Keeps.extends) fun value world' advances good => ⟨good.own.2, ?_⟩
    exact (bound.keeps advances.store ready.consistent.bound).succ_of_none there nothing
  · have declared : Checking.declaredName? stage.tree statement = some name := by
      simp [Checking.declaredName?, is, Form.declaredName?]
    rw [node_eq stage.written.acyclic]
    unfold nodeWith
    simp only [tree, is]
    refine runs_bind (runs_mono (runs_boundValue callRuns ready bound there is term)
      (fun _ => Keeps.extends) fun _ _ _ met => met) fun result world' _ ready' met => ?_
    obtain ⟨passes, bound', good⟩ := met
    refine runs_bind (runs_bindName ready' (bound'.free there declared) good statement) ?_
    rintro _ _ - ready'' rfl
    exact runs_pure ready'' ⟨passes, bound'.succ_of_some there declared ready'.consistent.bound _⟩
  · have declared : Checking.declaredName? stage.tree statement = some source := by
      simp [Checking.declaredName?, is, Form.declaredName?]
    have lax : stage.lax := stage.strict.elim id fun strict => absurd is (strict.2 statement source)
    have borrowed : stage.setting.borrowed = stage.borrowed := rfl
    rw [node_eq stage.written.acyclic]
    unfold nodeWith
    simp only [tree, is, borrowed]
    split
    · exact runs_fail ready.recorded (.inl lax) _
    · rename_i value found
      have foreign := stage.borrowed_foreign statement source is value found
      refine runs_bind (runs_bindName ready (bound.free there declared) (good_of_foreign foreign) statement) ?_
      rintro _ _ - ready' rfl
      exact runs_pure ready' ⟨foreign.own.exception, bound.succ_of_some there declared ready.consistent.bound _⟩

/-- The statements from a position on run in order, and the last one has a value that may go on. -/
theorem runs_statements {statements : List NodeId} (ready : stage.Ready world)
    (bound : stage.BoundBefore world.store position)
    (rest : statements = stage.statements.drop position) :
    stage.Runs (Extends stage.scope)
      (statements.mapM (childWith stage.tree (node stage.setting calls stage.scope) stage.block)) world
      fun values _ => values.length = statements.length ∧ ∀ value ∈ values, stage.Passes value := by
  induction statements generalizing position world with
  | nil =>
    rw [List.mapM_nil]
    exact runs_pure ready (by simp)
  | cons statement later hypothesis =>
    have there : stage.statements[position]? = some statement := by
      have first : (stage.statements.drop position)[0]? = some statement := by rw [← rest]; rfl
      simpa using first
    have next : later = stage.statements.drop (position + 1) := by
      rw [← List.tail_drop, ← rest, List.tail_cons]
    have regular := Tree.regular_of_isStatement
      (stage.written.fits stage.block _ stage.is_block statement (List.mem_of_getElem? there))
    rw [List.mapM_cons, childWith, if_pos regular.1]
    refine runs_bind (runs_statement callRuns ready bound there) fun value world' _ ready' met => ?_
    refine runs_bind (hypothesis ready' met.2 next) fun values world'' _ ready'' all => ?_
    refine runs_pure ready'' ⟨by simp [all.1], fun other among => ?_⟩
    rcases List.mem_cons.mp among with rfl | among
    · exact met.1
    · exact all.2 other among

/-- The statements of a program run from the scope that they declare their names in. -/
theorem runs_statementsWith (ready : stage.Ready world) (bound : stage.BoundBefore world.store 0) :
    stage.Runs (Extends stage.scope)
      (statementsWith stage.tree (node stage.setting calls stage.scope) stage.block stage.statements) world
      fun value _ => stage.Passes value := by
  have nonempty := (stage.accepted.blocks stage.block stage.list stage.is_block).1
  change stage.statements ≠ [] at nonempty
  refine runs_bind (runs_statements callRuns ready bound (by simp)) fun values world' _ ready' met => ?_
  obtain ⟨size, all⟩ := met
  have some : values ≠ [] := by
    rintro rfl
    exact nonempty (List.length_eq_zero_iff.mp size.symm)
  rw [List.getLast?_eq_getLast_of_ne_nil some]
  exact runs_pure ready' (all _ (List.getLast_mem some))

end

end Stage

/-! ### Openings -/

/-- Inputs that supply an accepted program with what its analysis relied on. -/
structure Context.Admits (context : Context) (lax : Prop) (inputs : Inputs) : Prop where
  derive : context.natives.Derive
  strict : lax ∨ context.natives = .standard ∧ ∀ id source, context.tree.form? id ≠ some (.borrow source)
  supplied : ∀ signature ∈ context.streams, signature.name ∈ inputs.streams.map Prod.fst
  streams : ∀ stream ∈ inputs.streams, Value.Every (Value.Foreign lax) stream.2
  borrowed : ∀ id source, context.tree.form? id = some (.borrow source) →
    ∀ value, inputs.borrowed.reverse.lookup source = some value → Value.Every (Value.Foreign lax) value

theorem foreign_native (lax : Prop) (index : Nat) :
    Value.Every (Value.Foreign lax) (Natives.valueOf index) := by
  refine Value.every_of_no_parts ⟨?_, .inr rfl⟩ rfl
  rintro _ id ⟨⟩
  simp

section

variable {context : Context} {lax : Prop} {inputs : Inputs} (admits : context.Admits lax inputs)

include admits

theorem Context.Admits.foreign :
    ∀ binding ∈ context.natives.values ++ inputs.streams, Value.Every (Value.Foreign lax) binding.2 := by
  intro binding among
  rcases List.mem_append.mp among with native | stream
  · obtain ⟨index, -, is⟩ := List.mem_filterMap.mp native
    cases known : context.natives.get? index with
    | none => simp [known] at is
    | some registered =>
      simp only [known] at is
      split at is
      · cases is
        exact foreign_native lax index
      · simp at is
  · exact admits.streams _ stream

theorem Context.Admits.isSome_outermostBinding {name : String}
    (resolved : (context.outermost? name).isSome) :
    (outermostBinding context.natives inputs name).isSome := by
  rw [outermostBinding, isSome_lookup_iff, List.map_reverse, List.mem_reverse, List.map_append,
    List.mem_append]
  unfold Context.outermost? at resolved
  cases among : lastIndex? (fun stream : StreamSignature => stream.name == name) context.streams with
  | some index =>
    right
    obtain ⟨position, found, -⟩ := Option.map_eq_some_iff.mp among
    obtain ⟨inside, named, -⟩ := List.findIdx?_eq_some_iff_getElem.mp found
    have same : (context.streams.reverse[position]).name = name := by simpa using named
    rw [← same]
    exact admits.supplied _ (List.mem_reverse.mp (List.getElem_mem inside))
  | none =>
    left
    cases known : context.natives.find? name with
    | none => simp [among, known] at resolved
    | some index => exact List.mem_map.mpr ⟨_, mem_values_of_find? known, rfl⟩

end

namespace Stage

section

variable (context : Context) {block : NodeId} {list : ChildList} {lax : Prop} {inputs : Inputs}
  (written : context.tree.Written) (indexed : context.parents = .ofTree context.tree)
  (accepted : context.Accepted)
  (is_program : context.tree.form? context.tree.root = some (.program block))
  (is_block : context.tree.form? block = some (.block list))
  (admits : context.Admits lax inputs) (store : Store)

/-- The stage of an evaluation that starts with a store. -/
def opening : Stage where
  context := context
  written := written
  indexed := indexed
  accepted := accepted
  block := block
  list := list
  is_program := is_program
  is_block := is_block
  root := store.scopes.size
  scope := store.scopes.size + if context.tree.declaresNames (context.tree.list list) then 2 else 1
  inside := Nat.lt_add_of_pos_right (by split <;> decide)
  trigger := inputs.trigger
  borrowed := inputs.borrowed.reverse
  outer := outermostBinding context.natives inputs
  supplied _ resolved := admits.isSome_outermostBinding resolved
  derive := admits.derive
  lax := lax
  strict := admits.strict
  outer_foreign _ _ bound := admits.foreign _ (List.mem_reverse.mp (mem_of_lookup bound))
  borrowed_foreign := admits.borrowed

end

/-- A scope without bindings that is added for the statements leaves a program ready to begin. -/
theorem ready_of_add {stage : Stage} {store : Store} {program : ScopeId}
    (rooted : store.Rooted stage.root) (outermost : ∀ name, store.local? stage.root name = stage.outer name)
    (holds : store.Holds stage.root (Value.Every (Value.Foreign stage.lax)))
    (last : stage.scope = store.scopes.size) (inside : stage.root ≤ program)
    (kind : program = stage.root ∨ store.scopes[program]? = some ⟨[], some stage.root⟩) :
    stage.Ready ⟨(store.add ⟨[], some program⟩).2, []⟩ ∧
      stage.BoundBefore (store.add ⟨[], some program⟩).2 0 := by
  have kept : Keeps store (store.add ⟨[], some program⟩).2 := keeps_add store _
  have bound : program < store.scopes.size :=
    kind.elim (fun same => same ▸ rooted.inside) lt_size_of_getElem?
  refine ⟨⟨?_, recorded_nil⟩, ?_⟩
  · refine {
      rooted := rooted.add rfl inside bound
      outermost := fun name => by rw [kept.local? rooted.inside, outermost]
      bound := by rw [last, size_add]; exact Nat.lt_succ_self _
      around := ⟨program, by rw [last, parent?_add_self], kind.imp_right fun empty => kept _ _ empty⟩
      captured := by simp
      remembers := by simp
      holds := ?_ }
    have added : Scope.Holds stage.root (Value.Every (Value.Foreign stage.lax)) ⟨[], some program⟩ :=
      ⟨by simp, by rintro _ ⟨⟩; exact inside⟩
    have held := holds.add added
    intro id found later there
    exact ⟨fun binding among => good_of_foreign ((held id found later there).bindings binding among),
      (held id found later there).parent⟩
  · intro name
    rw [last, local?_add_self]
    simp [declaredNames]

/-- A program may end like this: with a value that may go on, or with a halt that may happen. -/
def Finishes (stage : Stage) : EStateM.Result Halt World Value → Prop
  | .ok value world => stage.Ready world ∧ stage.Passes value
  | .error halt world => stage.Recorded world.visits ∧
      ∀ exception, halt = .exception exception → stage.Tolerates exception

theorem finishes_of_runs {stage : Stage} {relation : Store → Store → Prop} {computation : Eval Value}
    {world : World} (runs : stage.Runs relation computation world fun value _ => stage.Passes value) :
    stage.Finishes (computation world) := by
  unfold Runs at runs
  cases computed : computation world with
  | ok value world' =>
    rw [computed] at runs
    exact runs.2
  | error halt world' =>
    rw [computed] at runs
    exact runs

/-- A program runs from the scopes that an evaluation starts with. -/
theorem finishes_program (context : Context) {block : NodeId} {list : ChildList} {lax : Prop} {inputs : Inputs}
    (written : context.tree.Written) (indexed : context.parents = .ofTree context.tree)
    (accepted : context.Accepted)
    (is_program : context.tree.form? context.tree.root = some (.program block))
    (is_block : context.tree.form? block = some (.block list))
    (admits : context.Admits lax inputs) (store : Store) (maxDepth : Nat) :
    (opening context written indexed accepted is_program is_block admits store).Finishes
      (Meaning.program context.tree context.natives maxDepth store inputs) := by
  let stage := opening context written indexed accepted is_program is_block admits store
  let before := outermostStore context.natives inputs store
  have setting : stage.setting = ⟨context.tree, context.natives, store.scopes.size, inputs.trigger,
    inputs.borrowed.reverse⟩ := rfl
  have there : (context.tree.form? block).isSome := by simp [is_block]
  have program : Meaning.program context.tree context.natives maxDepth store inputs =
      blockWith context.tree (node stage.setting (maxDepth - 1)) before.scopes.size block
        (context.tree.list list) ⟨(before.add ⟨[], some store.scopes.size⟩).2, []⟩ := by
    unfold Meaning.program
    rw [outerScopes_eq]
    dsimp only
    rw [← setting, @node_eq stage.setting written.acyclic]
    simp only [nodeWith, setting, is_program, childWith, if_pos there]
    rw [← setting, @node_eq stage.setting written.acyclic]
    simp only [nodeWith, setting, is_block]
    rfl
  have calls := runs_callTo stage (maxDepth - 1)
  have rooted : before.Rooted stage.root := rooted_outermostStore context.natives inputs store
  have outermost : ∀ name, before.local? stage.root name = stage.outer name :=
    local?_outermostStore context.natives inputs store
  have holds : before.Holds stage.root (Value.Every (Value.Foreign stage.lax)) :=
    holds_outermostStore context.natives inputs store (holds_of_size_le (Nat.le_refl _)) admits.foreign
  have size : before.scopes.size = store.scopes.size + 1 :=
    size_outermostStore context.natives inputs store
  rw [program]
  unfold blockWith
  by_cases declares : context.tree.declaresNames (context.tree.list list) = true
  · -- The statements have a scope of their own, inside the empty one of the program.
    have last : stage.scope = (before.add ⟨[], some store.scopes.size⟩).2.scopes.size := by
      simp [stage, opening, declares, size]
    have outer : Rooted stage.root (before.add ⟨[], some store.scopes.size⟩).2 :=
      rooted.add rfl (Nat.le_refl _) rooted.inside
    have kept (name : String) :
        (before.add ⟨[], some store.scopes.size⟩).2.local? stage.root name = stage.outer name := by
      rw [(keeps_add before _).local? rooted.inside, outermost]
    have added : Scope.Holds stage.root (Value.Every (Value.Foreign stage.lax)) ⟨[], some store.scopes.size⟩ :=
      ⟨by simp, by rintro _ ⟨⟩; exact Nat.le_refl _⟩
    have held := holds.add added
    obtain ⟨ready, bound⟩ := ready_of_add outer kept held last (Nat.le_of_lt rooted.inside)
      (.inr (getElem?_add_self _ _))
    rw [if_pos declares, bind_of_ok (addScope_eq _), ← last]
    exact finishes_of_runs (runs_statementsWith calls ready bound)
  · have last : stage.scope = before.scopes.size := by simp [stage, opening, declares, size]
    obtain ⟨ready, bound⟩ := ready_of_add rooted outermost holds last (Nat.le_refl _) (.inl rfl)
    rw [if_neg declares, pure_bind, ← last]
    exact finishes_of_runs (runs_statementsWith calls ready bound)

end Stage

/-! ### Sources -/

theorem foreign_of_isData {lax : Prop} {value : Value} (data : value.IsData) :
    Value.Every (Value.Foreign lax) value := by
  refine Value.Every.mono data fun part plain => ⟨?_, .inr ?_⟩
  · rintro function id rfl
    simp [Value.isPlain] at plain
  · cases part with
    | exception => simp [Value.isPlain] at plain
    | _ => rfl

namespace Machine

variable {text : String} {tree : Tree} {signatures : List StreamSignature} {σ : Type} {host : σ}

/-- A source without a blocking conflict, whose streams are bound to data, never fails for a reason that
its analysis could know: neither for a name or a value that is missing, nor for a line that says nothing. -/
theorem run_parsed_not_static (read : Line.parse false text = .ok tree)
    (unblocked : (Analysis.analyze tree .standard signatures .none host).1.isBlocked = false)
    {inputs : Inputs} (supplied : ∀ signature ∈ signatures, signature.name ∈ inputs.streams.map Prod.fst)
    (data : ∀ stream ∈ inputs.streams, stream.2.IsData) (limits : Limits) (store : Store) (budget : Nat)
    {failure : Failure} {id : NodeId}
    (failed : (((create (.ofTree tree) .standard limits store).start inputs).run budget).2 =
      .ok (.finished (.failed failure id))) : failure.isStatic = false := by
  have written := Line.written_of_parse read
  have accepted := accepted_of_analyze written unblocked
  have no_borrow := no_borrow_of_analyze written unblocked rfl
  let context := Context.ofTree tree .standard signatures
  obtain ⟨block, is_program⟩ := written.root
  obtain ⟨list, is_block⟩ := written.fits tree.root _ is_program
  have admits : context.Admits False inputs := {
    derive := derive_standard
    strict := .inr ⟨rfl, no_borrow⟩
    supplied := supplied
    streams := fun stream among => foreign_of_isData (data stream among)
    borrowed := fun id source is => absurd is (no_borrow id source) }
  let machine := create (.ofTree tree) .standard limits store
  have finishes : Stage.Finishes _ (machine.meaning inputs) :=
    Stage.finishes_program context written rfl accepted is_program is_block admits
      store.root.2 limits.maxDepth
  obtain ⟨cost, ran⟩ := @run_start_eq_meaning machine rfl written.wellFormed inputs
  rw [ran] at failed
  split at failed
  · cases computed : machine.meaning inputs with
    | ok value world =>
      rw [computed] at failed finishes
      cases failed
      rcases finishes.2 with lax | regular
      · exact lax.elim
      · simp [Value.failed, Value.isException] at regular
    | error halt world =>
      rw [computed] at failed finishes
      cases halt with
      | fault fault => simp [report] at failed
      | exception exception =>
        cases failed
        rcases finishes.2 _ rfl with lax | ⟨failure', id', same, dynamic⟩
        · exact lax.elim
        · cases same
          exact dynamic
  · cases failed
    rfl

/-- The tree of a division by zero. -/
def quotient : Tree where
  nodes := #[
    ⟨.number "1" .unitless, ⟨0, 1⟩⟩,
    ⟨.number "0" .unitless, ⟨1, 2⟩⟩,
    ⟨.binary .divide (.node 0) (.node 1), ⟨0, 3⟩⟩,
    ⟨.block ⟨0, 1⟩, ⟨0, 4⟩⟩,
    ⟨.program (.node 3), ⟨0, 5⟩⟩]
  lists := #[.node 2]
  root := .node 4

theorem run_quotient_not_static :
    Line.parse false "1 / 0" = .ok quotient ∧
      (Analysis.analyze quotient .standard [] .none ()).1.isBlocked = false ∧
      (((create (.ofTree quotient) .standard ⟨100, 10⟩ .empty).start {}).run 100).2 =
        .ok (.finished (.failed .divisionByZero (.node 2))) ∧
      Failure.divisionByZero.isStatic = false := by
  have read : Line.parse false "1 / 0" = .ok quotient := by decide +kernel
  have unblocked : (Analysis.analyze quotient .standard [] .none ()).1.isBlocked = false := by decide
  have failed : (((create (.ofTree quotient) .standard ⟨100, 10⟩ .empty).start {}).run 100).2 =
      .ok (.finished (.failed .divisionByZero (.node 2))) := rfl
  exact ⟨read, unblocked, failed, run_parsed_not_static read unblocked (by simp) (by simp) _ _ _ failed⟩

end Machine

end Rivulet
