import Rivulet.Proofs.Analysis.Acceptance
import Rivulet.Proofs.Analysis.Visibility
import Rivulet.Proofs.Meaning
import Rivulet.Proofs.Store.Contents
import Rivulet.Proofs.Store.Lookup
import Rivulet.Proofs.Value.Parts

/-!
What holds between two steps of a program that was accepted. Every closure was made at a visit of its
function, and holds what was visible there; every visit happened at a place whose scopes bind what is
declared around the node (`Stage.Situated`); and so does what follows (`Stage.Ready`).

Main statements: `lookup_scope` and `lookup_body` say what a name means in a scope.
-/

namespace Rivulet

open Meaning Value

/-- Natives of one step look at nothing but their call, and make what they yield out of its inputs. -/
def Natives.Derive (natives : Natives) : Prop :=
  ∀ native ∈ natives.definitions, ∀ run, native.body = .apply run → ∃ made, native.body = .pure made ∧
    ∀ property : Value → Prop, (∀ value : Value, value.isPlain = true → property value) → ∀ call : NativeCall,
      (∀ input ∈ call.inputs, Every property input) → (made call).isException = false →
      Every property (made call)

theorem derive_standard : Natives.standard.Derive := by
  intro native registered run is
  obtain ⟨made, is, -⟩ := Natives.standard_arePure _ registered _ is
  exact ⟨made, is, fun _ plain _ each regular => every_standard plain registered is each regular⟩

/-- A value of the host: no function of a program, and no exception unless those are let in. -/
structure Value.Foreign (lax : Prop) (value : Value) : Prop where
  function : ∀ function id, value = .function function → function.callee ≠ .definition id
  exception : lax ∨ value.isException = false

/-- A program that was accepted, and what surrounds its statements when they are evaluated. -/
structure Stage where
  context : Context
  written : context.tree.Written
  indexed : context.parents = .ofTree context.tree
  accepted : context.Accepted
  block : NodeId
  list : ChildList
  is_program : context.tree.form? context.tree.root = some (.program block)
  is_block : context.tree.form? block = some (.block list)
  /-- The scope of natives and streams. -/
  root : ScopeId
  /-- The scope of the statements. -/
  scope : ScopeId
  inside : root < scope
  trigger : Option String
  borrowed : List (String × Value)
  /-- What the outermost scope binds. -/
  outer : String → Option Value
  supplied : ∀ name, (context.outermost? name).isSome → (outer name).isSome
  derive : context.natives.Derive
  /-- Whether exceptions of any kind are let in. -/
  lax : Prop
  strict : lax ∨ context.natives = .standard ∧ ∀ id source, context.tree.form? id ≠ some (.borrow source)
  outer_foreign : ∀ name value, outer name = some value → Every (Foreign lax) value
  borrowed_foreign : ∀ id source, context.tree.form? id = some (.borrow source) →
    ∀ value, borrowed.lookup source = some value → Every (Foreign lax) value

namespace Stage

variable {stage : Stage} {visits visits' : List Visit} {store store' : Store} {scope : ScopeId}
  {id : NodeId} {name : String}

abbrev tree (stage : Stage) : Tree :=
  stage.context.tree

/-- The statements of the program. -/
def statements (stage : Stage) : List NodeId :=
  stage.tree.list stage.list

/-- What all parts of an evaluation on the stage have in common. -/
def setting (stage : Stage) : Setting :=
  ⟨stage.tree, stage.context.natives, stage.root, stage.trigger, stage.borrowed⟩

/-- Functions have no names of their own. -/
theorem form?_of_isFunction (function : (stage.tree.form? id).any Form.isFunction = true) :
    ∃ inputs body, stage.tree.form? id = some (.function "" inputs body none) := by
  cases is : stage.tree.form? id with
  | none => simp [is] at function
  | some form =>
    rw [is] at function
    cases form with
    | function own inputs body output =>
      obtain ⟨rfl, rfl, -⟩ := stage.written.fits id _ is
      exact ⟨inputs, body, rfl⟩
    | _ => simp [Form.isFunction] at function

/-! ### Values -/

/-- A closure was made at a visit of its function. If a bind names that function at once, the closure has
this name and is what the name is bound to. -/
structure Grounded (stage : Stage) (visits : List Visit) (store : Store) (function : Function)
    (id : NodeId) : Prop where
  made : ∃ visit ∈ visits, visit.node = id ∧ function.context = some visit.store.scopes.size
  defined : (stage.tree.form? id).any Form.isFunction = true
  bound : ∀ name, stage.tree.IsLiteral id name →
    function.name = name ∧ store.local? stage.scope name = some (.function function)

/-- A value all closures in which were made at visits. -/
def Good (stage : Stage) (visits : List Visit) (store : Store) (value : Value) : Prop :=
  value.Every fun part =>
    (∀ function id, part = .function function → function.callee = .definition id →
      stage.Grounded visits store function id) ∧
    (stage.lax ∨ part.isException = false)

theorem Grounded.mono {function : Function} (grounded : stage.Grounded visits store function id)
    (more : visits ⊆ visits')
    (kept : ∀ name value, store.local? stage.scope name = some value →
      store'.local? stage.scope name = some value) :
    stage.Grounded visits' store' function id where
  made := by
    obtain ⟨visit, among, made⟩ := grounded.made
    exact ⟨visit, more among, made⟩
  defined := grounded.defined
  bound name literal := by
    obtain ⟨named, bound⟩ := grounded.bound name literal
    exact ⟨named, kept name _ bound⟩

theorem Good.mono {value : Value} (good : stage.Good visits store value) (more : visits ⊆ visits')
    (kept : ∀ name value, store.local? stage.scope name = some value →
      store'.local? stage.scope name = some value) :
    stage.Good visits' store' value :=
  Every.mono good fun _ own =>
    ⟨fun function id is called => (own.1 function id is called).mono more kept, own.2⟩

theorem good_of_foreign {value : Value} (foreign : Every (Foreign stage.lax) value) :
    stage.Good visits store value :=
  Every.mono foreign fun _ own =>
    ⟨fun function id is called => absurd called (own.function function id is), own.exception⟩

theorem plain_good (value : Value) (plain : value.isPlain = true) :
    (∀ function id, value = .function function → function.callee = .definition id →
      stage.Grounded visits store function id) ∧ (stage.lax ∨ value.isException = false) := by
  refine ⟨?_, .inr ?_⟩
  · rintro function id rfl
    simp [isPlain] at plain
  · cases value with
    | exception => simp [isPlain] at plain
    | _ => rfl

theorem Good.grounded {function : Function} (good : stage.Good visits store (.function function))
    (called : function.callee = .definition id) : stage.Grounded visits store function id :=
  good.own.1 function id rfl called

theorem good_function {function : Function}
    (grounded : ∀ id, function.callee = .definition id → stage.Grounded visits store function id) :
    stage.Good visits store (.function function) := by
  refine every_of_no_parts ⟨?_, .inr rfl⟩ rfl
  rintro _ id ⟨⟩
  exact grounded id

/-! ### Places -/

/-- A node is part of a statement, before which exactly the statements before it have bound their names. -/
structure AtTop (stage : Stage) (store : Store) (id : NodeId) (position : Nat) (statement : NodeId) :
    Prop where
  there : stage.statements[position]? = some statement
  within : stage.tree.Within statement id
  bound : ∀ name, (store.local? stage.scope name).isSome ↔
    name ∈ declaredNames stage.tree (stage.statements.take position)

/-- A node is part of the body of a function, in a call of a closure that was made at a visit. Besides the
inputs the scope of the call binds at most the closure itself. -/
structure InBody (stage : Stage) (visits : List Visit) (store : Store) (scope : ScopeId) (id : NodeId)
    (visit : Visit) (inputs : ChildList) (body : NodeId) : Prop where
  made : visit ∈ visits
  is_function : stage.tree.form? visit.node = some (.function "" inputs body none)
  within : stage.tree.Within body id
  later : stage.root < scope
  around : store.parent? scope = some visit.store.scopes.size
  inputs_bound : ∀ name ∈ declaredNames stage.tree (stage.tree.list inputs),
    (store.local? scope name).isSome
  own_bound : ∀ name value, name ∉ declaredNames stage.tree (stage.tree.list inputs) →
    store.local? scope name = some value →
    value = .function ⟨.definition visit.node, some visit.store.scopes.size, name⟩
  literal_bound : ∀ name, name ≠ "" → stage.tree.IsLiteral visit.node name →
    name ∉ declaredNames stage.tree (stage.tree.list inputs) →
    ∃ value, store.local? scope name = some value ∧ store.local? stage.scope name = some value

/-- A node is evaluated in a scope that binds what is declared around the node. -/
inductive Situated (stage : Stage) (visits : List Visit) (store : Store) : ScopeId → NodeId → Prop where
  | top {id : NodeId} {position : Nat} {statement : NodeId}
      (place : stage.AtTop store id position statement) : stage.Situated visits store stage.scope id
  | body {scope : ScopeId} {id : NodeId} {visit : Visit} {inputs : ChildList} {body : NodeId}
      (place : stage.InBody visits store scope id visit inputs body) :
      stage.Situated visits store scope id

theorem Situated.root_lt (situated : stage.Situated visits store scope id) : stage.root < scope := by
  cases situated with
  | top => exact stage.inside
  | body place => exact place.later

/-- An expression passes on the place where it is evaluated. -/
theorem Situated.child (situated : stage.Situated visits store scope id) {form : Form} {child : NodeId}
    (is : stage.tree.form? id = some form) (passes : form.opensScope = false)
    (link : child ∈ stage.tree.children id) : stage.Situated visits store scope child := by
  cases situated with
  | top place => exact .top ⟨place.there, .inside place.within is passes link, place.bound⟩
  | body place =>
    exact .body { place with within := .inside place.within is passes link }

/-! ### Stores -/

/-- The scopes of a program are nested as they should be, captures are as they were made, statements bind
what they bound at earlier visits, and all values in scopes are good. -/
structure Consistent (stage : Stage) (visits : List Visit) (store : Store) : Prop where
  rooted : store.Rooted stage.root
  outermost : ∀ name, store.local? stage.root name = stage.outer name
  bound : stage.scope < store.scopes.size
  around : ∃ program, store.parent? stage.scope = some program ∧
    (program = stage.root ∨ store.scopes[program]? = some ⟨[], some stage.root⟩)
  captured : ∀ visit ∈ visits, (stage.tree.form? visit.node).any Form.isFunction = true →
    store.scopes[visit.store.scopes.size]? = some (visit.store.snapshot visit.scope)
  /-- Names that were bound at a visit still are, to the same values. -/
  remembers : ∀ visit ∈ visits, ∀ name value, visit.store.local? stage.scope name = some value →
    store.local? stage.scope name = some value
  holds : store.Holds stage.root (stage.Good visits store)

/-- Every visit happened in a consistent store, at a place that its node belongs to. -/
def Recorded (stage : Stage) (visits : List Visit) : Prop :=
  ∀ before visit after, visits = before ++ visit :: after →
    stage.Consistent before visit.store ∧ stage.Situated before visit.store visit.scope visit.node

/-- The program may go on in a world. -/
structure Ready (stage : Stage) (world : World) : Prop where
  consistent : stage.Consistent world.visits world.store
  recorded : stage.Recorded world.visits

theorem recorded_nil : stage.Recorded [] := by
  intro before visit after none
  simp at none

theorem Recorded.concat (recorded : stage.Recorded visits) {visit : Visit}
    (consistent : stage.Consistent visits visit.store)
    (situated : stage.Situated visits visit.store visit.scope visit.node) :
    stage.Recorded (visits ++ [visit]) := by
  intro before other after same
  rcases List.eq_nil_or_concat after with rfl | ⟨after, last, rfl⟩
  · obtain ⟨rfl, one⟩ := List.append_inj' same rfl
    cases one
    exact ⟨consistent, situated⟩
  · rw [List.concat_eq_append, ← List.cons_append, ← List.append_assoc] at same
    obtain ⟨rfl, -⟩ := List.append_inj' same rfl
    exact recorded before other after rfl

theorem Situated.bound (situated : stage.Situated visits store scope id)
    (consistent : stage.Consistent visits store) : scope < store.scopes.size := by
  cases situated with
  | top => exact consistent.bound
  | body place =>
    obtain ⟨found, there, -⟩ := Option.bind_eq_some_iff.mp place.around
    exact Store.lt_size_of_getElem? there

/-- What is seen at the place of the statements. -/
theorem Consistent.lookup_scope (consistent : stage.Consistent visits store) (name : String) :
    store.lookup stage.scope name = (store.local? stage.scope name).or (stage.outer name) := by
  obtain ⟨program, around, kind⟩ := consistent.around
  rw [Store.lookup_of_parent consistent.rooted (Nat.le_of_lt stage.inside) around]
  congr 1
  rcases kind with rfl | empty
  · rw [Store.lookup_root consistent.rooted, consistent.outermost]
  · have later := (consistent.rooted.parent? (Nat.le_of_lt stage.inside) around).1
    have inside : store.parent? program = some stage.root := by simp [Store.parent?, empty]
    have nothing : store.local? program name = Option.none := by simp [Store.local?, empty, Scope.find?]
    rw [Store.lookup_of_parent consistent.rooted later inside, nothing, Option.none_or,
      Store.lookup_root consistent.rooted, consistent.outermost]

/-- What is seen in a call: what its scope binds, and then what was seen where the closure was made. -/
theorem Consistent.lookup_body (consistent : stage.Consistent visits store)
    (recorded : stage.Recorded visits) {visit : Visit} {inputs : ChildList} {body : NodeId}
    (place : stage.InBody visits store scope id visit inputs body) (name : String) :
    store.lookup scope name = (store.local? scope name).or (visit.store.lookup visit.scope name) := by
  obtain ⟨before, after, rfl⟩ := List.append_of_mem place.made
  obtain ⟨then_, situated⟩ := recorded before visit after rfl
  have captured := consistent.captured visit place.made (by simp [place.is_function, Form.isFunction])
  obtain ⟨parent, seen⟩ :=
    Store.snapshot_spec then_.rooted (Nat.le_of_lt situated.root_lt) (situated.bound then_)
  have around : store.parent? visit.store.scopes.size = some stage.root := by
    simp [Store.parent?, captured, parent]
  have held : store.local? visit.store.scopes.size name =
      (visit.store.snapshot visit.scope).bindings.lookup name := by
    simp [Store.local?, captured, Scope.find?]
  rw [Store.lookup_of_parent consistent.rooted (Nat.le_of_lt place.later) place.around]
  congr 1
  rw [Store.lookup_of_parent consistent.rooted (Nat.le_of_lt then_.rooted.inside) around, held,
    Store.lookup_root consistent.rooted, consistent.outermost, seen name, then_.outermost]

end Stage

end Rivulet
