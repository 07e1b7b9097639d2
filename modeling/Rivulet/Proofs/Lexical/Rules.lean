import Rivulet.Proofs.Lexical.Stage
import Rivulet.Proofs.Meaning.Computation

/-!
Rules for parts of an evaluation on a stage. A part that has a value leaves the program ready to go on
(`Stage.Runs`); one that halts has recorded its visits nevertheless, and, if no exceptions are let in,
halts for a reason that an analysis cannot know.
-/

namespace Rivulet

/-- Whether an analysis can rule a failure out. -/
def Failure.isStatic : Failure → Bool
  | unknownName _ | alreadyBound _ | notANumber | expectedValue | placeholder | unparsable
  | unknownSource _ => true
  | _ => false

namespace Stage

open Meaning Store Value

variable {α β : Type} {stage : Stage} {visits visits' : List Visit} {store store' : Store}
  {scope own : ScopeId} {id : NodeId} {name : String}

/-! ### Going on -/

/-- A world comes after another one: its scopes are related to those before, and the visits in between
happened in scopes at least as many. -/
structure Advances (relation : Store → Store → Prop) (world world' : World) : Prop where
  store : relation world.store world'.store
  size : world.store.scopes.size ≤ world'.store.scopes.size
  visits : ∃ later, world'.visits = world.visits ++ later ∧
    ∀ visit ∈ later, world.store.scopes.size ≤ visit.store.scopes.size

theorem Advances.refl {relation : Store → Store → Prop} [IsPreorder Store relation] (world : World) :
    Advances relation world world :=
  ⟨refl_of relation _, Nat.le_refl _, [], by simp, by simp⟩

theorem Advances.trans {relation : Store → Store → Prop} [IsPreorder Store relation]
    {world world' world'' : World} (first : Advances relation world world')
    (second : Advances relation world' world'') : Advances relation world world'' := by
  obtain ⟨later, same, after⟩ := first.visits
  obtain ⟨later', same', after'⟩ := second.visits
  refine ⟨trans_of relation first.store second.store, Nat.le_trans first.size second.size, later ++ later', ?_, ?_⟩
  · rw [same', same, List.append_assoc]
  · intro visit among
    rcases List.mem_append.mp among with early | late
    · exact after visit early
    · exact Nat.le_trans first.size (after' visit late)

theorem Advances.subset {relation : Store → Store → Prop} {world world' : World}
    (advances : Advances relation world world') : world.visits ⊆ world'.visits := by
  obtain ⟨later, same, -⟩ := advances.visits
  rw [same]
  exact List.subset_append_left _ _

theorem Advances.mono {relation relation' : Store → Store → Prop} {world world' : World}
    (advances : Advances relation world world')
    (implied : relation world.store world'.store → relation' world.store world'.store) :
    Advances relation' world world' :=
  ⟨implied advances.store, advances.size, advances.visits⟩

/-- An exception that an analysis cannot rule out, or any if they are let in. -/
def Tolerates (stage : Stage) (exception : Value) : Prop :=
  stage.lax ∨ ∃ failure node, exception = .failed failure node ∧ failure.isStatic = false

/-- A computation goes on from a world as required, or halts as it may. -/
def Runs (stage : Stage) (relation : Store → Store → Prop) (computation : Eval α) (world : World)
    (required : α → World → Prop) : Prop :=
  match computation world with
  | .ok value world' => Advances relation world world' ∧ stage.Ready world' ∧ required value world'
  | .error halt world' => stage.Recorded world'.visits ∧
      ∀ exception, halt = .exception exception → stage.Tolerates exception

section

variable {relation : Store → Store → Prop} {computation : Eval α} {world : World}
  {required : α → World → Prop}

theorem runs_mono {relation' : Store → Store → Prop} {required' : α → World → Prop}
    (runs : stage.Runs relation computation world required)
    (advance : ∀ store', relation world.store store' → relation' world.store store')
    (implied : ∀ value world', Advances relation world world' → required value world' →
      required' value world') : stage.Runs relation' computation world required' := by
  unfold Runs at runs ⊢
  cases computed : computation world with
  | ok value world' =>
    rw [computed] at runs
    obtain ⟨advances, ready, met⟩ := runs
    exact ⟨advances.mono (advance _), ready, implied value world' advances met⟩
  | error halt world' =>
    rw [computed] at runs
    exact runs

theorem runs_weaken {required' : α → World → Prop}
    (runs : stage.Runs relation computation world required)
    (implied : ∀ value world', required value world' → required' value world') :
    stage.Runs relation computation world required' :=
  runs_mono runs (fun _ same => same) fun value world' _ => implied value world'

theorem runs_of_halt {exception : Value} (recorded : stage.Recorded world.visits)
    (tolerated : stage.Tolerates exception) :
    stage.Runs relation (throwValue exception : Eval α) world required := by
  refine ⟨recorded, ?_⟩
  rintro _ ⟨⟩
  exact tolerated

theorem runs_fail (recorded : stage.Recorded world.visits) {failure : Failure}
    (dynamic : stage.lax ∨ failure.isStatic = false) (node : NodeId) :
    stage.Runs relation (fail failure node : Eval α) world required :=
  runs_of_halt recorded (dynamic.imp_right fun dynamic => ⟨failure, node, rfl, dynamic⟩)

theorem runs_misuse (recorded : stage.Recorded world.visits) (fault : Fault) :
    stage.Runs relation (misuse fault : Eval α) world required :=
  ⟨recorded, fun _ other => by simp at other⟩

variable [IsPreorder Store relation]

theorem runs_pure (ready : stage.Ready world) {value : α} (meets : required value world) :
    stage.Runs relation (pure value : Eval α) world required :=
  ⟨.refl world, ready, meets⟩

theorem runs_bind {next : α → Eval β} {required' : β → World → Prop}
    (first : stage.Runs relation computation world required)
    (later : ∀ value world', Advances relation world world' → stage.Ready world' →
      required value world' → stage.Runs relation (next value) world' required') :
    stage.Runs relation (computation >>= next) world required' := by
  unfold Runs at first ⊢
  cases computed : computation world with
  | error halt world' =>
    rw [computed] at first
    rw [bind_of_error computed]
    exact first
  | ok value world' =>
    rw [computed] at first
    obtain ⟨advances, ready, met⟩ := first
    have second := later value world' advances ready met
    unfold Runs at second
    rw [bind_of_ok computed]
    cases computed' : next value world' with
    | error halt world'' =>
      rw [computed'] at second
      exact second
    | ok value' world'' =>
      rw [computed'] at second
      exact ⟨advances.trans second.1, second.2⟩

end

/-! ### What stays -/

theorem Good.keeps {value : Value} (good : stage.Good visits store value) (more : visits ⊆ visits')
    (kept : KeepsOthers own store store') (other : stage.scope ≠ own)
    (bound : stage.scope < store.scopes.size) : stage.Good visits' store' value :=
  good.mono more fun name value is => by rwa [kept.local? other bound]

theorem Good.others {world world' : World} {value : Value}
    (good : stage.Good world.visits world.store value) (ready : stage.Ready world)
    (advances : Advances (KeepsOthers own) world world') (other : stage.scope ≠ own) :
    stage.Good world'.visits world'.store value :=
  good.keeps advances.subset advances.store other ready.consistent.bound

theorem Good.advances {world world' : World} {value : Value}
    (good : stage.Good world.visits world.store value) (ready : stage.Ready world)
    (advances : Advances Keeps world world') : stage.Good world'.visits world'.store value :=
  good.mono advances.subset fun name value is => by
    rwa [advances.store.local? ready.consistent.bound]

/-- What is evaluated in between does not change the place of a node. -/
theorem Situated.mono (situated : stage.Situated visits store scope id)
    (consistent : stage.Consistent visits store) (more : visits ⊆ visits') (kept : store.Keeps store') :
    stage.Situated visits' store' scope id := by
  have bound := situated.bound consistent
  cases situated with
  | top place =>
    refine .top ⟨place.there, place.within, fun name => ?_⟩
    rw [kept.local? consistent.bound, place.bound]
  | body place =>
    exact .body {
      made := more place.made
      is_function := place.is_function
      within := place.within
      later := place.later
      around := by rw [(kept.extends : Extends scope store store').parent? bound, place.around]
      inputs_bound := fun name input => by rw [kept.local? bound, place.inputs_bound name input]
      own_bound := fun name value other is => place.own_bound name value other (by rwa [← kept.local? bound])
      literal_bound := fun name spelled literal other => by
        rw [kept.local? bound, kept.local? consistent.bound]
        exact place.literal_bound name spelled literal other }

theorem Situated.advances {world world' : World}
    (situated : stage.Situated world.visits world.store scope id) (ready : stage.Ready world)
    (advances : Advances Keeps world world') : stage.Situated world'.visits world'.store scope id :=
  situated.mono ready.consistent advances.subset advances.store

/-- A change of a scope that matters to nobody leaves a store consistent. -/
theorem Consistent.keeps (consistent : stage.Consistent visits store)
    (rooted : store'.Rooted stage.root) (kept : KeepsOthers own store store') (later : stage.scope < own)
    (uncaptured : ∀ visit ∈ visits, (stage.tree.form? visit.node).any Form.isFunction = true →
      visit.store.scopes.size ≠ own)
    (size : store.scopes.size ≤ store'.scopes.size)
    (holds : store'.Holds stage.root (stage.Good visits store')) : stage.Consistent visits store' where
  rooted := rooted
  outermost name := by
    have other : stage.root ≠ own := Nat.ne_of_lt (Nat.lt_trans stage.inside later)
    rw [kept.local? other consistent.rooted.inside, consistent.outermost]
  bound := Nat.lt_of_lt_of_le consistent.bound size
  around := by
    obtain ⟨program, around, kind⟩ := consistent.around
    have older := (consistent.rooted.parent? (Nat.le_of_lt stage.inside) around).2
    refine ⟨program, by rw [kept.parent? (Nat.ne_of_lt later) consistent.bound, around], ?_⟩
    exact kind.imp_right fun empty => kept program _ (Nat.ne_of_lt (Nat.lt_trans older later)) empty
  captured visit among function :=
    kept _ _ (uncaptured visit among function) (consistent.captured visit among function)
  remembers visit among name value bound := by
    rw [kept.local? (Nat.ne_of_lt later) consistent.bound]
    exact consistent.remembers visit among name value bound
  holds := holds

theorem Consistent.captured_lt (consistent : stage.Consistent visits store) {visit : Visit}
    (among : visit ∈ visits) (function : (stage.tree.form? visit.node).any Form.isFunction = true) :
    visit.store.scopes.size < store.scopes.size :=
  lt_size_of_getElem? (consistent.captured visit among function)

/-- Adding a scope of good values inside another one leaves a store consistent. -/
theorem Consistent.add (consistent : stage.Consistent visits store) {added : Scope} {outer : ScopeId}
    (around : added.parent = some outer) (inside : stage.root ≤ outer) (bound : outer < store.scopes.size)
    (good : ∀ binding ∈ added.bindings, stage.Good visits store binding.2) :
    stage.Consistent visits (store.add added).2 := by
  have kept : KeepsOthers store.scopes.size store (store.add added).2 := (keeps_add store added).others
  have other := Nat.ne_of_lt consistent.bound
  refine consistent.keeps (consistent.rooted.add around inside bound) kept consistent.bound ?_ (by simp) ?_
  · exact fun visit among function => Nat.ne_of_lt (consistent.captured_lt among function)
  · have before : store.Holds stage.root (stage.Good visits (store.add added).2) := by
      intro id found later there
      have held := consistent.holds id found later there
      exact ⟨fun binding among => (held.bindings binding among).keeps (List.Subset.refl _) kept other
        consistent.bound, held.parent⟩
    refine before.add ⟨fun binding among => ?_, ?_⟩
    · exact (good binding among).keeps (List.Subset.refl _) kept other consistent.bound
    · intro outer' around'
      rw [around, Option.some.injEq] at around'
      rwa [← around']

/-- A scope that only a loop of a native uses. -/
structure Spare (stage : Stage) (visits : List Visit) (store : Store) (scope : ScopeId) : Prop where
  later : stage.scope < scope
  bound : scope < store.scopes.size
  uncaptured : ∀ visit ∈ visits, (stage.tree.form? visit.node).any Form.isFunction = true →
    visit.store.scopes.size ≠ scope

theorem Spare.advances {world world' : World} (spare : stage.Spare world.visits world.store scope)
    (advances : Advances (KeepsOthers scope) world world') :
    stage.Spare world'.visits world'.store scope where
  later := spare.later
  bound := Nat.lt_of_lt_of_le spare.bound advances.size
  uncaptured visit among function := by
    obtain ⟨later, same, after⟩ := advances.visits
    rw [same] at among
    rcases List.mem_append.mp among with early | late
    · exact spare.uncaptured visit early function
    · exact Nat.ne_of_gt (Nat.lt_of_lt_of_le spare.bound (after visit late))

theorem Consistent.rebind (consistent : stage.Consistent visits store)
    (spare : stage.Spare visits store scope) (name : String) {value : Value}
    (good : stage.Good visits store value) : stage.Consistent visits (store.rebind scope name value) := by
  have kept := keepsOthers_rebind store scope name value
  have other := Nat.ne_of_lt spare.later
  refine consistent.keeps (consistent.rooted.rebind _ _ _) kept spare.later spare.uncaptured (by simp) ?_
  intro id found later there
  have rebound : (store.rebind scope name value).Holds _ _ := consistent.holds.rebind good
  have held := rebound id found later there
  exact ⟨fun binding among => (held.bindings binding among).keeps (List.Subset.refl _) kept other
    consistent.bound, held.parent⟩

end Stage

end Rivulet
