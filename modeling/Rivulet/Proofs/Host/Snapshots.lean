import Rivulet.Proofs.Host.Moments

/-!
What closures see. A definition captures the scope that it is completed in: the names that are visible there, in a
scope of their own that lies directly in the outermost one. No frame is ever in that scope, or in the outermost one.
So at all later moments of the evaluation a closure sees what was visible when it was made, and nothing else, whatever
is bound meanwhile (`captured_scope_is_snapshot`).
-/

namespace Rivulet

open Relation Meaning

namespace Store

/-- From a place on all scopes lie inside others. -/
structure LieInside (base : ScopeId) (store : Store) : Prop where
  size : base ≤ store.scopes.size
  parent : ∀ id, base ≤ id → id < store.scopes.size → (store.parent? id).isSome

theorem LieInside.evolves {calm : Prop} {base own : ScopeId} {store store' : Store} (inside : store.LieInside base)
    (evolves : store.Evolves calm own store') : store'.LieInside base where
  size := Nat.le_trans inside.size evolves.size
  parent id later bound := by
    by_cases old : id < store.scopes.size
    · rw [evolves.parent id old]
      exact inside.parent id later old
    · exact evolves.added id (Nat.not_lt.mp old) bound

/-- A scope that lies in no other is older than they are. -/
theorem LieInside.lt_of_outermost {base id : ScopeId} {store : Store} (inside : store.LieInside base)
    (bound : id < store.scopes.size) (outermost : store.parent? id = none) : id < base := by
  by_contra later
  have around := inside.parent id (Nat.not_lt.mp later) bound
  rw [outermost] at around
  cases around

/-- Where the capture of a scope is kept, and the outermost scope around it, lookups give what they gave there. -/
theorem lookup_captured {first store : Store} {id captured : ScopeId} (nested : first.Nested) (nested' : store.Nested)
    (holds : store.scopes[captured]? = some (first.snapshot id))
    (keeps : ∀ outermost, outermost ≤ id → first.parent? outermost = none →
      store.scopes[outermost]? = first.scopes[outermost]?)
    (name : String) : store.lookup captured name = first.lookup id name := by
  obtain ⟨outermost, parent, -, within, ends, visible⟩ := @Descends.snapshot_spec first id _ nested.descends trivial
  have same := keeps outermost within ends
  have around : store.parent? captured = some outermost := by
    rw [Store.parent?, holds, Option.bind_some, parent]
  have last : store.parent? outermost = none := by
    rw [Store.parent?, same]
    exact ends
  have own : store.local? captured name = (first.snapshot id).bindings.lookup name := by
    rw [local?, holds]
    rfl
  have beyond : store.local? outermost name = first.local? outermost name := by
    rw [local?, local?, same]
  rw [nested'.descends.lookup_of_parent trivial around, nested'.descends.lookup_outermost trivial last, own, beyond,
    visible]

end Store

namespace Machine

/-! ### Making a closure -/

/-- The next step of a machine completes a definition in the topmost frame and makes a closure. -/
structure Makes (machine : Machine) (frame : Frame) (closure : Function) : Prop where
  going : machine.result = none
  active : machine.frames.head? = some frame
  completes : ∃ node, frame.current? = some (.finish node) ∧ (definitionOf? machine.tree node).isSome ∧
    (machine.finish frame node).2 = .ok (.push (.function closure))

section

variable {machine : Machine} {frame : Frame} {rest : List Frame} {node : NodeId} {step : Step}

/-- A definition is completed by capturing the scope, whatever was done before. -/
theorem finish_of_definition (frame : Frame) (defined : (definitionOf? machine.tree node).isSome) :
    ∃ name, ∀ taken, { machine with stepsTaken := taken }.finish frame node =
      { machine with stepsTaken := taken }.define frame node name := by
  unfold definitionOf? at defined
  split at defined
  · rename_i name inputs body declared is
    refine ⟨name, fun taken => ?_⟩
    unfold finish
    rw [show ({ machine with stepsTaken := taken } : Machine).tree.form? node = _ from is]
  · rename_i name inputs is
    refine ⟨name, fun taken => ?_⟩
    unfold finish
    rw [show ({ machine with stepsTaken := taken } : Machine).tree.form? node = _ from is]
  · simp at defined

theorem define_charged (taken : Nat) (name : String) :
    ({ machine with stepsTaken := taken }.define frame node name).2 = (machine.define frame node name).2 := by
  unfold define bindName
  dsimp only
  split
  · rfl
  · split <;> rfl

/-- A definition adds a snapshot of the scope of the frame, and a closure that captured it. -/
theorem define_spec (bound : frame.scope < machine.store.scopes.size) {name : String} {value : Value}
    (made : (machine.define frame node name).2 = .ok (.push value)) :
    value = .function ⟨.definition node, some machine.store.scopes.size, name⟩ ∧
      (machine.define frame node name).1.store.scopes[machine.store.scopes.size]? =
        some (machine.store.snapshot frame.scope) := by
  have added := Store.getElem?_add_self machine.store (machine.store.snapshot frame.scope)
  have apart : frame.scope ≠ machine.store.scopes.size := Nat.ne_of_lt bound
  unfold define at made ⊢
  rw [Store.capture_eq_add] at made ⊢
  dsimp only at made ⊢
  split at made
  · rename_i unnamed
    rw [if_pos unnamed]
    cases made
    exact ⟨rfl, added⟩
  · rename_i named
    rw [if_neg named]
    unfold bindName at made ⊢
    split at made
    · cases made
    · rename_i free
      rw [if_neg free]
      cases made
      refine ⟨rfl, ?_⟩
      rw [flow, Store.getElem?_bindNew, added]
      simp [apart]

/-- The scopes after a step are those that it left, whatever frames are completed. -/
theorem store_conclude (step : Step) (effect : Effect) : (conclude step effect).1.store = effect.1.store := by
  have proceeds (machine : Machine) (flow : Flow) : (machine.proceed flow).store = machine.store := by
    unfold proceed
    split
    · rfl
    · split <;> rfl
  obtain ⟨second, outcome⟩ := effect
  cases outcome with
  | error fault => rfl
  | ok flow => cases flow <;> simp [conclude, notifyStep_eq, proceeds]

end

section

variable {program : Program} {natives : Natives} {limits : Limits} {law : Law program.tree natives}
  {kept : ScopeId → Prop} {first : Store} {machine : Machine} {frame : Frame} {closure : Function}

/-- Where a closure is made, frames are clear of the scope that it captured: it is new, and no frame goes there. -/
theorem Makes.isClear (makes : machine.Makes frame closure)
    {spares : first.Spares natives.BindNothing kept}
    (satisfies : machine.Satisfies program natives limits (retaining law limits kept first spares)) (strict : law.strict) :
    ∀ other ∈ machine.step.1.frames,
      IsClear program.tree natives (fun id => kept id ∨ id = machine.store.scopes.size) machine.step.1.store other := by
  obtain ⟨going, top, node, current, -, -⟩ := makes
  obtain ⟨abides, scopes, frames⟩ := satisfies
  obtain ⟨rfl, rfl, rfl, -⟩ := id abides
  have clear : ∀ other ∈ machine.frames, IsClear machine.program.tree machine.natives
      (fun id => kept id ∨ id = machine.store.scopes.size) machine.store other := by
    intro other among
    obtain ⟨sequence, level, is, clear⟩ := frames other among
    have bound := (abides.frames other among).inside.2 strict
    refine ⟨sequence, level, is, clear.with_later (abides.store.nested strict) bound ?_⟩
    rintro id older (there | rfl)
    · exact there
    · exact absurd older (Nat.lt_irrefl _)
  obtain ⟨rest, active⟩ : ∃ rest, machine.frames = frame :: rest := by
    cases frames : machine.frames with
    | nil => simp [frames] at top
    | cons first rest => exact ⟨rest, by simpa [frames] using top⟩
  have comes := step_comesTo abides
  rw [active] at clear
  generalize machine.step = ended at comes ⊢
  cases comes with
  | finished result => simp [going] at result
  | idle _ idle => simp [active] at idle
  | completed _ active' none =>
    rw [active, List.cons.injEq] at active'
    rw [← active'.1, current] at none
    cases none
  | faulted _ active' _ move =>
    obtain ⟨rfl, rfl⟩ := List.cons.inj (active.symm.trans active')
    intro other among
    rcases List.mem_cons.mp among with rfl | below
    · exact (clear frame (by simp)).faulted move
    · exact (clear other (by simp [below])).grown move.evolves
  | @moved _ frame' _ step store' flow _ _ active' current' move concludes =>
    obtain ⟨rfl, rfl⟩ := List.cons.inj (active.symm.trans active')
    obtain rfl : Step.finish node = step := Option.some.inj (current.symm.trans current')
    have here := (clear frame (by simp)).moved (by simp) current move
    rw [concludes.store_eq]
    refine concludes.keeps (fun _ _ value here _ _ => here.push value) fun other among => ?_
    rcases mem_frames among with below | rfl | ⟨value, rfl, rfl⟩ | rfl
    · exact (clear other (by simp [below])).grown move.evolves
    · exact here
    · exact here.push value
    · exact absurd move.yields.1 (by simp [Step.opens])

/-- What is captured where a closure is made. -/
theorem Makes.captured (makes : machine.Makes frame closure)
    (abides : machine.Abides program natives limits law) (strict : law.strict) :
    frame.scope < machine.store.scopes.size ∧ closure.context = some machine.store.scopes.size ∧
      machine.step.1.store.scopes[machine.store.scopes.size]? = some (machine.store.snapshot frame.scope) := by
  obtain ⟨going, top, node, current, defined, made⟩ := makes
  have bound := (abides.frames frame (List.mem_of_mem_head? top)).inside.2 strict
  obtain ⟨rest, active⟩ : ∃ rest, machine.frames = frame :: rest := by
    cases frames : machine.frames with
    | nil => simp [frames] at top
    | cons first rest => exact ⟨rest, by simpa [frames] using top⟩
  obtain ⟨name, is⟩ := finish_of_definition frame defined
  have here : machine.finish frame node = machine.define frame node name := is machine.stepsTaken
  have counted : ({ machine with stepsTaken := machine.stepsTaken + 1 } : Machine).execute frame (.finish node) =
      { machine with stepsTaken := machine.stepsTaken + 1 }.define frame node name := is (machine.stepsTaken + 1)
  rw [here] at made
  refine ⟨bound, ?_, ?_⟩
  · have same := (define_spec bound made).1
    cases same
    rfl
  · rw [step_of_current going active current, store_conclude, counted]
    have made' := (define_charged (machine.stepsTaken + 1) name).trans made
    exact (@define_spec { machine with stepsTaken := machine.stepsTaken + 1 } frame node bound name _ made').2

end

/-! ### Scopes at all moments -/

section

variable {tree : Tree} {natives : Natives} (law : Law tree natives) (limits : Limits)

/-- The scopes that an evaluation makes lie inside others. -/
def nesting (base : ScopeId) : Invariant law limits where
  scopes store := store.LieInside base
  frame _ _ := True
  written _ inside evolves := inside.evolves evolves
  grown _ _ := trivial
  pushed _ _ := trivial
  moved _ _ _ _ := trivial
  opened _ _ _ := trivial

variable {law limits}

theorem nesting_lasts (base : ScopeId) : (nesting law limits base).Lasts where
  faulted _ _ := trivial
  called inside evolves := inside.evolves (evolves 0)

theorem retaining_lasts {kept : ScopeId → Prop} {first : Store} (spares : first.Spares natives.BindNothing kept) :
    (retaining law limits kept first spares).Lasts where
  faulted clear move := clear.faulted move
  called {store _} retains evolves := retains.evolves spares (evolves store.scopes.size) retains.fresh

end

section

variable {machine : Machine} {inputs : Inputs} {law : Law machine.program.tree machine.natives}
  (abides : (machine.start inputs).Abides machine.program machine.natives machine.limits law)

include abides

/-- An evaluation that has just been started leaves its outermost scope alone if natives bind no names, and all from
before. -/
theorem start_retaining (quiet : machine.natives.BindNothing) :
    (machine.start inputs).Satisfies machine.program machine.natives machine.limits
      (retaining law machine.limits (· < machine.store.scopes.size + 1)
        (outermostStore machine.natives inputs machine.store) (.inl quiet)) := by
  have evolves := @Store.evolves_add True (machine.store.scopes.size + 1)
    (outermostStore machine.natives inputs machine.store) [] machine.store.scopes.size
  refine ⟨abides, ?_, fun frame among => ?_⟩
  · have self : (outermostStore machine.natives inputs machine.store).Retains (· < machine.store.scopes.size + 1)
        (outermostStore machine.natives inputs machine.store) := by
      refine ⟨Nat.le_refl _, fun id older => ?_, fun _ _ => rfl⟩
      rwa [size_outermostStore]
    rw [start_store]
    exact self.evolves (.inl trivial) evolves (Nat.lt_irrefl _)
  · rw [start_frames] at among
    rw [List.mem_singleton.mp among]
    exact ⟨isSequence_code machine.tree machine.natives machine.tree.root, 0, rfl, Nat.lt_irrefl _⟩

theorem start_nesting :
    (machine.start inputs).Satisfies machine.program machine.natives machine.limits
      (nesting law machine.limits (machine.store.scopes.size + 1)) := by
  have evolves := @Store.evolves_add True 0 (outermostStore machine.natives inputs machine.store) []
    machine.store.scopes.size
  refine ⟨abides, ?_, fun _ _ => trivial⟩
  have self : (outermostStore machine.natives inputs machine.store).LieInside (machine.store.scopes.size + 1) := by
    refine ⟨by rw [size_outermostStore], fun id later bound => ?_⟩
    rw [size_outermostStore] at bound
    exact absurd bound (Nat.not_lt.mpr later)
  rw [start_store]
  exact self.evolves evolves

end

/-- Closures are snapshots. Whatever is bound, called and left in an evaluation after a closure was made in it: looked
up from the scope that the closure captured, every name gives what it gave from the scope of the definition when the
closure was made, and a name that gave nothing gives nothing. -/
theorem captured_scope_is_snapshot {machine : Machine} {inputs : Inputs} (standard : machine.natives = .standard)
    (closed : machine.store.IsClosed) (within : inputs.AreWithin machine.store.scopes.size) {now last : Machine}
    (reached : ReflTransGen Becomes (machine.start inputs) now) {frame : Frame} {closure : Function}
    (makes : now.Makes frame closure) (later : ReflTransGen Becomes now.step.1 last) :
    ∃ captured, closure.context = some captured ∧ captured < last.store.scopes.size ∧
      ∀ name, last.store.lookup captured name = now.store.lookup frame.scope name := by
  have makeNone : machine.natives.MakeNoFunctions := standard ▸ Natives.standard_makeNoFunctions
  have quiet : machine.natives.BindNothing := standard ▸ Natives.standard_bindNothing
  have started : (machine.start inputs).Abides machine.program machine.natives machine.limits
      (.existing machine.program.tree makeNone) :=
    start_abides ((Store.isClosed_iff_abides _ makeNone).mp closed) (Nat.zero_le _)
      (fun stream among => within stream (List.mem_append_left _ among))
      (fun borrow among => within borrow (List.mem_append_right _ among))
  have apart := (start_retaining started quiet).later (retaining_lasts _) reached
  have inside := (start_nesting started).later (nesting_lasts _) reached
  obtain ⟨bound, context, captures⟩ := makes.captured apart.abides trivial
  -- From here on the captured scope is left alone as well.
  have next := apart.step (retaining_lasts _)
  have begun : now.step.1.Satisfies machine.program machine.natives machine.limits
      (retaining (.existing machine.program.tree makeNone) machine.limits
        (fun id => id < machine.store.scopes.size + 1 ∨ id = now.store.scopes.size) now.step.1.store (.inl quiet)) := by
    refine ⟨next.abides, ⟨Nat.le_refl _, ?_, fun _ _ => rfl⟩, makes.isClear apart trivial⟩
    rintro id (older | rfl)
    · exact Nat.lt_of_lt_of_le (next.scopes.older id older) next.scopes.size
    · exact Store.lt_size_of_getElem? captures
  have after := begun.later (retaining_lasts _) later
  have holds := (after.scopes.kept now.store.scopes.size (.inr rfl)).trans captures
  refine ⟨_, context, Store.lt_size_of_getElem? holds, ?_⟩
  refine Store.lookup_captured (apart.abides.store.nested trivial) (after.abides.store.nested trivial) holds ?_
  intro outermost inner ends
  have older := inside.scopes.lt_of_outermost (Nat.lt_of_le_of_lt inner bound) ends
  rw [after.scopes.kept outermost (.inl older), next.scopes.kept outermost older, apart.scopes.kept outermost older]

/-- A function without inputs that returns what `a` is, bound to `f`; and then `a` is bound to true. -/
def early : Tree where
  nodes := #[
    ⟨.reference "a", .none⟩,
    ⟨.function "" ⟨0, 0⟩ (.node 0) none, .none⟩,
    ⟨.bind "f" (.node 1) none false, .none⟩,
    ⟨.boolean true, .none⟩,
    ⟨.bind "a" (.node 3) none false, .none⟩,
    ⟨.block ⟨0, 2⟩, .none⟩,
    ⟨.program (.node 5), .none⟩]
  lists := #[.node 2, .node 4]
  root := .node 6

/-- A machine whose next step makes the function. -/
def makingEarly : Machine :=
  ((create (.ofTree early) .standard ⟨1000, 10⟩ .empty).start {}).step.1

/-- The machine when `a` is bound, too. -/
def boundLater : Machine :=
  makingEarly.step.1.step.1.step.1.step.1

/-- The function does not see the later name when the host calls it, although the scope does where it was made. -/
theorem early_function_misses_later_name :
    let closure : Function := ⟨.definition (.node 1), some 4, ""⟩
    let last := (boundLater.call closure [] (.node 6)).1.step.1
    makingEarly.Makes { Frame.start .program (.node 6) (early.code (.node 6)).toArray 3 with cursor := 1 } closure ∧
      makingEarly.store.lookup 3 "a" = none ∧ boundLater.store.lookup 3 "a" = some (.boolean true) ∧
      ∃ captured, closure.context = some captured ∧ captured < last.store.scopes.size ∧
        ∀ name, last.store.lookup captured name = makingEarly.store.lookup 3 name := by
  intro closure last
  have closed : (create (.ofTree early) .standard ⟨1000, 10⟩ .empty).store.IsClosed :=
    @isClosed_after early ⟨1000, 10⟩ .empty Store.isClosed_empty [] trivial
  have within : Inputs.AreWithin (create (.ofTree early) .standard ⟨1000, 10⟩ .empty).store.scopes.size {} := by
    simp [Inputs.AreWithin]
  have makes : makingEarly.Makes
      { Frame.start .program (.node 6) (early.code (.node 6)).toArray 3 with cursor := 1 } closure :=
    ⟨rfl, rfl, .node 1, rfl, rfl, rfl⟩
  have bound : ReflTransGen Becomes makingEarly.step.1 boundLater :=
    .tail (.tail (.tail .refl .step) .step) .step
  have called : boundLater.Becomes (boundLater.call closure [] (.node 6)).1 :=
    .call closure [] (.node 6) (by rintro _ ⟨⟩; decide) (by simp)
  have later : ReflTransGen Becomes makingEarly.step.1 last := (bound.tail called).tail .step
  exact ⟨makes, rfl, rfl, captured_scope_is_snapshot rfl closed within (.single .step) makes later⟩

end Machine

end Rivulet
