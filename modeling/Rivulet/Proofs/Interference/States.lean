import Rivulet.Proofs.Interference.Plan
import Rivulet.Proofs.Machine.Branching
import Rivulet.Proofs.Meaning.Opening

/-!
States of plain programs. A step may complete a node, and then it leaves the value of that node on the stack
(`Machine.left?`). A program without functions runs in three scopes at most, of which only that of its block gains
names (`Surroundings`), and what it makes of the values on its stack is what its nodes make of the values that they
read (`exists_push_of_operands`).
-/

namespace Rivulet

/-! ### Completed nodes -/

/-- The node that a step completes if it succeeds. A logical operator is complete as soon as its left operand
decides it. -/
def Frame.completes? (frame : Frame) : Step → Option NodeId
  | .finish id | .bind id => some id
  | .branch id decisive _ =>
    match frame.peek? with
    | some (.boolean holds) => if holds == decisive then some id else none
    | _ => none
  | _ => none

/-- Natives complete no nodes. -/
theorem Frame.IsNative.exists_current {frame : Frame} (native : frame.IsNative) :
    ∃ step, frame.current? = some step ∧ frame.completes? step = none := by
  have bound : frame.cursor < frame.steps.size := by simpa [Frame.isExhausted] using native.going
  refine ⟨_, Array.getElem?_eq_getElem bound, ?_⟩
  rcases native with ⟨index, steps, cursor⟩ | ⟨op, steps, within⟩
  · simp [steps, cursor, Frame.completes?]
  · have all : ∀ step ∈ op.steps, frame.completes? step = none := by simp [HigherOrder.steps, Frame.completes?]
    have among : frame.steps[frame.cursor] ∈ frame.steps := Array.getElem_mem bound
    exact all _ (by simpa only [steps, List.mem_toArray] using among)

namespace Machine

/-- The node that the next step completes, and the value that it leaves on the stack. -/
def left? (machine : Machine) : Option (NodeId × Value) :=
  match machine.result, machine.frames with
  | some _, _ | none, [] => none
  | none, frame :: _ =>
    match frame.current? with
    | none => none
    | some step =>
      match frame.completes? step with
      | none => none
      | some id =>
        match { machine with stepsTaken := machine.stepsTaken + 1 }.execute frame step with
        | (_, .ok (.push value)) => some (id, value)
        | (after, .ok .proceed) => after.peek?.map fun value => (id, value)
        | _ => none

variable {machine : Machine} {store store' : Store} {frame frame' : Frame} {rest : List Frame} {taken : Nat} {step : Step}
  {id : NodeId} {value : Value}

theorem left?_of_result (finished : machine.result.isSome) : machine.left? = none := by
  obtain ⟨value, is⟩ := Option.isSome_iff_exists.mp finished
  simp only [left?, is]

theorem left?_inState (current : frame.current? = some step) :
    (machine.inState store (frame :: rest) taken).left? =
      match frame.completes? step with
      | none => none
      | some id =>
        match (machine.inState store (frame :: rest) (taken + 1)).execute frame step with
        | (_, .ok (.push value)) => some (id, value)
        | (after, .ok .proceed) => after.peek?.map fun value => (id, value)
        | _ => none := by
  rw [show (machine.inState store (frame :: rest) taken).left? =
    match frame.current? with
    | none => none
    | some step => _ from rfl, current]
  rfl

/-- A step that does not succeed leaves nothing. -/
theorem left?_of_halts (current : frame.current? = some step)
    (halts : Halts ((machine.inState store (frame :: rest) (taken + 1)).execute frame step)) :
    (machine.inState store (frame :: rest) taken).left? = none := by
  rw [left?_inState current]
  cases frame.completes? step with
  | none => rfl
  | some id =>
    generalize (machine.inState store (frame :: rest) (taken + 1)).execute frame step = effect at halts
    obtain ⟨after, outcome⟩ := effect
    rcases halts with ⟨fault, faulty⟩ | ⟨exception, thrown⟩
    · cases faulty
      rfl
    · cases thrown
      rfl

theorem left?_of_push (current : frame.current? = some step) (completes : frame.completes? step = some id)
    {after : Machine}
    (executed : (machine.inState store (frame :: rest) (taken + 1)).execute frame step = (after, .ok (.push value))) :
    (machine.inState store (frame :: rest) taken).left? = some (id, value) := by
  rw [left?_inState current, completes, executed]

theorem left?_of_proceed (current : frame.current? = some step) (completes : frame.completes? step = some id)
    (executed : (machine.inState store (frame :: rest) (taken + 1)).execute frame step =
      (machine.inState store' (frame' :: rest) (taken + 1), .ok .proceed)) :
    (machine.inState store (frame :: rest) taken).left? = frame'.peek?.map fun value => (id, value) := by
  rw [left?_inState current, completes, executed]
  rfl

theorem left?_of_incomplete (current : frame.current? = some step) (incomplete : frame.completes? step = none) :
    (machine.inState store (frame :: rest) taken).left? = none := by
  rw [left?_inState current, incomplete]

/-- The last frame has a result when no step is left. -/
theorem isSome_completeFrames (exhausted : frame.isExhausted = true) :
    (machine.inState store [frame] taken).completeFrames.result.isSome := by
  cases holds : frame.values with
  | nil =>
    simp [completeFrames, exhausted, Frame.peek?, holds, Value.failed, Value.isException]
  | cons value values => simp [completeFrames_of_last exhausted holds]

end Machine

/-! ### Scopes -/

theorem Store.lookupFrom_succ (store : Store) (name : String) (count : Nat) (id : ScopeId) :
    store.lookupFrom name (count + 1) id =
      (store.local? id name).or ((store.parent? id).bind fun outer => store.lookupFrom name count outer) := by
  rw [lookupFrom]
  cases store.local? id name with
  | some value => rfl
  | none => cases store.parent? id <;> rfl

/-- A scope binds the names of some binds, each to a value of the latest bind of that name. -/
def Context.Binds (context : Context) (good : NodeId → Value → Prop) (store : Store) (scope : ScopeId)
    (binds : List NodeId) : Prop :=
  ∀ name, match binds.find? fun bind => context.declares bind name with
    | none => store.local? scope name = none
    | some bind => ∃ value, store.local? scope name = some (Meaning.named name value) ∧ good bind value

/-- The scopes that a step of a program sees: the outermost one, that of the program, which binds nothing, and that
of the block, once it was entered. -/
structure Surroundings (context : Context) (good : NodeId → Value → Prop) (outer : String → Option Value)
    (root home : ScopeId) (store : Store) (scope : ScopeId) (binds : Option (List NodeId)) : Prop where
  apart : root < home
  outermost : store.parent? root = none
  natives : ∀ name, store.local? root name = outer name
  bound : home < store.scopes.size
  parent : store.parent? home = some root
  blank : ∀ name, store.local? home name = none
  block : match binds with
    | none => scope = home
    | some binds => home < scope ∧ scope < store.scopes.size ∧ store.parent? scope = some home ∧
        context.Binds good store scope binds

namespace Surroundings

open Machine

variable {context : Context} {good : NodeId → Value → Prop} {outer : String → Option Value} {root home scope : ScopeId}
  {store store' : Store} {binds : Option (List NodeId)} {name : String}

theorem scope_bound (surroundings : Surroundings context good outer root home store scope binds) :
    scope < store.scopes.size := by
  cases binds with
  | none => exact surroundings.block ▸ surroundings.bound
  | some binds => exact surroundings.block.2.1

theorem lookup_home (surroundings : Surroundings context good outer root home store scope binds) {count : Nat} :
    store.lookupFrom name (count + 2) home = outer name := by
  rw [Store.lookupFrom_succ, surroundings.blank, surroundings.parent, Option.none_or, Option.bind_some,
    Store.lookupFrom_succ, surroundings.natives, surroundings.outermost, Option.bind_none, Option.or_none]

/-- A name that no bind declares is looked up in the outermost scope. -/
theorem lookup_of_unbound (surroundings : Surroundings context good outer root home store scope binds)
    (unbound : (binds.getD []).find? (fun bind => context.declares bind name) = none) :
    store.lookup scope name = outer name := by
  obtain ⟨below, rfl⟩ := Nat.exists_eq_succ_of_ne_zero (Nat.ne_zero_of_lt surroundings.apart)
  cases binds with
  | none =>
    rw [surroundings.block]
    exact surroundings.lookup_home
  | some binds =>
    obtain ⟨above, -, parent, bound⟩ := surroundings.block
    obtain ⟨more, rfl⟩ := Nat.exists_eq_add_of_lt above
    have here := bound name
    rw [Option.getD_some] at unbound
    simp only [unbound] at here
    rw [Store.lookup, Store.lookupFrom_succ, here, parent, Option.none_or, Option.bind_some, Nat.succ_add]
    exact surroundings.lookup_home

/-- A name that some bind declares has a value of the latest one. -/
theorem lookup_of_bound (surroundings : Surroundings context good outer root home store scope binds) {bind : NodeId}
    (found : (binds.getD []).find? (fun bind => context.declares bind name) = some bind) :
    ∃ value, store.lookup scope name = some (Meaning.named name value) ∧ good bind value := by
  cases binds with
  | none => simp at found
  | some binds =>
    obtain ⟨-, -, -, bound⟩ := surroundings.block
    have here := bound name
    rw [Option.getD_some] at found
    simp only [found] at here
    obtain ⟨value, holds, fits⟩ := here
    exact ⟨value, by rw [Store.lookup, Store.lookupFrom_succ, holds, Option.some_or], fits⟩

theorem local?_of_untouched {base id : ScopeId} (untouched : Untouched base store store') (below : id < base) :
    store'.local? id name = store.local? id name := by
  simp only [Store.local?, untouched.2 id below]

theorem parent?_of_untouched {base id : ScopeId} (untouched : Untouched base store store') (below : id < base) :
    store'.parent? id = store.parent? id := by
  simp only [Store.parent?, untouched.2 id below]

/-- The scopes around a program stay as they are while its block, or what it calls, changes others. -/
theorem keep (surroundings : Surroundings context good outer root home store scope binds) {base : ScopeId}
    (untouched : Untouched base store store') (below : home < base) :
    Surroundings context good outer root home store' home none where
  apart := surroundings.apart
  outermost := by
    rw [parent?_of_untouched untouched (Nat.lt_trans surroundings.apart below), surroundings.outermost]
  natives name := by
    rw [local?_of_untouched untouched (Nat.lt_trans surroundings.apart below), surroundings.natives]
  bound := Nat.lt_of_lt_of_le surroundings.bound untouched.1
  parent := by rw [parent?_of_untouched untouched below, surroundings.parent]
  blank name := by rw [local?_of_untouched untouched below, surroundings.blank]
  block := rfl

theorem untouched (surroundings : Surroundings context good outer root home store scope binds) {base : ScopeId}
    (untouched : Untouched base store store') (below : scope < base) :
    Surroundings context good outer root home store' scope binds := by
  cases binds with
  | none =>
    obtain rfl : scope = home := surroundings.block
    exact surroundings.keep untouched below
  | some binds =>
    obtain ⟨above, there, parent, bound⟩ := surroundings.block
    refine { surroundings.keep untouched (Nat.lt_trans above below) with block := ?_ }
    refine ⟨above, Nat.lt_of_lt_of_le there untouched.1, by rw [parent?_of_untouched untouched below, parent], fun name => ?_⟩
    have here := bound name
    rw [local?_of_untouched untouched below]
    exact here

theorem untouched_add (store : Store) (scope : Scope) : Untouched store.scopes.size store (store.add scope).2 := by
  refine ⟨by simp, fun id below => ?_⟩
  have there := Array.getElem?_eq_getElem below
  rw [there, Store.getElem?_add_of_old scope there]

theorem untouched_bindNew (store : Store) (scope : ScopeId) (name : String) (value : Value) :
    Untouched scope store (store.bindNew scope name value) := by
  refine ⟨by simp [Store.bindNew], fun id below => ?_⟩
  rw [Store.getElem?_bindNew]
  simp [Nat.ne_of_gt below]

/-- A block is entered in a scope of its own. -/
theorem enter (surroundings : Surroundings context good outer root home store scope none) :
    Surroundings context good outer root home (store.child scope).2 (store.child scope).1 (some []) := by
  obtain rfl : scope = home := surroundings.block
  refine { surroundings.keep (untouched_add store _) surroundings.bound with block := ?_ }
  refine ⟨surroundings.bound, by simp [Store.child], by simp [Store.child], fun name => ?_⟩
  simp [Store.child]

/-- A block leaves its scope when it is complete. -/
theorem leave (surroundings : Surroundings context good outer root home store scope binds) (entered : binds.isSome) :
    store.parent? scope = some home ∧ Surroundings context good outer root home store home none := by
  obtain ⟨binds, rfl⟩ := Option.isSome_iff_exists.mp entered
  exact ⟨surroundings.block.2.2.1, { surroundings with block := rfl }⟩

/-- A bind adds its name to the scope of the block. -/
theorem bind {completed : List NodeId}
    (surroundings : Surroundings context good outer root home store scope (some completed)) {id : NodeId} {value : Value}
    (declared : (context.tree.form? id).bind Form.declaredName? = some name) (fits : good id value) :
    Surroundings context good outer root home (store.bindNew scope name (Meaning.named name value)) scope
      (some (id :: completed)) := by
  obtain ⟨above, there, parent, bound⟩ := surroundings.block
  refine { surroundings.keep (untouched_bindNew store scope _ _) above with block := ?_ }
  refine ⟨above, by simpa [Store.bindNew] using there, by rw [Store.parent?_bindNew, parent], fun other => ?_⟩
  rw [List.find?_cons]
  by_cases same : other = name
  · subst same
    rw [show context.declares id other = true from Context.declares_iff.mpr declared]
    exact ⟨value, by rw [Store.local?_bindNew there, if_pos rfl], fits⟩
  · have apart : context.declares id other = false := by
      refine Bool.eq_false_iff.mpr fun declares => same ?_
      have := Context.declares_iff.mp declares
      rw [declared, Option.some.injEq] at this
      exact this.symm
    have here := bound other
    simp only [apart]
    rw [Store.local?_bindNew there, if_neg same]
    exact here

/-- An evaluation starts in the scope of the program. -/
theorem start (context : Context) (good : NodeId → Value → Prop) (natives : Natives) (inputs : Inputs) (store : Store) :
    let started := Meaning.outerScopes natives inputs.streams store
    Surroundings context good (Meaning.outermostBinding natives inputs) started.1 started.2.1 started.2.2 started.2.1
      none := by
  intro started
  have size := Meaning.size_outermostStore natives inputs store
  have rooted := Meaning.rooted_outermostStore natives inputs store
  have before : store.scopes.size < (Meaning.outermostStore natives inputs store).scopes.size := by omega
  have untouched := untouched_add (Meaning.outermostStore natives inputs store) ⟨[], some store.scopes.size⟩
  simp only [started, Meaning.outerScopes_eq]
  refine ⟨before, ?_, fun name => ?_, by simp, by simp, fun name => by simp, rfl⟩
  · rw [parent?_of_untouched untouched before, rooted.outermost]
  · rw [local?_of_untouched untouched before, Meaning.local?_outermostStore]

end Surroundings

end Rivulet
