import Rivulet.Proofs.Segments.Stacks

/-!
What a frame sees of the scope of its call. The frame goes into scopes of blocks and comes back from them; a name that
the scope of the call binds is hidden while one of them binds it too. A chart keeps account of that
(`Chart.sights`): whether the scope of the call binds the name, and which of the scopes in between may do so.

Main statement: `Store.Sees.lookup` says what the name means where none of them does.
-/

namespace Rivulet

/-! ### Scopes inside the scope of a call -/

/-- What is known of a name in front of a step: whether the scope of the call binds it, and for each scope inside it
that the frame has gone into, the innermost first, whether that one may bind it. -/
structure Sight where
  bound : Bool
  shades : List Bool

namespace Sight

/-- The name means what the scope of the call binds it to. -/
def IsClear (sight : Sight) : Prop :=
  sight.bound = true ∧ ∀ shade ∈ sight.shades, shade = false

/-- What is known when the scope that the frame is in binds the name. -/
def mark (sight : Sight) : Sight :=
  match sight.shades with
  | [] => { sight with bound := true }
  | _ :: shades => { sight with shades := true :: shades }

@[simp]
theorem length_mark (sight : Sight) : sight.mark.shades.length = sight.shades.length := by
  obtain ⟨bound, shades⟩ := sight
  cases shades <;> rfl

theorem bound_mark {sight : Sight} (bound : sight.bound = true) : sight.mark.bound = true := by
  obtain ⟨already, shades⟩ := sight
  cases shades with
  | nil => rfl
  | cons => exact bound

end Sight

namespace Store

/-- A scope lies in the scope of a call, and those in between, itself among them, do not bind a name unless they have a
shade. -/
inductive Views (store : Store) (call : ScopeId) (name : String) : List Bool → ScopeId → Prop where
  | here : Views store call name [] call
  | inside {shade : Bool} {shades : List Bool} {scope around : ScopeId} (lies : store.parent? scope = some around)
      (older : around < scope) (clear : shade = false → store.local? scope name = none)
      (views : Views store call name shades around) : Views store call name (shade :: shades) scope

/-- What is known of a name is so, and the scope of the call binds the name to the value that it was given there. -/
structure Sees (store : Store) (call : ScopeId) (name : String) (given : Option Value) (scope : ScopeId)
    (sight : Sight) : Prop where
  lies : store.HasInner call
  views : store.Views call name sight.shades scope
  bound : sight.bound = true → (store.local? call name).isSome
  given : ∀ value, given = some value → store.local? call name = some value

variable {store store' : Store} {call scope own : ScopeId} {name other : String} {shades : List Bool} {shade : Bool}
  {given : Option Value} {value : Value} {sight : Sight}

theorem Views.inner (views : store.Views call name shades scope) (lies : store.HasInner call) :
    store.HasInner scope := by
  cases views with
  | here => exact lies
  | inside lies => exact Option.isSome_of_eq_some lies

theorem Sees.within (sees : store.Sees call name given scope sight) : scope < store.scopes.size :=
  lt_size_of_inner (sees.views.inner sees.lies)

theorem Views.not_older (views : store.Views call name shades scope) : call ≤ scope := by
  induction views with
  | here => exact Nat.le_refl call
  | inside _ older _ _ hypothesis => exact Nat.le_trans hypothesis (Nat.le_of_lt older)

/-- Nothing but the parents and the bindings of the name of the inner scopes up to one matters to it. -/
theorem Views.transfer (views : store.Views call name shades scope) (same : ∀ id ≤ scope, store.HasInner id →
      store'.parent? id = store.parent? id ∧ store'.local? id name = store.local? id name) :
    store'.Views call name shades scope := by
  induction views with
  | here => exact .here
  | @inside shade shades scope around lies older clear _ hypothesis =>
    obtain ⟨parent, bindings⟩ := same scope (Nat.le_refl scope) (Option.isSome_of_eq_some lies)
    exact .inside (parent.trans lies) older (fun none => bindings.trans (clear none))
      (hypothesis fun id earlier => same id (Nat.le_of_lt (Nat.lt_of_le_of_lt earlier older)))

/-- Where no shade lies on a name, it means what the scope of the call binds it to. -/
theorem Views.lookup (views : store.Views call name shades scope) (clear : ∀ shade ∈ shades, shade = false)
    (there : store.local? call name = some value) : store.lookup scope name = some value := by
  have walked (count : Nat) (enough : scope < count) : store.lookupFrom name count scope = some value := by
    induction views generalizing count with
    | here =>
      cases count with
      | zero => exact absurd enough (Nat.not_lt_zero _)
      | succ count => simp [lookupFrom, there]
    | @inside shade shades scope around lies older unbound _ hypothesis =>
      cases count with
      | zero => exact absurd enough (Nat.not_lt_zero _)
      | succ count =>
        have none := unbound (clear shade List.mem_cons_self)
        simp only [lookupFrom, none, lies]
        exact hypothesis (fun shade among => clear shade (List.mem_cons_of_mem _ among)) count
          (Nat.lt_of_lt_of_le older (Nat.le_of_lt_succ enough))
  exact walked (scope + 1) (Nat.lt_succ_self scope)

theorem Sees.lookup (sees : store.Sees call name given scope sight) (clear : sight.IsClear) :
    ∃ value, store.local? call name = some value ∧ store.lookup scope name = some value := by
  obtain ⟨value, there⟩ := Option.isSome_iff_exists.mp (sees.bound clear.1)
  exact ⟨value, there, sees.views.lookup clear.2 there⟩

/-! ### What changes a sight -/

/-- All scopes that lie in others stay as they are. -/
theorem Sees.keeps (sees : store.Sees call name given scope sight)
    (kept : ∀ id, store.HasInner id → store'.scopes[id]? = store.scopes[id]?) :
    store'.Sees call name given scope sight := by
  have parent (id : ScopeId) (inner : store.HasInner id) : store'.parent? id = store.parent? id := by
    rw [parent?, parent?, kept id inner]
  have bindings (id : ScopeId) (inner : store.HasInner id) : store'.local? id name = store.local? id name := by
    rw [local?, local?, kept id inner]
  have same := bindings call sees.lies
  exact {
    lies := by
      rw [HasInner, parent call sees.lies]
      exact sees.lies
    views := sees.views.transfer fun id _ inner => ⟨parent id inner, bindings id inner⟩
    bound := fun bound => same ▸ sees.bound bound
    given := fun value is => same ▸ sees.given value is }

/-- A scope is added inside, which binds nothing. -/
theorem Sees.enter (sees : store.Sees call name given scope sight) :
    (store.child scope).2.Sees call name given store.scopes.size { sight with shades := false :: sight.shades } := by
  have kept := sees.keeps fun _ => (keeps_add store ⟨[], some scope⟩).inner.getElem?
  exact { kept with
    views := .inside (parent?_add_self store _) sees.within
      (fun _ => by rw [Store.child, local?_add_self]; rfl) kept.views }

/-- The innermost scope is left. -/
theorem Sees.leave (sees : store.Sees call name given scope sight) (some : sight.shades ≠ []) :
    store.Sees call name given ((store.parent? scope).getD scope) { sight with shades := sight.shades.tail } := by
  obtain ⟨inner, views, bound, given⟩ := sees
  obtain ⟨already, shades⟩ := sight
  cases views with
  | here => exact absurd rfl some
  | @inside shade shades scope around lies _ _ views =>
    rw [lies]
    exact ⟨inner, views, bound, given⟩

/-- The scope that the frame is in binds the name. -/
theorem Sees.mark (sees : store.Sees call name given scope sight) (binds : (store.local? scope name).isSome) :
    store.Sees call name given scope sight.mark := by
  obtain ⟨inner, views, bound, given⟩ := sees
  obtain ⟨already, shades⟩ := sight
  cases views with
  | here => exact ⟨inner, .here, fun _ => binds, given⟩
  | inside lies older _ views =>
    exact ⟨inner, .inside lies older (fun impossible => by cases impossible) views, bound, given⟩

/-- A name that the scope of the frame does not bind yet is bound there. -/
theorem Sees.bindNew (sees : store.Sees call name given scope sight) (free : store.local? scope other = none)
    (value : Value) :
    (store.bindNew scope other value).Sees call name given scope (if other = name then sight.mark else sight) := by
  have within := sees.within
  have parent (id : ScopeId) : (store.bindNew scope other value).parent? id = store.parent? id :=
    parent?_bindNew _ _ _ _ _
  have lies : (store.bindNew scope other value).HasInner call := by
    rw [HasInner, parent]
    exact sees.lies
  have older (id : ScopeId) (before : id ≠ scope) (bound : id < store.scopes.size) :
      (store.bindNew scope other value).local? id name = store.local? id name :=
    (extends_bindNew store scope other value).others.local? before bound name
  have here : (store.bindNew scope other value).local? scope name =
      if name = other then some value else store.local? scope name := local?_bindNew within other name value
  by_cases same : other = name
  · subst same
    rw [if_pos rfl] at here ⊢
    obtain ⟨inner, views, bound, given⟩ := sees
    obtain ⟨already, shades⟩ := sight
    cases views with
    | here =>
      refine ⟨lies, .here, fun _ => by simp [here], fun earlier is => ?_⟩
      rw [given earlier is] at free
      cases free
    | @inside shade shades scope around around' before _ views =>
      have apart : call ≠ scope := Nat.ne_of_lt (Nat.lt_of_le_of_lt views.not_older before)
      have same := older call apart (lt_size_of_inner inner)
      refine ⟨lies, .inside ((parent scope).trans around') before (fun impossible => by cases impossible) ?_,
        fun known => same ▸ bound known, fun value is => same ▸ given value is⟩
      exact views.transfer fun id earlier _ =>
        have before := Nat.lt_of_le_of_lt earlier before
        ⟨parent id, older id (Nat.ne_of_lt before) (Nat.lt_trans before within)⟩
  · rw [if_neg (Ne.symm same)] at here
    rw [if_neg same]
    have each (id : ScopeId) (bound : id < store.scopes.size) :
        (store.bindNew scope other value).local? id name = store.local? id name := by
      by_cases own : id = scope
      · exact own ▸ here
      · exact older id own bound
    have kept := each call (lt_size_of_inner sees.lies)
    exact ⟨lies, sees.views.transfer fun id _ inner => ⟨parent id, each id (lt_size_of_inner inner)⟩,
      fun known => kept ▸ sees.bound known, fun value is => kept ▸ sees.given value is⟩

end Store

/-! ### Steps that bind names -/

namespace Step

/-- The name that a step binds in the scope of its frame. -/
def binds? (tree : Tree) : Step → Option String
  | finish id | bind id => (tree.form? id).bind Form.declaredName?
  | _ => none

/-- The name that the scope of its frame binds after a step that skipped as many steps: a default is skipped because its
input is bound. -/
def finds? (tree : Tree) (skips : Nat) : Step → Option String
  | skipIfBound input _ => if skips = 0 then none else (tree.form? input).bind Form.declaredName?
  | step => step.binds? tree

end Step

namespace Machine

variable {machine : Machine} {frame : Frame} {name : String} {flow : Flow}

/-! #### Steps that bind none -/

theorem keeps_collect (frame : Frame) (count : Nat) (node : NodeId) (make : List Value → Value) :
    machine.store.Keeps (machine.collect frame count node make).1.store := by
  unfold collect
  split <;> exact refl_of Store.Keeps _

theorem keeps_consume (frame : Frame) (node : NodeId) {next : Machine → Value → Effect}
    (each : ∀ frame value, machine.store.Keeps (next (machine.setTop frame) value).1.store) :
    machine.store.Keeps (machine.consume frame node next).1.store := by
  unfold consume
  split
  · exact refl_of Store.Keeps _
  · exact each _ _

theorem keeps_yield (result : Except Failure Value) (node : NodeId) :
    machine.store.Keeps (machine.yield result node).1.store := by
  cases result <;> exact refl_of Store.Keeps _

theorem keeps_jumpTop (frame : Frame) (distance : Int) :
    machine.store.Keeps (machine.jumpTop frame distance).1.store := by
  unfold jumpTop
  split <;> exact refl_of Store.Keeps _

theorem keeps_finishBlock (frame : Frame) (node : NodeId) (statements : ChildList) :
    machine.store.Keeps (machine.finishBlock frame node statements).1.store := by
  unfold finishBlock
  dsimp only
  split <;> exact refl_of Store.Keeps _

theorem keeps_finishProperty (frame : Frame) (node : NodeId) (name : String) :
    machine.store.Keeps (machine.finishProperty frame node name).1.store := by
  refine keeps_consume frame node fun frame value => ?_
  split
  · split <;> exact refl_of Store.Keeps _
  · exact refl_of Store.Keeps _

theorem keeps_finishBinary (frame : Frame) (node : NodeId) (op : BinaryOp) :
    machine.store.Keeps (machine.finishBinary frame node op).1.store := by
  unfold finishBinary
  split
  · refine keeps_consume frame node fun frame value => ?_
    split <;> exact refl_of Store.Keeps _
  · split
    · exact @keeps_yield (machine.setTop _) _ node
    · exact refl_of Store.Keeps _

theorem keeps_define_unnamed (frame : Frame) (node : NodeId) :
    machine.store.Keeps (machine.define frame node "").1.store := by
  unfold define
  exact Store.keeps_capture machine.store frame.scope

theorem keeps_finish {node : NodeId} (undeclared : (Step.finish node).binds? machine.tree = none) :
    machine.store.Keeps (machine.finish frame node).1.store := by
  unfold finish
  cases is : machine.tree.form? node with
  | none => exact refl_of Store.Keeps _
  | some form =>
    simp only [Step.binds?, is, Option.bind_some] at undeclared
    cases form with
    | function own | record own =>
      by_cases unnamed : own = ""
      · subst unnamed
        exact keeps_define_unnamed frame node
      · simp [Form.declaredName?, unnamed] at undeclared
    | borrow source => simp [Form.declaredName?] at undeclared
    | block statements => exact keeps_finishBlock frame node statements
    | sequence items | set items | mapping items => exact keeps_collect frame _ node _
    | property owner name => exact keeps_finishProperty frame node name
    | binary op left right => exact keeps_finishBinary frame node op
    | unary op operand => exact keeps_consume frame node fun frame value => @keeps_yield (machine.setTop frame) _ node
    | number | reference | program | conditional | call =>
      dsimp only
      split <;> exact refl_of Store.Keeps _
    | _ =>
      dsimp only
      exact refl_of Store.Keeps _

theorem keeps_startCall (function : Function) (arguments : List Value) (origin : NodeId) :
    machine.store.Keeps (machine.startCall function arguments origin).1.store := by
  unfold startCall
  split
  · exact refl_of Store.Keeps _
  · split
    · unfold startDefinition
      split
      · exact refl_of Store.Keeps _
      · split
        · exact refl_of Store.Keeps _
        · exact Store.keeps_add _ _
    · unfold startNative
      split
      · exact refl_of Store.Keeps _
      · split
        · exact refl_of Store.Keeps _
        · split
          · exact refl_of Store.Keeps _
          · exact Store.keeps_add _ _

/-- All scopes stay as they are in a step that is not a native's and binds no name. -/
theorem keeps_execute {step : Step} (undeclared : step.binds? machine.tree = none)
    (plain : step.isNative = false) : machine.store.Keeps (machine.execute frame step).1.store := by
  cases step with
  | finish node => exact keeps_finish undeclared
  | enter node => exact Store.keeps_add _ _
  | bind node =>
    dsimp only [execute, bindTop]
    split
    · rename_i is
      simp [Step.binds?, is, Form.declaredName?] at undeclared
    · exact refl_of Store.Keeps _
  | jump distance => exact keeps_jumpTop frame distance
  | jumpUnless node distance =>
    dsimp only [execute, jumpUnless]
    split
    · exact refl_of Store.Keeps _
    · exact refl_of Store.Keeps _
    · exact keeps_jumpTop _ distance
    · exact refl_of Store.Keeps _
  | branch node whenValue distance =>
    dsimp only [execute, branch]
    split
    · exact refl_of Store.Keeps _
    · split
      · exact keeps_jumpTop frame distance
      · exact refl_of Store.Keeps _
    · exact refl_of Store.Keeps _
  | skipIfBound input distance =>
    dsimp only [execute, skipIfBound]
    split
    · split
      · exact keeps_jumpTop frame distance
      · exact refl_of Store.Keeps _
    · exact refl_of Store.Keeps _
  | call node arity =>
    dsimp only [execute, callTop]
    split
    · exact refl_of Store.Keeps _
    · split
      · exact refl_of Store.Keeps _
      · exact @keeps_startCall (machine.setTop _) _ _ node
      · exact refl_of Store.Keeps _
  | instantiate definition =>
    dsimp only [execute, instantiate]
    split <;> exact refl_of Store.Keeps _
  | expected node => exact refl_of Store.Keeps _
  | apply | loop => cases plain

/-! #### Steps that bind one -/

/-- A name that the scope of the frame did not bind is bound there, besides scopes that were added. -/
def Binds (machine : Machine) (frame : Frame) (name : String) (effect : Effect) : Prop :=
  ∀ flow, effect.2 = .ok flow → (∀ exception, flow ≠ .throw exception) → ∃ store value, machine.store.Keeps store ∧
    store.local? frame.scope name = none ∧ effect.1.store = store.bindNew frame.scope name value

theorem binds_throw (machine' : Machine) (exception : Value) :
    machine.Binds frame name (machine', .ok (.throw exception)) := by
  rintro flow ⟨⟩ regular
  exact absurd rfl (regular exception)

theorem binds_fault (machine' : Machine) (fault : Fault) : machine.Binds frame name (machine', .error fault) := by
  rintro flow ⟨⟩

theorem binds_bindName {machine' : Machine} (kept : machine.store.Keeps machine'.store) (value : Value) (node : NodeId)
    (flow : Flow) : machine.Binds frame name (machine'.bindName frame.scope name value node flow) := by
  unfold bindName
  split
  · exact binds_throw machine' _
  · rename_i free
    rintro flow' - -
    exact ⟨machine'.store, value, kept, by simpa [Store.bindsLocally] using free, rfl⟩

theorem binds_define (named : name ≠ "") (node : NodeId) :
    machine.Binds frame name (machine.define frame node name) := by
  unfold define
  dsimp only
  rw [Naming.anonymous_string, if_neg named]
  exact binds_bindName (Store.keeps_capture machine.store frame.scope) _ node _

theorem binds_finish {node : NodeId} (declares : (Step.finish node).binds? machine.tree = some name) :
    machine.Binds frame name (machine.finish frame node) := by
  unfold finish
  cases is : machine.tree.form? node with
  | none => simp [Step.binds?, is] at declares
  | some form =>
    simp only [Step.binds?, is, Option.bind_some] at declares
    cases form with
    | function own | record own =>
      by_cases unnamed : own = ""
      · simp [Form.declaredName?, unnamed] at declares
      · obtain rfl : own = name := by simpa [Form.declaredName?, unnamed] using declares
        exact binds_define unnamed node
    | borrow source =>
      obtain rfl : source = name := by simpa [Form.declaredName?] using declares
      dsimp only [finishBorrow]
      split
      · exact binds_throw machine _
      · exact binds_bindName (refl_of Store.Keeps _) _ node _
    | bind => exact binds_fault machine _
    | _ => simp [Form.declaredName?] at declares

theorem binds_bindTop {node : NodeId} (declares : (Step.bind node).binds? machine.tree = some name) :
    machine.Binds frame name (machine.bindTop frame node) := by
  unfold bindTop
  split
  · rename_i own _ _ _ is
    obtain rfl : own = name := by simpa [Step.binds?, is, Form.declaredName?] using declares
    split
    · exact binds_throw machine _
    · exact binds_bindName (refl_of Store.Keeps _) _ node _
  · exact binds_fault machine _

theorem binds_execute {step : Step} (declares : step.binds? machine.tree = some name) :
    machine.Binds frame name (machine.execute frame step) := by
  cases step with
  | finish node => exact binds_finish declares
  | bind node => exact binds_bindTop declares
  | _ => simp [Step.binds?] at declares

/-- A default is skipped where the scope of the frame binds its input. -/
theorem skipIfBound_skips {store store' : Store} {frame' : Frame} {rest : List Frame} {taken : Nat} {input : NodeId}
    {distance : Int} (declares : (machine.tree.form? input).bind Form.declaredName? = some name)
    (executed : (machine.inState store (frame :: rest) taken).skipIfBound frame input distance =
      (machine.inState store' (frame' :: rest) taken, .ok flow))
    (moved : frame'.cursor ≠ frame.cursor) : (store.local? frame.scope name).isSome := by
  unfold skipIfBound at executed
  split at executed
  · rename_i own _ _ _ is
    have is : machine.tree.form? input = _ := is
    obtain rfl : own = name := by simpa [is, Form.declaredName?] using declares
    split at executed
    · rename_i bound
      exact bound
    · have same := congrArg (fun effect : Effect => effect.1.frames) executed
      obtain ⟨rfl, -⟩ := List.cons.inj (show frame :: rest = frame' :: rest from same)
      exact absurd rfl moved
  · cases executed

end Machine

/-! ### The chart of sights -/

/-- What is known behind a step that skipped as many steps. -/
def Sight.after (tree : Tree) (name : String) (skips : Nat) (sight : Sight) : Step → Sight
  | .enter _ => { sight with shades := false :: sight.shades }
  | step =>
    if step.leaves tree then { sight with shades := sight.shades.tail }
    else if step.finds? tree skips = some name then sight.mark
    else sight

theorem Sight.after_eq {tree : Tree} {name : String} {skips : Nat} {sight : Sight} {step : Step}
    (stays : ∀ id, step ≠ .enter id) : sight.after tree name skips step =
      if step.leaves tree then { sight with shades := sight.shades.tail }
      else if step.finds? tree skips = some name then sight.mark
      else sight := by
  cases step with
  | enter id => exact absurd rfl (stays id)
  | _ => rfl

/-- The chart of what is known of a name. A frame leaves no more scopes than it has gone into, and where a node that is
watched is completed the name is seen. -/
def Chart.sights (tree : Tree) (name : String) (watched : NodeId → Prop) : Chart Sight where
  allows sight step := (step.leaves tree = true → sight.shades ≠ []) ∧
    ∀ id, step = .finish id → watched id → sight.IsClear
  leads sight step skips later := (∃ takes gives, step.Uses tree takes gives skips) ∧
    later = sight.after tree name skips step

theorem Step.binds?_of_leaves {tree : Tree} {step : Step} (leaves : step.leaves tree = true) :
    step.binds? tree = none := by
  cases step with
  | finish id =>
    cases is : tree.form? id with
    | none => simp [Step.binds?, is]
    | some form =>
      cases form with
      | block => simp [Step.binds?, is, Form.declaredName?]
      | _ => simp [Step.leaves, is] at leaves
  | _ => simp [Step.leaves] at leaves

theorem Step.finds?_of_binds? {tree : Tree} {step : Step} {name : String} (binds : step.binds? tree = some name)
    (skips : Nat) : step.finds? tree skips = some name := by
  cases step with
  | skipIfBound => simp [Step.binds?] at binds
  | _ => exact binds

namespace Store

open Machine

/-- What a frame knows of a name when it goes on after a step. -/
theorem Sees.execute {machine : Machine} {store store' : Store} {frame frame' : Frame} {rest : List Frame}
    {taken skips : Nat} {step : Step} {flow : Flow} {natives : Natives} {law : Law machine.tree natives}
    {limits : Limits} {call : ScopeId} {name : String} {given : Option Value} {sight : Sight}
    (sees : store.Sees call name given frame.scope sight) (stays : step.leaves machine.tree = true → sight.shades ≠ [])
    (plain : step.isNative = false) (regular : ∀ exception, flow ≠ .throw exception)
    (executed : (machine.inState store (frame :: rest) taken).execute frame step =
      (machine.inState store' (frame' :: rest) taken, .ok flow))
    (move : Move law limits step (rest.length + 1) store frame store' frame' (.ok flow))
    (cursor : frame'.cursor = frame.cursor + skips) :
    store'.Sees call name given frame'.scope (sight.after machine.tree name skips step) := by
  have scope := move.scope
  have stored : store' = ((machine.inState store (frame :: rest) taken).execute frame step).1.store := by
    rw [executed]
    rfl
  cases binds : step.binds? machine.tree with
  | some other =>
    have leaves : step.leaves machine.tree = false := by
      by_contra leaves
      rw [Step.binds?_of_leaves (by simpa using leaves)] at binds
      cases binds
    have declares : step.binds? (machine.inState store (frame :: rest) taken).tree = some other := binds
    obtain ⟨added, value, kept, free, is⟩ := @binds_execute _ frame _ _ declares flow (by rw [executed]) regular
    have known := (sees.keeps fun _ => kept.inner.getElem?).bindNew free value
    have stays (id : NodeId) : step ≠ .enter id := by
      rintro rfl
      simp [Step.binds?] at binds
    have here : frame'.scope = frame.scope := by
      cases step with
      | enter id => exact absurd rfl (stays id)
      | _ => simpa [Step.scopeFrom, leaves] using scope
    rw [Sight.after_eq stays, leaves, Step.finds?_of_binds? binds, here, stored, is]
    simpa using known
  | none =>
    have undeclared : step.binds? (machine.inState store (frame :: rest) taken).tree = Option.none := binds
    have kept : store.Keeps store' := stored ▸ @keeps_execute _ frame step undeclared plain
    have keeps {scope : ScopeId} {sight : Sight} (sees : store.Sees call name given scope sight) :
        store'.Sees call name given scope sight := sees.keeps fun _ => kept.inner.getElem?
    cases step with
    | enter id =>
      rw [scope, move.entered id rfl]
      exact sees.enter
    | skipIfBound input distance =>
      have here : frame'.scope = frame.scope := scope
      rw [here]
      have known := keeps sees
      rw [Sight.after_eq (by simp), if_neg (by simp [Step.leaves])]
      split
      · rename_i finds
        by_cases none : skips = 0
        · simp [Step.finds?, none] at finds
        · have declares : (machine.tree.form? input).bind Form.declaredName? = some name := by
            simpa [Step.finds?, none] using finds
          have bound := @skipIfBound_skips machine _ _ _ store store' _ _ _ _ _ declares executed (by omega)
          exact known.mark (by rwa [kept.local? sees.within])
      · exact known
    | finish id =>
      rw [scope, Sight.after_eq (by simp)]
      cases leaves : (Step.finish id).leaves machine.tree with
      | true =>
        have left := keeps (sees.leave (stays leaves))
        simpa [Step.scopeFrom, leaves] using left
      | false => simpa [Step.scopeFrom, Step.finds?, leaves, binds] using keeps sees
    | _ =>
      have here : frame'.scope = frame.scope := scope
      rw [here]
      rw [Sight.after_eq (by simp)]
      simpa [Step.leaves, Step.finds?, binds] using keeps sees

end Store

/-- What a sight says of a frame that runs in the scope of a call or inside it. It stays so while the frame waits. -/
def Chart.sightsReading (tree : Tree) (watched : NodeId → Prop) (call : ScopeId) (name : String)
    (given : Option Value) : (Chart.sights tree name watched).Reading tree where
  knows store scope _ sight := store.Sees call name given scope sight
  waits store scope _ sight := store.Sees call name given scope sight
  moves := by
    rintro natives limits machine store store' frame frame' rest taken step flow values sight rfl sees
      ⟨stays, -⟩ plain forward executed move goes
    have spends := Machine.spends_execute (show (machine.inState store (frame :: rest) taken).frames = frame :: rest
      from rfl) plain forward
    rw [executed] at spends
    obtain ⟨used, gained, below, skips, uses, -, -, cursor⟩ := spends frame' flow values rfl rfl goes
    have regular : ∀ exception, flow ≠ .throw exception := by
      rintro exception rfl
      cases goes
    exact ⟨skips, _, ⟨⟨_, _, uses⟩, rfl⟩, cursor, sees.execute stays plain regular executed move cursor⟩
  calls := by
    rintro store scope values arguments function node sight sees -
    refine ⟨sight, ⟨⟨_, _, .call node arguments.length⟩, ?_⟩, sees⟩
    simp [Sight.after, Step.leaves, Step.finds?, Step.binds?]
  returns := by
    rintro store store' scope values sight value sees retains
    exact sees.keeps retains.kept

end Rivulet
