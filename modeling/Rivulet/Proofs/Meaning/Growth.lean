import Rivulet.Proofs.Meaning.Computation
import Rivulet.Proofs.Store

/-!
What an evaluation does to the scopes that exist, outermost ones apart: a node adds bindings to the
scope that it is evaluated in and changes no other (`node_extends`), and a call changes none
(`callTo_keeps`).
-/

namespace Rivulet.Meaning

open Store

variable {α β : Type}

/-! ### Computations along a relation -/

/-- Whenever a computation has a value, a relation leads from the scopes before to those after. -/
def Along (relation : Store → Store → Prop) (computation : Eval α) : Prop :=
  ∀ world value world', computation world = .ok value world' → relation world.store world'.store

section

variable {relation : Store → Store → Prop} {computation : Eval α}

theorem along_mono {relation' : Store → Store → Prop} (along : Along relation computation)
    (implied : ∀ store store', relation store store' → relation' store store') :
    Along relation' computation :=
  fun world value world' computed => implied _ _ (along world value world' computed)

theorem along_throwValue (exception : Value) : Along relation (throwValue exception : Eval α) := by
  intro world value world' computed
  simp [throwValue_eq] at computed

theorem along_misuse (fault : Fault) : Along relation (misuse fault : Eval α) := by
  intro world value world' computed
  simp [misuse_eq] at computed

theorem along_fail (failure : Failure) (id : NodeId) : Along relation (fail failure id : Eval α) :=
  along_throwValue _

variable [IsPreorder Store relation]

theorem along_pure (value : α) : Along relation (pure value : Eval α) := by
  intro world value' world' computed
  simp only [pure_eq, EStateM.Result.ok.injEq] at computed
  rw [← computed.2]
  exact refl _

theorem along_bind {next : α → Eval β} (first : Along relation computation)
    (later : ∀ value, Along relation (next value)) : Along relation (computation >>= next) := by
  intro world value' world'' computed
  obtain ⟨value, world', computed, computed'⟩ := bind_eq_ok_iff.mp computed
  exact IsTrans.trans _ _ _ (first world value world' computed) (later value world' value' world'' computed')

theorem along_get : Along relation (get : Eval World) := by
  intro world value world' computed
  cases computed
  exact refl _

theorem along_mapM {elements : List β} {each : β → Eval α}
    (first : ∀ element ∈ elements, Along relation (each element)) :
    Along relation (elements.mapM each) := by
  induction elements with
  | nil =>
    rw [List.mapM_nil]
    exact along_pure _
  | cons element rest hypothesis =>
    rw [List.mapM_cons]
    refine along_bind (first element (by simp)) fun value => ?_
    refine along_bind (hypothesis fun other inRest => first other (by simp [inRest])) fun values => ?_
    exact along_pure _

theorem along_forM {elements : List β} {each : β → Eval PUnit}
    (first : ∀ element ∈ elements, Along relation (each element)) :
    Along relation (elements.forM each) := by
  induction elements with
  | nil => exact along_pure _
  | cons element rest hypothesis =>
    refine along_bind (first element (by simp)) fun _ => ?_
    exact hypothesis fun other inRest => first other (by simp [inRest])

end

/-! ### Scopes -/

/-- Whatever happens in a scope that was just added keeps the inner scopes from before. -/
theorem along_in_added {added : Scope} {next : ScopeId → Eval α}
    (later : ∀ scope, Along (KeepsOthersInner scope) (next scope)) :
    Along KeepsInner (addScope added >>= next) := by
  intro world value world' computed
  obtain ⟨scope, second, first, computed⟩ := bind_eq_ok_iff.mp computed
  simp only [addScope_eq, EStateM.Result.ok.injEq] at first
  obtain ⟨rfl, rfl⟩ := first
  exact keepsInner_of_fresh (later _ _ _ _ computed)

theorem along_capture (scope : ScopeId) : Along KeepsInner (capture scope) := by
  intro world value world' computed
  simp only [capture_eq, EStateM.Result.ok.injEq] at computed
  rw [← computed.2]
  exact (keeps_capture _ _).inner

theorem along_modify {relation : Store → Store → Prop} {change : World → World}
    (changes : ∀ world, relation world.store (change world).store) :
    Along relation (modify change : Eval PUnit) := by
  intro world value world' computed
  cases computed
  exact changes world

section

variable {relation : Store → Store → Prop} [IsPreorder Store relation]

theorem along_bindsLocally (scope : ScopeId) (name : String) :
    Along relation (bindsLocally scope name) :=
  along_bind along_get fun _ => along_pure _

theorem along_localValue (scope : ScopeId) (name : String) :
    Along relation (localValue scope name) :=
  along_bind along_get fun _ => along_pure _

theorem along_visit (id : NodeId) (scope : ScopeId) : Along relation (visit id scope) :=
  along_modify fun _ => refl _

theorem along_lookUp (reference : NodeId) (scope : ScopeId) (name : String) :
    Along relation (lookUp reference scope name) := by
  refine along_bind along_get fun world => ?_
  cases world.store.lookup scope name with
  | none => exact along_fail _ _
  | some value => exact along_pure _

theorem along_yield (result : Except Failure Value) (id : NodeId) : Along relation (yield result id) := by
  cases result with
  | ok value => exact along_pure _
  | error failure => exact along_fail _ _

theorem along_truth (value : Value) (id : NodeId) : Along relation (truth value id) := by
  unfold truth
  split
  · exact along_pure _
  · exact along_fail _ _

theorem along_handOver (value : Value) : Along relation (handOver value) := by
  unfold handOver
  split
  · exact along_throwValue _
  · exact along_pure _

end

theorem along_bindName (scope : ScopeId) (name : String) (value : Value) (id : NodeId) :
    Along (ExtendsInner scope) (bindName scope name value id) := by
  refine along_bind (along_bindsLocally _ _) fun bound => ?_
  split
  · exact along_fail _ _
  · exact along_modify fun _ => (extends_bindNew _ _ _ _).inner

theorem along_rebind (scope : ScopeId) (name : String) (value : Value) :
    Along (KeepsOthersInner scope) (rebind scope name value) :=
  along_modify fun _ => keepsOthersInner_rebind _ _ _ _

/-! ### Nodes -/

section

variable {relation : Store → Store → Prop} {tree : Tree} {node : NodeId → Eval Value}

theorem along_childWith (nodes : ∀ id, Along relation (node id)) (parent child : NodeId) :
    Along relation (childWith tree node parent child) := by
  unfold childWith
  split
  · exact nodes child
  · exact along_fail _ _

theorem along_entryWith [IsPreorder Store relation] (nodes : ∀ id, Along relation (node id)) (parent entry : NodeId) :
    Along relation (entryWith tree node parent entry) := by
  unfold entryWith
  split
  · refine along_bind (along_childWith nodes _ _) fun _ => ?_
    exact along_bind (along_childWith nodes _ _) fun _ => along_pure _
  · exact along_fail _ _

end

theorem along_define (scope : ScopeId) (id : NodeId) (name : String) :
    Along (ExtendsInner scope) (define scope id name) := by
  refine along_bind (along_mono (along_capture scope) fun _ _ => KeepsInner.extends) fun context => ?_
  dsimp only
  split
  · exact along_pure _
  · exact along_bind (along_bindName _ _ _ _) fun _ => along_pure _

theorem along_field {relation : Store → Store → Prop} [IsPreorder Store relation] (owner : Value)
    (name : String) (id : NodeId) : Along relation (field owner name id) := by
  unfold field
  split
  · split
    · exact along_pure _
    · exact along_fail _ _
  · exact along_fail _ _

section

variable {setting : Setting} {node : Evaluator} {call : Caller}
  (nodes : ∀ scope id, Along (ExtendsInner scope) (node scope id))
  (calls : ∀ function arguments origin, Along KeepsInner (call function arguments origin))

include nodes

theorem along_blockWith (scope : ScopeId) (block : NodeId) (statements : List NodeId) :
    Along (ExtendsInner scope) (blockWith setting.tree node scope block statements) := by
  have inside : ∀ inner, Along (ExtendsInner inner)
      (statementsWith setting.tree (node inner) block statements) := by
    intro inner
    refine along_bind (along_mapM fun child _ => along_childWith (nodes inner) block child) ?_
    intro values
    cases values.getLast? with
    | none => exact along_fail _ _
    | some last => exact along_pure _
  unfold blockWith
  split
  · refine along_mono (along_in_added fun inner => ?_) fun _ _ => KeepsInner.extends
    exact along_mono (inside inner) fun _ _ => ExtendsInner.others
  · rw [pure_bind]
    exact inside scope

include calls

theorem nodeWith_extends (scope : ScopeId) (id : NodeId) :
    Along (ExtendsInner scope) (nodeWith setting node call scope id) := by
  have child (child : NodeId) :
      Along (ExtendsInner scope) (childWith setting.tree (node scope) id child) :=
    along_childWith (nodes scope) id child
  have children (list : List NodeId) :
      Along (ExtendsInner scope) (list.mapM (childWith setting.tree (node scope) id)) :=
    along_mapM fun element _ => child element
  unfold nodeWith
  dsimp only
  split
  · exact along_fail _ _
  · rename_i form is
    cases form with
    | program body => exact child body
    | block statements => exact along_blockWith nodes scope id _
    | bind name value =>
      refine along_bind (child value) fun value => ?_
      exact along_bind (along_bindName _ _ _ _) fun _ => along_pure _
    | number literal measure =>
      dsimp only
      split
      · exact along_pure _
      · exact along_fail _ _
    | sequence items => exact along_bind (children _) fun _ => along_pure _
    | set items => exact along_bind (children _) fun _ => along_pure _
    | mapping entries =>
      refine along_bind (along_mapM fun entry _ => ?_) fun _ => along_pure _
      exact along_entryWith (nodes scope) id entry
    | reference name => exact along_bind (along_visit _ _) fun _ => along_lookUp _ _ _
    | property owner name => exact along_bind (child owner) fun _ => along_field _ _ _
    | binary op left right =>
      dsimp only
      split
      · refine along_bind (child left) fun left => along_bind (along_truth _ _) fun first => ?_
        split
        · exact along_pure _
        · refine along_bind (child right) fun right => ?_
          exact along_bind (along_truth _ _) fun _ => along_pure _
      · refine along_bind (child left) fun left => along_bind (child right) fun right => ?_
        exact along_yield _ _
    | unary op operand => exact along_bind (child operand) fun _ => along_yield _ _
    | conditional condition yes no =>
      refine along_bind (child condition) fun condition => ?_
      refine along_bind (along_truth _ _) fun holds => ?_
      split
      · exact child yes
      · exact child no
    | function name => exact along_bind (along_visit _ _) fun _ => along_define _ _ _
    | record name => exact along_bind (along_visit _ _) fun _ => along_define _ _ _
    | call callee arguments =>
      refine along_bind (child callee) fun callee => along_bind (children _) fun arguments => ?_
      split
      · exact along_mono (calls _ _ _) fun _ _ => KeepsInner.extends
      · exact along_fail _ _
    | borrow source =>
      dsimp only
      split
      · exact along_fail _ _
      · exact along_bind (along_bindName _ _ _ _) fun _ => along_pure _
    | placeholder => exact along_fail _ _
    | unparsable text => exact along_fail _ _
    | pair key value => exact along_misuse _
    | boolean | text | none | changed => exact along_pure _

end

section

variable {setting : Setting} {call : Caller}
  (calls : ∀ function arguments origin, Along KeepsInner (call function arguments origin))

include calls

theorem nodeTo_extends (depth : Nat) (scope : ScopeId) (id : NodeId) :
    Along (ExtendsInner scope) (nodeTo setting call depth scope id) := by
  induction depth generalizing scope id with
  | zero => exact along_misuse _
  | succ depth hypothesis => exact nodeWith_extends hypothesis calls scope id

end

/-! ### Calls -/

theorem along_defaultWith {tree : Tree} {node : Evaluator}
    (nodes : ∀ scope id, Along (ExtendsInner scope) (node scope id)) (scope : ScopeId) (input : NodeId) :
    Along (ExtendsInner scope) (defaultWith tree node scope input) := by
  unfold defaultWith
  split
  · split
    · exact along_pure _
    · refine along_bind (along_bindsLocally _ _) fun bound => ?_
      split
      · exact along_pure _
      · exact along_bind (nodes _ _) fun _ => along_bindName _ _ _ _
  · exact along_pure _

theorem along_bodyWith {tree : Tree} {node : Evaluator}
    (nodes : ∀ scope id, Along (ExtendsInner scope) (node scope id)) (scope : ScopeId)
    (definition : NodeId) : Along (ExtendsInner scope) (bodyWith tree node scope definition) := by
  unfold bodyWith
  split
  · split
    · exact along_fail _ _
    · exact nodes _ _
  · refine along_bind (along_mapM fun name _ => ?_) fun _ => along_pure _
    exact along_bind (along_localValue _ _) fun _ => along_pure _
  · exact along_fail _ _

theorem along_eachWith {call : List Value → Eval Value}
    (calls : ∀ arguments, Along KeepsInner (call arguments)) (op : HigherOrder) (collection : Value)
    (scope : ScopeId) (origin : NodeId) (index : Nat) (result : Value) (kept : List Value)
    (elements : List Element) :
    Along (KeepsOthersInner scope)
      (eachWith call op collection scope origin index result kept elements) := by
  induction elements generalizing index result kept with
  | nil => exact along_pure _
  | cons element rest hypothesis =>
    refine along_bind (along_mono (calls _) fun _ _ => KeepsInner.others) fun produced => ?_
    split
    · exact along_fail _ _
    · have goesOn (result : Value) (kept : List Value) :=
        along_bind (along_rebind scope Natives.indexName (.number (.ofNat (index + 1))))
          fun _ => hypothesis (index + 1) result kept
      split
      · exact along_bind (along_rebind _ _ _) fun _ => goesOn _ _
      · exact goesOn _ _

theorem along_nativeWith {call : Caller}
    (calls : ∀ function arguments origin, Along KeepsInner (call function arguments origin))
    (native : Native) (inputs : List (String × Value)) (scope : ScopeId) (origin : NodeId) :
    Along (KeepsOthersInner scope) (nativeWith call native inputs scope origin) := by
  unfold nativeWith loopWith
  split
  · refine along_bind along_get fun _ => along_bind (along_modify fun _ => ?_) fun _ => along_pure _
    exact keepsOthersInner_bindFor _ _ _
  · dsimp only
    split
    · exact along_fail _ _
    · split
      · have loops (op : HigherOrder) (collection result : Value) (function : Function) :=
          along_eachWith (fun arguments => calls function arguments origin) op collection scope
            origin 0 result [] collection.elements
        refine along_bind (along_rebind _ _ _) fun _ => ?_
        split
        · exact along_bind (along_rebind _ _ _) fun _ => loops _ _ _ _
        · exact loops _ _ _ _
      · exact along_fail _ _

theorem callWith_keeps {setting : Setting} {node : Evaluator} {call : Caller}
    (nodes : ∀ scope id, Along (ExtendsInner scope) (node scope id))
    (calls : ∀ function arguments origin, Along KeepsInner (call function arguments origin))
    (function : Function) (arguments : List Value) (origin : NodeId) :
    Along KeepsInner (callWith setting node call function arguments origin) := by
  unfold callWith
  dsimp only
  split
  · split
    · exact along_misuse _
    · split
      · exact along_throwValue _
      · refine along_in_added fun scope => along_mono ?_ fun _ _ => ExtendsInner.others
        refine along_bind (along_forM fun input _ => along_defaultWith nodes scope input) fun _ => ?_
        exact along_bind (along_bodyWith nodes scope _) fun _ => along_handOver _
  · split
    · exact along_misuse _
    · split
      · exact along_fail _ _
      · split
        · exact along_fail _ _
        · refine along_in_added fun scope => ?_
          exact along_bind (along_nativeWith calls _ _ _ _) fun _ => along_handOver _

/-- A call changes no scope that lies in another one. -/
theorem callTo_keeps (setting : Setting) (calls : Nat) (function : Function)
    (arguments : List Value) (origin : NodeId) :
    Along KeepsInner (callTo setting calls function arguments origin) := by
  induction calls generalizing function arguments origin with
  | zero => exact along_fail _ _
  | succ calls hypothesis =>
    exact callWith_keeps (nodeTo_extends hypothesis _) hypothesis function arguments origin

/-- A node adds bindings to the scope that it is evaluated in, and changes no other that lies in another one. -/
theorem node_extends (setting : Setting) (calls : Nat) (scope : ScopeId) (id : NodeId) :
    Along (ExtendsInner scope) (node setting calls scope id) :=
  nodeTo_extends (callTo_keeps setting calls) _ scope id

end Rivulet.Meaning
