import Rivulet.Proofs.Machine.Branching
import Rivulet.Proofs.Meaning.Growth
import Rivulet.Proofs.Tree.Shape
import Mathlib.Data.Nat.Init

/-!
Nodes. The sequence of a node computes its value, wherever it stands, if the sequences of its children
compute theirs and the machine follows calls.

Main statement: `computes_node`.
-/

namespace Rivulet.Machine

open Meaning

/-! ### Children -/

section

variable {machine : Machine} {calls : Nat} {code : NodeId → List Step} {node : Evaluator}
  {id : NodeId}

theorem computes_expected (unobserved : machine.observers = []) (id : NodeId) :
    Computes machine calls [.expected id] fun _ => Meaning.fail .expectedValue id := by
  refine Performs.computes unobserved (silent_of_node (by simp)) ?_
  intro frame rest world taken values _
  exact ⟨rfl, rfl⟩

theorem computes_child (unobserved : machine.observers = []) {child : NodeId}
    (computes : (machine.tree.form? child).isSome →
      Computes machine calls (code child) (node · child)) :
    Computes machine calls (machine.tree.childCode code id child)
      fun scope => childWith machine.tree (node scope) id child := by
  unfold Tree.childCode childWith
  by_cases is : (machine.tree.form? child).isSome
  · simp only [is, if_true]
    exact computes is
  · simp only [is]
    exact computes_expected unobserved id

/-- The sequences of some children leave the values of the children on the stack, the last one on
top. -/
theorem leaves_children {β : Type} {one : ScopeId → NodeId → Eval β} {left : β → List Value}
    {children : List NodeId}
    (leaves : ∀ child ∈ children,
      Leaves machine calls (machine.tree.childCode code id child) (one · child) left) :
    Leaves machine calls (machine.tree.childrenCode code id children)
      (fun scope => children.mapM (one scope)) fun values => (values.reverse.flatMap left) := by
  induction children with
  | nil =>
    simp only [List.mapM_nil]
    exact leaves_nil machine calls rfl
  | cons child children hypothesis =>
    have first := leaves child (by simp)
    have others := hypothesis fun other inRest => leaves other (by simp [inRest])
    simp only [List.mapM_cons]
    refine Leaves.append first (fun _ => others) ?_
    intro value values
    simp

end

/-- The machine follows calls: from a step that starts a call in some frame it comes to where the
caller has the value of the call. -/
def Follows (machine : Machine) (calls : Nat) (call : Caller) : Prop :=
  ∀ (function : Function) (arguments : List Value) (origin : NodeId) (frame frame' : Frame)
    (rest : List Frame) (step : Step) (world : World) (taken : Nat),
    frame.current? = some step → Silent machine.tree step → frame'.advance.isExhausted = false →
    (machine.inState world.store (frame :: rest) (taken + 1)).execute frame step =
      (machine.inState world.store (frame' :: rest) (taken + 1)).startCall function arguments
        origin →
    machine.limits.maxDepth - (rest.length + 1) = calls →
    Tracks machine (machine.inState world.store (frame :: rest) taken) world
      (call function arguments origin) fun value store last => ∃ taken',
        last = machine.inState store (frame'.advance.push value :: rest) taken'

/-! ### Forms -/

section

variable {machine : Machine} {calls : Nat} {id : NodeId} (unobserved : machine.observers = [])

include unobserved

/-- A node that yields the value of its last child. -/
theorem computes_kept {form : Form} {code : List Step} {computation : ScopeId → Eval Value}
    (is : machine.tree.form? id = some form)
    (kept : (∃ body, form = .program body) ∨ (∃ condition yes no, form = .conditional condition yes no) ∨
      ∃ callee arguments, form = .call callee arguments)
    (leaves : Leaves machine calls code computation fun value => [value]) :
    Computes machine calls (code ++ [.finish id]) computation := by
  have silent : Silent machine.tree (.finish id) := by
    refine silent_of_form is ?_
    obtain ⟨_, rfl⟩ | ⟨_, _, _, rfl⟩ | ⟨_, _, rfl⟩ := kept
    all_goals rfl
  have computes : Computes machine calls (code ++ [.finish id])
      (fun scope => computation scope >>= fun value => pure value) :=
    leaves.performs unobserved silent fun _ _ value _ _ => performs_kept is kept value
  simpa using computes

/-- Another binary operator, whose operands are both evaluated. -/
theorem computes_binary {op : BinaryOp} {left right : NodeId}
    (is : machine.tree.form? id = some (.binary op left right)) (plain : op.isLogical = false)
    {leftCode rightCode : List Step} {leftValue rightValue : ScopeId → Eval Value}
    (leftComputes : Computes machine calls leftCode leftValue)
    (rightComputes : Computes machine calls rightCode rightValue) :
    Computes machine calls (leftCode ++ rightCode ++ [.finish id])
      (fun scope => do
        let first ← leftValue scope
        let second ← rightValue scope
        Meaning.yield (Operators.binary op first second) id) := by
  have operands : Leaves machine calls (leftCode ++ rightCode)
      (fun scope => do
        let first ← leftValue scope
        let second ← rightValue scope
        pure (first, second)) fun operands => [operands.2, operands.1] :=
    leftComputes.leaves.append (fun _ => rightComputes.leaves) fun _ _ => rfl
  have computes : Computes machine calls (leftCode ++ rightCode ++ [.finish id])
      (fun scope => (do
        let first ← leftValue scope
        let second ← rightValue scope
        pure (first, second)) >>= fun operands =>
          Meaning.yield (Operators.binary op operands.1 operands.2) id) :=
    operands.performs unobserved (silent_of_form is rfl)
      fun _ _ operands _ _ => performs_binary is plain operands.1 operands.2
  simpa using computes

omit unobserved in
/-- The values of a list of nodes are as many as the nodes. -/
theorem length_of_mapM {α β : Type} {each : α → Eval β} {elements : List α} {values : List β}
    {world world' : World} (computed : elements.mapM each world = .ok values world') :
    values.length = elements.length := by
  induction elements generalizing values world with
  | nil => 
    cases computed
    rfl
  | cons element elements hypothesis =>
    rw [List.mapM_cons] at computed
    obtain ⟨value, second, _, computed⟩ := bind_eq_ok_iff.mp computed
    obtain ⟨others, third, inRest, computed⟩ := bind_eq_ok_iff.mp computed
    cases computed
    simp [hypothesis inRest]

/-- Completing a block in its own scope leads back to the scope around it. -/
theorem tracks_block {frame : Frame} {rest : List Frame} {world : World} {taken : Nat}
    {statements : ChildList} {values below : List Value} (outer : ScopeId)
    (is : machine.tree.form? id = some (.block statements))
    (current : frame.current? = some (.finish id)) (holds : frame.values = values.reverse ++ below)
    (length : values.length = (machine.tree.list statements).length)
    (leaves : (if machine.tree.declaresNames (machine.tree.list statements) then
        (world.store.parent? frame.scope).getD frame.scope else frame.scope) = outer) :
    Tracks machine (machine.inState world.store (frame :: rest) taken) world
      (match values.getLast? with
        | some last => pure last
        | none => Meaning.fail .expectedValue id)
      fun value store last => ∃ taken', last = (machine.inState store
        ({ frame with scope := outer }.after 1 (value :: below) :: rest) taken').completeFrames := by
  have silent : Silent machine.tree (.finish id) := silent_of_form is rfl
  have popped : frame.popMany? (machine.tree.list statements).length =
      some (values, { frame with values := below }) := popMany?_reverse holds length
  have executed : (machine.inState world.store (frame :: rest) (taken + 1)).execute frame
      (.finish id) =
      match values.getLast? with
      | some last => (machine.inState world.store
          ({ frame with scope := outer, values := below } :: rest) (taken + 1), .ok (.push last))
      | none => (machine.inState world.store
          ({ frame with scope := outer, values := below } :: rest) (taken + 1),
            .ok (.throw (.failed .expectedValue id))) := by
    have exits : (machine.inState world.store (frame :: rest) (taken + 1)).exitScope
          { frame with values := below } =
        { frame with scope := (world.store.parent? frame.scope).getD frame.scope, values := below } := by
      simp only [exitScope, inState_store]
      cases world.store.parent? frame.scope <;> rfl
    simp only [execute, finish, inState_tree, is, finishBlock, popped, Option.map_some,
      Option.getD_some, Option.bind_some, exits, ← leaves]
    by_cases declares : machine.tree.declaresNames (machine.tree.list statements) = true
    · simp only [declares, if_true]
      cases values.getLast? <;> rfl
    · simp only [declares]
      cases values.getLast? <;> rfl
  cases last : values.getLast? with
  | none =>
    rw [last] at executed
    exact tracks_of_throw rfl rfl current silent (congrArg Prod.snd executed)
  | some value =>
    rw [last] at executed
    have course := course_of_push unobserved current silent executed
    exact tracks_after course (tracks_pure ⟨taken + 1, rfl⟩)

section

variable {code : NodeId → List Step} {node : Evaluator} {statements : ChildList}
  (is : machine.tree.form? id = some (.block statements))
  (leaves : Leaves machine calls
    (machine.tree.childrenCode code id (machine.tree.list statements))
    (fun scope => (machine.tree.list statements).mapM (childWith machine.tree (node scope) id))
    List.reverse)
  (grows : ∀ scope id, Along (Store.ExtendsInner scope) (node scope id))

include is leaves grows

/-- The statements of a block in the scope that they are evaluated in. -/
theorem tracks_statements {frame : Frame} {rest : List Frame} {following : List Step}
    {taken : Nat} (world : World) (outer : ScopeId)
    (ahead : frame.Ahead (machine.tree.childrenCode code id (machine.tree.list statements) ++
      .finish id :: following))
    (depth : machine.limits.maxDepth - (rest.length + 1) = calls)
    (exits : ∀ store, world.store.ExtendsInner frame.scope store →
      (if machine.tree.declaresNames (machine.tree.list statements) then
        (store.parent? frame.scope).getD frame.scope else frame.scope) = outer) :
    Tracks machine (machine.inState world.store (frame :: rest) taken) world
      (statementsWith machine.tree (node frame.scope) id (machine.tree.list statements))
      fun value store last => ∃ taken', last = (machine.inState store
        ({ frame with scope := outer }.after
          ((machine.tree.childrenCode code id (machine.tree.list statements)).length + 1)
          (value :: frame.values) :: rest) taken').completeFrames := by
  refine tracks_bind (leaves frame rest _ _ world taken ahead depth) ?_
  rintro values world' second computed ⟨taken', rfl⟩
  have finishes : (frame.after _ (values.reverse ++ frame.values)).Ahead _ := ahead.after
  have extended : world.store.ExtendsInner frame.scope world'.store :=
    along_mapM (fun child _ => along_childWith (grows frame.scope) id child) _ _ _ computed
  exact tracks_block unobserved outer is finishes.current? rfl (length_of_mapM computed)
    (exits _ extended)

/-- A block, which has a scope of its own if one of its statements declares a name. -/
theorem computes_block :
    Computes machine calls
      ((if machine.tree.declaresNames (machine.tree.list statements) then [.enter id] else []) ++
        machine.tree.childrenCode code id (machine.tree.list statements) ++ [.finish id])
      (fun scope => blockWith machine.tree node scope id (machine.tree.list statements)) := by
  intro frame rest following world taken ahead depth
  by_cases declares : machine.tree.declaresNames (machine.tree.list statements) = true
  · simp only [declares, blockWith, if_true, List.append_assoc, List.singleton_append] at ahead ⊢
    let added := world.store.add ⟨[], some frame.scope⟩
    let inside : Frame := { frame with scope := added.1 }
    have goesOn : (inside.after 1 frame.values).Ahead _ := (ahead.withScope added.1).after_one
    have enters : Course machine 1 [] (machine.inState world.store (frame :: rest) taken)
        (machine.inState added.2 (inside.after 1 frame.values :: rest) (taken + 1)) :=
      course_of_change unobserved inside ahead.current? (silent_of_node (by simp)) rfl goesOn
        (by simp)
    refine tracks_after enters ?_
    refine tracks_of_eq _ (bind_of_ok (addScope_eq _)) rfl ?_
    refine tracks_mono (tracks_statements unobserved is leaves grows ⟨added.2, world.visits⟩
      frame.scope goesOn depth ?_) ?_
    · intro store extended
      have outer : store.parent? added.1 = some frame.scope := by
        rw [extended.parent? (by simp [added])]
        exact Store.parent?_add_self _ _
      simp [declares, inside, outer]
    · rintro value store last ⟨taken', rfl⟩
      refine ⟨taken', congrArg completeFrames ?_⟩
      show machine.inState store ((frame.after 1 frame.values).after _ (value :: frame.values) :: rest)
        taken' = _
      rw [Frame.after_after]
      refine inState_after_congr ?_
      simp only [List.length_append, List.length_cons, List.length_nil]
      omega
  · simp only [declares, blockWith, Bool.false_eq_true, if_false, List.nil_append, pure_bind] at ahead ⊢
    rw [List.append_assoc] at ahead
    refine tracks_mono (tracks_statements unobserved is leaves grows world frame.scope ahead depth
      fun _ _ => by simp [declares]) ?_
    rintro value store last ⟨taken', rfl⟩
    refine ⟨taken', ?_⟩
    simp

end

/-- A node that reads its scope, which is written down on both sides. -/
theorem computes_visited {form : Form} (is : machine.tree.form? id = some form)
    (reads : form.readsScope = true) {computation : ScopeId → Eval Value}
    (performs : Performs machine (.finish id) [] computation)
    (harmless : ∀ scope world fault world', computation scope world ≠ .error (.fault fault) world') :
    Computes machine calls [.finish id]
      (fun scope => visit id scope >>= fun _ => computation scope) := by
  intro frame rest following world taken ahead _
  have current : frame.current? = some (.finish id) := ahead.current?
  have made : (machine.inState world.store (frame :: rest) taken).visit? =
      some ⟨id, frame.scope, world.store⟩ := visit?_of_form current is reads
  let world' : World := { world with visits := world.visits ++ [⟨id, frame.scope, world.store⟩] }
  have seen : world'.visits =
      world.visits ++ (machine.inState world.store (frame :: rest) taken).visit?.toList := by
    rw [made]
    rfl
  exact @tracks_of_comes machine _ unobserved _ (computation frame.scope) _ _ _ world' _ _ current seen rfl
    (fun _ => harmless frame.scope world') (performs frame rest world' (taken + 1) frame.values rfl)

omit unobserved in
/-- A step that calls the function below some arguments. -/
theorem tracks_call {frame : Frame} {rest : List Frame} {world : World} {taken count : Nat}
    {call : Caller} {callee : Value} {arguments below : List Value}
    (follows : Follows machine calls call) (current : frame.current? = some (.call id count))
    (holds : frame.values = arguments.reverse ++ ([callee] ++ below))
    (length : arguments.length = count) (going : (frame.after 1 below).isExhausted = false)
    (depth : machine.limits.maxDepth - (rest.length + 1) = calls) :
    Tracks machine (machine.inState world.store (frame :: rest) taken) world
      (match callee with
        | .function function => call function arguments id
        | other => Meaning.mismatch .function other id)
      fun value store last => ∃ taken',
        last = machine.inState store (frame.after 1 ([value] ++ below) :: rest) taken' := by
  have silent : Silent machine.tree (.call id count) := silent_of_node (by simp)
  have popped : frame.popMany? count = some (arguments, { frame with values := [callee] ++ below }) :=
    popMany?_reverse holds length
  cases callee with
  | function function =>
    refine follows function arguments id frame { frame with values := below } rest _ world taken
      current silent going ?_ depth
    simp only [execute, callTop, popped]
    rfl
  | _ =>
    refine tracks_of_throw rfl rfl current silent ?_
    simp only [execute, callTop, popped]
    rfl

omit unobserved in
/-- A call, whose callee and arguments are evaluated first. -/
theorem leaves_call (site : NodeId) {calleeCode argumentsCode : List Step} {count : Nat} {call : Caller}
    {calleeValue : ScopeId → Eval Value} {argumentValues : ScopeId → Eval (List Value)}
    (calleeComputes : Computes machine calls calleeCode calleeValue)
    (argumentsLeave : Leaves machine calls argumentsCode argumentValues List.reverse)
    (length : ∀ scope world values world', argumentValues scope world = .ok values world' →
      values.length = count)
    (follows : Follows machine calls call) :
    Leaves machine calls (calleeCode ++ argumentsCode ++ [.call site count])
      (fun scope => do
        let callee ← calleeValue scope
        let arguments ← argumentValues scope
        match callee with
        | .function function => call function arguments site
        | other => Meaning.mismatch .function other site)
      fun value => [value] := by
  intro frame rest step following world taken ahead depth
  simp only [List.append_assoc, List.singleton_append] at ahead
  obtain ⟨next, others, opened⟩ := List.exists_cons_of_ne_nil
    (show argumentsCode ++ .call site count :: step :: following ≠ [] by simp)
  rw [opened] at ahead
  refine tracks_bind (calleeComputes.leaves frame rest _ _ world taken ahead depth) ?_
  rintro callee world' second - ⟨taken', rfl⟩
  have goesOn : (frame.after calleeCode.length ([callee] ++ frame.values)).Ahead _ := ahead.after
  rw [← opened] at goesOn
  refine tracks_bind (argumentsLeave _ rest _ _ world' taken' goesOn depth) ?_
  rintro arguments world'' second computed ⟨taken'', rfl⟩
  have starts : ((frame.after calleeCode.length ([callee] ++ frame.values)).after _
    (arguments.reverse ++ ([callee] ++ frame.values))).Ahead _ := goesOn.after
  refine tracks_mono (tracks_call follows starts.current? rfl (length _ _ _ _ computed)
    starts.after_one.isExhausted_eq_false depth) ?_
  rintro value store last ⟨afterwards, rfl⟩
  refine ⟨afterwards, ?_⟩
  simp only [Frame.after_after]
  refine inState_after_congr ?_
  simp only [List.length_append, List.length_cons, List.length_nil]

/-- A collection of the values of some nodes. -/
theorem computes_collection (count : Nat) {form : Form} {code : List Step}
    {values : ScopeId → Eval (List Value)} {make : List Value → Value}
    (is : machine.tree.form? id = some form) (other : form.readsScope = false)
    (leaves : Leaves machine calls code values List.reverse)
    (length : ∀ scope world found world', values scope world = .ok found world' →
      found.length = count)
    (executed : ∀ frame rest store taken,
      (machine.inState store (frame :: rest) taken).finish frame id =
        (machine.inState store (frame :: rest) taken).collect frame count id make) :
    Computes machine calls (code ++ [.finish id])
      (fun scope => do return make (← values scope)) :=
  leaves.performs unobserved (silent_of_form is other) fun _ _ _ _ computed =>
    performs_collect executed (length _ _ _ _ computed)

end

/-! ### Entries -/

/-- Keys and values in turn. -/
def spread (entries : List (Value × Value)) : List Value :=
  entries.flatMap fun entry => [entry.1, entry.2]

theorem entriesOf_spread (entries : List (Value × Value)) :
    Value.entriesOf (spread entries) = entries := by
  induction entries with
  | nil => rfl
  | cons entry entries hypothesis => simpa [spread, Value.entriesOf] using hypothesis

theorem length_spread (entries : List (Value × Value)) :
    (spread entries).length = entries.length * 2 := by
  induction entries with
  | nil => rfl
  | cons entry entries hypothesis =>
    simp only [spread, List.flatMap_cons, List.length_append, List.length_cons] at hypothesis ⊢
    simp only [List.length_nil]
    omega

theorem reverse_spread (entries : List (Value × Value)) :
    (spread entries).reverse = entries.reverse.flatMap fun entry => [entry.2, entry.1] := by
  induction entries with
  | nil => rfl
  | cons entry entries hypothesis =>
    simp only [spread] at hypothesis
    simp [spread, hypothesis]

section

variable {machine : Machine} {calls : Nat} {id : NodeId} (unobserved : machine.observers = [])

include unobserved

/-- The key of an entry, and its value on top. -/
theorem leaves_entry {code code' : NodeId → List Step} {node : Evaluator} {entry key value : NodeId}
    (is : machine.tree.form? entry = some (.pair key value))
    (same : code entry = machine.tree.codeWith code' entry)
    (keyComputes : (machine.tree.form? key).isSome → Computes machine calls (code' key) (node · key))
    (valueComputes : (machine.tree.form? value).isSome →
      Computes machine calls (code' value) (node · value)) :
    Leaves machine calls (machine.tree.childCode code id entry)
      (fun scope => entryWith machine.tree (node scope) id entry)
      fun values => [values.2, values.1] := by
  have compiled : machine.tree.childCode code id entry =
      machine.tree.childCode code' entry key ++ machine.tree.childCode code' entry value := by
    simp [Tree.childCode, is, same, Tree.codeWith]
  rw [compiled]
  simp only [entryWith, is]
  exact (computes_child unobserved keyComputes).leaves.append
    (fun _ => (computes_child unobserved valueComputes).leaves) fun _ _ => rfl

omit unobserved in
/-- An entry that is no node of the tree. -/
theorem leaves_missing_entry {code : NodeId → List Step} {node : Evaluator} {entry : NodeId}
    (missing : machine.tree.form? entry = none) :
    Leaves machine calls (machine.tree.childCode code id entry)
      (fun scope => entryWith machine.tree (node scope) id entry)
      fun values => [values.2, values.1] := by
  intro frame rest step following world taken ahead _
  simp only [Tree.childCode, missing, Option.isSome_none, Bool.false_eq_true, if_false] at ahead
  simp only [entryWith, missing]
  exact tracks_of_throw rfl rfl ahead.current? (silent_of_node (by simp)) rfl

theorem computes_mapping {entries : ChildList} {code : List Step}
    {values : ScopeId → Eval (List (Value × Value))}
    (is : machine.tree.form? id = some (.mapping entries))
    (leaves : Leaves machine calls code values fun found =>
      found.reverse.flatMap fun entry => [entry.2, entry.1])
    (length : ∀ scope world found world', values scope world = .ok found world' →
      found.length = entries.length) :
    Computes machine calls (code ++ [.finish id])
      (fun scope => do return .mappingOf (← values scope)) := by
  refine leaves.performs unobserved (silent_of_form is rfl) ?_
  intro scope world found world' computed
  have count : (spread found).length = entries.length * 2 := by
    rw [length_spread, length _ _ _ _ computed]
  have executed (frame : Frame) (rest : List Frame) (store : Store) (taken : Nat) :
      (machine.inState store (frame :: rest) taken).finish frame id =
        (machine.inState store (frame :: rest) taken).collect frame (entries.length * 2) id
          fun values => .mappingOf (Value.entriesOf values) := by
    simp only [finish, inState_tree, is]
  have performs : Performs machine (.finish id) (spread found).reverse fun _ =>
      pure (.mappingOf (Value.entriesOf (spread found))) := performs_collect executed count
  rwa [entriesOf_spread, reverse_spread] at performs

end

/-! ### All nodes -/

/-- What an evaluation on a machine has in common with an evaluation by recursion. -/
def setting (machine : Machine) : Setting :=
  ⟨machine.tree, machine.natives, machine.root, machine.trigger, machine.borrowed⟩

theorem triggered_setting (machine : Machine) (stream : NodeId) :
    triggered machine.setting stream = machine.triggeredBy stream := by
  unfold triggered triggeredBy setting
  dsimp only
  split <;> simp_all

section

variable {machine : Machine} {calls : Nat} {call : Caller} (unobserved : machine.observers = [])

include unobserved

/-- The sequence of a node computes its value if those of its children do, and if the machine follows the call
that the node may make. -/
theorem computes_nodeWith {code : NodeId → List Step} {node : Evaluator} {id : NodeId}
    (formed : machine.tree.FormedAt id)
    (follows : ∀ callee arguments, machine.tree.form? id = some (.call callee arguments) →
      Follows machine calls call)
    (grows : ∀ scope id, Along (Store.ExtendsInner scope) (node scope id))
    (regular : machine.tree.isPair id = false)
    (children : ∀ child, machine.tree.Child child id → machine.tree.isPair child = false →
      (machine.tree.form? child).isSome → Computes machine calls (code child) (node · child))
    (entries : ∀ entry, machine.tree.Child entry id → machine.tree.isPair entry = true →
      Leaves machine calls (machine.tree.childCode code id entry)
        (fun scope => entryWith machine.tree (node scope) id entry)
        fun values => [values.2, values.1]) :
    Computes machine calls (machine.tree.codeWith code id)
      (nodeWith machine.setting node call · id) := by
  unfold Tree.codeWith nodeWith
  dsimp only [setting]
  cases is : machine.tree.form? id with
  | none => exact computes_expected unobserved id
  | some form =>
    have childComputes (child : NodeId) (link : child ∈ form.links machine.tree.list)
        (other : form.isMapping = false) :
        Computes machine calls (machine.tree.childCode code id child)
          (fun scope => childWith machine.tree (node scope) id child) := by
      have regular := formed.isPair_eq_false is link other
      exact computes_child unobserved fun there => children child ⟨form, is, link⟩ regular there
    have childrenLeave (list : ChildList)
        (listed : ∀ child ∈ machine.tree.list list, child ∈ form.links machine.tree.list)
        (other : form.isMapping = false) :
        Leaves machine calls (machine.tree.childrenCode code id (machine.tree.list list))
          (fun scope => (machine.tree.list list).mapM (childWith machine.tree (node scope) id))
          List.reverse := by
      have leaves := leaves_children fun child inList =>
        (childComputes child (listed child inList) other).leaves
      simpa using leaves
    have length (list : ChildList) (listed : list ∈ form.childLists) :=
      formed.length_list is listed
    cases form with
    | program body =>
      exact computes_kept unobserved is (by simp)
        (childComputes body (by simp [Form.links]) rfl).leaves
    | block statements =>
      exact computes_block unobserved is
        (childrenLeave statements (by simp [Form.links]) rfl) grows
    | bind name value declared variadic =>
      exact (childComputes value (by simp [Form.links]) rfl).leaves.performs unobserved
        (silent_of_node (by simp)) fun _ _ value _ _ => performs_bind is value
    | number literal measure =>
      exact (performs_number is).computes unobserved (silent_of_form is rfl)
    | boolean value =>
      refine Performs.computes unobserved (silent_of_form is rfl) (performs_pushed ?_)
      intro frame rest store taken
      simp only [finish, inState_tree, is, flow]
    | text value =>
      refine Performs.computes unobserved (silent_of_form is rfl) (performs_pushed ?_)
      intro frame rest store taken
      simp only [finish, inState_tree, is, flow, Naming.text_string]
    | none =>
      refine Performs.computes unobserved (silent_of_form is rfl) (performs_pushed ?_)
      intro frame rest store taken
      simp only [finish, inState_tree, is, flow]
    | sequence items =>
      refine computes_collection unobserved items.length is rfl
        (childrenLeave items (by simp [Form.links]) rfl) ?_ ?_
      · intro scope world values world' computed
        rw [length_of_mapM computed, length items (by simp [Form.childLists])]
      · intro frame rest store taken
        simp only [finish, inState_tree, is]
    | set items =>
      refine computes_collection unobserved items.length is rfl
        (childrenLeave items (by simp [Form.links]) rfl) ?_ ?_
      · intro scope world values world' computed
        rw [length_of_mapM computed, length items (by simp [Form.childLists])]
      · intro frame rest store taken
        simp only [finish, inState_tree, is]
    | mapping list =>
      refine computes_mapping unobserved is (leaves_children fun entry inList => ?_) ?_
      · have link : machine.tree.Child entry id := ⟨_, is, by simpa [Form.links] using inList⟩
        cases there : machine.tree.form? entry with
        | none => exact leaves_missing_entry there
        | some form' =>
          have pair := formed.pair_iff_entry _ entry is (by simpa [Form.links] using inList)
            (by simp [there])
          exact entries entry link pair
      · intro scope world values world' computed
        rw [length_of_mapM computed, length list (by simp [Form.childLists])]
    | pair key value => simp [Tree.isPair, is] at regular
    | reference name => exact computes_visited unobserved is rfl (performs_reference is) (lookUp_ne_fault id name)
    | property owner name =>
      exact (childComputes owner (by simp [Form.links]) rfl).leaves.performs unobserved
        (silent_of_form is rfl) fun _ _ value _ _ => performs_property is value
    | binary op left right =>
      have leftComputes := childComputes left (by simp [Form.links]) rfl
      have rightComputes := childComputes right (by simp [Form.links]) rfl
      dsimp only
      cases logical : op.isLogical with
      | true => exact computes_logical unobserved is logical leftComputes rightComputes
      | false => exact computes_binary unobserved is logical leftComputes rightComputes
    | unary op operand =>
      exact (childComputes operand (by simp [Form.links]) rfl).leaves.performs unobserved
        (silent_of_form is rfl) fun _ _ value _ _ => performs_unary is value
    | conditional condition yes no =>
      refine computes_kept unobserved is (by simp) (leaves_conditional unobserved ?_ ?_ ?_)
      · exact childComputes condition (by simp [Form.links]) rfl
      · exact childComputes yes (by simp [Form.links]) rfl
      · exact childComputes no (by simp [Form.links]) rfl
    | function name inputs body output =>
      exact computes_visited unobserved is rfl (performs_define (.inl ⟨_, _, _, is⟩))
        (define_ne_fault id name)
    | record name inputs =>
      exact computes_visited unobserved is rfl (performs_define (.inr ⟨_, is⟩))
        (define_ne_fault id name)
    | call callee arguments =>
      have calleeComputes := childComputes callee (by simp [Form.links]) rfl
      have argumentsLeave := childrenLeave arguments
        (fun child inList => by simp [Form.links, inList]) rfl
      have computes := computes_kept unobserved is (by simp) (leaves_call id calleeComputes
        argumentsLeave (fun _ _ _ _ computed => length_of_mapM computed) (follows _ _ is))
      rw [List.append_assoc] at computes
      exact computes
    | changed stream =>
      have performs := performs_changed is
      rw [← triggered_setting] at performs
      exact performs.computes unobserved (silent_of_form is rfl)
    | borrow source =>
      exact (performs_borrow is).computes unobserved (silent_of_form is rfl)
    | placeholder =>
      refine Performs.computes unobserved (silent_of_form is rfl) (performs_fail ?_)
      intro frame rest store taken
      simp only [finish, inState_tree, is, Machine.fail]
    | unparsable text =>
      refine Performs.computes unobserved (silent_of_form is rfl) (performs_fail ?_)
      intro frame rest store taken
      simp only [finish, inState_tree, is, Machine.fail]

section

variable (region : NodeId → Prop) (closed : ∀ child parent, machine.tree.Child child parent → region parent → region child)
  (formed : ∀ id, region id → machine.tree.FormedAt id)
  (follows : ∀ id callee arguments, region id → machine.tree.form? id = some (.call callee arguments) →
    Follows machine calls call)
  (keeps : ∀ function arguments origin, Along Store.KeepsInner (call function arguments origin))

include region closed formed follows keeps

/-- In a part of the tree that is closed below, the sequence of a node that is no pair computes its value, if both
go down far enough. -/
theorem computes_nodeTo {rank : NodeId → Nat}
    (lower : ∀ child parent, machine.tree.Child child parent → rank child < rank parent)
    (id : NodeId) (inside : region id) (regular : machine.tree.isPair id = false) (codeDepth depth : Nat)
    (codeEnough : rank id < codeDepth) (enough : rank id < depth) :
    Computes machine calls (machine.tree.codeTo codeDepth id)
      (nodeTo machine.setting call depth · id) := by
  -- The induction is on the rank, because an entry takes its sequence down one level more than its
  -- value, so that the two depths differ below it.
  induction bound : rank id using Nat.strong_induction_on generalizing id codeDepth depth with
  | _ _ hypothesis =>
    subst bound
    obtain ⟨codeDepth, rfl⟩ := Nat.exists_eq_succ_of_ne_zero (Nat.ne_of_gt (Nat.zero_lt_of_lt codeEnough))
    obtain ⟨depth, rfl⟩ := Nat.exists_eq_succ_of_ne_zero (Nat.ne_of_gt (Nat.zero_lt_of_lt enough))
    refine computes_nodeWith unobserved (formed id inside) (fun callee arguments => follows id callee arguments inside)
      (nodeTo_extends keeps depth) regular ?_ ?_
    · intro child link other _
      have below := lower child id link
      exact hypothesis _ below child (closed child id link inside) other codeDepth depth (by omega) (by omega) rfl
    · intro entry link pair
      have below := lower entry id link
      have insideToo := closed entry id link inside
      obtain ⟨codeDepth, rfl⟩ : ∃ less, codeDepth = less + 1 := ⟨codeDepth - 1, by omega⟩
      cases is : machine.tree.form? entry with
      | none => simp [Tree.isPair, is] at pair
      | some form =>
        cases form with
        | pair key value =>
          have partComputes (part : NodeId) (among : part ∈ [key, value]) :
              Computes machine calls (machine.tree.codeTo codeDepth part)
                (nodeTo machine.setting call depth · part) := by
            have link' : machine.tree.Child part entry := ⟨_, is, by simpa [Form.links] using among⟩
            have below' := lower part entry link'
            have other := (formed entry insideToo).isPair_eq_false is (by simpa [Form.links] using among) rfl
            exact hypothesis _ (by omega) part (closed part entry link' insideToo) other codeDepth depth (by omega)
              (by omega) rfl
          exact leaves_entry unobserved is rfl (fun _ => partComputes key (by simp))
            fun _ => partComputes value (by simp)
        | _ => simp [Tree.isPair, is] at pair

/-- In a part of the tree that is closed below, the sequence of a node that is no pair computes its value. -/
theorem computes_in_region (acyclic : machine.tree.Acyclic) (id : NodeId) (inside : region id)
    (regular : machine.tree.isPair id = false) :
    Computes machine calls (machine.tree.code id)
      (nodeTo machine.setting call machine.tree.height · id) := by
  obtain ⟨rank, lower, bounded⟩ := Tree.exists_rank acyclic
  rw [Tree.code]
  exact computes_nodeTo unobserved region closed formed follows keeps lower id inside regular _ _ (bounded id)
    (bounded id)

end

/-- The sequence of a node that is no pair computes its value. -/
theorem computes_node (formed : machine.tree.WellFormed) (follows : Follows machine calls call)
    (keeps : ∀ function arguments origin, Along Store.KeepsInner (call function arguments origin))
    (id : NodeId) (regular : machine.tree.isPair id = false) :
    Computes machine calls (machine.tree.code id)
      (nodeTo machine.setting call machine.tree.height · id) :=
  computes_in_region unobserved (fun _ => True) (fun _ _ _ _ => trivial) (fun id _ => formed.formedAt id)
    (fun _ _ _ _ _ => follows) keeps formed.acyclic id trivial regular

end

end Rivulet.Machine
