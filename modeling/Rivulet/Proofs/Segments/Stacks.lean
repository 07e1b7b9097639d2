import Rivulet.Proofs.Segments.Charts

/-!
How many values steps take off the stack of their frame, and how many they put there.
-/

namespace Rivulet

/-! ### Uses of the stack -/

/-- How many values completing a node takes off the stack, and how many it puts there. A collection takes as many as its
child list says, a block as many as there are in its child list. -/
def Form.turnover (read : ChildList → List NodeId) : Form → Nat × Nat
  | program _ | conditional .. | call .. => (0, 0)
  | block statements => ((read statements).length, 1)
  | sequence items | set items => (items.length, 1)
  | mapping entries => (entries.length * 2, 1)
  | property .. | unary .. => (1, 1)
  | binary op _ _ => (if op.isLogical then 1 else 2, 1)
  | _ => (0, 1)

/-- How many values a step takes off the stack, how many it puts there, and how many steps it skips then. -/
inductive Step.Uses (tree : Tree) : Step → Nat → Nat → Nat → Prop where
  | finish {id : NodeId} {form : Form} (is : tree.form? id = some form) :
      Uses tree (.finish id) (form.turnover tree.list).1 (form.turnover tree.list).2 0
  | enter (id : NodeId) : Uses tree (.enter id) 0 0 0
  | bind (id : NodeId) : Uses tree (.bind id) 0 0 0
  | jump (distance : Int) : Uses tree (.jump distance) 0 0 distance.toNat
  | holds (id : NodeId) (distance : Int) : Uses tree (.jumpUnless id distance) 1 0 0
  | fails (id : NodeId) (distance : Int) : Uses tree (.jumpUnless id distance) 1 0 distance.toNat
  | decides (id : NodeId) (whenValue : Bool) (distance : Int) :
    Uses tree (.branch id whenValue distance) 0 0 distance.toNat
  | drops (id : NodeId) (whenValue : Bool) (distance : Int) : Uses tree (.branch id whenValue distance) 1 0 0
  | omitted (input : NodeId) (distance : Int) : Uses tree (.skipIfBound input distance) 0 0 0
  | supplied (input : NodeId) (distance : Int) : Uses tree (.skipIfBound input distance) 0 0 distance.toNat
  | call (id : NodeId) (arity : Nat) : Uses tree (.call id arity) (arity + 1) 1 0
  | instantiate (definition : NodeId) : Uses tree (.instantiate definition) 0 1 0
  | apply (native : Nat) : Uses tree (.apply native) 0 1 0

namespace Machine

/-- What becomes of the values of a frame by a step that starts no other frame is a use of the stack by the step. -/
def Spends (tree : Tree) (step : Step) (frame : Frame) (rest : List Frame) (effect : Effect) : Prop :=
  ∀ frame' flow values, effect.1.frames = frame' :: rest → effect.2 = .ok flow →
    flow.stack? frame'.values = some values → ∃ used given below skips, step.Uses tree used.length given.length skips ∧
      frame.values = used ++ below ∧ values = given ++ below ∧ frame'.cursor = frame.cursor + skips

section

variable {tree : Tree} {step : Step} {frame top : Frame} {rest : List Frame} {machine : Machine} {takes : Nat}
  {used : List Value}

theorem spends_fault (machine : Machine) (fault : Fault) : Spends tree step frame rest (machine, .error fault) :=
  fun _ _ _ _ impossible => by cases impossible

theorem spends_throw (machine : Machine) (exception : Value) :
    Spends tree step frame rest (machine, .ok (.throw exception)) := by
  rintro frame' flow values - ⟨⟩ impossible
  cases impossible

section

variable (is : machine.frames = top :: rest) (stack : frame.values = used ++ top.values)
  (cursor : top.cursor = frame.cursor) (length : used.length = takes)

include is stack cursor length

theorem spends_push (uses : step.Uses tree takes 1 0) (value : Value) :
    Spends tree step frame rest (machine.flow (.push value)) := by
  rintro frame' flow values active ⟨⟩ ⟨⟩
  obtain ⟨rfl, -⟩ := List.cons.inj (is.symm.trans active)
  subst length
  exact ⟨used, [value], top.values, 0, uses, stack, rfl, cursor⟩

theorem spends_proceed (uses : step.Uses tree takes 0 0) : Spends tree step frame rest (machine.flow .proceed) := by
  rintro frame' flow values active ⟨⟩ ⟨⟩
  obtain ⟨rfl, -⟩ := List.cons.inj (is.symm.trans active)
  subst length
  exact ⟨used, [], top.values, 0, uses, stack, rfl, cursor⟩

theorem spends_yield (uses : step.Uses tree takes 1 0) (result : Except Failure Value) (node : NodeId) :
    Spends tree step frame rest (machine.yield result node) := by
  cases result with
  | ok value => exact spends_push is stack cursor length uses value
  | error failure => exact spends_throw machine _

end

theorem spends_jumpTop (stack : frame.values = used ++ top.values) (cursor : top.cursor = frame.cursor)
    (length : used.length = takes) {distance : Int} (forward : 0 ≤ distance)
    (uses : step.Uses tree takes 0 distance.toNat) : Spends tree step frame rest (machine.jumpTop top distance) := by
  unfold jumpTop Frame.jump
  dsimp only
  split
  · rename_i moved jumped
    split at jumped
    · cases jumped
      rintro frame' flow values active ⟨⟩ ⟨⟩
      rw [show (machine.setTop _ |>.flow .proceed).1 = machine.setTop _ from rfl, frames_setTop] at active
      obtain ⟨rfl, -⟩ := List.cons.inj active
      subst length
      refine ⟨used, [], top.values, distance.toNat, uses, stack, rfl, ?_⟩
      dsimp only
      omega
    · cases jumped
  · exact spends_fault _ _

/-! ### Nodes -/

section

variable (active : machine.frames = frame :: rest)

include active

theorem spends_bindName (scope : ScopeId) (name : String) (value : Value) (node : NodeId) {flow : Flow}
    (spends : ∀ machine' : Machine, machine'.frames = frame :: rest →
      Spends tree step frame rest (machine'.flow flow)) :
    Spends tree step frame rest (machine.bindName scope name value node flow) := by
  unfold bindName
  split
  · exact spends_throw machine _
  · exact spends _ active

theorem spends_consume (node : NodeId) {next : Machine → Value → Effect}
    (each : ∀ machine' value below, machine'.frames = { frame with values := below } :: rest →
      frame.values = [value] ++ below → Spends tree step frame rest (next machine' value)) :
    Spends tree step frame rest (machine.consume frame node next) := by
  unfold consume
  split
  · exact spends_throw machine _
  · rename_i value below popped
    obtain ⟨same, stack⟩ := Frame.pop?_spec popped
    refine each _ value below.values ?_ stack
    rw [frames_setTop, active, ← same]
    rfl

theorem spends_collect {count : Nat} (uses : step.Uses tree count 1 0) (node : NodeId) (make : List Value → Value) :
    Spends tree step frame rest (machine.collect frame count node make) := by
  unfold collect
  split
  · exact spends_throw machine _
  · rename_i values below popped
    obtain ⟨same, stack⟩ := Frame.popMany?_spec popped
    refine spends_push ?_ stack (by rw [same]) (by simp [Frame.length_of_popMany? popped]) uses _
    rw [frames_setTop, active]
    rfl

omit active in
theorem exitScope_eq (machine : Machine) (frame : Frame) :
    machine.exitScope frame = { frame with scope := (machine.store.parent? frame.scope).getD frame.scope } := by
  unfold exitScope
  cases machine.store.parent? frame.scope <;> rfl

theorem spends_finishBlock {statements : ChildList} (uses : step.Uses tree (machine.tree.list statements).length 1 0)
    (node : NodeId) : Spends tree step frame rest (machine.finishBlock frame node statements) := by
  unfold finishBlock
  dsimp only
  cases popped : frame.popMany? (machine.tree.list statements).length with
  | none => exact spends_throw _ _
  | some popped' =>
    obtain ⟨values, below⟩ := popped'
    obtain ⟨same, stack⟩ := Frame.popMany?_spec popped
    dsimp only [Option.map_some, Option.getD_some, Option.bind_some]
    obtain ⟨scope, left⟩ : ∃ scope, (if machine.tree.declaresNames (machine.tree.list statements) then
        machine.exitScope below else below) = { below with scope } := by
      split
      · exact ⟨_, exitScope_eq machine below⟩
      · exact ⟨below.scope, rfl⟩
    have is : (machine.setTop { below with scope }).frames = { below with scope } :: rest := by
      rw [frames_setTop, active]
      rfl
    rw [left]
    split
    · exact spends_push is stack (by rw [same]) (by simp [Frame.length_of_popMany? popped]) uses _
    · exact spends_throw _ _

theorem spends_define (uses : step.Uses tree 0 1 0) (node : NodeId) (name : String) :
    Spends tree step frame rest (machine.define frame node name) := by
  unfold define
  dsimp only
  split
  · exact spends_push active (show frame.values = [] ++ frame.values from rfl) rfl rfl uses _
  · refine @spends_bindName tree step frame rest { machine with store := (machine.store.capture frame.scope).2 } active
      _ _ _ _ _ fun machine' is => ?_
    exact spends_push is (show frame.values = [] ++ frame.values from rfl) rfl rfl uses _

theorem spends_finishProperty (uses : step.Uses tree 1 1 0) (node : NodeId) (name : String) :
    Spends tree step frame rest (machine.finishProperty frame node name) := by
  refine spends_consume active node fun machine' value below is stack => ?_
  split
  · split
    · exact spends_push is stack rfl rfl uses _
    · exact spends_throw _ _
  · exact spends_throw _ _

theorem spends_finishBinary {op : BinaryOp} (uses : step.Uses tree (if op.isLogical then 1 else 2) 1 0)
    (node : NodeId) : Spends tree step frame rest (machine.finishBinary frame node op) := by
  unfold finishBinary
  split
  · rename_i logical
    rw [if_pos logical] at uses
    refine spends_consume active node fun machine' value below is stack => ?_
    split
    · exact spends_push is stack rfl rfl uses _
    · exact spends_throw _ _
  · rename_i plain
    rw [if_neg plain] at uses
    split
    · rename_i left right below popped
      obtain ⟨same, stack⟩ := Frame.popMany?_spec popped
      refine spends_yield ?_ stack (by rw [same]) rfl uses _ node
      rw [frames_setTop, active]
      rfl
    · exact spends_throw _ _

theorem spends_finish (node : NodeId) :
    Spends machine.tree (.finish node) frame rest (machine.finish frame node) := by
  have nothing : frame.values = [] ++ frame.values := rfl
  unfold finish
  cases is : machine.tree.form? node with
  | none => exact spends_throw machine _
  | some form =>
    have uses := Step.Uses.finish is
    have kept (proceeds : (Step.finish node).Uses machine.tree 0 0 0) : Spends machine.tree (.finish node) frame rest
        (if frame.values.isEmpty then machine.fail .expectedValue node else machine.flow .proceed) := by
      split
      · exact spends_throw machine _
      · exact spends_proceed active nothing rfl rfl proceeds
    cases form with
    | program _ => exact kept uses
    | conditional _ _ _ => exact kept uses
    | call _ _ => exact kept uses
    | block statements => exact spends_finishBlock active uses node
    | number literal measure =>
      dsimp only
      split
      · exact spends_push active nothing rfl rfl uses _
      · exact spends_throw machine _
    | boolean value => exact spends_push active nothing rfl rfl uses _
    | text value => exact spends_push active nothing rfl rfl uses _
    | none => exact spends_push active nothing rfl rfl uses _
    | sequence items => exact spends_collect active uses node _
    | set items => exact spends_collect active uses node _
    | mapping entries => exact spends_collect active uses node _
    | reference name =>
      dsimp only
      split
      · exact spends_push active nothing rfl rfl uses _
      · exact spends_throw machine _
    | property _ name => exact spends_finishProperty active uses node name
    | binary op _ _ => exact spends_finishBinary active uses node
    | unary op _ =>
      exact spends_consume active node fun machine' value below is stack => spends_yield is stack rfl rfl uses _ node
    | function name _ _ _ => exact spends_define active uses node name
    | record name _ => exact spends_define active uses node name
    | changed stream => exact spends_push active nothing rfl rfl uses _
    | borrow source =>
      dsimp only [finishBorrow]
      split
      · exact spends_throw machine _
      · exact spends_bindName active _ _ _ _ fun machine' is => spends_push is nothing rfl rfl uses _
    | placeholder => exact spends_throw machine _
    | unparsable _ => exact spends_throw machine _
    | bind _ _ _ _ => exact spends_fault machine _
    | pair _ _ => exact spends_fault machine _

/-! ### All steps -/

theorem spends_bindTop (node : NodeId) : Spends tree (.bind node) frame rest (machine.bindTop frame node) := by
  unfold bindTop
  split
  · split
    · exact spends_throw machine _
    · refine spends_bindName active _ _ _ _ fun machine' is => ?_
      exact spends_proceed is (show frame.values = [] ++ frame.values from rfl) rfl rfl (.bind node)
  · exact spends_fault machine _

theorem spends_jumpUnless (node : NodeId) {distance : Int} (forward : 0 ≤ distance) :
    Spends tree (.jumpUnless node distance) frame rest (machine.jumpUnless frame node distance) := by
  unfold jumpUnless
  split
  · exact spends_throw machine _
  · rename_i below popped
    obtain ⟨same, stack⟩ := Frame.pop?_spec popped
    refine spends_proceed ?_ (show frame.values = [_] ++ below.values from stack) (by rw [same]) rfl
      (.holds node distance)
    rw [frames_setTop, active]
    rfl
  · rename_i below popped
    obtain ⟨same, stack⟩ := Frame.pop?_spec popped
    exact spends_jumpTop (show frame.values = [_] ++ below.values from stack) (by rw [same]) rfl forward
      (.fails node distance)
  · exact spends_throw machine _

theorem spends_branch (node : NodeId) (whenValue : Bool) {distance : Int} (forward : 0 ≤ distance) :
    Spends tree (.branch node whenValue distance) frame rest (machine.branch frame node whenValue distance) := by
  unfold branch
  split
  · exact spends_throw machine _
  · rename_i value below popped
    obtain ⟨same, stack⟩ := Frame.pop?_spec popped
    split
    · exact spends_jumpTop (show frame.values = [] ++ frame.values from rfl) rfl rfl forward
        (.decides node whenValue distance)
    · refine spends_proceed ?_ (show frame.values = [_] ++ below.values from stack) (by rw [same]) rfl
        (.drops node whenValue distance)
      rw [frames_setTop, active]
      rfl
  · exact spends_throw machine _

theorem spends_skipIfBound (input : NodeId) {distance : Int} (forward : 0 ≤ distance) :
    Spends tree (.skipIfBound input distance) frame rest (machine.skipIfBound frame input distance) := by
  have nothing : frame.values = [] ++ frame.values := rfl
  unfold skipIfBound
  split
  · split
    · exact spends_jumpTop nothing rfl rfl forward (.supplied input distance)
    · exact spends_proceed active nothing rfl rfl (.omitted input distance)
  · exact spends_fault machine _

omit active in
/-- A call starts a frame, if it does not end the evaluation. -/
theorem spends_startCall (machine : Machine) (function : Function) (arguments : List Value) (origin : NodeId) :
    Spends tree step frame rest (machine.startCall function arguments origin) := by
  have starts (machine : Machine) (above : Frame) : Spends tree step frame rest (machine, .ok (.start above)) := by
    rintro frame' flow values - ⟨⟩ impossible
    cases impossible
  unfold startCall
  split
  · exact spends_throw machine _
  · split
    · unfold startDefinition
      split
      · exact spends_fault machine _
      · split
        · exact spends_throw machine _
        · exact starts _ _
    · unfold startNative
      split
      · exact spends_fault machine _
      · split
        · exact spends_throw machine _
        · split
          · exact spends_throw machine _
          · exact starts _ _

omit active in
theorem spends_callTop (machine : Machine) (node : NodeId) (arity : Nat) :
    Spends tree step frame rest (machine.callTop frame node arity) := by
  unfold callTop
  split
  · exact spends_throw machine _
  · split
    · exact spends_throw machine _
    · exact spends_startCall _ _ _ _
    · exact spends_throw machine _

/-- A step that is not a native's and jumps forward uses the stack of its frame as it should. -/
theorem spends_execute {step : Step} (plain : step.isNative = false)
    (forward : ∀ distance, step.distance? = some distance → 0 ≤ distance) :
    Spends machine.tree step frame rest (machine.execute frame step) := by
  have nothing : frame.values = [] ++ frame.values := rfl
  cases step with
  | finish node => exact spends_finish active node
  | enter node =>
    have is (scope : ScopeId) (store : Store) :
        ({ machine with store }.setTop { frame with scope }).frames = { frame with scope } :: rest := by
      rw [frames_setTop]
      exact congrArg (fun frames => { frame with scope } :: frames.tail) active
    exact spends_proceed (is _ _) (show frame.values = [] ++ frame.values from rfl) rfl rfl (.enter node)
  | bind node => exact spends_bindTop active node
  | jump distance => exact spends_jumpTop nothing rfl rfl (forward distance rfl) (.jump distance)
  | jumpUnless node distance => exact spends_jumpUnless active node (forward distance rfl)
  | branch node whenValue distance => exact spends_branch active node whenValue (forward distance rfl)
  | skipIfBound input distance => exact spends_skipIfBound active input (forward distance rfl)
  | call node arity => exact spends_callTop machine node arity
  | instantiate definition =>
    dsimp only [execute, instantiate]
    split
    · exact spends_push active nothing rfl rfl (.instantiate definition) _
    · exact spends_fault machine _
  | expected node => exact spends_throw machine _
  | apply | loop => cases plain

end

end

end Machine

/-! ### Depths -/

/-- The chart of how many values a frame has put on its stack and not taken off again. A step may come when there are as
many of these as it takes. -/
def Chart.depths (tree : Tree) : Chart Nat where
  allows known step := ∀ takes gives skips, step.Uses tree takes gives skips → takes ≤ known
  leads known step skips later := ∃ takes gives, step.Uses tree takes gives skips ∧ later = known - takes + gives

/-- What lies below some values that are taken off a stack. -/
theorem exists_own {used below own base : List Value} (same : used ++ below = own ++ base)
    (enough : used.length ≤ own.length) : ∃ others, own = used ++ others ∧ below = others ++ base := by
  rcases List.append_eq_append_iff.mp same with ⟨others, rfl, is⟩ | ⟨others, rfl, is⟩
  · exact ⟨others, rfl, is⟩
  · have none : others = [] := List.eq_nil_of_length_eq_zero (by
      rw [List.length_append] at enough
      omega)
    subst none
    exact ⟨[], by simp, by simpa using is.symm⟩

/-- The values that a frame has put on its stack lie on those that were there before. A frame that waits for a value has
one less. -/
def Chart.depthsReading (tree : Tree) (base : List Value) : (Chart.depths tree).Reading tree where
  knows _ _ values known := ∃ own, values = own ++ base ∧ own.length = known
  waits _ _ values known := ∃ own, values = own ++ base ∧ own.length + 1 = known
  moves := by
    rintro natives limits machine store store' frame frame' rest taken step flow values known rfl
      ⟨own, stack, rfl⟩ allowed plain forward executed - goes
    have spends := Machine.spends_execute (show (machine.inState store (frame :: rest) taken).frames = frame :: rest
      from rfl) plain forward
    rw [executed] at spends
    obtain ⟨used, given, below, skips, uses, stack', rfl, cursor⟩ := spends frame' flow values rfl rfl goes
    obtain ⟨others, rfl, rfl⟩ := exists_own (stack'.symm.trans stack) (allowed _ _ _ uses)
    refine ⟨skips, _, ⟨_, _, uses, rfl⟩, cursor, given ++ others, (List.append_assoc _ _ _).symm, ?_⟩
    simp only [List.length_append]
    omega
  calls := by
    rintro store scope values arguments function node known ⟨own, stack, rfl⟩ allowed
    have uses : Step.Uses tree (.call node arguments.length) (arguments.length + 1) 1 0 := .call node _
    have enough := allowed _ _ _ uses
    have same : (arguments.reverse ++ [.function function]) ++ values = own ++ base := by simpa using stack
    obtain ⟨others, rfl, rfl⟩ := exists_own same (by simpa using enough)
    refine ⟨_, ⟨_, _, uses, rfl⟩, others, rfl, ?_⟩
    simp only [List.length_append, List.length_reverse, List.length_singleton]
    omega
  returns := by
    rintro store store' scope values known value ⟨own, rfl, rfl⟩ -
    exact ⟨value :: own, rfl, rfl⟩

end Rivulet
