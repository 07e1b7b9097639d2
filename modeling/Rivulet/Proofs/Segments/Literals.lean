import Rivulet.Proofs.Segments.Stacks

/-!
Collection literals. Completing a sequence, a set or a mapping takes as many values as its child list says, and what was
compiled for it leaves as many as there are entries in the list; for a list that is no run of the tree these are two
different numbers, and for a mapping whose entries are no pairs as well.

Main statement: where they agree, what a node is compiled to never takes a value off the stack that was there before
(`Machine.collections_keep_below`).
-/

namespace Rivulet

namespace Tree

/-- How many values what a node is compiled to leaves on the stack. -/
def yield (tree : Tree) (id : NodeId) : Nat :=
  if tree.isPair id then 2 else 1

/-- A collection takes the values that its own entries leave: all ids in its child list are there, and in a mapping they
are pairs as far as they are nodes of the tree. -/
def CollectsOwn (tree : Tree) (id : NodeId) : Prop :=
  match tree.form? id with
  | some (.sequence items) | some (.set items) => (tree.list items).length = items.length
  | some (.mapping entries) => (tree.list entries).length = entries.length ∧
    ∀ entry ∈ tree.list entries, (tree.form? entry).isSome → tree.isPair entry = true
  | _ => True

theorem code_of_no_items {tree : Tree} {id : NodeId} {items : ChildList} (none : tree.list items = [])
    (is : tree.form? id = some (.sequence items) ∨ tree.form? id = some (.set items)) :
    tree.code id = [.finish id] := by
  rw [code]
  rcases is with is | is <;> simp [height, codeTo, codeWith, is, none, childrenCode]

end Tree

namespace Chart

variable {tree : Tree} {code : NodeId → List Step} {id child : NodeId} {step : Step} {count gain takes gives : Nat}

/-- A step that has one use of the stack and skips nothing. -/
theorem passes_use (only : ∀ takes' gives' skips, step.Uses tree takes' gives' skips →
    takes' = takes ∧ gives' = gives ∧ skips = 0) :
    (depths tree).Passes (count + takes ≤ ·) [step] (count + gives ≤ ·) := by
  refine passes_step (fun known enough takes' gives' skips uses => ?_) ?_
  · obtain ⟨rfl, -, -⟩ := only _ _ _ uses
    omega
  · rintro known skips later enough ⟨takes', gives', uses, rfl⟩
    obtain ⟨rfl, rfl, rfl⟩ := only _ _ _ uses
    exact ⟨rfl, by omega⟩

/-- No step comes behind a child that is missing. -/
theorem passes_expected (before after : Nat → Prop) (id : NodeId) :
    (depths tree).Passes before [.expected id] after := by
  refine passes_step (fun known _ takes gives skips uses => nomatch uses) ?_
  rintro known skips later - ⟨takes, gives, uses, -⟩
  cases uses

theorem passes_finish {form : Form} (is : tree.form? id = some form) (count : Nat) : (depths tree).Passes
    (count + (form.turnover tree.list).1 ≤ ·) [.finish id] (count + (form.turnover tree.list).2 ≤ ·) := by
  refine passes_use fun takes gives skips uses => ?_
  cases uses with
  | finish is' =>
    rw [is, Option.some.injEq] at is'
    subst is'
    exact ⟨rfl, rfl, rfl⟩

theorem passes_enter (id : NodeId) (count : Nat) : (depths tree).Passes (count ≤ ·) [.enter id] (count ≤ ·) := by
  have uses : (depths tree).Passes (count + 0 ≤ ·) [.enter id] (count + 0 ≤ ·) :=
    passes_use fun takes gives skips uses => by
      cases uses
      exact ⟨rfl, rfl, rfl⟩
  exact uses

theorem passes_bind (id : NodeId) (count : Nat) : (depths tree).Passes (count ≤ ·) [.bind id] (count ≤ ·) := by
  have uses : (depths tree).Passes (count + 0 ≤ ·) [.bind id] (count + 0 ≤ ·) :=
    passes_use fun takes gives skips uses => by
      cases uses
      exact ⟨rfl, rfl, rfl⟩
  exact uses

theorem passes_call (id : NodeId) (arity count : Nat) :
    (depths tree).Passes (count + (arity + 1) ≤ ·) [.call id arity] (count + 1 ≤ ·) :=
  passes_use fun takes gives skips uses => by
    cases uses
    exact ⟨rfl, rfl, rfl⟩

theorem passes_children (parent : NodeId) {children : List NodeId} (compiled : ∀ child ∈ children,
    ∀ count, (depths tree).Passes (count ≤ ·) (tree.childCode code parent child) (count + gain ≤ ·)) (count : Nat) :
    (depths tree).Passes (count ≤ ·) (tree.childrenCode code parent children) (count + children.length * gain ≤ ·) := by
  let known (before : List NodeId) (depth : Nat) : Prop := count + before.length * gain ≤ depth
  have passes : (depths tree).Passes (known []) (tree.childrenCode code parent children) (known children) := by
    refine passes_childrenCode parent fun before child following split => ?_
    refine (compiled child (by simp [split]) (count + before.length * gain)).mono (fun _ enough => enough) ?_
    intro depth enough
    simp only [known, List.length_append, List.length_singleton, Nat.add_mul]
    omega
  exact passes.mono (fun depth enough => by simpa [known] using enough) fun _ enough => enough

/-- A part that may be decided early, in front of a value that it would leave. -/
theorem passes_logical {steps : List Step} {op : BinaryOp} {left right : NodeId} (whenValue : Bool)
    (is : tree.form? id = some (.binary op left right)) (logical : op.isLogical = true)
    (compiled : (depths tree).Passes (count ≤ ·) steps (count + 1 ≤ ·)) :
    (depths tree).Passes (count + 1 ≤ ·) (.branch id whenValue (steps.length + 1) :: (steps ++ [.finish id]))
      (count + 1 ≤ ·) := by
  have finish : (depths tree).Passes (count + 1 ≤ ·) [.finish id] (count + 1 ≤ ·) := by
    simpa [Form.turnover, logical] using passes_finish is count
  refine passes_over (fun known enough takes gives skips uses => ?_) ?_ (compiled.append finish)
  · cases uses <;> omega
  · rintro known skips later enough ⟨takes, gives, uses, rfl⟩
    cases uses with
    | decides => exact .inr ⟨by simp, enough⟩
    | drops => exact .inl ⟨rfl, by omega⟩

/-- Two parts of which one is taken. -/
theorem passes_conditional (id : NodeId) {yes no : List Step}
    (yesCompiled : (depths tree).Passes (count ≤ ·) yes (count + 1 ≤ ·))
    (noCompiled : (depths tree).Passes (count ≤ ·) no (count + 1 ≤ ·)) :
    (depths tree).Passes (count + 1 ≤ ·) (.jumpUnless id (yes.length + 1) :: (yes ++ .jump no.length :: no))
      (count + 1 ≤ ·) := by
  refine passes_choice (fun known enough takes gives skips uses => ?_) ?_ yesCompiled
    (fun known enough takes gives skips uses => ?_) ?_ noCompiled
  · cases uses <;> omega
  · rintro known skips later enough ⟨takes, gives, uses, rfl⟩
    cases uses with
    | holds => exact .inl ⟨rfl, by omega⟩
    | fails => exact .inr ⟨by omega, by omega⟩
  · cases uses
    omega
  · rintro known skips later enough ⟨takes, gives, uses, rfl⟩
    cases uses
    exact ⟨by omega, enough⟩

/-- What a node is compiled to leaves what it yields, if what its children are compiled to does. -/
theorem passes_codeWith (collects : tree.CollectsOwn id)
    (each : ∀ child ∈ tree.codeChildren id, ∀ count,
      (depths tree).Passes (count ≤ ·) (code child) (count + tree.yield child ≤ ·)) (count : Nat) :
    (depths tree).Passes (count ≤ ·) (tree.codeWith code id) (count + tree.yield id ≤ ·) := by
  have child (child : NodeId) (link : (tree.form? child).isSome → child ∈ tree.codeChildren id) (count : Nat) :
      (depths tree).Passes (count ≤ ·) (tree.childCode code id child) (count + 1 ≤ ·) := by
    refine passes_childCode id (passes_expected _ _ id) fun there =>
      (each child (link there) count).mono (fun _ holds => holds) fun known enough => ?_
    have one : 1 ≤ tree.yield child := by
      unfold Tree.yield
      split <;> decide
    omega
  have children (list : ChildList) (links : ∀ child ∈ tree.list list, (tree.form? child).isSome →
      child ∈ tree.codeChildren id) (count : Nat) : (depths tree).Passes (count ≤ ·)
        (tree.childrenCode code id (tree.list list)) (count + (tree.list list).length ≤ ·) := by
    simpa using passes_children id (fun other among => child other (links other among)) count
  unfold Tree.codeWith
  cases is : tree.form? id with
  | none => exact passes_expected _ _ id
  | some form =>
    have finish := passes_finish is
    have one (single : ∀ key value, form ≠ .pair key value) : tree.yield id = 1 := by
      unfold Tree.yield Tree.isPair
      rw [is]
      cases form with
      | pair key value => exact absurd rfl (single key value)
      | _ => rfl
    unfold Tree.CollectsOwn at collects
    rw [is] at collects
    cases form with
    | pair key value =>
      have two : tree.yield id = 2 := by simp [Tree.yield, Tree.isPair, is]
      rw [two]
      exact (child key (by simp [Tree.codeChildren, is, Form.links]) count).append
        (child value (by simp [Tree.codeChildren, is, Form.links]) (count + 1))
    | program body =>
      rw [one (by simp)]
      exact (child body (by simp [Tree.codeChildren, is, Form.links]) count).append (finish (count + 1))
    | block statements =>
      rw [one (by simp)]
      have entered : (depths tree).Passes (count ≤ ·)
          (if tree.declaresNames (tree.list statements) then [.enter id] else []) (count ≤ ·) := by
        split
        · exact passes_enter id count
        · exact passes_nil fun _ holds => holds
      have taken := children statements (by simp +contextual [Tree.codeChildren, is, Form.links]) count
      exact (entered.append taken).append (finish count)
    | bind name value declared variadic =>
      rw [one (by simp)]
      exact (child value (by simp [Tree.codeChildren, is, Form.links]) count).append (passes_bind id (count + 1))
    | sequence items =>
      rw [one (by simp)]
      have taken := children items (by simp +contextual [Tree.codeChildren, is, Form.links]) count
      rw [collects] at taken
      exact taken.append (finish count)
    | set items =>
      rw [one (by simp)]
      have taken := children items (by simp +contextual [Tree.codeChildren, is, Form.links]) count
      rw [collects] at taken
      exact taken.append (finish count)
    | mapping entries =>
      rw [one (by simp)]
      obtain ⟨length, pairs⟩ := collects
      have entry (entry : NodeId) (among : entry ∈ tree.list entries) (count : Nat) :
          (depths tree).Passes (count ≤ ·) (tree.childCode code id entry) (count + 2 ≤ ·) := by
        refine passes_childCode id (passes_expected _ _ id) fun there => ?_
        have two : tree.yield entry = 2 := by simp [Tree.yield, pairs entry among there]
        rw [← two]
        exact each entry (by simpa [Tree.codeChildren, is, Form.links] using ⟨among, there⟩) count
      have taken := passes_children id entry count
      rw [length] at taken
      exact taken.append (finish count)
    | property owner name =>
      rw [one (by simp)]
      exact (child owner (by simp [Tree.codeChildren, is, Form.links]) count).append (finish count)
    | unary op operand =>
      rw [one (by simp)]
      exact (child operand (by simp [Tree.codeChildren, is, Form.links]) count).append (finish count)
    | binary op left right =>
      rw [one (by simp)]
      have first := child left (by simp [Tree.codeChildren, is, Form.links]) count
      have second := child right (by simp [Tree.codeChildren, is, Form.links])
      dsimp only
      split
      · rename_i logical
        simpa using first.append (passes_logical (op == .or) is logical (second count))
      · rename_i plain
        have both := finish count
        simp only [Form.turnover, plain, Bool.false_eq_true, if_false] at both
        exact (first.append (second (count + 1))).append both
    | conditional condition yes no =>
      rw [one (by simp)]
      have decided := child condition (by simp [Tree.codeChildren, is, Form.links]) count
      have chosen := passes_conditional id (child yes (by simp [Tree.codeChildren, is, Form.links]) count)
        (child no (by simp [Tree.codeChildren, is, Form.links]) count)
      simpa [Form.turnover] using (decided.append chosen).append (finish (count + 1))
    | call callee arguments =>
      rw [one (by simp)]
      have called := child callee (by simp [Tree.codeChildren, is, Form.links]) count
      have given := children arguments (by simp +contextual [Tree.codeChildren, is, Form.links]) (count + 1)
      have ready := given.mono (fun _ holds => holds) fun known enough =>
        show count + ((tree.list arguments).length + 1) ≤ known by omega
      simpa [Form.turnover] using ((called.append ready).append (passes_call id _ count)).append (finish (count + 1))
    | _ =>
      rw [one (by simp)]
      exact finish count

/-- Where all collections in what a node is compiled to take values of their own, it leaves what the node yields. -/
theorem passes_code (acyclic : tree.Acyclic) (collects : ∀ part, tree.IsPart part id → tree.CollectsOwn part)
    (count : Nat) : (depths tree).Passes (count ≤ ·) (tree.code id) (count + tree.yield id ≤ ·) := by
  let Leaves (id : NodeId) (steps : List Step) : Prop := (∀ part, tree.IsPart part id → tree.CollectsOwn part) →
    ∀ count, (depths tree).Passes (count ≤ ·) steps (count + tree.yield id ≤ ·)
  have compiled : Leaves id (tree.code id) := by
    refine @Tree.code_induction _ acyclic Leaves (fun code id each collects => ?_) id
    exact passes_codeWith (collects id .refl) fun child link =>
      each child link fun part below => collects part (below.tail link)
  exact compiled collects count

end Chart

namespace Machine

variable {machine : Machine} {frame : Frame} {rest : List Frame}

theorem setTop_self (active : machine.frames = frame :: rest) : machine.setTop frame = machine := by
  obtain ⟨program, natives, limits, store, root, ⟨frames, depth, same⟩, result, trigger, borrowed, taken, paused,
    observers, nextObserver, log⟩ := machine
  cases active
  subst same
  rfl

/-- A collection that takes no values yields an empty one. -/
theorem collect_nothing (active : machine.frames = frame :: rest) (node : NodeId) (make : List Value → Value) :
    machine.collect frame 0 node make = machine.flow (.push (make [])) := by
  have popped : frame.popMany? 0 = some ([], frame) := rfl
  simp only [collect, popped, setTop_self active]

/-- What a node is compiled to never takes a value off the stack of its frame that was there before, if all collections
in it take values of their own: in no state that a run comes to before it has completed the node, whether the frame is
the topmost one or waits for a call, and however the machine got to the node. In particular a sequence or a set whose
child list is empty takes no value and yields the empty collection. -/
theorem collections_keep_below (machine : Machine) (acyclic : machine.tree.Acyclic) (inputs : Inputs)
    (deeds : List Deed) (accepted : machine.Accepts (.start inputs :: deeds)) {frame : Frame} {rest : List Frame}
    {id : NodeId} {following : List Step}
    (active : (machine.after (.start inputs :: deeds)).frames = frame :: rest)
    (ahead : frame.Ahead (machine.tree.code id ++ following))
    (collects : ∀ part, machine.tree.IsPart part id → machine.tree.CollectsOwn part) :
    let now := machine.after (.start inputs :: deeds)
    let place := frame.cursor + (machine.tree.code id).length
    (∀ later frame', Relation.ReflTransGen (StepsBefore rest place) now later → later.Holds frame' rest →
      frame.values <:+ frame'.values) ∧
    ∀ items, machine.tree.list items = [] →
      (machine.tree.form? id = some (.sequence items) →
        machine.tree.code id = [.finish id] ∧ now.finish frame id = now.flow (.push (.sequence #[]))) ∧
      (machine.tree.form? id = some (.set items) →
        machine.tree.code id = [.finish id] ∧ now.finish frame id = now.flow (.push (.set []))) := by
  intro now place
  have live : ((machine.start inputs).after deeds).IsLive machine.program machine.natives machine.limits :=
    after_keeps (fun machine live deed _ accepted => live.perform acyclic accepted)
      (.start (code_ne_nil_of_acyclic acyclic _) inputs) accepted.2
  have abides : now.Abides machine.program machine.natives machine.limits (.free machine.tree machine.natives) :=
    live.satisfies.abides
  refine ⟨fun later frame' within holds => ?_, fun items none => ?_⟩
  · have stands : (Chart.depths machine.tree).Stands (0 + machine.tree.yield id ≤ ·) machine.tree machine.natives place
        frame 0 (machine.tree.code id) following :=
      ⟨ahead, rfl, (balanced_code _ _ id).laid, fun _ => Tree.isNative_of_mem_code,
        (Chart.passes_code acyclic collects 0).covers (Nat.zero_le 0)⟩
    obtain ⟨found, -⟩ := (Chart.depthsReading machine.tree frame.values).finds abides active stands ⟨[], rfl, rfl⟩
      within holds
    cases found with
    | runs is stands knows =>
      obtain ⟨own, stack, -⟩ := knows
      exact ⟨own, stack.symm⟩
    | waits aloft stands more waits =>
      obtain ⟨own, stack, -⟩ := waits
      exact ⟨own, stack.symm⟩
  · have same : now.tree = machine.tree := congrArg Program.tree abides.program
    have own := collects id .refl
    refine ⟨fun is => ⟨Tree.code_of_no_items none (.inl is), ?_⟩, fun is => ⟨Tree.code_of_no_items none (.inr is), ?_⟩⟩
    · simp only [Tree.CollectsOwn, is, none] at own
      simp only [finish, same, is, ← own]
      exact collect_nothing active id _
    · simp only [Tree.CollectsOwn, is, none] at own
      simp only [finish, same, is, ← own]
      exact collect_nothing active id _

/-- A sequence of a value and a mapping. -/
def entryBehind : Tree where
  nodes := #[
    ⟨.boolean true, .none⟩,
    ⟨.boolean false, .none⟩,
    ⟨.pair (.node 0) (.node 1), .none⟩,
    ⟨.mapping ⟨0, 1⟩, .none⟩,
    ⟨.sequence ⟨1, 2⟩, .none⟩,
    ⟨.program (.node 4), .none⟩]
  lists := #[.node 2, .node 0, .node 3]
  root := .node 5

/-- While the mapping is evaluated, the value in front of it stays on the stack. -/
theorem entries_keep_below :
    let following : List Step := [.finish (.node 4), .finish (.node 5)]
    let now := (create (.ofTree entryBehind) .standard ⟨1000, 10⟩ .empty).after [.start {}, .step]
    ∃ frame, now.frames = [frame] ∧ frame.values = [.boolean true] ∧
      frame.Ahead (entryBehind.code (.node 3) ++ following) ∧
      ∀ count ≤ 3, ∃ frame', (now.stepped count).Holds frame' [] ∧ frame.values <:+ frame'.values := by
  intro following now
  obtain ⟨frame, active, values, ahead, cursor⟩ : ∃ frame, now.frames = [frame] ∧ frame.values = [.boolean true] ∧
      frame.Ahead (entryBehind.code (.node 3) ++ following) ∧ frame.cursor = 1 :=
    ⟨_, rfl, rfl, rfl, rfl⟩
  have collects (part : NodeId) : entryBehind.CollectsOwn part := by
    cases is : entryBehind.form? part with
    | none => simp [Tree.CollectsOwn, is]
    | some form =>
      have among : part ∈ [NodeId.node 0, .node 1, .node 2, .node 3, .node 4, .node 5] := Tree.mem_ids_of_form? is
      simp only [List.mem_cons, List.not_mem_nil, or_false] at among
      rcases among with rfl | rfl | rfl | rfl | rfl | rfl
      · trivial
      · trivial
      · trivial
      · exact ⟨rfl, by decide⟩
      · exact rfl
      · trivial
  have acyclic : entryBehind.Acyclic := (Tree.wellFormed_of_isOrderly (by decide)).acyclic
  obtain ⟨kept, -⟩ := collections_keep_below (create (.ofTree entryBehind) .standard ⟨1000, 10⟩ .empty) acyclic {}
    [.step] ⟨rfl, rfl, trivial⟩ active ahead fun part _ => collects part
  refine ⟨frame, active, values, ahead, fun count few => ?_⟩
  rw [cursor] at kept
  have steps (earlier : Nat) (before : earlier < 3) :
      StepsBefore [] 4 (now.stepped earlier) (now.stepped (earlier + 1)) := by
    obtain rfl | rfl | rfl : earlier = 0 ∨ earlier = 1 ∨ earlier = 2 := by omega
    all_goals exact stepsBefore_stepped rfl ⟨rfl, [], rfl⟩ (by decide)
  have within : Relation.ReflTransGen (StepsBefore [] 4) now (now.stepped count) := by
    induction count with
    | zero => exact .refl
    | succ count hypothesis => exact (hypothesis (by omega)).tail (steps count (by omega))
  have there : ∃ frame', (now.stepped count).Holds frame' [] := by
    obtain rfl | rfl | rfl | rfl : count = 0 ∨ count = 1 ∨ count = 2 ∨ count = 3 := by omega
    all_goals exact ⟨_, rfl, [], rfl⟩
  obtain ⟨frame', holds⟩ := there
  exact ⟨frame', holds, kept _ frame' within holds⟩

/-- A sequence of a value and a sequence whose child list lies outside the list of the tree. -/
def strayList : Tree where
  nodes := #[
    ⟨.boolean true, .none⟩,
    ⟨.sequence ⟨100, 1⟩, .none⟩,
    ⟨.sequence ⟨0, 2⟩, .none⟩,
    ⟨.block ⟨2, 1⟩, .none⟩,
    ⟨.program (.node 3), .none⟩]
  lists := #[.node 0, .node 1, .node 2]
  root := .node 4

/-- The inner sequence reads as empty, but takes the value in front of it, which the outer one then lacks. -/
theorem stray_list_takes_below :
    let following : List Step := [.finish (.node 2), .finish (.node 3), .finish (.node 4)]
    let start := (create (.ofTree strayList) .standard ⟨1000, 10⟩ .empty).start {}
    strayList.list ⟨100, 1⟩ = [] ∧ (∃ frame frame', (start.stepped 1).frames = [frame] ∧
      frame.Ahead (strayList.code (.node 1) ++ following) ∧
      StepsBefore [] (frame.cursor + (strayList.code (.node 1)).length) (start.stepped 1) (start.stepped 2) ∧
      (start.stepped 2).Holds frame' [] ∧ ¬ frame.values <:+ frame'.values) ∧
      (start.run 10).2 = .ok (.finished (.failed .expectedValue (.node 2))) := by
  intro following start
  refine ⟨rfl, ⟨_, _, rfl, rfl, ⟨⟨_, rfl⟩, _, ⟨rfl, [], rfl⟩, by decide⟩, ⟨rfl, [], rfl⟩, ?_⟩, rfl⟩
  rintro ⟨own, same⟩
  have last := congrArg List.getLast? same
  simp at last
  cases last

end Machine

end Rivulet
