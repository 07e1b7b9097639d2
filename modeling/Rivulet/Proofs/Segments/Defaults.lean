import Rivulet.Proofs.Iteration.HigherOrder
import Rivulet.Proofs.Lexical.Calls
import Rivulet.Proofs.Segments.Inputs
import Rivulet.Proofs.Segments.Shades

/-!
What the default of an input sees of the other inputs. A call binds the arguments that it is given, and then evaluates
the defaults of the other inputs one after the other, in the scope of the call or inside it.

Main statement: a default reads the inputs before it, and a variadic one behind it, as they were bound for this call,
wherever a reference in it refers to one of them (`Machine.defaults_see_inputs`). An input behind it that has a default
too is not bound by then, and a reference to it reads what lies around the definition or fails
(`Machine.default_misses_later_input`).
-/

namespace Rivulet

open Checking

/-! ### Inputs before a default -/

namespace Sight

variable {tree : Tree} {name : String} {sight : Sight} {id : NodeId} {statements : List NodeId} {known : Prop}
  {depth : Nat}

/-- A frame has gone into as many scopes inside the scope of its call, which binds the name if something is so. -/
def IsDeep (depth : Nat) (known : Prop) (sight : Sight) : Prop :=
  sight.shades.length = depth ∧ (known → sight.bound = true)

theorem IsDeep.declared (deep : sight.IsDeep depth known) (id : NodeId) :
    (sight.declared tree name id).IsDeep depth known := by
  unfold Sight.declared
  split
  · exact ⟨by rw [length_mark, deep.1], fun holds => bound_mark (deep.2 holds)⟩
  · exact deep

/-- In the scope of the call itself it then binds the name that is declared. -/
theorem IsDeep.declared_top (deep : sight.IsDeep 0 known) (id : NodeId) :
    (sight.declared tree name id).IsDeep 0 (known ∨ declaredName? tree id = some name) := by
  obtain ⟨length, bound⟩ := deep.declared id
  refine ⟨length, fun either => either.elim bound fun declares => ?_⟩
  obtain ⟨already, shades⟩ := sight
  obtain rfl := List.length_eq_zero_iff.mp deep.1
  rw [Sight.declared, if_pos declares]
  rfl

/-- Then all of it is known. -/
theorem IsDeep.eq_top (deep : sight.IsDeep 0 known) (holds : known) : sight = ⟨true, []⟩ := by
  obtain ⟨length, bound⟩ := deep
  obtain ⟨already, shades⟩ := sight
  obtain rfl := List.length_eq_zero_iff.mp length
  rw [show already = true from bound holds]

end Sight

namespace Chart

variable {tree : Tree} {name : String} {id : NodeId} {known : Prop} {depth : Nat}

/-- What a node is compiled to comes back from all scopes that it goes into. -/
theorem passes_code_deep (acyclic : tree.Acyclic) (id : NodeId) (known : Prop) (depth : Nat) :
    (sights tree name fun _ => False).Passes (Sight.IsDeep depth known) (tree.code id) (Sight.IsDeep depth known) := by
  let Returns (_ : NodeId) (steps : List Step) : Prop := ∀ depth,
    (sights tree name fun _ => False).Passes (Sight.IsDeep depth known) steps (Sight.IsDeep depth known)
  suffices returns : Returns id (tree.code id) from returns depth
  refine @Tree.code_induction _ acyclic Returns (fun code id each depth => ?_) id
  by_cases block : ∃ statements, tree.form? id = some (.block statements)
  · obtain ⟨statements, is⟩ := block
    have children (depth : Nat) : (sights tree name fun _ => False).Passes (Sight.IsDeep depth known)
        (tree.childrenCode code id (tree.list statements)) (Sight.IsDeep depth known) :=
      passes_children_of_sight id fun child among there =>
        each child (by simpa [Tree.codeChildren, is, Form.links] using ⟨among, there⟩) depth
    by_cases names : tree.declaresNames (tree.list statements) = true
    · refine passes_block is not_false (fun sight deep => ?_) (children (depth + 1)) fun sight deep => ?_
      · rw [Sight.enter, if_pos names]
        exact ⟨by simp [deep.1], deep.2⟩
      · rw [Sight.leave, if_pos names]
        refine ⟨fun _ none => ?_, by simp [deep.1], deep.2⟩
        have length := deep.1
        simp [none] at length
    · refine passes_block is not_false (fun sight deep => ?_) (children depth) fun sight deep => ?_
      · rwa [Sight.enter, if_neg names]
      · rw [Sight.leave, if_neg names]
        exact ⟨fun impossible => absurd impossible names, deep⟩
  · exact passes_codeWith_of_sight (not_exists.mp block) (fun sight deep => ⟨False.elim, deep.declared id⟩)
      fun child link => each child link depth

/-- What the default of an input is compiled to, behind which the scope of the call binds the input. -/
theorem passes_defaultCode_deep (acyclic : tree.Acyclic) (input : NodeId) (known : Prop) :
    (sights tree name fun _ => False).Passes (Sight.IsDeep 0 known) (tree.defaultCode input)
      (Sight.IsDeep 0 (known ∨ (tree.default? input).isSome ∧ declaredName? tree input = some name)) := by
  unfold Tree.defaultCode Tree.defaultWith
  cases has : tree.default? input with
  | none => exact passes_nil fun sight deep => ⟨deep.1, by simpa using deep.2⟩
  | some value =>
    have bound (sight : Sight) (deep : sight.IsDeep 0 known) : (sight.declared tree name input).IsDeep 0
        (known ∨ (some value).isSome ∧ declaredName? tree input = some name) := by
      simpa using deep.declared_top input
    have body := (passes_code_deep acyclic value known 0).append (passes_bind_of_sight bound)
    refine passes_over (fun sight _ => allows_of_ne_finish (by simp) sight) ?_ body
    rintro sight skips later deep ⟨⟨takes, gives, uses⟩, rfl⟩
    cases uses with
    | omitted => exact .inl ⟨rfl, deep⟩
    | supplied => exact .inr ⟨by simp, bound _ deep⟩

/-- Behind what the defaults of some inputs are compiled to, the scope of the call binds all of them that have one. -/
theorem passes_defaults (acyclic : tree.Acyclic) (inputs : List NodeId) (known : Prop) :
    (sights tree name fun _ => False).Passes (Sight.IsDeep 0 known) (inputs.flatMap tree.defaultCode)
      (Sight.IsDeep 0 (known ∨ ∃ input ∈ inputs, (tree.default? input).isSome ∧
        declaredName? tree input = some name)) := by
  induction inputs generalizing known with
  | nil => exact passes_nil fun sight deep => ⟨deep.1, by simpa using deep.2⟩
  | cons input inputs hypothesis =>
    refine ((passes_defaultCode_deep acyclic input known).append (hypothesis _)).mono (fun _ deep => deep) ?_
    exact fun sight deep => ⟨deep.1, by simpa [or_assoc] using deep.2⟩

/-! ### The default itself -/

/-- What a node is compiled to comes to a reference only where the name that it does not shade is seen. -/
theorem passes_code_clear (acyclic : tree.Acyclic) {reference : NodeId} {own : String} (sight : Sight)
    (refers : tree.form? reference = some (.reference own)) (unshaded : tree.Unshaded name reference id)
    (clear : tree.IsPart reference id → sight.IsClear) : (sights tree name (· = reference)).Passes (· = sight)
      (tree.code id) (· = sight.declared tree name id) := by
  let Sees (id : NodeId) (steps : List Step) : Prop := ∀ sight : Sight, tree.Unshaded name reference id →
    (tree.IsPart reference id → sight.IsClear) →
    (sights tree name (· = reference)).Passes (· = sight) steps (· = sight.declared tree name id)
  suffices sees : Sees id (tree.code id) from sees sight unshaded clear
  refine @Tree.code_induction _ acyclic Sees (fun code id each sight unshaded clear => ?_) id
  by_cases block : ∃ statements, tree.form? id = some (.block statements)
  · obtain ⟨statements, is⟩ := block
    have apart : ¬ id = reference := by
      rintro rfl
      rw [is] at refers
      cases refers
    let entered := sight.enter tree (tree.list statements)
    refine @passes_block _ _ _ _ _ _ _ (· = entered) _ _ is apart ?_ (passes_statements id ?_) ?_
    · rintro _ rfl
      rfl
    · intro before statement following split there known
      have link : statement ∈ tree.codeChildren id := by
        have among : statement ∈ tree.list statements := by simp [split]
        simpa [Tree.codeChildren, is, Form.links] using ⟨among, there⟩
      refine each statement link known (unshaded.child link) fun part => ?_
      have undeclared := unshaded.later id statements before statement following .refl is split link part
      rw [show known = sight.enter tree _ from Sight.foldl_declared_of_ne undeclared]
      exact (clear (part.tail link)).enter _
    · rintro _ rfl
      rw [Sight.leave_foldl_declared, Sight.declared_of_ne (by simp [declaredName?, is, Form.declaredName?])]
      refine ⟨fun names none => ?_, rfl⟩
      obtain ⟨shade, known⟩ :=
        @Sight.foldl_declared_inside tree name (tree.list statements) sight.bound false sight.shades
      have opened : entered = ⟨sight.bound, false :: sight.shades⟩ := if_pos names
      rw [opened, known] at none
      cases none
  · refine passes_codeWith_of_sight (not_exists.mp block) ?_ fun child link => ?_
    · rintro _ rfl
      exact ⟨fun same => clear (same ▸ .refl), rfl⟩
    · have undeclared : declaredName? tree child ≠ some name := fun declares =>
        block (unshaded.inBlocks id .refl child link declares)
      have passes := each child link sight (unshaded.child link) fun part => clear (part.tail link)
      rwa [Sight.declared_of_ne undeclared] at passes

/-- What the default of an input is compiled to comes to the reference only where the name is seen, if the scope of the
call binds it. -/
theorem passes_defaultCode_clear (acyclic : tree.Acyclic) {reference input value : NodeId} {own : String}
    (refers : tree.form? reference = some (.reference own)) (unshaded : tree.Unshaded name reference value)
    (has : tree.default? input = some value) :
    (sights tree name (· = reference)).Passes (· = ⟨true, []⟩) (tree.defaultCode input) fun _ => True := by
  unfold Tree.defaultCode Tree.defaultWith
  rw [has]
  have clear : (⟨true, []⟩ : Sight).IsClear := ⟨rfl, by simp⟩
  have bound : (sights tree name (· = reference)).Passes (· = Sight.declared tree name ⟨true, []⟩ value)
      [.bind input] fun _ => True := passes_bind_of_sight fun _ _ => trivial
  have body := (passes_code_clear acyclic ⟨true, []⟩ refers unshaded fun _ => clear).append bound
  refine passes_over (fun sight _ => allows_of_ne_finish (by simp) sight) ?_ body
  rintro sight skips later rfl ⟨⟨takes, gives, uses⟩, rfl⟩
  cases uses with
  | omitted => exact .inl ⟨rfl, rfl⟩
  | supplied => exact .inr ⟨by simp, trivial⟩

end Chart

/-! ### Calls of definitions -/

namespace Checking

/-- The inputs of a definition whose rule finds nothing that blocks get no complaint. -/
theorem checkInputs_of_satisfied {σ : Type} {checking : Checking σ} {id : NodeId} {kind : FrameKind}
    {inputs : List NodeId} (satisfied : Satisfied checking id)
    (of : Machine.definitionOf? checking.context.tree id = some (kind, inputs)) :
    checkInputs checking.context.tree [] none inputs = [] := by
  obtain ⟨state, none⟩ := satisfied
  refine eq_nil_of_blocking (fun _ => blocking_of_mem_checkInputs) fun conflict among => none conflict ?_
  obtain ⟨run, rfl, ⟨_, _, _, is⟩ | ⟨_, is⟩⟩ := form?_of_definitionOf? of
  · simp only [check, is]
    exact List.mem_append_left _ among
  · simp only [check, is]
    exact among

variable {tree : Tree} {seen : List String} {inputs : List NodeId} {input origin : NodeId} {name : String}
  {arguments : List Value} {bound : List (String × Value)}

theorem form_of_mem_ordered (ordered : Ordered tree seen inputs) (among : input ∈ inputs) :
    ∃ name value declared variadic, tree.form? input = some (.bind name value declared variadic) := by
  induction ordered with
  | nil => cases among
  | single is _ _ hypothesis =>
    rcases List.mem_cons.mp among with rfl | later
    · exact ⟨_, _, _, _, is⟩
    · exact hypothesis later
  | variadic is _ =>
    rcases List.mem_cons.mp among with rfl | later
    · exact ⟨_, _, _, _, is⟩
    · cases later

/-- An input of a call that starts is bound at once, or it is not variadic and has a default. -/
theorem bound_or_default (ordered : Ordered tree [] inputs)
    (succeeded : Machine.bindInputs tree origin inputs arguments [] = .ok bound) (among : input ∈ inputs)
    (declares : declaredName? tree input = some name) :
    (bound.lookup name).isSome ∨ isVariadic tree input = false ∧ (tree.default? input).isSome := by
  rw [bindInputs_nil_eq ordered] at succeeded
  cases missing : missing? tree inputs arguments.length with
  | some other => simp [missing] at succeeded
  | none =>
    rw [missing] at succeeded
    dsimp only at succeeded
    split at succeeded
    · cases succeeded
    cases succeeded
    obtain ⟨own, value, declared, variadic, is⟩ := form_of_mem_ordered ordered among
    obtain rfl : own = name := by simpa [declaredName?, is, Form.declaredName?] using declares
    obtain ⟨position, there⟩ := List.getElem?_of_mem among
    rw [lookup_boundBy ordered arguments there is]
    cases variadic with
    | true => exact .inl (by simp)
    | false =>
      by_cases given : position < arguments.length
      · exact .inl (by simp [given])
      · have present := isPresent_of_missing? ordered missing there is (Nat.le_of_not_lt given)
        exact .inr ⟨by simp [isVariadic, is], by simpa [Tree.default?, is, NodeId.isPresent] using present⟩

end Checking

namespace Machine

section

variable {machine : Machine} {function : Function} {definition origin : NodeId} {kind : FrameKind}
  {inputs : List NodeId} {arguments : List Value} {bound : List (String × Value)}

/-- A call of a definition starts a frame in a scope that binds what it was given. -/
theorem startCall_definition {store : Store} {frames : List Frame} {taken : Nat}
    (room : frames.length < machine.limits.maxDepth) (callee : function.callee = .definition definition)
    (of : definitionOf? machine.tree definition = some (kind, inputs))
    (succeeded : bindInputs machine.tree origin inputs arguments [] = .ok bound) :
    (machine.inState store frames taken).startCall function arguments origin =
      (machine.inState (store.add ⟨callBindings machine.tree function inputs bound,
          some (function.context.getD machine.root)⟩).2 frames taken,
        .ok (.start (.start kind origin (machine.tree.entryCode definition).toArray store.scopes.size))) := by
  simp only [startCall, startDefinition_eq, inState_limits, inState_depth, inState_tree, Nat.not_le.mpr room, if_false,
    callee, of, succeeded]
  rfl

theorem startCall_deep {store : Store} {frames : List Frame} {taken : Nat}
    (full : machine.limits.maxDepth ≤ frames.length) :
    (machine.inState store frames taken).startCall function arguments origin =
      (machine.inState store frames taken).fail .recursionLimit origin := by
  simp only [startCall, inState_limits, inState_depth, full, if_true]

/-- In the scope of a call the name of an input means what the call binds it to. -/
theorem local?_callScope (function : Function) (bound : List (String × Value)) (store : Store)
    (outer : Option ScopeId) {input : NodeId} {name : String}
    (among : input ∈ inputs) (declares : declaredName? machine.tree input = some name) :
    (store.add ⟨callBindings machine.tree function inputs bound, outer⟩).2.local? store.scopes.size name =
      bound.lookup name := by
  have declared : name ∈ declaredNames machine.tree inputs := List.mem_filterMap.mpr ⟨input, among, declares⟩
  rw [Store.local?_add_self, Stage.lookup_callBindings, if_neg]
  exact fun impossible => impossible.1 declared

variable {caller : Frame} {rest : List Frame}

/-- The call that comes next starts the frame of a definition, if it does not end the evaluation. -/
theorem CallsNext.enters (calls : machine.CallsNext caller rest function arguments origin)
    (callee : function.callee = .definition definition)
    (of : definitionOf? machine.tree definition = some (kind, inputs))
    (succeeded : bindInputs machine.tree origin inputs arguments [] = .ok bound)
    (left : machine.tree.entryCode definition ≠ []) (going : machine.step.1.result = none) :
    machine.step.1.frames =
        .start kind origin (machine.tree.entryCode definition).toArray machine.store.scopes.size :: caller :: rest ∧
      machine.step.1.store = (machine.store.add ⟨callBindings machine.tree function inputs bound,
        some (function.context.getD machine.root)⟩).2 := by
  obtain ⟨ongoing, frame, values, step, active, current, -, rfl, executed⟩ := calls
  have charged := @inState_self { machine with stepsTaken := machine.stepsTaken + 1 } _ ongoing active
  rw [← charged, inState_setTop] at executed
  by_cases room : ({ frame with values } :: rest).length < machine.limits.maxDepth
  · have executed := executed.trans (startCall_definition room callee of succeeded)
    exact (step_goesOn ongoing active current executed (by simp) rfl ((ahead_entry ..).going left)).2
  · have executed := executed.trans (startCall_deep (Nat.le_of_not_lt room))
    have ended := congrArg (fun effect => (conclude step effect).1.result) executed
    rw [step_eq_conclude ongoing active current] at going
    have impossible : none = some (Value.failed .recursionLimit origin) := going.symm.trans ended
    cases impossible

end

section

variable {program : Program} {natives : Natives} {limits : Limits} {machine : Machine} {caller : Frame}
  {rest : List Frame} {function : Function} {arguments : List Value} {origin definition input other value : NodeId}
  {kind : FrameKind} {earlier later : List NodeId} {bound : List (String × Value)} {name : String}
  (abides : machine.Abides program natives limits (.free program.tree natives)) (acyclic : program.tree.Acyclic)
  (calls : machine.CallsNext caller rest function arguments origin) (callee : function.callee = .definition definition)
  (of : definitionOf? program.tree definition = some (kind, earlier ++ input :: later))
  (succeeded : bindInputs program.tree origin (earlier ++ input :: later) arguments [] = .ok bound)
  (ordered : Ordered program.tree [] (earlier ++ input :: later)) (has : program.tree.default? input = some value)
  (among : other ∈ earlier ++ input :: later) (declares : declaredName? program.tree other = some name)
  (before : other ∈ earlier ∨ isVariadic program.tree other = true)

include abides acyclic calls callee of succeeded ordered has among declares before

/-- When a call comes to the default of an input, its scope binds the inputs before that one, and the variadic one. -/
theorem CallsNext.binds_before {begun : Machine} {frame : Frame}
    (within : Relation.ReflTransGen (StepsBefore (caller :: rest) (earlier.flatMap program.tree.defaultCode).length)
      machine.step.1 begun)
    (going : begun.result = none) (active : begun.frames = frame :: caller :: rest)
    (cursor : frame.cursor = (earlier.flatMap program.tree.defaultCode).length) :
    begun.Abides program natives limits (.free program.tree natives) ∧
      (∃ following, frame.Ahead (program.tree.defaultCode input ++ following)) ∧
      begun.store.Sees machine.store.scopes.size name (bound.lookup name) frame.scope ⟨true, []⟩ := by
  obtain ⟨rfl, rfl, rfl, -⟩ := id abides
  have started : machine.step.1.result = none := by
    rcases within.cases_head with rfl | ⟨next, ⟨-, frame', holds, -⟩, -⟩
    · exact going
    · exact holds.1
  have entry := entryCode_eq of
  rw [List.flatMap_append, List.flatMap_cons, List.append_assoc, List.append_assoc] at entry
  have left : machine.program.tree.entryCode definition ≠ [] := by simp [entry, Tree.defaultCode, Tree.defaultWith, has]
  obtain ⟨frames, store⟩ := calls.enters callee of succeeded left started
  have reads := local?_callScope function bound machine.store (some (function.context.getD machine.root)) among declares
  have sees : machine.step.1.store.Sees machine.store.scopes.size name (bound.lookup name) machine.store.scopes.size
      ⟨(bound.lookup name).isSome, []⟩ := by
    rw [store]
    refine ⟨?_, .here, fun there => by rw [reads]; exact there, fun given is => by rw [reads]; exact is⟩
    rw [Store.HasInner, Store.parent?_add_self]
    rfl
  -- The defaults of the inputs before this one are a part of the sequence of their own. Nothing is watched there.
  let first : Frame := .start kind origin (machine.tree.entryCode definition).toArray machine.store.scopes.size
  have ahead : first.Ahead (machine.program.tree.entryCode definition) := ahead_entry ..
  have deep : Sight.IsDeep 0 ((bound.lookup name).isSome = true) ⟨(bound.lookup name).isSome, []⟩ := ⟨rfl, id⟩
  have stands := Chart.Stands.mk (entry ▸ ahead) (Nat.zero_add _)
    (Tree.Balanced.flatMap fun input _ => balanced_defaultCode _ machine.natives input).laid
    (fun _ among => by
      obtain ⟨_, -, among⟩ := List.mem_flatMap.mp among
      exact Tree.isNative_of_mem_defaultCode among)
    ((@Chart.passes_defaults _ name acyclic earlier _).covers deep)
  obtain ⟨found, abides⟩ := (Chart.sightsReading machine.program.tree (fun _ => False) machine.store.scopes.size name
    (bound.lookup name)).finds (step_abides abides) frames stands sees within ⟨going, [], active⟩
  obtain ⟨sight, left, stands, sees⟩ := found.running active
  have nothing : left = [] := List.length_eq_zero_iff.mp (by have ends := stands.ends; omega)
  -- Behind them the frame is back in the scope of the call, which binds the name: the call binds what it is given, and
  -- the defaults bind the rest of these inputs.
  obtain rfl : sight = ⟨true, []⟩ := by
    refine (stands.arrived cursor).eq_top ?_
    refine (bound_or_default ordered succeeded among declares).imp_right ?_
    rintro ⟨plain, default⟩
    rcases before with before | variadic
    · exact ⟨other, before, default, declares⟩
    · rw [plain] at variadic
      cases variadic
  subst nothing
  exact ⟨abides, ⟨_, stands.ahead⟩, sees⟩

/-- While the default is evaluated, a reference in it that nothing shades reads what the scope of the call binds its
name to. -/
theorem CallsNext.default_reads {reference : NodeId} (refers : program.tree.form? reference = some (.reference name))
    (unshaded : program.tree.Unshaded name reference value) {begun asked : Machine} {frame frame' : Frame}
    (within : Relation.ReflTransGen (StepsBefore (caller :: rest) (earlier.flatMap program.tree.defaultCode).length)
      machine.step.1 begun)
    (going : begun.result = none) (active : begun.frames = frame :: caller :: rest)
    (cursor : frame.cursor = (earlier.flatMap program.tree.defaultCode).length)
    (within' : Relation.ReflTransGen (StepsBefore (caller :: rest)
      ((earlier.flatMap program.tree.defaultCode).length + (program.tree.defaultCode input).length)) begun asked)
    (going' : asked.result = none) (active' : asked.frames = frame' :: caller :: rest)
    (inside : frame'.cursor < (earlier.flatMap program.tree.defaultCode).length +
      (program.tree.defaultCode input).length)
    (current : frame'.current? = some (.finish reference)) :
    ∃ read, asked.store.local? machine.store.scopes.size name = some read ∧
      asked.finish frame' reference = asked.flow (.push read) ∧
      ∀ given, bound.lookup name = some given → read = given := by
  obtain ⟨abides', ⟨following, ahead⟩, sees⟩ := calls.binds_before abides acyclic callee of succeeded ordered has among
    declares before within going active cursor
  have passes := Chart.passes_defaultCode_clear acyclic refers unshaded has
  rw [← cursor] at within' inside
  have stands := Chart.Stands.mk ahead rfl (balanced_defaultCode program.tree natives input).laid
    (fun _ => Tree.isNative_of_mem_defaultCode) (passes.covers rfl)
  obtain ⟨found, asks⟩ := (Chart.sightsReading program.tree (· = reference) machine.store.scopes.size name
    (bound.lookup name)).finds abides' active stands sees within' ⟨going', [], active'⟩
  obtain ⟨sight, left, stands, sees⟩ := found.running active'
  obtain ⟨step, behind, rfl⟩ := List.exists_cons_of_ne_nil (stands.ne_nil inside)
  obtain rfl : step = .finish reference := Option.some.inj (stands.ahead.current?.symm.trans current)
  obtain ⟨read, there, found⟩ := Store.Sees.lookup sees (stands.allowed.2 reference rfl rfl)
  refine ⟨read, there, ?_, fun given is => Option.some.inj (there.symm.trans (sees.given given is))⟩
  have form : asked.tree.form? reference = some (.reference name) := by
    rw [show asked.tree = program.tree from congrArg Program.tree asks.program, refers]
  simp only [finish, form, found]

end

/-- The default of an input sees the other inputs of its definition as they are bound for this call. Where the analysis
of a tree has no conflict that blocks, a definition of it is called, and the call has come to the default of an input
(`begun`) and in it to a reference (`asked`) that the analysis takes for an input before that one, or for a variadic
input behind it, then the reference reads what the scope of this call binds that input to, and that is what was given
for it, if anything was. Whatever in the default declares the name of the reference is a statement of a block there. -/
theorem defaults_see_inputs (machine : Machine) (proper : machine.tree.Proper) {streams : List StreamSignature}
    {σ : Type} {lookup : SourceLookup σ} {host : σ}
    (unblocked : (Analysis.analyze machine.tree machine.natives streams lookup host).1.isBlocked = false)
    (inputs : Inputs) (deeds : List Deed) (accepted : machine.Accepts (.start inputs :: deeds)) {caller : Frame}
    {rest : List Frame} {function : Function} {arguments : List Value} {origin : NodeId}
    (calls : (machine.after (.start inputs :: deeds)).CallsNext caller rest function arguments origin)
    {definition : NodeId} (callee : function.callee = .definition definition) {kind : FrameKind} {earlier : List NodeId}
    {input : NodeId} {later : List NodeId}
    (of : definitionOf? machine.tree definition = some (kind, earlier ++ input :: later))
    {bound : List (String × Value)}
    (succeeded : bindInputs machine.tree origin (earlier ++ input :: later) arguments [] = .ok bound) {value : NodeId}
    (has : machine.tree.default? input = some value) {reference : NodeId} {name : String}
    (refers : machine.tree.form? reference = some (.reference name)) {other : NodeId}
    (resolved : (Context.ofTree machine.tree machine.natives streams).resolve? reference name =
      some (.input other definition))
    (before : other ∈ earlier ∨ isVariadic machine.tree other = true)
    (inBlocks : machine.tree.DeclaresInBlocks name value) :
    let now := machine.after (.start inputs :: deeds)
    let first := (earlier.flatMap machine.tree.defaultCode).length
    let last := first + (machine.tree.defaultCode input).length
    ∀ begun frame asked frame', Relation.ReflTransGen (StepsBefore (caller :: rest) first) now.step.1 begun →
      begun.result = none → begun.frames = frame :: caller :: rest → frame.cursor = first →
      Relation.ReflTransGen (StepsBefore (caller :: rest) last) begun asked → asked.result = none →
      asked.frames = frame' :: caller :: rest → frame'.cursor < last → frame'.current? = some (.finish reference) →
      ∃ read, asked.store.local? now.store.scopes.size name = some read ∧
        asked.finish frame' reference = asked.flow (.push read) ∧
        ∀ given, bound.lookup name = some given → read = given := by
  intro now first last begun frame asked frame' within going active cursor within' going' active' inside current
  have acyclic := proper.acyclic
  have live : ((machine.start inputs).after deeds).IsLive machine.program machine.natives machine.limits :=
    after_keeps (fun machine live deed _ accepted => live.perform acyclic accepted)
      (.start (code_ne_nil_of_acyclic acyclic _) inputs) accepted.2
  have abides : now.Abides machine.program machine.natives machine.limits (.free machine.tree machine.natives) :=
    live.satisfies.abides
  let context := Context.ofTree machine.tree machine.natives streams
  have visible : context.visible? reference name = some (.input other definition) :=
    Context.visible?_of_resolve? resolved
  obtain ⟨reached, declares, kind', inputs', of', among⟩ := Context.input_of_visible? acyclic rfl visible
  obtain ⟨-, rfl⟩ : kind = kind' ∧ earlier ++ input :: later = inputs' := by simpa using of.symm.trans of'
  obtain ⟨references, satisfied⟩ := satisfied_of_analyze unblocked reached
  have ordered := ordered_of_checkInputs (checkInputs_of_satisfied satisfied of)
  have unshaded := Context.unshaded_of_visible? proper rfl visible inBlocks
  exact calls.default_reads abides acyclic callee of succeeded ordered has among declares before refers unshaded within
    going active cursor within' going' active' inside current

/-- A call of a function of three inputs, the second of which takes the first one for its default and the third the
second. The first one is given. -/
def chainedDefaults : Tree where
  nodes := #[
    ⟨.bind "a" .missing none false, .none⟩,
    ⟨.reference "a", .none⟩,
    ⟨.bind "b" (.node 1) none false, .none⟩,
    ⟨.reference "b", .none⟩,
    ⟨.bind "c" (.node 3) none false, .none⟩,
    ⟨.reference "c", .none⟩,
    ⟨.function "" ⟨0, 3⟩ (.node 5) none, .none⟩,
    ⟨.boolean true, .none⟩,
    ⟨.call (.node 6) ⟨3, 1⟩, .none⟩,
    ⟨.block ⟨4, 1⟩, .none⟩,
    ⟨.program (.node 9), .none⟩]
  lists := #[.node 0, .node 2, .node 4, .node 7, .node 8]
  root := .node 10

/-- A machine that is about to make the call. -/
def chainer : Machine :=
  (create (.ofTree chainedDefaults) .standard ⟨1000, 10⟩ .empty).after [.start {}, .step, .step]

theorem chainer_eq : chainer = ((create (.ofTree chainedDefaults) .standard ⟨1000, 10⟩ .empty).start {}).stepped 2 :=
  rfl

/-- The default of the third input reads what the default of the second one came to. -/
theorem chained_defaults_see :
    ∃ frame rest, (chainer.stepped 5).frames = frame :: rest ∧ frame.current? = some (.finish (.node 3)) ∧
      (chainer.stepped 5).finish frame (.node 3) = (chainer.stepped 5).flow (.push (.boolean true)) := by
  have proper : chainedDefaults.Proper :=
    Tree.proper_of_isOrderly (by decide) (by decide) (by decide) (by decide) (by decide)
  have unblocked : (Analysis.analyze chainedDefaults .standard [] .none ()).1.isBlocked = false := by decide +kernel
  have resolved : (Context.ofTree chainedDefaults .standard []).resolve? (.node 3) "b" =
      some (.input (.node 2) (.node 6)) := by decide +kernel
  have inBlocks : chainedDefaults.DeclaresInBlocks "b" (.node 3) := by
    intro part below declares
    rcases below.cases_tail with rfl | ⟨child, -, link⟩
    · cases declares
    · cases link
  let function : Function := ⟨.definition (.node 6), some 3, ""⟩
  let caller : Frame := ⟨.program, .node 10, (chainedDefaults.code (.node 10)).toArray, 3, 2, []⟩
  have calls : chainer.CallsNext caller [] function [.boolean true] (.node 8) := by
    rw [chainer_eq, start_eq]
    exact ⟨rfl, _, [], .call (.node 8) 1, rfl, rfl, rfl, rfl, rfl⟩
  have begins : Relation.ReflTransGen (StepsBefore [caller] 3) (chainer.stepped 1) (chainer.stepped 4) := by
    rw [chainer_eq, start_eq]
    exact ((Relation.ReflTransGen.single (stepsBefore_stepped rfl ⟨rfl, [], rfl⟩ (by decide))).tail
      (stepsBefore_stepped rfl ⟨rfl, [], rfl⟩ (by decide))).tail (stepsBefore_stepped rfl ⟨rfl, [], rfl⟩ (by decide))
  have asks : Relation.ReflTransGen (StepsBefore [caller] 6) (chainer.stepped 4) (chainer.stepped 5) := by
    rw [chainer_eq, start_eq]
    exact .single (stepsBefore_stepped rfl ⟨rfl, [], rfl⟩ (by decide))
  obtain ⟨frame, ongoing, active, cursor⟩ : ∃ frame, (chainer.stepped 4).result = none ∧
      (chainer.stepped 4).frames = [frame, caller] ∧ frame.cursor = 3 := by
    rw [chainer_eq, start_eq]
    exact ⟨_, rfl, rfl, rfl⟩
  obtain ⟨frame', ongoing', active', inside, current⟩ : ∃ frame, (chainer.stepped 5).result = none ∧
      (chainer.stepped 5).frames = [frame, caller] ∧ frame.cursor < 6 ∧
      frame.current? = some (.finish (.node 3)) := by
    rw [chainer_eq, start_eq]
    exact ⟨_, rfl, rfl, by decide, rfl⟩
  have accepted : (create (.ofTree chainedDefaults) .standard ⟨1000, 10⟩ .empty).Accepts [.start {}, .step, .step] := by
    refine ⟨rfl, ?_⟩
    show ((create (.ofTree chainedDefaults) .standard ⟨1000, 10⟩ .empty).start {}).Accepts _
    rw [start_eq]
    exact ⟨rfl, rfl, trivial⟩
  have seen := @defaults_see_inputs (create (.ofTree chainedDefaults) .standard ⟨1000, 10⟩ .empty) proper [] Unit .none ()
    unblocked {} [.step, .step]
    accepted caller [] _ _ _ calls (.node 6) rfl (.function (.node 6)) [.node 0, .node 2]
    (.node 4) [] rfl [("a", .boolean true)] rfl (.node 3) rfl (.node 3) "b" rfl (.node 2) resolved
    (.inl (by decide)) inBlocks (chainer.stepped 4) _ (chainer.stepped 5) _ begins ongoing active cursor asks ongoing'
    active' inside current
  obtain ⟨read, there, reads, -⟩ := seen
  have value : (chainer.stepped 5).store.local? chainer.store.scopes.size "b" = some (.boolean true) := by
    rw [chainer_eq, start_eq]
    rfl
  unfold chainer at there value
  obtain rfl := Option.some.inj (value.symm.trans there)
  exact ⟨_, _, active', current, reads⟩

/-- A call of a function whose first input takes the second one for its default, which has a default too. -/
def forwardDefault : Tree where
  nodes := #[
    ⟨.reference "b", .none⟩,
    ⟨.bind "a" (.node 0) none false, .none⟩,
    ⟨.boolean true, .none⟩,
    ⟨.bind "b" (.node 2) none false, .none⟩,
    ⟨.reference "a", .none⟩,
    ⟨.function "" ⟨0, 2⟩ (.node 4) none, .none⟩,
    ⟨.call (.node 5) ⟨2, 0⟩, .none⟩,
    ⟨.block ⟨2, 1⟩, .none⟩,
    ⟨.program (.node 7), .none⟩]
  lists := #[.node 1, .node 3, .node 6]
  root := .node 8

/-- The analysis takes the reference for the second input, but that is not bound yet when the first default is
evaluated. -/
theorem default_misses_later_input :
    (Analysis.analyze forwardDefault .standard [] .none ()).1.isBlocked = false ∧
      (Context.ofTree forwardDefault .standard []).resolve? (.node 0) "b" = some (.input (.node 3) (.node 5)) ∧
      ((create (.ofTree forwardDefault) .standard ⟨1000, 10⟩ .empty).evaluate {}).2 =
        .ok (.finished (.failed (.unknownName "b") (.node 0))) := by
  refine ⟨by decide +kernel, by decide +kernel, rfl⟩

end Machine

end Rivulet
