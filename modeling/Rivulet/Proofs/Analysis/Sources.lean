import Rivulet.Proofs.Analysis.Concurrence
import Rivulet.Proofs.Analysis.Reports
import Mathlib.Order.Defs.Unbundled

/-!
What an analysis asks about other sources. It asks about those only that an explored node borrows; so wherever two hosts
answer alike about these, and stay related from answer to answer, two analyses of one tree agree and leave related hosts
(`matches_analyze`). With one host it follows that an analysis leads on wherever every answer does (`moves_analyze`). An
analysis asks about every source that a reached node borrows (`exists_answer_of_analyze`).
-/

namespace Rivulet

open Checking Typing

/-! ### Two computations -/

section

variable {τ τ' α β : Type} {relation : τ → τ' → Prop}

/-- From related states two computations have the same result, and they lead to related states. -/
def Matches (relation : τ → τ' → Prop) (computation : StateM τ α) (computation' : StateM τ' α) : Prop :=
  ∀ state state', relation state state' →
    (computation.run state).1 = (computation'.run state').1 ∧ relation (computation.run state).2 (computation'.run state').2

theorem matches_pure (value : α) : Matches relation (pure value) (pure value) :=
  fun _ _ related => ⟨rfl, related⟩

theorem matches_bind {computation : StateM τ α} {computation' : StateM τ' α} {next : α → StateM τ β}
    {next' : α → StateM τ' β} (first : Matches relation computation computation')
    (second : ∀ value, Matches relation (next value) (next' value)) :
    Matches relation (computation >>= next) (computation' >>= next') := by
  intro state state' related
  obtain ⟨same, between⟩ := first state state' related
  have rest := second (computation.run state).1 _ _ between
  rw [congrArg next' same] at rest
  exact rest

theorem matches_map {computation : StateM τ α} {computation' : StateM τ' α} {answer : α → β}
    (agree : Matches relation computation computation') :
    Matches relation (computation >>= fun value => pure (answer value))
      (computation' >>= fun value => pure (answer value)) :=
  matches_bind agree fun _ => matches_pure _

/-- Computations that begin by looking at their states may use that these are related. -/
theorem matches_get {next : τ → StateM τ α} {next' : τ' → StateM τ' α}
    (second : ∀ state state', relation state state' → Matches relation (next state) (next' state')) :
    Matches relation (get >>= next) (get >>= next') :=
  fun state state' related => second state state' related state state' related

theorem matches_mapM {each : α → StateM τ β} {each' : α → StateM τ' β} {elements : List α}
    (agree : ∀ element ∈ elements, Matches relation (each element) (each' element)) :
    Matches relation (elements.mapM each) (elements.mapM each') := by
  induction elements with
  | nil => exact matches_pure []
  | cons element elements hypothesis =>
    obtain ⟨first, rest⟩ := List.forall_mem_cons.mp agree
    rw [List.mapM_cons, List.mapM_cons]
    exact matches_bind first fun _ => matches_map (hypothesis rest)

theorem matches_foldlM {each : β → α → StateM τ β} {each' : β → α → StateM τ' β} {elements : List α}
    (agree : ∀ element ∈ elements, ∀ result, Matches relation (each result element) (each' result element)) (result : β) :
    Matches relation (elements.foldlM each result) (elements.foldlM each' result) := by
  induction elements generalizing result with
  | nil => exact matches_pure result
  | cons element elements hypothesis =>
    obtain ⟨first, rest⟩ := List.forall_mem_cons.mp agree
    rw [List.foldlM_cons, List.foldlM_cons]
    exact matches_bind (first result) fun result => hypothesis rest result

end

/-! ### Hosts -/

section

variable {σ σ' : Type} {relation : σ → σ' → Prop}

/-- The same types are known in two states, and their hosts are related. -/
def OnHost (relation : σ → σ' → Prop) (state : TypeState σ) (state' : TypeState σ') : Prop :=
  state.slots = state'.slots ∧ relation state.host state'.host

/-- Two hosts answer alike about all sources that explored nodes borrow. -/
def Agrees (relation : σ → σ' → Prop) (tree : Tree) (lookup : SourceLookup σ) (lookup' : SourceLookup σ') : Prop :=
  ∀ id name, tree.Explored id → tree.form? id = some (.borrow name) → Matches relation (lookup name) (lookup' name)

/-- The same rules, told about other sources by another host. -/
def Checking.asking (checking : Checking σ) (lookup' : SourceLookup σ') : Checking σ' :=
  ⟨checking.context, checking.references, lookup'⟩

theorem matches_setSlot (index : Nat) (slot : Slot) : Matches (OnHost relation) (setSlot index slot) (setSlot index slot) :=
  fun _ _ related => ⟨rfl, congrArg (fun slots => slots.setIfInBounds index slot) related.1, related.2⟩

theorem matches_askSource {lookup : SourceLookup σ} {lookup' : SourceLookup σ'} {source : String}
    (agree : Matches relation (lookup source) (lookup' source)) :
    Matches (OnHost relation) (askSource lookup source) (askSource lookup' source) := by
  intro state state' related
  obtain ⟨same, after⟩ := agree state.host state'.host related.2
  exact ⟨same, related.1, after⟩

/-! ### Types -/

/-- Computations are compared by their results, and by the states that they lead to. -/
def matching (relation : TypeState σ → TypeState σ' → Prop) : Comparison σ σ' where
  Holds := Matches relation
  pure := matches_pure
  bind := matches_bind

/-- A context concurs with itself about whatever is explored. -/
theorem concurs_explored {context : Context} (indexed : context.parents = .ofTree context.tree) :
    context.Concurs context.tree.Explored context where
  form?_eq _ _ := rfl
  list_eq _ _ _ := rfl
  link explored is := explored.link is
  resolve?_eq _ _ := rfl
  definition _ _ found is := Context.explored_of_resolve? indexed found is
  recordInputs?_eq _ := rfl
  field found among := by
    obtain ⟨name, list, is, rfl⟩ := Tree.form?_of_recordInputs? found
    exact (Tree.Explored.record is).link is among
  natives := rfl
  streams := rfl

section

variable {context : Context} (indexed : context.parents = .ofTree context.tree) {lookup : SourceLookup σ}
  {lookup' : SourceLookup σ'} {id : NodeId}

include indexed

theorem matches_typeTo (agrees : Agrees relation context.tree lookup lookup') (depth : Nat)
    (explored : context.tree.Explored id) :
    Matches (OnHost relation) (typeTo context lookup depth id) (typeTo context lookup' depth id) := by
  induction depth generalizing id with
  | zero => exact matches_pure _
  | succ depth hypothesis =>
    cases id with
    | missing => exact matches_pure _
    | node index =>
      refine matches_get fun state state' related => ?_
      rw [related.1]
      cases state'.slots[index]? with
      | none => exact matches_pure _
      | some slot =>
        cases slot with
        | inProgress | known type => exact matches_pure _
        | unknown =>
          refine matches_bind (matches_setSlot _ _) fun _ => ?_
          refine matches_bind ?_ fun type => matches_map (matches_setSlot _ _)
          exact (matching (OnHost relation)).compute (concurs_explored indexed) (fun _ explored => hypothesis explored)
            (fun id source explored is => matches_askSource (agrees id source explored is)) explored

end

/-! ### Rules -/

section

variable {checking : Checking σ} {lookup' : SourceLookup σ'}
  (indexed : checking.context.parents = .ofTree checking.context.tree)
  (agrees : Agrees relation checking.context.tree checking.lookup lookup') {id : NodeId}

include indexed agrees

theorem matches_typeOf (explored : checking.context.tree.Explored id) :
    Matches (OnHost relation) (checking.typeOf id) ((checking.asking lookup').typeOf id) :=
  matches_typeTo indexed agrees _ explored

theorem matches_check (explored : checking.context.tree.Explored id) :
    Matches (OnHost relation) (checking.check id) ((checking.asking lookup').check id) :=
  (matching (OnHost relation)).check (concurs_explored indexed)
    (fun _ explored => matches_typeOf indexed agrees explored)
    (fun id source explored is => matches_askSource (agrees id source explored is)) (fun _ _ => rfl) (fun _ _ => rfl)
    explored

theorem matches_typesOf {reachable : List NodeId} (explored : ∀ id ∈ reachable, checking.context.tree.Explored id) :
    Matches (OnHost relation) (Analysis.typesOf checking reachable)
      (Analysis.typesOf (checking.asking lookup') reachable) := by
  refine matches_foldlM (fun id among types => ?_) _
  cases id with
  | missing => exact matches_pure _
  | node index => exact matches_map (matches_typeOf indexed agrees (explored _ among))

end

/-! ### Analyses -/

/-- What the rules know when a tree is analysed. -/
def Checking.ofTree (tree : Tree) (natives : Natives) (streams : List StreamSignature) (lookup : SourceLookup σ) :
    Checking σ where
  context := .ofTree tree natives streams
  references := (Context.ofTree tree natives streams).referencesOf (tree.descendants tree.root)
  lookup := lookup

/-- Two hosts that answer alike about the sources that a tree borrows are led on alike by an analysis of the tree. -/
theorem matches_analyze {tree : Tree} (natives : Natives) (streams : List StreamSignature) {lookup : SourceLookup σ}
    {lookup' : SourceLookup σ'} (agrees : Agrees relation tree lookup lookup') :
    Matches relation (Analysis.analyze tree natives streams lookup) (Analysis.analyze tree natives streams lookup') := by
  intro host host' related
  let checking : Checking σ := .ofTree tree natives streams lookup
  have explored : ∀ id ∈ tree.descendants tree.root, tree.Explored id := fun id => Tree.explored_of_reached
  have checks : Matches (OnHost relation) ((tree.descendants tree.root).mapM checking.check)
      ((tree.descendants tree.root).mapM (checking.asking lookup').check) :=
    matches_mapM fun id among => matches_check rfl agrees (explored id among)
  have types : Matches (OnHost relation) (Analysis.typesOf checking (tree.descendants tree.root))
      (Analysis.typesOf (checking.asking lookup') (tree.descendants tree.root)) :=
    matches_typesOf rfl agrees explored
  obtain ⟨sameConflicts, checked⟩ := checks (initial tree host) (initial tree host') ⟨rfl, related⟩
  obtain ⟨sameTypes, typed⟩ := types _ _ checked
  let outcome (conflicts : List (List Conflict)) (types : Array Ty) : Analysis :=
    { Analysis.empty with
      conflicts := conflicts.flatten
      references := checking.references
      edges := checking.context.edgesOf checking.references (tree.descendants tree.root)
      streamReferences := Analysis.streamReferencesOf checking.context checking.references (tree.descendants tree.root)
      changed := Analysis.changedOf tree (tree.descendants tree.root)
      types }
  exact ⟨congrArg₂ outcome sameConflicts sameTypes, typed.2⟩

end

/-! ### One host -/

section

variable {τ α β : Type} {relation : τ → τ → Prop}

/-- A relation leads from the state before a computation to the state after it. -/
def Moves (relation : τ → τ → Prop) (computation : StateM τ α) : Prop :=
  ∀ state, relation state (computation.run state).2

/-- Twice the same state, to which a relation leads. -/
def Onward (relation : τ → τ → Prop) (start state state' : τ) : Prop :=
  state = state' ∧ relation start state

variable [IsPreorder τ relation]

theorem moves_pure (value : α) : Moves relation (pure value) :=
  Std.Refl.refl

theorem moves_bind {computation : StateM τ α} {next : α → StateM τ β} (first : Moves relation computation)
    (second : ∀ value, Moves relation (next value)) : Moves relation (computation >>= next) :=
  fun state => IsTrans.trans _ _ _ (first state) (second _ _)

theorem moves_map {computation : StateM τ α} {answer : α → β} (moves : Moves relation computation) :
    Moves relation (computation >>= fun value => pure (answer value)) :=
  moves_bind moves fun _ => moves_pure _

theorem matches_of_moves {computation : StateM τ α} (moves : Moves relation computation) (start : τ) :
    Matches (Onward relation start) computation computation := by
  rintro state _ ⟨rfl, led⟩
  exact ⟨rfl, rfl, IsTrans.trans _ _ _ led (moves state)⟩

theorem moves_of_matches {computation : StateM τ α}
    (agree : ∀ start, Matches (Onward relation start) computation computation) : Moves relation computation :=
  fun state => (agree state state state ⟨rfl, Std.Refl.refl state⟩).2.2

theorem moves_mapM {each : α → StateM τ β} {elements : List α} (moves : ∀ element ∈ elements, Moves relation (each element)) :
    Moves relation (elements.mapM each) :=
  moves_of_matches fun start => matches_mapM fun element among => matches_of_moves (moves element among) start

/-- Each of some computations is made at a point between the first and the last of them. -/
theorem exists_state_of_mapM {each : α → StateM τ β} {elements : List α}
    (moves : ∀ element ∈ elements, Moves relation (each element)) {element : α} (among : element ∈ elements) (state : τ) :
    ∃ between, relation state between ∧ ((each element).run between).1 ∈ ((elements.mapM each).run state).1 ∧
      relation ((each element).run between).2 ((elements.mapM each).run state).2 := by
  induction elements generalizing state with
  | nil => simp at among
  | cons first rest hypothesis =>
    obtain ⟨here, later⟩ := List.forall_mem_cons.mp moves
    rw [List.mapM_cons]
    rcases List.mem_cons.mp among with rfl | among
    · exact ⟨state, Std.Refl.refl _, List.mem_cons_self, moves_map (moves_mapM later) _⟩
    · obtain ⟨between, before, found, after⟩ := hypothesis later among ((each first).run state).2
      exact ⟨between, IsTrans.trans _ _ _ (here state) before, List.mem_cons_of_mem _ found, after⟩

/-- Whatever some computations return, one of them returned, at a point between the first and the last. -/
theorem exists_element_of_mapM {each : α → StateM τ β} {elements : List α}
    (moves : ∀ element ∈ elements, Moves relation (each element)) {result : β} {state : τ}
    (among : result ∈ ((elements.mapM each).run state).1) :
    ∃ element ∈ elements, ∃ between, relation state between ∧ ((each element).run between).1 = result := by
  induction elements generalizing state with
  | nil => exact absurd among List.not_mem_nil
  | cons first rest hypothesis =>
    obtain ⟨here, later⟩ := List.forall_mem_cons.mp moves
    rw [List.mapM_cons] at among
    rcases List.mem_cons.mp among with rfl | among
    · exact ⟨first, List.mem_cons_self, state, Std.Refl.refl state, rfl⟩
    · obtain ⟨element, inside, between, before, same⟩ := hypothesis later among
      exact ⟨element, List.mem_cons_of_mem _ inside, between, IsTrans.trans _ _ _ (here state) before, same⟩

end

section

variable {σ : Type} {relation : σ → σ → Prop} [IsPreorder σ relation]

/-- A relation leads from the host before every answer about a borrowed source to the host after it. -/
def Answering (relation : σ → σ → Prop) (tree : Tree) (lookup : SourceLookup σ) : Prop :=
  ∀ id name, tree.Explored id → tree.form? id = some (.borrow name) → Moves relation (lookup name)

/-- A relation leads from the host of one state to the host of another. -/
def Hosting (relation : σ → σ → Prop) (state state' : TypeState σ) : Prop :=
  relation state.host state'.host

instance : IsPreorder (TypeState σ) (Hosting relation) where
  refl state := Std.Refl.refl state.host
  trans first second third := @IsTrans.trans σ relation _ first.host second.host third.host

theorem Answering.agrees {tree : Tree} {lookup : SourceLookup σ} (answering : Answering relation tree lookup) (start : σ) :
    Agrees (Onward relation start) tree lookup lookup :=
  fun id name explored is => matches_of_moves (answering id name explored is) start

theorem moves_check {checking : Checking σ} (indexed : checking.context.parents = .ofTree checking.context.tree)
    (answering : Answering relation checking.context.tree checking.lookup) {id : NodeId}
    (explored : checking.context.tree.Explored id) : Moves (Hosting relation) (checking.check id) :=
  fun state => (matches_check indexed (answering.agrees state.host) explored state state
    ⟨rfl, rfl, Std.Refl.refl state.host⟩).2.2.2

theorem moves_typesOf {checking : Checking σ} (indexed : checking.context.parents = .ofTree checking.context.tree)
    (answering : Answering relation checking.context.tree checking.lookup) {reachable : List NodeId}
    (explored : ∀ id ∈ reachable, checking.context.tree.Explored id) :
    Moves (Hosting relation) (Analysis.typesOf checking reachable) :=
  fun state => (matches_typesOf indexed (answering.agrees state.host) explored state state
    ⟨rfl, rfl, Std.Refl.refl state.host⟩).2.2.2

variable {tree : Tree} {natives : Natives} {streams : List StreamSignature} {lookup : SourceLookup σ}
  (answering : Answering relation tree lookup) (host : σ)

include answering

/-- What the answers about sources lead to, an analysis leads to. -/
theorem moves_analyze : relation host (Analysis.analyze tree natives streams lookup host).2 :=
  (matches_analyze natives streams (answering.agrees host) host host ⟨rfl, Std.Refl.refl host⟩).2.2

/-- The rule of every reached node is looked at, at some point of the analysis. -/
theorem exists_check_of_analyze {id : NodeId} (reached : tree.Reached id) :
    ∃ references state,
      let checking : Checking σ := ⟨.ofTree tree natives streams, references, lookup⟩
      relation host state.host ∧
        (∀ conflict ∈ ((checking.check id).run state).1,
          conflict ∈ (Analysis.analyze tree natives streams lookup host).1.conflicts) ∧
        relation ((checking.check id).run state).2.host (Analysis.analyze tree natives streams lookup host).2 := by
  let checking : Checking σ := .ofTree tree natives streams lookup
  have explored : ∀ id ∈ tree.descendants tree.root, tree.Explored id := fun id => Tree.explored_of_reached
  have moves : ∀ id ∈ tree.descendants tree.root, Moves (Hosting relation) (checking.check id) :=
    fun id among => moves_check rfl answering (explored id among)
  obtain ⟨state, before, found, after⟩ := exists_state_of_mapM moves reached (initial tree host)
  refine ⟨checking.references, state, before, fun conflict among => List.mem_flatten.mpr ⟨_, found, among⟩, ?_⟩
  exact IsTrans.trans _ _ _ after (@moves_typesOf _ relation _ checking rfl answering _ explored _)

/-- An analysis asks about every source that a reached node borrows, and if the source is being analysed it reports a
cycle. -/
theorem exists_answer_of_analyze {id : NodeId} (reached : tree.Reached id) {source : String}
    (is : tree.form? id = some (.borrow source)) :
    ∃ host', relation host host' ∧
      (((lookup source).run host').1 = .analyzing →
        (Analysis.analyze tree natives streams lookup host).1.reportsCycle = true) ∧
      relation ((lookup source).run host').2 (Analysis.analyze tree natives streams lookup host).2 := by
  obtain ⟨references, state, before, found, after⟩ :=
    @exists_check_of_analyze _ relation _ tree natives streams lookup answering host id reached
  have is' : (Context.ofTree tree natives streams).tree.form? id = some (.borrow source) := is
  simp only [check, is', run_checkBorrow] at found after
  refine ⟨state.host, before, fun analyzing => ?_, after⟩
  simp only [analyzing] at found
  exact List.any_eq_true.mpr ⟨_, found _ List.mem_cons_self, rfl⟩

/-- If an analysis reports a cycle, it was told of a source that is being analysed, which a reached node borrows. -/
theorem exists_answer_of_reportsCycle
    (reports : (Analysis.analyze tree natives streams lookup host).1.reportsCycle = true) :
    ∃ id source host', tree.Reached id ∧ tree.form? id = some (.borrow source) ∧ relation host host' ∧
      ((lookup source).run host').1 = .analyzing := by
  let checking : Checking σ := .ofTree tree natives streams lookup
  have moves : ∀ id ∈ tree.descendants tree.root, Moves (Hosting relation) (checking.check id) :=
    fun id among => moves_check rfl answering (Tree.explored_of_reached among)
  obtain ⟨conflict, among, cycle⟩ := List.any_eq_true.mp reports
  obtain ⟨conflicts, found, inside⟩ := List.mem_flatten.mp among
  obtain ⟨id, reached, state, before, rfl⟩ := exists_element_of_mapM moves found
  obtain ⟨source, is, analyzing⟩ := answer_of_mem_check inside cycle
  exact ⟨id, source, state.host, reached, is, before, analyzing⟩

end

end Rivulet
