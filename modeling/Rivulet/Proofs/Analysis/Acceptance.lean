import Rivulet.Analysis
import Rivulet.Proofs.Tree.Written

/-!
What follows when an analysis has no blocking conflict: every node satisfies its rule. So numbers can be
read, nothing was left open, every reference refers to something, and no scope declares a name twice.

Main statement: `accepted_of_analyze`.
-/

namespace Rivulet

open Checking

variable {σ : Type}

/-! ### Conflicts of single nodes -/

theorem mem_run_mapM {α β τ : Type} {each : α → StateM τ (List β)} {elements : List α} {element : α}
    (among : element ∈ elements) (state : τ) :
    ∃ state', ((each element).run state').1 ∈ ((elements.mapM each).run state).1 := by
  induction elements generalizing state with
  | nil => simp at among
  | cons first rest hypothesis =>
    rw [List.mapM_cons]
    rcases List.mem_cons.mp among with rfl | later
    · exact ⟨state, List.mem_cons_self⟩
    · obtain ⟨state', there⟩ := hypothesis later ((each first).run state).2
      exact ⟨state', List.mem_cons_of_mem _ there⟩

/-- The rule of a node finds nothing that blocks, at some point of the analysis. -/
def Satisfied (checking : Checking σ) (id : NodeId) : Prop :=
  ∃ state, ∀ conflict ∈ ((checking.check id).run state).1, conflict.isBlocking = false

theorem satisfied_of_analyze {tree : Tree} {natives : Natives} {streams : List StreamSignature}
    {lookup : SourceLookup σ} {host : σ}
    (unblocked : (Analysis.analyze tree natives streams lookup host).1.isBlocked = false) {id : NodeId}
    (reached : id ∈ tree.descendants tree.root) :
    ∃ references, Satisfied ⟨.ofTree tree natives streams, references, lookup⟩ id := by
  let context := Context.ofTree tree natives streams
  let checking : Checking σ := ⟨context, context.referencesOf (tree.descendants tree.root), lookup⟩
  obtain ⟨state, found⟩ := @mem_run_mapM _ _ _ checking.check _ id reached (Typing.initial tree host)
  refine ⟨checking.references, state, fun conflict among => ?_⟩
  have listed : conflict ∈ (Analysis.analyze tree natives streams lookup host).1.conflicts :=
    List.mem_flatten.mpr ⟨_, found, among⟩
  have none := List.any_eq_false.mp unblocked conflict listed
  simpa using none

/-! ### Rules -/

section

variable {checking : Checking σ} {id : NodeId}

theorem holds_of_reportIf {condition : Bool} {conflict : Conflict} (blocking : conflict.isBlocking = true)
    (none : ∀ other ∈ reportIf condition conflict, other.isBlocking = false) : condition = false := by
  cases condition with
  | false => rfl
  | true => exact absurd blocking (by simp [none conflict (by simp [reportIf])])

theorem number_of_satisfied (satisfied : Satisfied checking id) {literal : String} {measure : Measure}
    (is : checking.context.tree.form? id = some (.number literal measure)) :
    (Quantity.ofText? literal measure).isSome := by
  obtain ⟨state, none⟩ := satisfied
  simp only [check, is] at none
  have found := holds_of_reportIf rfl none
  cases read : Quantity.ofText? literal measure with
  | none => simp [read] at found
  | some number => rfl

theorem reference_of_satisfied (satisfied : Satisfied checking id) {name : String}
    (is : checking.context.tree.form? id = some (.reference name)) :
    (checking.context.resolve? id name).isSome := by
  obtain ⟨state, none⟩ := satisfied
  simp only [check, is] at none
  have found := holds_of_reportIf rfl none
  cases resolved : checking.context.resolve? id name with
  | none => simp [resolved] at found
  | some definition => rfl

theorem not_placeholder_of_satisfied (satisfied : Satisfied checking id) :
    checking.context.tree.form? id ≠ some .placeholder := by
  intro is
  obtain ⟨state, none⟩ := satisfied
  simp only [check, is] at none
  have := none (.alone .placeholder id) List.mem_cons_self
  simp [Conflict.isBlocking, Conflict.alone, Problem.severity] at this

/-- Without a way to look up other sources there is no borrow. -/
theorem not_borrow_of_satisfied (satisfied : Satisfied checking id) (alone : checking.lookup = .none)
    (source : String) : checking.context.tree.form? id ≠ some (.borrow source) := by
  intro is
  obtain ⟨state, none⟩ := satisfied
  have found : ((checking.check id).run state).1 = [.alone (.unknownSource source) id] := by
    simp only [check, is, checkBorrow, alone]
    rfl
  rw [found] at none
  have := none _ List.mem_cons_self
  simp [Conflict.isBlocking, Conflict.alone, Problem.severity] at this

end

/-! ### Declarations -/

/-- The names that some nodes declare. -/
def declaredNames (tree : Tree) (nodes : List NodeId) : List String :=
  nodes.filterMap (declaredName? tree)

theorem blocking_of_mem_duplicates {tree : Tree} {declared : List (String × NodeId)}
    {statements : List NodeId} {conflict : Conflict}
    (among : conflict ∈ duplicates tree declared statements) : conflict.isBlocking = true := by
  induction statements generalizing declared with
  | nil => simp [duplicates] at among
  | cons statement rest hypothesis =>
    unfold duplicates at among
    split at among
    · exact hypothesis among
    · split at among
      · rcases List.mem_cons.mp among with rfl | later
        · rfl
        · exact hypothesis later
      · exact hypothesis among

/-- No name among some is one of those that were declared before. -/
def Fresh (declared : List (String × NodeId)) (names : List String) : Prop :=
  ∀ name ∈ names, declared.lookup name = none

theorem fresh_of_cons {declared : List (String × NodeId)} {names : List String} {name : String}
    {node : NodeId} (fresh : Fresh ((name, node) :: declared) names) :
    name ∉ names ∧ Fresh declared names := by
  have apart (other : String) (among : other ∈ names) : other ≠ name := by
    rintro rfl
    have := fresh other among
    simp at this
  refine ⟨fun among => apart name among rfl, fun other among => ?_⟩
  have different : (other == name) = false := by simpa using apart other among
  simpa [List.lookup_cons, different] using fresh other among

theorem fresh_cons {declared : List (String × NodeId)} {names : List String} {name : String}
    (unknown : declared.lookup name = none) (fresh : Fresh declared names) :
    Fresh declared (name :: names) := by
  intro other among
  rcases List.mem_cons.mp among with rfl | later
  · exact unknown
  · exact fresh other later

theorem nodup_of_duplicates {tree : Tree} {declared : List (String × NodeId)} {statements : List NodeId}
    (clean : duplicates tree declared statements = []) :
    (declaredNames tree statements).Nodup ∧ Fresh declared (declaredNames tree statements) := by
  induction statements generalizing declared with
  | nil => exact ⟨List.nodup_nil, fun _ among => absurd among (by simp [declaredNames])⟩
  | cons statement rest hypothesis =>
    unfold duplicates at clean
    cases is : declaredName? tree statement with
    | none =>
      simp only [is] at clean
      simpa [declaredNames, is] using hypothesis clean
    | some name =>
      have names : declaredNames tree (statement :: rest) = name :: declaredNames tree rest := by
        simp [declaredNames, is]
      simp only [is] at clean
      cases known : declared.lookup name with
      | some earlier => simp [known] at clean
      | none =>
        simp only [known] at clean
        obtain ⟨distinct, fresh⟩ := hypothesis clean
        obtain ⟨first, fresh⟩ := fresh_of_cons fresh
        rw [names]
        exact ⟨List.nodup_cons.mpr ⟨first, distinct⟩, fresh_cons known fresh⟩

theorem blocking_of_mem_checkInputs {tree : Tree} {seen : List (String × NodeId)}
    {optional : Option NodeId} {inputs : List NodeId} {conflict : Conflict}
    (among : conflict ∈ checkInputs tree seen optional inputs) : conflict.isBlocking = true := by
  induction inputs generalizing seen optional with
  | nil => simp [checkInputs] at among
  | cons input rest hypothesis =>
    unfold checkInputs at among
    split at among
    · simp only [List.mem_append] at among
      rcases among with ((duplicate | misplaced) | order) | later
      · split at duplicate
        · rw [List.mem_singleton.mp duplicate]
          rfl
        · simp at duplicate
      · unfold reportIf at misplaced
        split at misplaced
        · rw [List.mem_singleton.mp misplaced]
          rfl
        · simp at misplaced
      · split at order
        · simp at order
        · split at order
          · rw [List.mem_singleton.mp order]
            rfl
          · simp at order
      · exact hypothesis later
    · rcases List.mem_cons.mp among with rfl | later
      · rfl
      · exact hypothesis later

theorem nodup_of_checkInputs {tree : Tree} {seen : List (String × NodeId)} {inputs : List NodeId}
    (fit : ∀ input ∈ inputs, tree.IsInput input) (clean : checkInputs tree seen none inputs = []) :
    (declaredNames tree inputs).Nodup ∧ Fresh seen (declaredNames tree inputs) := by
  induction inputs generalizing seen with
  | nil => exact ⟨List.nodup_nil, fun _ among => absurd among (by simp [declaredNames])⟩
  | cons input rest hypothesis =>
    obtain ⟨name, -, is⟩ := fit input (by simp)
    have names : declaredNames tree (input :: rest) = name :: declaredNames tree rest := by
      simp [declaredNames, declaredName?, is, Form.declaredName?]
    unfold checkInputs at clean
    simp only [is] at clean
    cases known : seen.lookup name with
    | some earlier => simp [known] at clean
    | none =>
      simp only [known, NodeId.isPresent, NodeId.isMissing] at clean
      simp only [List.append_eq_nil_iff] at clean
      obtain ⟨distinct, fresh⟩ := hypothesis (fun other later => fit other (by simp [later])) clean.2
      obtain ⟨first, fresh⟩ := fresh_of_cons fresh
      rw [names]
      exact ⟨List.nodup_cons.mpr ⟨first, distinct⟩, fresh_cons known fresh⟩

theorem eq_nil_of_blocking {conflicts : List Conflict}
    (blocking : ∀ conflict ∈ conflicts, conflict.isBlocking = true)
    (none : ∀ conflict ∈ conflicts, conflict.isBlocking = false) : conflicts = [] := by
  refine List.eq_nil_iff_forall_not_mem.mpr fun conflict among => ?_
  simpa [none conflict among] using blocking conflict among

section

variable {checking : Checking σ} {id : NodeId} (satisfied : Satisfied checking id)

include satisfied

theorem block_of_satisfied {statements : ChildList}
    (is : checking.context.tree.form? id = some (.block statements)) :
    checking.context.tree.list statements ≠ [] ∧
      (declaredNames checking.context.tree (checking.context.tree.list statements)).Nodup := by
  obtain ⟨state, none⟩ := satisfied
  have found : ((checking.check id).run state).1 =
      checking.checkBlock id (checking.context.tree.list statements) := by
    simp only [check, is]
    rfl
  rw [found] at none
  simp only [checkBlock, List.mem_append] at none
  constructor
  · intro empty
    have among : Conflict.alone .expectedEndingExpression id ∈
        ending checking.context.tree id (checking.context.tree.list statements) := by
      simp [ending, empty]
    have := none _ (.inl (.inl (.inr among)))
    simp [Conflict.isBlocking, Conflict.alone, Problem.severity] at this
  · have clean : duplicates checking.context.tree [] (checking.context.tree.list statements) = [] :=
      eq_nil_of_blocking (fun _ => blocking_of_mem_duplicates)
        fun conflict among => none conflict (.inl (.inr among))
    exact (nodup_of_duplicates clean).1

theorem inputs_of_satisfied {name : String} {inputs : ChildList} {body : NodeId}
    (is : checking.context.tree.form? id = some (.function name inputs body none))
    (fit : ∀ input ∈ checking.context.tree.list inputs, checking.context.tree.IsInput input) :
    (declaredNames checking.context.tree (checking.context.tree.list inputs)).Nodup := by
  obtain ⟨state, none⟩ := satisfied
  have found : ((checking.check id).run state).1 =
      checkInputs checking.context.tree [] Option.none (checking.context.tree.list inputs) ++ [] := by
    simp only [check, is]
    rfl
  rw [found, List.append_nil] at none
  have clean : checkInputs checking.context.tree [] Option.none
      (checking.context.tree.list inputs) = [] :=
    eq_nil_of_blocking (fun _ => blocking_of_mem_checkInputs) none
  exact (nodup_of_checkInputs fit clean).1

end

/-! ### Accepted trees -/

/-- The rules of all nodes hold as far as evaluation depends on them. -/
structure Context.Accepted (context : Context) : Prop where
  numbers : ∀ id literal measure, context.tree.form? id = some (.number literal measure) →
    (Quantity.ofText? literal measure).isSome
  references : ∀ id name, context.tree.form? id = some (.reference name) →
    (context.resolve? id name).isSome
  placeholders : ∀ id, context.tree.form? id ≠ some .placeholder
  inputs : ∀ id name inputs body output,
    context.tree.form? id = some (.function name inputs body output) →
    (declaredNames context.tree (context.tree.list inputs)).Nodup
  blocks : ∀ id statements, context.tree.form? id = some (.block statements) →
    context.tree.list statements ≠ [] ∧
      (declaredNames context.tree (context.tree.list statements)).Nodup

section

variable {tree : Tree} {natives : Natives} {streams : List StreamSignature} {lookup : SourceLookup σ}
  {host : σ} (written : tree.Written)
  (unblocked : (Analysis.analyze tree natives streams lookup host).1.isBlocked = false)

include written unblocked

theorem satisfied_of_form? {id : NodeId} {form : Form} (is : tree.form? id = some form) :
    ∃ references, Satisfied ⟨.ofTree tree natives streams, references, lookup⟩ id :=
  satisfied_of_analyze unblocked (written.reached id (by simp [is]))

/-- What lines make is accepted unless its analysis finds a blocking conflict. -/
theorem accepted_of_analyze : (Context.ofTree tree natives streams).Accepted where
  numbers id literal measure is := by
    obtain ⟨_, satisfied⟩ := satisfied_of_form? written unblocked is
    exact number_of_satisfied satisfied is
  references id name is := by
    obtain ⟨_, satisfied⟩ := satisfied_of_form? written unblocked is
    exact reference_of_satisfied satisfied is
  placeholders id is := by
    obtain ⟨_, satisfied⟩ := satisfied_of_form? written unblocked is
    exact not_placeholder_of_satisfied satisfied is
  inputs id name inputs body output is := by
    obtain ⟨_, satisfied⟩ := satisfied_of_form? written unblocked is
    obtain ⟨-, rfl, fit, -⟩ := written.fits id _ is
    exact inputs_of_satisfied satisfied is fit
  blocks id statements is := by
    obtain ⟨_, satisfied⟩ := satisfied_of_form? written unblocked is
    exact block_of_satisfied satisfied is

theorem no_borrow_of_analyze (alone : lookup = .none) (id : NodeId) (source : String) :
    tree.form? id ≠ some (.borrow source) := by
  intro is
  obtain ⟨_, satisfied⟩ := satisfied_of_form? written unblocked is
  exact not_borrow_of_satisfied satisfied alone source is

end

end Rivulet
