import Rivulet.Proofs.Analysis.Acceptance
import Rivulet.Proofs.Segments.Sights

/-!
What is known of a name on the way through what a node is compiled to. A block hides what its statements declare, and
leaves what is known as it was; every other node binds the name that it declares in the scope that the frame is in.
-/

namespace Rivulet

open Checking

/-! ### Sights on the way through a part -/

namespace Sight

variable {tree : Tree} {name : String} {sight : Sight} {id : NodeId} {statements : List NodeId}

/-- What is known behind a node that is no block: it binds the name that it declares. -/
def declared (tree : Tree) (name : String) (sight : Sight) (id : NodeId) : Sight :=
  if declaredName? tree id = some name then sight.mark else sight

/-- What is known when a block has been gone into. It has a scope of its own if one of its statements declares a
name. -/
def enter (tree : Tree) (statements : List NodeId) (sight : Sight) : Sight :=
  if tree.declaresNames statements then { sight with shades := false :: sight.shades } else sight

/-- What is known when a block has been left. -/
def leave (tree : Tree) (statements : List NodeId) (sight : Sight) : Sight :=
  if tree.declaresNames statements then { sight with shades := sight.shades.tail } else sight

theorem declared_of_ne (undeclared : declaredName? tree id ≠ some name) : sight.declared tree name id = sight :=
  if_neg undeclared

theorem IsClear.enter (clear : sight.IsClear) (statements : List NodeId) : (sight.enter tree statements).IsClear := by
  unfold Sight.enter
  split
  · exact ⟨clear.1, by simpa using clear.2⟩
  · exact clear

theorem foldl_declared_of_ne (undeclared : ∀ id ∈ statements, declaredName? tree id ≠ some name) :
    statements.foldl (declared tree name) sight = sight := by
  induction statements with
  | nil => rfl
  | cons id statements hypothesis =>
    rw [List.foldl_cons, declared_of_ne (undeclared id List.mem_cons_self)]
    exact hypothesis fun other among => undeclared other (List.mem_cons_of_mem _ among)

theorem foldl_declared_inside (bound shade : Bool) (shades : List Bool) : ∃ shade',
    statements.foldl (declared tree name) ⟨bound, shade :: shades⟩ = ⟨bound, shade' :: shades⟩ := by
  induction statements generalizing shade with
  | nil => exact ⟨shade, rfl⟩
  | cons id statements hypothesis =>
    rw [List.foldl_cons]
    unfold declared
    split
    · exact hypothesis true
    · exact hypothesis shade

/-- Behind a block the same is known as in front of it. -/
theorem leave_foldl_declared (sight : Sight) (statements : List NodeId) :
    ((statements.foldl (declared tree name) (sight.enter tree statements)).leave tree statements) = sight := by
  obtain ⟨bound, shades⟩ := sight
  unfold enter leave
  split
  · obtain ⟨shade, is⟩ := @foldl_declared_inside tree name statements bound false shades
    rw [is, List.tail_cons]
  · rename_i names
    refine foldl_declared_of_ne fun id among declares => names ?_
    refine List.any_eq_true.mpr ⟨id, among, ?_⟩
    obtain ⟨form, is, named⟩ := Option.bind_eq_some_iff.mp declares
    simp [is, named]

end Sight

namespace Chart

variable {tree : Tree} {name : String} {watched : NodeId → Prop} {code : NodeId → List Step} {id child : NodeId}
  {holds behind inner inner' : Sight → Prop} {step : Step}

theorem allows_of_ne_finish (other : ∀ id, step ≠ .finish id) (sight : Sight) :
    (sights tree name watched).allows sight step := by
  refine ⟨fun leaves => ?_, fun id is => absurd is (other id)⟩
  cases step with
  | finish id => exact absurd rfl (other id)
  | _ => cases leaves

theorem passes_call_of_sight (id : NodeId) (arity : Nat) :
    (sights tree name watched).Passes holds [.call id arity] holds := by
  refine passes_step (fun sight _ => allows_of_ne_finish (by simp) sight) ?_
  rintro sight skips later known ⟨⟨takes, gives, uses⟩, rfl⟩
  cases uses
  exact ⟨rfl, known⟩

/-- A part that may be decided early. -/
theorem passes_branch {steps : List Step} {distance : Int} (id : NodeId) (whenValue : Bool)
    (decides : ∀ sight, holds sight → behind sight) (passes : (sights tree name watched).Passes holds steps behind)
    (jumps : distance = steps.length) :
    (sights tree name watched).Passes holds (.branch id whenValue distance :: steps) behind := by
  refine passes_over (fun sight _ => allows_of_ne_finish (by simp) sight) ?_ passes
  rintro sight skips later known ⟨⟨takes, gives, uses⟩, rfl⟩
  cases uses with
  | decides => exact .inr ⟨by omega, decides _ known⟩
  | drops => exact .inl ⟨rfl, known⟩

/-- Two parts of which one is taken. -/
theorem passes_chosen (id : NodeId) {yes no : List Step} (first : (sights tree name watched).Passes holds yes inner)
    (second : (sights tree name watched).Passes holds no inner) :
    (sights tree name watched).Passes holds (.jumpUnless id (yes.length + 1) :: (yes ++ .jump no.length :: no))
      inner := by
  refine passes_choice (fun sight _ => allows_of_ne_finish (by simp) sight) ?_ first
    (fun sight _ => allows_of_ne_finish (by simp) sight) ?_ second
  · rintro sight skips later known ⟨⟨takes, gives, uses⟩, rfl⟩
    cases uses with
    | holds => exact .inl ⟨rfl, known⟩
    | fails => exact .inr ⟨by omega, known⟩
  · rintro sight skips later known ⟨⟨takes, gives, uses⟩, rfl⟩
    cases uses
    exact ⟨by omega, known⟩

/-- No step comes behind a child that is missing. -/
theorem passes_expected_of_sight (holds behind : Sight → Prop) (id : NodeId) :
    (sights tree name watched).Passes holds [.expected id] behind := by
  refine passes_step (fun sight _ => allows_of_ne_finish (by simp) sight) ?_
  rintro sight skips later - ⟨⟨takes, gives, uses⟩, -⟩
  cases uses

/-- A node that is no block is completed, and binds the name that it declares. -/
theorem passes_finish_of_sight (plain : (Step.finish id).leaves tree = false)
    (completes : ∀ sight, holds sight → (watched id → sight.IsClear) ∧ behind (sight.declared tree name id)) :
    (sights tree name watched).Passes holds [.finish id] behind := by
  refine passes_step (fun sight known => ⟨fun leaves => ?_, ?_⟩) ?_
  · rw [plain] at leaves
    cases leaves
  · rintro _ ⟨⟩
    exact (completes sight known).1
  · rintro sight skips later known ⟨⟨takes, gives, uses⟩, rfl⟩
    cases uses
    refine ⟨rfl, ?_⟩
    rw [Sight.after_eq (by simp), plain]
    exact (completes sight known).2

theorem passes_bind_of_sight (completes : ∀ sight, holds sight → behind (sight.declared tree name id)) :
    (sights tree name watched).Passes holds [.bind id] behind := by
  refine passes_step (fun sight _ => allows_of_ne_finish (by simp) sight) ?_
  rintro sight skips later known ⟨⟨takes, gives, uses⟩, rfl⟩
  cases uses
  exact ⟨rfl, completes sight known⟩

theorem passes_children_of_sight (parent : NodeId) {children : List NodeId} (compiled : ∀ child ∈ children,
    (tree.form? child).isSome → (sights tree name watched).Passes holds (code child) holds) :
    (sights tree name watched).Passes holds (tree.childrenCode code parent children) holds :=
  passes_childrenCode parent fun before child following split =>
    passes_childCode parent (passes_expected_of_sight holds holds parent) (compiled child (by simp [split]))

/-- Statements bind the names that they declare one after the other. -/
theorem passes_statements (parent : NodeId) {statements : List NodeId} {sight : Sight}
    (compiled : ∀ before statement following, statements = before ++ statement :: following →
      (tree.form? statement).isSome →
      let known := before.foldl (Sight.declared tree name) sight
      (sights tree name watched).Passes (· = known) (code statement) (· = known.declared tree name statement)) :
    (sights tree name watched).Passes (· = sight) (tree.childrenCode code parent statements)
      (· = statements.foldl (Sight.declared tree name) sight) := by
  let known (before : List NodeId) (sight' : Sight) : Prop := sight' = before.foldl (Sight.declared tree name) sight
  refine @passes_childrenCode _ _ _ _ parent statements known fun before statement following split => ?_
  refine passes_childCode parent (passes_expected_of_sight _ _ parent) fun there => ?_
  simp only [known, List.foldl_append, List.foldl_cons, List.foldl_nil]
  exact compiled before statement following split there

/-- What is known in front of a node that is no block is known in all of it, if it is known behind all parts. -/
theorem passes_codeWith_of_sight (plain : ∀ statements, tree.form? id ≠ some (.block statements))
    (completes : ∀ sight, holds sight → (watched id → sight.IsClear) ∧ behind (sight.declared tree name id))
    (each : ∀ child ∈ tree.codeChildren id, (sights tree name watched).Passes holds (code child) holds) :
    (sights tree name watched).Passes holds (tree.codeWith code id) behind := by
  have child (child : NodeId) (link : (tree.form? child).isSome → child ∈ tree.codeChildren id) :
      (sights tree name watched).Passes holds (tree.childCode code id child) holds :=
    passes_childCode id (passes_expected_of_sight holds holds id) fun there => each child (link there)
  have children (list : ChildList) (links : ∀ child ∈ tree.list list, (tree.form? child).isSome →
      child ∈ tree.codeChildren id) :
      (sights tree name watched).Passes holds (tree.childrenCode code id (tree.list list)) holds :=
    passes_children_of_sight id fun other among there => each other (links other among there)
  have finish : (sights tree name watched).Passes holds [.finish id] behind := by
    refine passes_finish_of_sight ?_ completes
    simp [Step.leaves]
  have unnamed (none : declaredName? tree id = none) (sight : Sight) (known : holds sight) : behind sight := by
    have completed := (completes sight known).2
    rwa [Sight.declared_of_ne (by simp [none])] at completed
  unfold Tree.codeWith
  cases is : tree.form? id with
  | none => exact passes_expected_of_sight holds behind id
  | some form =>
    cases form with
    | block statements => exact absurd is (plain statements)
    | pair key value =>
      refine ((child key ?_).append (child value ?_)).mono (fun _ known => known) fun sight => unnamed ?_ sight
      · simp [Tree.codeChildren, is, Form.links]
      · simp [Tree.codeChildren, is, Form.links]
      · simp [declaredName?, is, Form.declaredName?]
    | program body => exact (child body (by simp [Tree.codeChildren, is, Form.links])).append finish
    | bind own value declared variadic =>
      exact (child value (by simp [Tree.codeChildren, is, Form.links])).append
        (passes_bind_of_sight fun sight known => (completes sight known).2)
    | sequence items | set items | mapping items =>
      exact (children items (by simp +contextual [Tree.codeChildren, is, Form.links])).append finish
    | property owner own => exact (child owner (by simp [Tree.codeChildren, is, Form.links])).append finish
    | unary op operand => exact (child operand (by simp [Tree.codeChildren, is, Form.links])).append finish
    | binary op left right =>
      have none : declaredName? tree id = none := by simp [declaredName?, is, Form.declaredName?]
      have first := child left (by simp [Tree.codeChildren, is, Form.links])
      have second := child right (by simp [Tree.codeChildren, is, Form.links])
      dsimp only
      split
      · simpa using first.append (passes_branch id (op == .or) (unnamed none) (second.append finish) (by simp))
      · exact (first.append second).append finish
    | conditional condition yes no =>
      have decided := child condition (by simp [Tree.codeChildren, is, Form.links])
      have first := child yes (by simp [Tree.codeChildren, is, Form.links])
      have second := child no (by simp [Tree.codeChildren, is, Form.links])
      simpa using (decided.append (passes_chosen id first second)).append finish
    | call callee arguments =>
      have called := child callee (by simp [Tree.codeChildren, is, Form.links])
      have given := children arguments (by simp +contextual [Tree.codeChildren, is, Form.links])
      simpa using ((called.append given).append (passes_call_of_sight id _)).append finish
    | _ => exact finish

/-- A block binds nothing of what is around it. -/
theorem passes_block {statements : ChildList} (is : tree.form? id = some (.block statements)) (unwatched : ¬ watched id)
    (opens : ∀ sight, holds sight → inner (sight.enter tree (tree.list statements)))
    (passes : (sights tree name watched).Passes inner (tree.childrenCode code id (tree.list statements)) inner')
    (closes : ∀ sight, inner' sight → (tree.declaresNames (tree.list statements) = true → sight.shades ≠ []) ∧
      behind (sight.leave tree (tree.list statements))) :
    (sights tree name watched).Passes holds (tree.codeWith code id) behind := by
  have entered : (sights tree name watched).Passes holds
      (if tree.declaresNames (tree.list statements) then [.enter id] else []) inner := by
    split
    · rename_i names
      refine passes_step (fun sight _ => allows_of_ne_finish (by simp) sight) ?_
      rintro sight skips later known ⟨⟨takes, gives, uses⟩, rfl⟩
      cases uses
      have opened := opens sight known
      rw [Sight.enter, if_pos names] at opened
      exact ⟨rfl, opened⟩
    · rename_i names
      refine passes_nil fun sight known => ?_
      have opened := opens sight known
      rwa [Sight.enter, if_neg names] at opened
  have leaves : (Step.finish id).leaves tree = tree.declaresNames (tree.list statements) := by simp [Step.leaves, is]
  have finish : (sights tree name watched).Passes inner' [.finish id] behind := by
    refine passes_step (fun sight known => ⟨fun left => (closes sight known).1 (leaves ▸ left), ?_⟩) ?_
    · rintro _ ⟨⟩ watches
      exact absurd watches unwatched
    · rintro sight skips later known ⟨⟨takes, gives, uses⟩, rfl⟩
      cases uses
      have undeclared : (Step.finish id).finds? tree 0 = none := by
        simp [Step.finds?, Step.binds?, is, Form.declaredName?]
      have closed := (closes sight known).2
      rw [Sight.after_eq (by simp), leaves, undeclared, if_neg (show ¬ none = some name by simp)]
      exact ⟨rfl, closed⟩
  unfold Tree.codeWith
  rw [is]
  exact (entered.append passes).append finish

end Chart

end Rivulet
