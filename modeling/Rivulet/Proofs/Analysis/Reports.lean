import Rivulet.Analysis
import Rivulet.Proofs.Typing.Memo
import Mathlib.Data.List.Infix

/-!
Where rules report. A node answers for itself and its direct children only, whatever it is told about types and other
sources (`primary_of_mem_check`). No rule but that of borrows reports a cycle of borrows, and only if the source is being
analysed (`answer_of_mem_check`).
-/

namespace Rivulet

/-- Whether a problem is that a source borrows itself through others. -/
def Problem.isBorrowCycle : Problem → Bool
  | borrowCycle _ => true
  | _ => false

/-- Whether an analysis holds a conflict about a cycle of borrows. -/
def Analysis.reportsCycle (analysis : Analysis) : Bool :=
  analysis.conflicts.any fun conflict => conflict.problem.isBorrowCycle

theorem Analysis.isBlocked_of_reportsCycle {analysis : Analysis} (reports : analysis.reportsCycle = true) :
    analysis.isBlocked = true := by
  obtain ⟨⟨problem, primary, secondary⟩, among, cycle⟩ := List.any_eq_true.mp reports
  refine List.any_eq_true.mpr ⟨_, among, ?_⟩
  cases problem <;> simp [Problem.isBorrowCycle] at cycle
  rfl

namespace Checking

open Typing

/-- All conflicts are at nodes among some, and none of them is about a cycle of borrows. -/
def Confined (within : NodeId → Prop) (conflicts : List Conflict) : Prop :=
  ∀ conflict ∈ conflicts, within conflict.primary ∧ conflict.problem.isBorrowCycle = false

section

variable {within : NodeId → Prop} {conflict : Conflict} {conflicts others : List Conflict} {node : NodeId}

theorem confined_nil : Confined within [] := by
  simp [Confined]

theorem confined_cons (place : within conflict.primary) (plain : conflict.problem.isBorrowCycle = false)
    (rest : Confined within conflicts) : Confined within (conflict :: conflicts) :=
  List.forall_mem_cons.mpr ⟨⟨place, plain⟩, rest⟩

theorem confined_single (place : within conflict.primary) (plain : conflict.problem.isBorrowCycle = false) :
    Confined within [conflict] :=
  confined_cons place plain confined_nil

theorem confined_append (first : Confined within conflicts) (second : Confined within others) :
    Confined within (conflicts ++ others) :=
  List.forall_mem_append.mpr ⟨first, second⟩

theorem confined_reportIf {condition : Bool} (place : within conflict.primary)
    (plain : conflict.problem.isBorrowCycle = false) : Confined within (reportIf condition conflict) := by
  unfold reportIf
  split
  · exact confined_single place plain
  · exact confined_nil

theorem confined_require (here : within node) (children : List NodeId) : Confined within (require node children) :=
  confined_reportIf here rfl

/-- Conflicts at other nodes are left out. -/
theorem Confined.filter_eq_nil (confined : Confined within conflicts) {chosen : NodeId → Bool}
    (others : ∀ id, within id → chosen id = false) : conflicts.filter (fun conflict => chosen conflict.primary) = [] :=
  List.filter_eq_nil_iff.mpr fun conflict among => by simp [others _ (confined conflict among).1]

/-! ### Rules of one node -/

theorem confined_duplicates (tree : Tree) (declared : List (String × NodeId)) {statements : List NodeId}
    (below : ∀ statement ∈ statements, within statement) : Confined within (duplicates tree declared statements) := by
  induction statements generalizing declared with
  | nil => exact confined_nil
  | cons statement rest hypothesis =>
    obtain ⟨first, rest⟩ := List.forall_mem_cons.mp below
    unfold duplicates
    split
    · exact hypothesis declared rest
    · split
      · exact confined_cons first rfl (hypothesis declared rest)
      · exact hypothesis _ rest

theorem confined_ending (tree : Tree) (here : within node) (statements : List NodeId) :
    Confined within (ending tree node statements) := by
  unfold ending
  split
  · exact confined_single here rfl
  · split
    · exact confined_single here rfl
    · exact confined_nil

theorem confined_checkInputs (tree : Tree) (seen : List (String × NodeId)) (optional : Option NodeId)
    {inputs : List NodeId} (below : ∀ input ∈ inputs, within input) :
    Confined within (checkInputs tree seen optional inputs) := by
  induction inputs generalizing seen optional with
  | nil => exact confined_nil
  | cons input rest hypothesis =>
    obtain ⟨first, rest⟩ := List.forall_mem_cons.mp below
    unfold checkInputs
    split
    · rename_i name value declared variadic is
      refine confined_append (confined_append (confined_append ?_ (confined_reportIf first rfl)) ?_)
        (hypothesis _ _ rest)
      · split
        · exact confined_single first rfl
        · exact confined_nil
      · cases value.isPresent with
        | true => exact confined_nil
        | false =>
          cases variadic <;> cases optional <;> first | exact confined_nil | exact confined_single first rfl
    · exact confined_cons first rfl (hypothesis _ _ rest)

theorem confined_operandConflicts (op : BinaryOp) (leftType rightType : Ty) {left right : NodeId} (here : within node)
    (first : within left) (second : within right) :
    Confined within (operandConflicts op leftType rightType node left right) := by
  have misfit {place : NodeId} (inside : within place) :
      Confined within [.between (.incompatibleOperand op) place node] :=
    confined_single inside rfl
  unfold operandConflicts
  dsimp only
  split
  · exact confined_reportIf here rfl
  · split
    · exact confined_nil
    · exact misfit first
  · split
    · exact confined_nil
    · exact misfit first
  · refine misfit ?_
    split
    · exact second
    · exact first

theorem confined_checkArity (tree : Tree) (here : within node) (inputs : List NodeId) {arguments : List NodeId}
    (below : ∀ argument ∈ arguments, within argument) :
    Confined within (checkArity tree node inputs arguments).1 := by
  refine confined_append ?_ ?_
  · split
    · exact confined_single here rfl
    · exact confined_nil
  · split
    · rename_i extra _ there
      exact confined_single (below extra (List.mem_of_getElem? there)) rfl
    · exact confined_nil

theorem confined_checkNativeArity (here : within node) (names : List String) {arguments : List NodeId}
    (below : ∀ argument ∈ arguments, within argument) : Confined within (checkNativeArity node names arguments) := by
  refine confined_append ?_ ?_
  · split
    · exact confined_single here rfl
    · exact confined_nil
  · split
    · rename_i extra there
      exact confined_single (below extra (List.mem_of_getElem? there)) rfl
    · exact confined_nil

section

variable {σ : Type} (checking : Checking σ)

theorem confined_checkBlock (here : within node) {statements : List NodeId}
    (below : ∀ statement ∈ statements, within statement) : Confined within (checking.checkBlock node statements) := by
  refine confined_append (confined_append (confined_append (confined_require here _) (confined_ending _ here _))
    (confined_duplicates _ _ below)) ?_
  split
  · exact confined_nil
  · intro conflict among
    obtain ⟨statement, there, found⟩ := List.mem_filterMap.mp among
    split at found
    · split at found
      · simp at found
      · cases found
        exact ⟨below statement (List.mem_of_mem_dropLast there), rfl⟩
    · simp at found

/-! ### Rules that ask for types -/

/-- Whatever the state, a computation finds conflicts at nodes among some, none of which is about a cycle. -/
def Confines (within : NodeId → Prop) (computation : TypeM σ (List Conflict)) : Prop :=
  Settles (fun _ => True) computation (Confined within)

variable {checking}

theorem confines_pure (confined : Confined within conflicts) :
    Confines within (pure conflicts : TypeM σ (List Conflict)) :=
  settles_pure confined

theorem confines_bind {α : Type} {computation : TypeM σ α} {next : α → TypeM σ (List Conflict)}
    (rest : ∀ value, Confines within (next value)) : Confines within (computation >>= next) :=
  @settles_bind _ _ _ _ _ (fun _ => True) _ _ (fun _ _ => ⟨trivial, trivial⟩) fun value _ => rest value

theorem Confines.bind {computation : TypeM σ (List Conflict)} {next : List Conflict → TypeM σ (List Conflict)}
    (first : Confines within computation)
    (rest : ∀ conflicts, Confined within conflicts → Confines within (next conflicts)) :
    Confines within (computation >>= next) :=
  settles_bind first rest

theorem Confines.after {computation : TypeM σ (List Conflict)} (confines : Confines within computation)
    (confined : Confined within conflicts) : Confines within (computation >>= fun others => pure (conflicts ++ others)) :=
  confines.bind fun _ others => confines_pure (confined_append confined others)

theorem confines_ite {condition : Prop} [Decidable condition] {yes no : TypeM σ (List Conflict)}
    (first : Confines within yes) (second : Confines within no) : Confines within (if condition then yes else no) := by
  split
  · exact first
  · exact second

variable {left right operand owner value callee : NodeId}

theorem confines_expectType (place : within operand) (expected : Ty) (related : NodeId) :
    Confines within (checking.expectType expected operand related) :=
  confines_bind fun _ => confines_pure (confined_reportIf place rfl)

theorem confines_checkDeclared (place : within value) (declared : Option Ty) (node : NodeId) :
    Confines within (checking.checkDeclared declared value node) := by
  cases declared with
  | some type => exact confines_ite (confines_pure confined_nil) (confines_expectType place _ _)
  | none => exact confines_pure confined_nil

theorem confines_checkBinary (op : BinaryOp) (here : within node) (first : within left) (second : within right) :
    Confines within (checking.checkBinary node op left right) := by
  refine confines_bind fun leftType => confines_bind fun rightType => ?_
  refine confines_ite ?_ (confines_ite (confines_pure confined_nil)
    (confines_pure (confined_operandConflicts _ _ _ here first second)))
  exact (confines_expectType first _ _).bind fun _ found => (confines_expectType second _ _).after found

theorem confines_checkUnary (op : UnaryOp) (place : within operand) :
    Confines within (checking.checkUnary node op operand) := by
  refine confines_bind fun found => ?_
  split
  · exact confines_pure confined_nil
  · exact confines_expectType place _ _
  · exact confines_expectType place _ _

theorem confines_checkArguments {arguments : List NodeId} (below : ∀ argument ∈ arguments, within argument)
    (types : List Ty) : Confines within (checking.checkArguments node arguments types) := by
  induction arguments generalizing types with
  | nil => exact confines_pure confined_nil
  | cons argument arguments hypothesis =>
    obtain ⟨first, rest⟩ := List.forall_mem_cons.mp below
    cases types with
    | nil => exact confines_pure confined_nil
    | cons type types =>
      unfold checkArguments
      refine confines_ite ?_ ?_
      · exact (confines_pure confined_nil).bind fun _ found => (hypothesis rest types).after found
      · exact (confines_expectType first _ _).bind fun _ found => (hypothesis rest types).after found

theorem confines_checkCall (here : within node) (place : within callee) {arguments : List NodeId}
    (below : ∀ argument ∈ arguments, within argument) :
    Confines within (checking.checkCall node callee arguments) := by
  refine confines_bind fun type => ?_
  split
  · refine (confines_checkArguments (fun argument among => below argument (List.mem_of_mem_take among)) _).after ?_
    split
    · exact confined_checkArity _ here _ below
    · exact confined_checkNativeArity here _ below
    · exact confined_nil
  · exact confines_pure (confined_reportIf place rfl)

theorem confines_checkProperty (here : within node) (owner : NodeId) (name : String) :
    Confines within (checking.checkProperty node owner name) := by
  refine confines_bind fun type => ?_
  split
  · split
    · exact confines_pure (confined_reportIf here rfl)
    · exact confines_pure confined_nil
  · exact confines_pure confined_nil

/-- A node answers for itself and its children only, and no rule but that of borrows reports a cycle. -/
theorem confines_check (here : within node) (below : ∀ child, checking.context.tree.Child child node → within child)
    (apart : ∀ source, checking.context.tree.form? node ≠ some (.borrow source)) :
    Confines within (checking.check node) := by
  unfold check
  dsimp only
  cases is : checking.context.tree.form? node with
  | none => exact confines_pure confined_nil
  | some form =>
    have below (child : NodeId) (link : child ∈ form.links checking.context.tree.list) : within child :=
      below child ⟨form, is, link⟩
    have required (children : List NodeId) : Confined within (require node children) := confined_require here children
    cases form with
    | program | sequence | set | pair => exact confines_pure (required _)
    | block statements => exact confines_pure (confined_checkBlock _ here below)
    | number | reference | changed => exact confines_pure (confined_reportIf here rfl)
    | record name inputs => exact confines_pure (confined_checkInputs _ _ _ below)
    | placeholder | unparsable => exact confines_pure (confined_single here rfl)
    | mapping | boolean | text | none => exact confines_pure confined_nil
    | bind name value declared variadic =>
      refine (confines_checkDeclared (below value (by simp [Form.links])) _ _).after ?_
      split
      · exact required _
      · exact confined_nil
    | property owner name => exact (confines_checkProperty here _ _).after (required _)
    | binary op left right =>
      refine confines_ite ((confines_pure confined_nil).after (required _)) ?_
      refine (confines_checkBinary _ here ?_ ?_).after (required _)
      · exact below left (by simp [Form.links])
      · exact below right (by simp [Form.links])
    | unary op operand =>
      refine confines_ite ((confines_pure confined_nil).after (required _)) ?_
      exact (confines_checkUnary _ (below operand (by simp [Form.links]))).after (required _)
    | conditional condition yes no =>
      refine confines_ite ((confines_pure confined_nil).after (required _)) ?_
      exact (confines_expectType (below condition (by simp [Form.links])) _ _).after (required _)
    | function name inputs body output =>
      refine (confines_checkDeclared (below body (by simp [Form.links])) _ _).after ?_
      exact confined_checkInputs _ _ _ fun input among => below input (by simp [Form.links, among])
    | call callee arguments =>
      have both := confined_append (required [callee]) (required (checking.context.tree.list arguments))
      refine confines_ite ((confines_pure confined_nil).after both) ?_
      refine (confines_checkCall here (below callee (by simp [Form.links])) fun argument among => ?_).after both
      exact below argument (by simp [Form.links, among])
    | borrow source => exact absurd is (apart source)

end

end

section

variable {σ : Type} {checking : Checking σ} {node : NodeId}

theorem run_checkBorrow (checking : Checking σ) (node : NodeId) (source : String) (state : TypeState σ) :
    (checking.checkBorrow node source).run state =
      ((match ((checking.lookup source).run state.host).1 with
        | .resolved _ => []
        | .analyzing => [.alone (.borrowCycle source) node]
        | .missing => [.alone (.unknownSource source) node]),
        { state with host := ((checking.lookup source).run state.host).2 }) := by
  unfold checkBorrow askSource
  cases answered : (checking.lookup source).run state.host with
  | mk answer host =>
    have answered' : checking.lookup source state.host = (answer, host) := answered
    simp only [bind, StateT.bind, StateT.run, answered']
    cases answer <;> rfl

/-- A conflict that a node answers for is at the node or at a child of it. -/
theorem primary_of_mem_check {state : TypeState σ} {conflict : Conflict}
    (among : conflict ∈ ((checking.check node).run state).1) :
    conflict.primary = node ∨ checking.context.tree.Child conflict.primary node := by
  by_cases borrows : ∃ source, checking.context.tree.form? node = some (.borrow source)
  · obtain ⟨source, is⟩ := borrows
    simp only [check, is, run_checkBorrow] at among
    split at among
    · simp at among
    · cases List.mem_singleton.mp among
      exact .inl rfl
    · cases List.mem_singleton.mp among
      exact .inl rfl
  · have confines : Confines (fun place => place = node ∨ checking.context.tree.Child place node) (checking.check node) :=
      confines_check (.inl rfl) (fun _ => .inr) (not_exists.mp borrows)
    exact ((confines state trivial).1 conflict among).1

/-- A cycle is reported at a borrow whose source is being analysed. -/
theorem answer_of_mem_check {state : TypeState σ} {conflict : Conflict}
    (among : conflict ∈ ((checking.check node).run state).1) (cycle : conflict.problem.isBorrowCycle = true) :
    ∃ source, checking.context.tree.form? node = some (.borrow source) ∧
      ((checking.lookup source).run state.host).1 = .analyzing := by
  by_cases borrows : ∃ source, checking.context.tree.form? node = some (.borrow source)
  · obtain ⟨source, is⟩ := borrows
    refine ⟨source, is, ?_⟩
    simp only [check, is, run_checkBorrow] at among
    split at among
    · simp at among
    · assumption
    · cases List.mem_singleton.mp among
      simp [Conflict.alone, Problem.isBorrowCycle] at cycle
  · have confines : Confines (fun _ => True) (checking.check node) :=
      confines_check trivial (fun _ _ => trivial) (not_exists.mp borrows)
    simp [((confines state trivial).1 conflict among).2] at cycle

end

end Checking

end Rivulet
