import Rivulet.Proofs.Interference.Determined

/-!
Plans of plain programs. Wherever a program stands, each value on the stack belongs to a node, and the steps that
lie ahead complete further nodes from these values (`Plan`). The steps that a program of lines compiles to follow a
plan that starts with an empty stack (`plan_program`), so what one step preserves holds along the whole evaluation.
-/

namespace Rivulet

/-- The nodes whose values a node is completed from, if these are always the same and the stack gives them up. -/
def Form.operands? (tree : Tree) : Form → Option (List NodeId)
  | number .. | boolean _ | text _ | none | changed _ | placeholder => some []
  | sequence items => some (tree.list items)
  | property owner _ => some [owner]
  | unary _ operand => some [operand]
  | binary op left right => if op.isLogical then Option.none else some [left, right]
  | _ => Option.none

/-- The steps ahead complete nodes from the values on the stack, which belong to nodes themselves. Inside of the
scope of a block the plan knows which binds were completed there, the latest first. -/
inductive Plan (context : Context) (good : NodeId → Value → Prop) :
    Option (List NodeId) → List NodeId → List Step → Prop where
  | finished {binds : Option (List NodeId)} {stack : List NodeId} : Plan context good binds stack []
  | complete {binds : Option (List NodeId)} {stack operands : List NodeId} {code : List Step} {id : NodeId} {form : Form}
      (is : context.tree.form? id = some form) (takes : form.operands? context.tree = some operands)
      (rest : Plan context good binds (id :: stack) code) :
      Plan context good binds (operands.reverse ++ stack) (.finish id :: code)
  | reference {binds : Option (List NodeId)} {stack : List NodeId} {code : List Step} {id : NodeId} {name : String}
      (is : context.tree.form? id = some (.reference name))
      (sees : context.visible? id name =
        ((binds.getD []).find? fun bind => context.declares bind name).map .bind)
      (rest : Plan context good binds (id :: stack) code) : Plan context good binds stack (.finish id :: code)
  /-- A logical operator whose left operand may decide it. -/
  | branch {binds : Option (List NodeId)} {stack : List NodeId} {skipped code : List Step} {id left right : NodeId}
      {op : BinaryOp} (is : context.tree.form? id = some (.binary op left right)) (logical : op.isLogical = true)
      (decided : Plan context good binds (id :: stack) code)
      (undecided : ∀ first, good left (.boolean first) → (first == (op == .or)) = false →
        Plan context good binds stack (skipped ++ code)) :
      Plan context good binds (left :: stack) (.branch id (op == .or) skipped.length :: (skipped ++ code))
  /-- A logical operator whose left operand did not decide it. -/
  | logical {binds : Option (List NodeId)} {stack : List NodeId} {code : List Step} {id left right : NodeId}
      {op : BinaryOp} {first : Bool} (is : context.tree.form? id = some (.binary op left right))
      (logical : op.isLogical = true) (before : good left (.boolean first)) (undecided : (first == (op == .or)) = false)
      (rest : Plan context good binds (id :: stack) code) :
      Plan context good binds (right :: stack) (.finish id :: code)
  | call {binds : Option (List NodeId)} {stack : List NodeId} {code : List Step} {id callee : NodeId}
      {arguments : ChildList} (is : context.tree.form? id = some (.call callee arguments))
      (rest : Plan context good binds (id :: stack) (.finish id :: code)) :
      Plan context good binds ((context.tree.list arguments).reverse ++ callee :: stack)
        (.call id (context.tree.list arguments).length :: .finish id :: code)
  | called {binds : Option (List NodeId)} {stack : List NodeId} {code : List Step} {id callee : NodeId}
      {arguments : ChildList} (is : context.tree.form? id = some (.call callee arguments))
      (rest : Plan context good binds (id :: stack) code) :
      Plan context good binds (id :: stack) (.finish id :: code)
  | enter {stack : List NodeId} {code : List Step} {id : NodeId} (rest : Plan context good (some []) stack code) :
      Plan context good none stack (.enter id :: code)
  | bind {binds : List NodeId} {stack : List NodeId} {code : List Step} {id value : NodeId} {name : String}
      {declared : Option Ty} {variadic : Bool} (is : context.tree.form? id = some (.bind name value declared variadic))
      (rest : Plan context good (some (id :: binds)) (id :: stack) code) :
      Plan context good (some binds) (value :: stack) (.bind id :: code)
  | block {binds : Option (List NodeId)} {stack : List NodeId} {code : List Step} {id : NodeId} {statements : ChildList}
      (is : context.tree.form? id = some (.block statements))
      (leaves : context.tree.declaresNames (context.tree.list statements) = binds.isSome)
      (rest : Plan context good none (id :: stack) code) :
      Plan context good binds ((context.tree.list statements).reverse ++ stack) (.finish id :: code)
  | program {stack : List NodeId} {code : List Step} {id body : NodeId}
      (is : context.tree.form? id = some (.program body)) (rest : Plan context good none (id :: stack) code) :
      Plan context good none (body :: stack) (.finish id :: code)

namespace Context

variable {context : Context} {good : NodeId → Value → Prop} {binds : Option (List NodeId)} {stack : List NodeId}
  {id parent : NodeId} {steps : List Step}

/-- A node sees the binds that were completed, and no other declarations. -/
def Sees (context : Context) (binds : Option (List NodeId)) (id : NodeId) : Prop :=
  ∀ name, context.visible? id name = ((binds.getD []).find? fun bind => context.declares bind name).map .bind

/-- Steps of some children, each of which follows a plan. -/
theorem plan_children {code : NodeId → List Step} {children : List NodeId}
    (each : ∀ child ∈ children, ∀ stack steps, Plan context good binds (child :: stack) steps →
      Plan context good binds stack (context.tree.childCode code parent child ++ steps))
    (rest : Plan context good binds (children.reverse ++ stack) steps) :
    Plan context good binds stack (context.tree.childrenCode code parent children ++ steps) := by
  induction children generalizing stack with
  | nil => exact rest
  | cons child children hypothesis =>
    rw [Tree.childrenCode, List.flatMap_cons, List.append_assoc]
    refine each child (by simp) _ _ ?_
    exact hypothesis (fun other among => each other (by simp [among])) (by simpa using rest)

section

variable (written : context.tree.Written) (indexed : context.parents = .ofTree context.tree)
  (plain : context.tree.IsPlain)

include written indexed

/-- What an expression sees, its operands see. -/
theorem Sees.operand (sees : context.Sees binds parent) {form : Form} (is : context.tree.form? parent = some form)
    (passes : form.opensScope = false) (link : id ∈ form.links context.tree.list)
    (term : context.tree.isTerm id = true) : context.Sees binds id := by
  intro name
  have child : id ∈ context.tree.children parent := by
    rw [Tree.children, is]
    exact List.mem_filter.mpr ⟨link, isPresent_of_isSome (Tree.isSome_of_isTerm term)⟩
  rw [visible?_of_within written indexed (.inside .here is passes child)]
  exact sees name

include plain

/-- The steps of an expression follow a plan. -/
theorem plan_term {rank : NodeId → Nat}
    (lower : ∀ child parent, context.tree.Child child parent → rank child < rank parent) {depth : Nat}
    (enough : rank id < depth) (term : context.tree.isTerm id = true) (sees : context.Sees binds id)
    (rest : Plan context good binds (id :: stack) steps) :
    Plan context good binds stack (context.tree.codeTo depth id ++ steps) := by
  induction depth generalizing id stack steps with
  | zero => exact absurd enough (Nat.not_lt_zero _)
  | succ depth hypothesis =>
    obtain ⟨form, is, shape⟩ := Tree.form?_of_isTerm term
    have fits := written.fits id form is
    have operand {child : NodeId} (passes : form.opensScope = false) (link : child ∈ form.links context.tree.list)
        (term : context.tree.isTerm child = true) (stack : List NodeId) (steps : List Step)
        (rest : Plan context good binds (child :: stack) steps) :
        Plan context good binds stack
          (context.tree.childCode (context.tree.codeTo depth) id child ++ steps) := by
      rw [Tree.childCode, if_pos (Tree.isSome_of_isTerm term)]
      have below := lower child id ⟨form, is, link⟩
      exact hypothesis (by omega) term (sees.operand written indexed is passes link term) rest
    rw [Tree.codeTo, Tree.codeWith, is]
    cases form with
    | number literal measure => exact .complete is rfl rest
    | boolean value => exact .complete is rfl rest
    | text value => exact .complete is rfl rest
    | none => exact .complete is rfl rest
    | changed stream => exact .complete is rfl rest
    | placeholder => exact .complete is rfl rest
    | reference name => exact .reference is (sees name) rest
    | sequence items =>
      dsimp only
      rw [List.append_assoc]
      refine plan_children (fun child among => operand rfl among (fits.2 child among)) ?_
      exact .complete is rfl rest
    | property owner name =>
      dsimp only
      rw [List.append_assoc]
      exact operand rfl (by simp [Form.links]) (fits.2 owner (by simp [Form.links])) _ _
        (@Plan.complete _ _ _ _ [owner] _ _ _ is rfl rest)
    | unary op child =>
      dsimp only
      rw [List.append_assoc]
      exact operand rfl (by simp [Form.links]) (fits.2 child (by simp [Form.links])) _ _
        (@Plan.complete _ _ _ _ [child] _ _ _ is rfl rest)
    | binary op left right =>
      have first := fits.2 left (by simp [Form.links])
      have second := fits.2 right (by simp [Form.links])
      dsimp only
      by_cases logical : op.isLogical = true
      · rw [if_pos logical]
        simp only [List.append_assoc]
        refine operand rfl (by simp [Form.links]) first _ _ ?_
        have branch := @Plan.branch context good binds stack
          (context.tree.childCode (context.tree.codeTo depth) id right ++ [.finish id]) steps id left right op is logical
          rest fun value before undecided => by
            rw [List.append_assoc]
            exact operand rfl (by simp [Form.links]) second _ _ (.logical is logical before undecided rest)
        simpa using branch
      · rw [if_neg logical]
        simp only [List.append_assoc]
        refine operand rfl (by simp [Form.links]) first _ _ (operand rfl (by simp [Form.links]) second _ _ ?_)
        exact @Plan.complete _ _ _ _ [left, right] _ _ _ is (by simp [Form.operands?, logical]) rest
    | call callee arguments =>
      dsimp only
      simp only [List.append_assoc]
      refine operand rfl (by simp [Form.links]) (fits.2 callee (by simp [Form.links])) _ _ ?_
      refine plan_children (fun child among => operand rfl (by simp [Form.links, among])
        (fits.2 child (by simp [Form.links, among]))) ?_
      exact .call is (.called is rest)
    | function name inputs body output => simpa [Machine.definitionOf?, is] using plain id
    | _ => simp [Form.isTerm] at shape

/-! ### Statements -/

variable (borrowless : ∀ id source, context.tree.form? id ≠ some (.borrow source))

omit indexed written in
/-- No declaration may refer to itself where there are no functions. -/
theorem mayRecurse_eq_false (id : NodeId) : context.mayRecurse id = false := by
  have other (id : NodeId) {form : Form} (is : context.tree.form? id = some form) :
      (∀ name inputs body output, form ≠ .function name inputs body output) ∧ ∀ name inputs, form ≠ .record name inputs := by
    constructor
    · rintro name inputs body output rfl
      simpa [Machine.definitionOf?, is] using plain id
    · rintro name inputs rfl
      simpa [Machine.definitionOf?, is] using plain id
  unfold mayRecurse
  split
  · rename_i is
    exact absurd rfl ((other _ is).1 _ _ _ _)
  · rename_i is
    exact absurd rfl ((other _ is).2 _ _)
  · split
    · rename_i is
      exact absurd rfl ((other _ is).1 _ _ _ _)
    · rfl
  · rfl

include borrowless

omit indexed plain in
/-- Without functions and borrows a statement declares a name only if it binds it. -/
theorem isBind_of_declares {block : NodeId} {statements : ChildList} (is : context.tree.form? block = some (.block statements))
    {statement : NodeId} (among : statement ∈ context.tree.list statements) {name : String}
    (declares : context.declares statement name = true) : context.tree.IsBind statement := by
  rcases written.fits block _ is statement among with term | bind | ⟨source, -, borrow⟩
  · simp [not_declares_of_isTerm term written] at declares
  · exact bind
  · exact absurd borrow (borrowless _ _)

end

/-- The statements among some that declare names, the latest first. -/
def declaring (context : Context) (statements : List NodeId) : List NodeId :=
  (statements.filter fun statement => ((context.tree.form? statement).bind Form.declaredName?).isSome).reverse

theorem find?_declaring (context : Context) (statements : List NodeId) (name : String) :
    (context.declaring statements).find? (fun statement => context.declares statement name) =
      statements.reverse.find? fun statement => context.declares statement name := by
  rw [declaring, ← List.filter_reverse, List.find?_filter]
  congr
  funext statement
  by_cases declares : context.declares statement name = true
  · simp [declares_iff.mp declares, declares]
  · simp [declares]

/-- The binds that were completed after some statements of a block, if it has a scope. -/
def bindsAfter (context : Context) (statements before : List NodeId) : Option (List NodeId) :=
  if context.tree.declaresNames statements then some (context.declaring before) else none

theorem find?_bindsAfter {statements before : List NodeId} (within : ∀ statement ∈ before, statement ∈ statements)
    (name : String) :
    ((context.bindsAfter statements before).getD []).find? (fun statement => context.declares statement name) =
      before.reverse.find? fun statement => context.declares statement name := by
  rw [← find?_declaring]
  unfold bindsAfter
  by_cases some : context.tree.declaresNames statements = true
  · rw [if_pos some, Option.getD_some]
  · rw [if_neg some, Option.getD_none, List.find?_nil, find?_declaring, eq_comm, List.find?_eq_none]
    intro statement among declares
    refine some (List.any_eq_true.mpr ⟨statement, within statement (List.mem_reverse.mp among), ?_⟩)
    have named := declares_iff.mp declares
    cases is : context.tree.form? statement with
    | none => simp [is] at named
    | some form => simpa [is] using Option.isSome_of_eq_some (by simpa [is] using named)

section

variable (written : context.tree.Written) (indexed : context.parents = .ofTree context.tree)
  (plain : context.tree.IsPlain) (borrowless : ∀ id source, context.tree.form? id ≠ some (.borrow source))
  {block : NodeId} {statements : ChildList} (root : context.tree.form? context.tree.root = some (.program block))
  (is : context.tree.form? block = some (.block statements))

include written indexed plain borrowless root is

/-- A statement sees the binds that were completed before it. -/
theorem sees_statement {before after : List NodeId} {statement : NodeId}
    (split : context.tree.list statements = before ++ statement :: after) :
    context.Sees (context.bindsAfter (context.tree.list statements) before) statement := by
  intro name
  have there : (context.tree.list statements)[before.length]? = some statement := by simp [split]
  rw [visible?_statement written indexed root is there, mayRecurse_eq_false plain, Bool.and_false,
    if_neg (by simp), find?_bindsAfter (fun other among => by simp [split, among])]
  have taken : (context.tree.list statements).take before.length = before := by simp [split]
  rw [taken]
  cases found : before.reverse.find? fun statement => context.declares statement name with
  | none => rfl
  | some bind =>
    have among : bind ∈ context.tree.list statements := by
      simp [split, List.mem_reverse.mp (List.mem_of_find?_eq_some found)]
    obtain ⟨_, _, -, form, -⟩ := isBind_of_declares written borrowless is among
      (@List.find?_some _ (fun statement => context.declares statement name) _ _ found)
    simp [definitionOf, form]

/-- The steps of statements follow a plan. -/
theorem plan_statements {rank : NodeId → Nat}
    (lower : ∀ child parent, context.tree.Child child parent → rank child < rank parent) {depth : Nat}
    (enough : rank block < depth + 1) {before after : List NodeId}
    (split : context.tree.list statements = before ++ after)
    (rest : Plan context good (context.bindsAfter (context.tree.list statements) (context.tree.list statements))
      (context.tree.list statements).reverse steps) :
    Plan context good (context.bindsAfter (context.tree.list statements) before) before.reverse
      (context.tree.childrenCode (context.tree.codeTo depth) block after ++ steps) := by
  induction after generalizing before with
  | nil =>
    rw [List.append_nil] at split
    rw [split] at rest ⊢
    exact rest
  | cons statement after hypothesis =>
    have among : statement ∈ context.tree.list statements := by simp [split]
    have sees := sees_statement written indexed plain borrowless root is split
    have below := lower statement block ⟨_, is, by simpa [Form.links] using among⟩
    have later := @hypothesis (before ++ [statement]) (by simp [split])
    rw [Tree.childrenCode, List.flatMap_cons, List.append_assoc, Tree.childCode,
      if_pos (Tree.regular_of_isStatement (written.fits block _ is statement among)).1]
    rw [List.reverse_append] at later
    rcases written.fits block _ is statement among with term | ⟨name, value, -, form, term⟩ | ⟨source, -, borrow⟩
    · refine plan_term written indexed plain lower (by omega) term sees ?_
      have nameless : ((context.tree.form? statement).bind Form.declaredName?).isSome = false := by
        cases named : (context.tree.form? statement).bind Form.declaredName? with
        | none => rfl
        | some name => simpa [not_declares_of_isTerm term written] using declares_iff.mpr named
      have same : context.bindsAfter (context.tree.list statements) (before ++ [statement]) =
          context.bindsAfter (context.tree.list statements) before := by
        simp [bindsAfter, declaring, nameless]
      rwa [same] at later
    · obtain ⟨depth, rfl⟩ : ∃ less, depth = less + 1 := ⟨depth - 1, by omega⟩
      have inside := lower value statement ⟨_, form, by simp [Form.links]⟩
      have scope (before : List NodeId) : context.bindsAfter (context.tree.list statements) before =
          some (context.declaring before) :=
        if_pos (List.any_eq_true.mpr ⟨statement, among, by simp [form, Form.declaredName?]⟩)
      have more : context.declaring (before ++ [statement]) = statement :: context.declaring before := by
        simp [declaring, form, Form.declaredName?]
      rw [scope] at sees ⊢
      rw [scope, more] at later
      rw [Tree.codeTo, Tree.codeWith, form]
      dsimp only
      rw [Tree.childCode, if_pos (Tree.isSome_of_isTerm term), List.append_assoc]
      refine plan_term written indexed plain lower (by omega) term
        (sees.operand written indexed form rfl (by simp [Form.links]) term) ?_
      exact .bind form later
    · exact absurd borrow (borrowless _ _)

/-- The steps of a program of lines follow a plan from an empty stack on. -/
theorem plan_program : Plan context good none [] (context.tree.code context.tree.root) := by
  obtain ⟨rank, lower, bounded⟩ := Tree.exists_rank written.wellFormed.acyclic
  have enough := bounded context.tree.root
  have below := lower block context.tree.root ⟨_, root, by simp [Form.links]⟩
  obtain ⟨depth, height⟩ : ∃ depth, context.tree.height = depth + 2 := ⟨context.tree.height - 2, by omega⟩
  rw [Tree.code, height, Tree.codeTo, Tree.codeWith, root]
  dsimp only
  rw [Tree.childCode, if_pos (by simp [is]), Tree.codeTo, Tree.codeWith, is]
  dsimp only
  have ends : Plan context good (context.bindsAfter (context.tree.list statements) (context.tree.list statements))
      (context.tree.list statements).reverse ([.finish block] ++ [.finish context.tree.root]) := by
    have whole := @Plan.block context good
      (context.bindsAfter (context.tree.list statements) (context.tree.list statements)) [] [.finish context.tree.root]
      block statements is (by unfold bindsAfter; split <;> simp_all) (.program root .finished)
    simpa using whole
  have goes := @plan_statements context good _ written indexed plain borrowless block statements root is rank lower depth
    (by omega) [] (context.tree.list statements) rfl ends
  simp only [List.append_assoc]
  by_cases declares : context.tree.declaresNames (context.tree.list statements) = true
  · rw [if_pos declares]
    rw [bindsAfter, if_pos declares] at goes
    exact .enter goes
  · rw [if_neg declares]
    rw [bindsAfter, if_neg declares] at goes
    exact goes

end

end Context

end Rivulet
