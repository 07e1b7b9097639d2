import Rivulet.Analysis.Resolution
import Rivulet.Proofs.Tree.Written
import Mathlib.Data.List.Nodup

/-!
Which names are visible where. What a name refers to among the nodes around a node depends only on the
functions around it and on its statement: expressions pass on what they see (`visible?_of_within`), the
body of a function sees its inputs first (`visible?_body`), and a statement sees the statements before it
(`visible?_statement`).
-/

namespace Rivulet

/-- Whether a node changes which names its children see. -/
def Form.opensScope : Form → Bool
  | block _ | function .. | record .. => true
  | _ => false

/-- Whether a node defines a function. -/
def Form.isFunction : Form → Bool
  | function .. => true
  | _ => false

/-- A node lies inside another one, and all nodes on the way pass on what they see. -/
inductive Tree.Within (tree : Tree) (start : NodeId) : NodeId → Prop where
  | here : tree.Within start start
  | inside {parent child : NodeId} {form : Form} (within : tree.Within start parent)
      (is : tree.form? parent = some form) (passes : form.opensScope = false)
      (link : child ∈ tree.children parent) : tree.Within start child

/-- What lies inside a node is the node, or lies inside one of its children. -/
theorem Tree.Within.cases_start {tree : Tree} {start id : NodeId} (within : tree.Within start id) :
    id = start ∨ ∃ form child, tree.form? start = some form ∧ form.opensScope = false ∧
      child ∈ tree.children start ∧ tree.Within child id := by
  induction within with
  | here => exact .inl rfl
  | @inside parent child form _ is passes link hypothesis =>
    rcases hypothesis with rfl | ⟨form', first, is', passes', link', within⟩
    · exact .inr ⟨form, child, is, passes, link, .here⟩
    · exact .inr ⟨form', first, is', passes', link', .inside within is passes link⟩

/-- A node defines a function, and a bind gives it a name at once. -/
def Tree.IsLiteral (tree : Tree) (id : NodeId) (name : String) : Prop :=
  (tree.form? id).any Form.isFunction = true ∧
    ∃ bind declared variadic, tree.form? bind = some (.bind name id declared variadic)

namespace Context

variable {context : Context} {id child parent : NodeId} {form : Form}

/-- What a name refers to among the nodes around a node. -/
def visible? (context : Context) (id : NodeId) (name : String) : Option Definition :=
  context.inAncestors? name id (context.parents.ancestors id)

/-- What a name refers to outside of the tree: the last stream of that name, or else the native. -/
def outermost? (context : Context) (name : String) : Option Definition :=
  ((lastIndex? (fun stream : StreamSignature => stream.name == name) context.streams).map .stream).or
    ((context.natives.find? name).map .native)

theorem resolve?_eq (context : Context) (id : NodeId) (name : String) :
    context.resolve? id name = (context.visible? id name).or (context.outermost? name) := by
  unfold resolve? visible? outermost?
  cases context.inAncestors? name id (context.parents.ancestors id) with
  | some found => rfl
  | none =>
    cases lastIndex? (fun stream : StreamSignature => stream.name == name) context.streams with
    | some index => rfl
    | none => rfl

/-- The function that a node is part of, if any. -/
def enclosing? (context : Context) (id : NodeId) : Option NodeId :=
  (context.parents.ancestors id).find? fun outer => (context.tree.form? outer).any Form.isFunction

/-- The input of a function that has a name. -/
def inputNamed? (context : Context) (inputs : List NodeId) (name : String) : Option NodeId :=
  inputs.find? fun input => context.declares input name

theorem declares_iff {name : String} :
    context.declares id name = true ↔ (context.tree.form? id).bind Form.declaredName? = some name := by
  simp [declares]

theorem isPresent_of_isSome {tree : Tree} (there : (tree.form? id).isSome) : id.isPresent = true := by
  cases id with
  | missing => simp [Tree.form?_missing] at there
  | node => rfl

theorem not_declares_of_isTerm (term : context.tree.isTerm id = true) (fits : context.tree.Written)
    (name : String) : context.declares id name = false := by
  obtain ⟨form, is, term⟩ := Tree.form?_of_isTerm term
  have written := fits.fits id form is
  cases form with
  | function own inputs body output =>
    obtain ⟨rfl, -⟩ := written
    simp [declares, is, Form.declaredName?]
  | program | block | bind | set | mapping | pair | conditional | record | borrow | unparsable =>
    simp [Form.isTerm] at term
  | _ => simp [declares, is, Form.declaredName?]

/-! ### Looking outwards -/

section

variable (proper : context.tree.Proper) (indexed : context.parents = .ofTree context.tree)

include proper indexed

theorem visible?_root (name : String) : context.visible? context.tree.root name = none := by
  rw [visible?, indexed, proper.ancestors_root, inAncestors?]

/-- A child looks a name up in its parent, and then sees what its parent sees. -/
theorem visible?_of_child (reached : context.tree.Reached parent) (link : child ∈ context.tree.children parent)
    (name : String) :
    context.visible? child name =
      (context.inParent? parent child name).or (context.visible? parent name) := by
  unfold visible?
  rw [indexed, proper.ancestors_of_child reached link, inAncestors?]
  cases context.inParent? parent child name <;> rfl

/-- A statement sees itself if it may recurse, then the statements before it, and then what its block sees. -/
theorem visible?_of_statement {block : NodeId} {statements : ChildList} {position : Nat} {statement : NodeId}
    (reached : context.tree.Reached block) (is : context.tree.form? block = some (.block statements))
    (present : ∀ statement ∈ context.tree.list statements, statement.isPresent = true)
    (there : (context.tree.list statements)[position]? = some statement) (name : String) :
    context.visible? statement name =
      (if context.declares statement name && context.mayRecurse statement then
        some (context.definitionOf statement)
      else
        (((context.tree.list statements).take position).reverse.find? fun earlier =>
          context.declares earlier name).map context.definitionOf).or (context.visible? block name) := by
  have children : context.tree.children block = context.tree.list statements := by
    rw [Tree.children, is]
    exact List.filter_eq_self.mpr present
  have distinct : (context.tree.list statements).Nodup := children ▸ proper.once block
  have found : (context.tree.list statements).idxOf? statement = some position := by
    obtain ⟨bound, here⟩ := List.getElem?_eq_some_iff.mp there
    refine List.idxOf?_eq_some_iff.mpr ⟨bound, here, fun earlier before same => ?_⟩
    exact Nat.ne_of_lt before ((List.Nodup.getElem_inj_iff distinct).mp (same.trans here.symm))
  rw [visible?_of_child proper indexed reached (children ▸ List.mem_of_getElem? there), inParent?, is]
  dsimp only
  rw [inBlock?, found]

end

section

variable (written : context.tree.Written) (indexed : context.parents = .ofTree context.tree)

include written indexed

theorem enclosing?_of_child (link : child ∈ context.tree.children parent) :
    context.enclosing? child =
      if (context.tree.form? parent).any Form.isFunction then some parent
      else context.enclosing? parent := by
  unfold enclosing?
  rw [indexed, written.ancestors_of_child link, List.find?_cons]
  cases (context.tree.form? parent).any Form.isFunction <;> rfl

/-- Expressions pass on what they see. -/
theorem visible?_of_within (within : context.tree.Within parent id) (name : String) :
    context.visible? id name = context.visible? parent name := by
  induction within with
  | here => rfl
  | @inside outer child form _ is passes link hypothesis =>
    rw [visible?_of_child written.proper indexed (written.reached_of_link link) link, hypothesis]
    have nothing : context.inParent? outer child name = none := by
      cases form with
      | block | function | record => simp [Form.opensScope] at passes
      | _ => simp [inParent?, is]
    rw [nothing, Option.none_or]

theorem enclosing?_of_within (within : context.tree.Within parent id) :
    context.enclosing? id = context.enclosing? parent := by
  induction within with
  | here => rfl
  | @inside outer child form _ is passes link hypothesis =>
    rw [enclosing?_of_child written indexed link, hypothesis]
    have other : (context.tree.form? outer).any Form.isFunction = false := by
      cases form with
      | block | function | record => simp [Form.opensScope] at passes
      | _ => simp [is, Form.isFunction]
    rw [other]
    rfl

/-! ### Functions -/

section

variable {own : String} {inputs : ChildList} {body : NodeId} {output : Option Ty}
  (is : context.tree.form? id = some (.function own inputs body output))

include is

omit indexed in
theorem body_mem_children : body ∈ context.tree.children id := by
  obtain ⟨-, -, -, term⟩ := written.fits id _ is
  rw [Tree.children, is]
  exact List.mem_filter.mpr ⟨by simp [Form.links], isPresent_of_isSome (Tree.isSome_of_isTerm term)⟩

/-- The body of a function sees the inputs, and then what the function sees. -/
theorem visible?_body {name : String} (spelled : name ≠ "") :
    context.visible? body name =
      ((context.inputNamed? (context.tree.list inputs) name).map (Definition.input · id)).or
        (context.visible? id name) := by
  obtain ⟨unnamed, -, -, term⟩ := written.fits id _ is
  have apart : (context.tree.list inputs).find? (fun input => input != body && context.declares input name) =
      context.inputNamed? (context.tree.list inputs) name := by
    unfold inputNamed?
    congr
    funext input
    by_cases same : input = body
    · subst same
      simp [not_declares_of_isTerm term written]
    · simp [same]
  have link := body_mem_children written is
  rw [visible?_of_child written.proper indexed (written.reached_of_link link) link, inParent?, is]
  dsimp only
  rw [inDefinition?, apart]
  cases context.inputNamed? (context.tree.list inputs) name with
  | some input => rfl
  | none => simp [unnamed, Ne.symm spelled]

theorem enclosing?_body : context.enclosing? body = some id := by
  rw [enclosing?_of_child written indexed (body_mem_children written is)]
  simp [is, Form.isFunction]

end

/-! ### Statements -/

section

variable {block : NodeId} {statements : ChildList} {position : Nat} {statement : NodeId}
  (root : context.tree.form? context.tree.root = some (.program block))
  (is : context.tree.form? block = some (.block statements))
  (there : (context.tree.list statements)[position]? = some statement)

include root is there

omit root indexed in
theorem statement_mem_children : statement ∈ context.tree.children block := by
  have among := List.mem_of_getElem? there
  have fits := Tree.regular_of_isStatement (written.fits block _ is statement among)
  rw [Tree.children, is]
  exact List.mem_filter.mpr ⟨by simpa [Form.links] using among, isPresent_of_isSome fits.1⟩

omit written indexed there in
theorem block_mem_children : block ∈ context.tree.children context.tree.root := by
  rw [Tree.children, root]
  exact List.mem_filter.mpr ⟨by simp [Form.links], isPresent_of_isSome (show (context.tree.form? _).isSome by simp [is])⟩

/-- A statement sees itself if it may recurse, and then the statements before it. -/
theorem visible?_statement (name : String) :
    context.visible? statement name =
      if context.declares statement name && context.mayRecurse statement then
        some (context.definitionOf statement)
      else
        (((context.tree.list statements).take position).reverse.find? fun earlier =>
          context.declares earlier name).map context.definitionOf := by
  have link := block_mem_children root is
  have outside : context.visible? block name = none := by
    rw [visible?_of_child written.proper indexed (written.reached_of_link link) link,
      visible?_root written.proper indexed]
    simp [inParent?, root]
  have present : ∀ statement ∈ context.tree.list statements, statement.isPresent = true := fun child among =>
    isPresent_of_isSome (Tree.regular_of_isStatement (written.fits block _ is child among)).1
  rw [visible?_of_statement written.proper indexed (written.reached block (by simp [is])) is present there, outside,
    Option.or_none]

theorem enclosing?_statement : context.enclosing? statement = none := by
  have above : context.enclosing? context.tree.root = none := by
    rw [enclosing?, indexed, written.ancestors_root, List.find?_nil]
  rw [enclosing?_of_child written indexed (statement_mem_children written is there),
    enclosing?_of_child written indexed (block_mem_children root is), above]
  simp [is, root, Form.isFunction]

end

end

end Context

end Rivulet
