import Rivulet.Proofs.Tree.Proper

/-!
Trees as lines of text make them: a program with one block, whose statements are expressions, binds of
expressions, and borrows. Every node but the root has one parent, which is younger.

Main statements: such a tree is well formed (`Written.wellFormed`), and its index of parents is exact
(`Written.parent?_eq_some_iff`).
-/

namespace Rivulet

/-- Whether a node is an expression as lines write it. -/
def Form.isTerm : Form → Bool
  | number .. | boolean _ | text _ | none | sequence _ | reference _ | property .. | binary ..
  | unary .. | function .. | call .. | changed _ | placeholder => true
  | _ => false

/-- Whether a node is there for the statements in it, that is a program or a block. -/
def Form.isOuter : Form → Bool
  | program _ | block _ => true
  | _ => false

namespace Tree

variable {tree : Tree} {id child parent : NodeId} {form : Form}

/-- Whether an id names an expression as lines write it. -/
def isTerm (tree : Tree) (id : NodeId) : Bool :=
  (tree.form? id).any Form.isTerm

/-- An id names an input, which has no default. -/
def IsInput (tree : Tree) (id : NodeId) : Prop :=
  ∃ name, name ≠ "" ∧ tree.form? id = some (.bind name .missing none false)

/-- An id names a bind of an expression. -/
def IsBind (tree : Tree) (id : NodeId) : Prop :=
  ∃ name value, name ≠ "" ∧ tree.form? id = some (.bind name value none false) ∧
    tree.isTerm value = true

/-- An id names a borrow. -/
def IsBorrow (tree : Tree) (id : NodeId) : Prop :=
  ∃ source, source ≠ "" ∧ tree.form? id = some (.borrow source)

/-- An id names a statement. -/
def IsStatement (tree : Tree) (id : NodeId) : Prop :=
  tree.isTerm id = true ∨ tree.IsBind id ∨ tree.IsBorrow id

/-- The children of a node are what lines write there. -/
def Fits (tree : Tree) : Form → Prop
  | .program body => ∃ statements, tree.form? body = some (.block statements)
  | .block statements => ∀ statement ∈ tree.list statements, tree.IsStatement statement
  | .bind _ value _ _ => value = .missing ∨ tree.isTerm value = true
  | .borrow _ => True
  | .reference name => name ≠ ""
  | .function name inputs body output => name = "" ∧ output = none ∧
      (∀ input ∈ tree.list inputs, tree.IsInput input) ∧ tree.isTerm body = true
  | form => form.isTerm = true ∧ ∀ child ∈ form.links tree.list, tree.isTerm child = true

/-- The places that a node can have below another one. -/
inductive Takes (tree : Tree) : Form → NodeId → Prop where
  | body {statements : ChildList} {body : NodeId} (inside : tree.form? body = some (.block statements)) :
      Takes tree (.program body) body
  | statement {statements : ChildList} {statement : NodeId} (fits : tree.IsStatement statement) :
      Takes tree (.block statements) statement
  | input {inputs : ChildList} {input body : NodeId} (among : input ∈ tree.list inputs) (fits : tree.IsInput input) :
      Takes tree (.function "" inputs body none) input
  | required {name : String} {declared : Option Ty} {variadic : Bool} :
      Takes tree (.bind name .missing declared variadic) .missing
  | term {form : Form} {child : NodeId} (term : tree.isTerm child = true) : Takes tree form child

/-- A tree as lines of text make it. -/
structure Written (tree : Tree) : Prop where
  fits : ∀ id form, tree.form? id = some form → tree.Fits form
  root : ∃ body, tree.form? tree.root = some (.program body)
  older : ∀ child parent, tree.Child child parent → isOlder child parent = true
  lists_within : ∀ id form list, tree.form? id = some form → list ∈ form.childLists →
    list.start + list.length ≤ tree.lists.size
  /-- No node has two parents. -/
  single : ∀ child parent parent', child ∈ tree.children parent → child ∈ tree.children parent' →
    parent = parent'
  /-- No node is a child of its parent twice. -/
  once : ∀ id, (tree.children id).Nodup
  /-- Every node is part of the program. -/
  reached : ∀ id, (tree.form? id).isSome → id ∈ tree.descendants tree.root

theorem form?_of_isTerm (term : tree.isTerm id = true) :
    ∃ form, tree.form? id = some form ∧ form.isTerm = true := by
  unfold isTerm at term
  cases is : tree.form? id with
  | none => simp [is] at term
  | some form => exact ⟨form, rfl, by simpa [is] using term⟩

theorem isSome_of_isTerm (term : tree.isTerm id = true) : (tree.form? id).isSome := by
  obtain ⟨form, is, -⟩ := form?_of_isTerm term
  simp [is]

theorem isPair_of_isTerm (term : tree.isTerm id = true) : tree.isPair id = false := by
  obtain ⟨form, is, term⟩ := form?_of_isTerm term
  rw [isPair, is]
  cases form with
  | pair => simp [Form.isTerm] at term
  | _ => rfl

theorem regular_of_isStatement (statement : tree.IsStatement id) :
    (tree.form? id).isSome ∧ tree.isPair id = false := by
  rcases statement with term | bind | borrow
  · exact ⟨isSome_of_isTerm term, isPair_of_isTerm term⟩
  · obtain ⟨name, value, -, is, -⟩ := bind
    simp [isPair, is]
  · obtain ⟨source, -, is⟩ := borrow
    simp [isPair, is]

namespace Written

variable (written : tree.Written)

include written

theorem acyclic : tree.Acyclic :=
  acyclic_of_older written.older

theorem isMapping_eq_false (is : tree.form? id = some form) : form.isMapping = false := by
  have fits := written.fits id form is
  cases form with
  | mapping => simp [Fits, Form.isTerm] at fits
  | _ => rfl

/-- What stands below a node has its place there. -/
theorem takes_of_child (is : tree.form? parent = some form) (link : child ∈ form.links tree.list) :
    tree.Takes form child := by
  have fits := written.fits parent form is
  cases form with
  | program body =>
    obtain ⟨statements, inside⟩ := fits
    cases List.mem_singleton.mp link
    exact .body inside
  | block statements => exact .statement (fits child link)
  | bind name value declared variadic =>
    cases List.mem_singleton.mp link
    rcases fits with rfl | term
    · exact .required
    · exact .term term
  | function name inputs body output =>
    obtain ⟨rfl, rfl, inputsFit, bodyFits⟩ := fits
    rcases List.mem_append.mp link with among | last
    · exact .input among (inputsFit child among)
    · cases List.mem_singleton.mp last
      exact .term bodyFits
  | sequence | property | binary | unary | call | changed => exact .term (fits.2 child link)
  | number | boolean | text | none | reference | borrow | placeholder | unparsable => cases link
  | set | mapping | pair | conditional | record => simp [Fits, Form.isTerm] at fits

/-- What lies in a statement is missing, an expression or an input. -/
theorem inner_of_child (is : tree.form? parent = some form) (inner : form.isOuter = false)
    (link : child ∈ form.links tree.list) : child = .missing ∨ tree.isTerm child = true ∨ tree.IsInput child := by
  cases written.takes_of_child is link with
  | body | statement => cases inner
  | input _ input => exact .inr (.inr input)
  | required => exact .inl rfl
  | term term => exact .inr (.inl term)

/-- A child is missing, or a node that is no pair. -/
theorem regular_of_child (is : tree.form? parent = some form) (link : child ∈ form.links tree.list) :
    child = .missing ∨ (tree.form? child).isSome ∧ tree.isPair child = false := by
  cases written.takes_of_child is link with
  | body inside => simp [isPair, inside]
  | statement statement => exact .inr (regular_of_isStatement statement)
  | input _ input =>
    obtain ⟨name, -, is⟩ := input
    simp [isPair, is]
  | required => exact .inl rfl
  | term term => exact .inr ⟨isSome_of_isTerm term, isPair_of_isTerm term⟩

theorem isSome_of_child (link : child ∈ tree.children parent) : (tree.form? child).isSome := by
  obtain ⟨form, is, link'⟩ := child_of_mem_children link
  rcases written.regular_of_child is link' with rfl | ⟨there, -⟩
  · have := isPresent_of_mem_children link
    simp [NodeId.isPresent, NodeId.isMissing] at this
  · exact there

/-- A tree as lines make it is well formed. -/
theorem wellFormed : tree.WellFormed where
  acyclic := written.acyclic
  lists_within := written.lists_within
  pair_iff_entry id form child is link there := by
    rw [written.isMapping_eq_false is]
    rcases written.regular_of_child is link with rfl | ⟨-, regular⟩
    · simp [form?_missing] at there
    · exact regular
  root_no_pair := by
    obtain ⟨body, is⟩ := written.root
    simp [isPair, is]

/-- In a tree as lines make it every node has one place. -/
theorem proper : tree.Proper where
  acyclic := written.acyclic
  root := by
    obtain ⟨body, is⟩ := written.root
    simp [is]
  inside _ _ := written.isSome_of_child
  lists_within := written.lists_within
  single := written.single
  once := written.once

theorem reached_of_link (link : child ∈ tree.children parent) : tree.Reached parent := by
  obtain ⟨form, is, -⟩ := child_of_mem_children link
  exact written.reached parent (by simp [is])

/-- Every node but the root has a parent. -/
theorem exists_parent (there : (tree.form? id).isSome) (apart : id ≠ tree.root) :
    ∃ parent, id ∈ tree.children parent := by
  rcases (written.proper.reached_iff.mp (written.reached id there)).cases_head with same | ⟨parent, link, -⟩
  · exact absurd same apart
  · exact ⟨parent, link⟩

/-- A bind without a value is an input of a function. -/
theorem input_of_bind {name : String} {declared : Option Ty} {variadic : Bool}
    (is : tree.form? id = some (.bind name .missing declared variadic)) :
    tree.IsInput id ∧ ∃ function inputs body,
      tree.form? function = some (.function "" inputs body none) ∧ id ∈ tree.list inputs := by
  obtain ⟨body, root⟩ := written.root
  obtain ⟨parent, link⟩ := written.exists_parent (by rw [is]; rfl) fun same => by
    rw [same, root] at is
    cases is
  obtain ⟨form, is', link⟩ := child_of_mem_children link
  have noTerm : tree.isTerm id = false := by rw [isTerm, is]; rfl
  cases written.takes_of_child is' link with
  | body inside => cases is.symm.trans inside
  | statement statement =>
    rcases statement with term | ⟨name, value, -, inside, term⟩ | ⟨source, -, inside⟩
    · exact absurd term (by simp [noTerm])
    · cases is.symm.trans inside
      cases term
    · cases is.symm.trans inside
  | input among input => exact ⟨input, parent, _, _, is', among⟩
  | required => cases is
  | term term => exact absurd term (by simp [noTerm])

/-! ### Parents -/

/-- The index of parents is exact. -/
theorem parent?_eq_some_iff :
    (Parents.ofTree tree).parent? child = some parent ↔ child ∈ tree.children parent := by
  constructor
  · exact fun is => (Parents.child_of_parent? is).2
  · exact fun link => written.proper.parent?_of_child (written.reached_of_link link) link

theorem parent?_root : (Parents.ofTree tree).parent? tree.root = none :=
  written.proper.parent?_root

theorem ancestors_of_child (link : child ∈ tree.children parent) :
    (Parents.ofTree tree).ancestors child = parent :: (Parents.ofTree tree).ancestors parent :=
  written.proper.ancestors_of_child (written.reached_of_link link) link

theorem ancestors_root : (Parents.ofTree tree).ancestors tree.root = [] :=
  written.proper.ancestors_root

end Written

end Tree

end Rivulet
