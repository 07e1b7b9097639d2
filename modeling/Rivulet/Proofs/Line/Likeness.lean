import Rivulet.Proofs.Line.Layout

/-!
Trees that say the same. Two nodes are alike if they differ in their places only, and so do the nodes below them, one
by one (`Tree.Resembles`). What is built on top of a tree leaves such nodes alike.

Main statement: the nodes of a statement are alike wherever they are built (`builtAlike_statement`).
-/

namespace Rivulet

/-- What a node says of itself: its form without the places of its children. -/
def Form.bare : Form → Form
  | program _ => program .missing
  | block _ => block ⟨0, 0⟩
  | bind name _ declared variadic => bind name .missing declared variadic
  | sequence _ => sequence ⟨0, 0⟩
  | set _ => set ⟨0, 0⟩
  | mapping _ => mapping ⟨0, 0⟩
  | pair _ _ => pair .missing .missing
  | property _ name => property .missing name
  | binary op _ _ => binary op .missing .missing
  | unary op _ => unary op .missing
  | conditional _ _ _ => conditional .missing .missing .missing
  | function name _ _ output => function name ⟨0, 0⟩ .missing output
  | record name _ => record name ⟨0, 0⟩
  | call _ _ => call .missing ⟨0, 0⟩
  | changed _ => changed .missing
  | form => form

/-! ### Nodes that are alike -/

namespace Tree

variable {tree tree' later later' : Tree} {id id' : NodeId} {form form' : Form}

/-- A node is of some form, and its child lists lie inside the shared list. -/
structure Holds (tree : Tree) (id : NodeId) (form : Form) : Prop where
  is : tree.form? id = some form
  within : ∀ list ∈ form.childLists, list.start + list.length ≤ tree.lists.size

/-- Nodes are alike if they say the same of themselves and have as many children, which are alike one by one. Where the
nodes stand does not matter. -/
inductive Resembles (tree tree' : Tree) : NodeId → NodeId → Prop where
  | missing : Resembles tree tree' .missing .missing
  | node {id id' : NodeId} {form form' : Form} (holds : tree.Holds id form) (holds' : tree'.Holds id' form')
      (same : form.bare = form'.bare)
      (along : (form.links tree.list).length = (form'.links tree'.list).length)
      (below : ∀ {child child' : NodeId}, (child, child') ∈ (form.links tree.list).zip (form'.links tree'.list) →
        Resembles tree tree' child child') :
      Resembles tree tree' id id'

theorem Resembles.of_forall₂ (holds : tree.Holds id form) (holds' : tree'.Holds id' form')
    (same : form.bare = form'.bare)
    (below : List.Forall₂ (tree.Resembles tree') (form.links tree.list) (form'.links tree'.list)) :
    tree.Resembles tree' id id' := by
  obtain ⟨along, each⟩ := List.forall₂_iff_zip.mp below
  exact .node holds holds' same along each

/-- A tree has the nodes of another one, and reads their child lists in the same way. -/
def Retains (tree later : Tree) : Prop :=
  ∀ id form, tree.Holds id form → later.Holds id form ∧ form.links later.list = form.links tree.list

/-- Nodes stay alike in trees that retain them. -/
theorem Resembles.retained (alike : tree.Resembles tree' id id') (retains : tree.Retains later)
    (retains' : tree'.Retains later') : later.Resembles later' id id' := by
  induction alike with
  | missing => exact .missing
  | node holds holds' same along below hypothesis =>
    obtain ⟨stays, links⟩ := retains _ _ holds
    obtain ⟨stays', links'⟩ := retains' _ _ holds'
    rw [← links, ← links'] at along hypothesis
    exact .node stays stays' same along hypothesis

end Tree

namespace Builder

variable {builder builder' : Builder}

/-- Whatever the root will be, a tree that is built further retains its nodes. -/
theorem Grows.retains (grows : builder.Grows builder') (root : NodeId) : builder.tree.Retains (builder'.finish root) :=
  fun _ _ holds => ⟨⟨grows.form? holds.is, fun list listed => Nat.le_trans (holds.within list listed) grows.size⟩,
    grows.links holds.within⟩

end Builder

/-! ### Building the same twice -/

namespace Line

variable {builder builder' middle middle' : Builder} {form form' : Form} {ids ids' : List NodeId}

/-- On each of two builders a node was built, and both are alike. -/
structure BuiltAlike (builder builder' : Builder) (made made' : NodeId × Builder) : Prop where
  grows : builder.Grows made.2
  grows' : builder'.Grows made'.2
  alike : made.2.tree.Resembles made'.2.tree made.1 made'.1

/-- On each of two builders some nodes were built, and they are alike one by one. -/
structure BuiltAllAlike (builder builder' : Builder) (made made' : List NodeId × Builder) : Prop where
  grows : builder.Grows made.2
  grows' : builder'.Grows made'.2
  alike : List.Forall₂ (made.2.tree.Resembles made'.2.tree) made.1 made'.1

/-- Nodes that are alike stay so while something else is built. -/
theorem BuiltAlike.alike_behind {made made' : NodeId × Builder} (built : BuiltAlike builder builder' made made')
    (grows : made.2.Grows middle) (grows' : made'.2.Grows middle') :
    middle.tree.Resembles middle'.tree made.1 made'.1 :=
  built.alike.retained (grows.retains _) (grows'.retains _)

theorem BuiltAllAlike.alike_behind {made made' : List NodeId × Builder}
    (built : BuiltAllAlike builder builder' made made') (grows : made.2.Grows middle) (grows' : made'.2.Grows middle') :
    List.Forall₂ (middle.tree.Resembles middle'.tree) made.1 made'.1 :=
  built.alike.imp fun _ _ alike => alike.retained (grows.retains _) (grows'.retains _)

/-- New nodes are alike if their children are. -/
theorem builtAlike_alloc (grows : builder.Grows middle) (grows' : builder'.Grows middle')
    (same : form.bare = form'.bare) (within : ∀ list ∈ form.childLists, list.start + list.length ≤ middle.lists.size)
    (within' : ∀ list ∈ form'.childLists, list.start + list.length ≤ middle'.lists.size)
    (below : List.Forall₂ (middle.tree.Resembles middle'.tree) (form.links middle.tree.list)
      (form'.links middle'.tree.list)) :
    BuiltAlike builder builder' (middle.alloc form) (middle'.alloc form') where
  grows := grows.trans (Builder.grows_alloc middle form)
  grows' := grows'.trans (Builder.grows_alloc middle' form')
  alike := by
    have behind := Builder.grows_alloc middle form
    have behind' := Builder.grows_alloc middle' form'
    refine .of_forall₂ ⟨Builder.form?_alloc_self middle form, within⟩ ⟨Builder.form?_alloc_self middle' form', within'⟩
      same ?_
    exact below.imp fun _ _ alike => alike.retained (behind.retains _) (behind'.retains _)

theorem builtAlike_leaf (builder builder' : Builder) (lists : form.childLists = [])
    (links : ∀ read, form.links read = []) :
    BuiltAlike builder builder' (builder.alloc form) (builder'.alloc form) :=
  builtAlike_alloc (.refl _) (.refl _) rfl (by simp [lists]) (by simp [lists]) (by simp [links])

/-- New nodes with a child list each, which is stored just before. -/
theorem builtAlike_listed {make make' : ChildList → Form} (grows : builder.Grows middle)
    (grows' : builder'.Grows middle') (same : ∀ run run', (make run).bare = (make' run').bare)
    (only : ∀ run, (make run).childLists = [run]) (only' : ∀ run, (make' run).childLists = [run])
    (below : ∀ {read read' run run'}, read run = ids → read' run' = ids' →
      List.Forall₂ (middle.tree.Resembles middle'.tree) ((make run).links read) ((make' run').links read')) :
    BuiltAlike builder builder' ((middle.list ids).2.alloc (make (middle.list ids).1))
      ((middle'.list ids').2.alloc (make' (middle'.list ids').1)) := by
  have stores := Builder.grows_list middle ids
  have stores' := Builder.grows_list middle' ids'
  refine builtAlike_alloc (grows.trans stores) (grows'.trans stores') (same _ _) ?_ ?_ ?_
  · simpa [only] using Builder.within_list middle ids
  · simpa [only'] using Builder.within_list middle' ids'
  · refine (below (Builder.list_list middle ids) (Builder.list_list middle' ids')).imp fun _ _ alike => ?_
    exact alike.retained (stores.retains _) (stores'.retains _)

theorem builtAllAlike_inputs (inputs : List String) (builder builder' : Builder) :
    BuiltAllAlike builder builder' (buildInputs builder inputs) (buildInputs builder' inputs) := by
  induction inputs generalizing builder builder' with
  | nil => exact ⟨.refl _, .refl _, .nil⟩
  | cons name names hypothesis =>
    have first : BuiltAlike builder builder' (buildInput builder name) (buildInput builder' name) :=
      builtAlike_alloc (.refl _) (.refl _) rfl (by simp [Form.childLists]) (by simp [Form.childLists])
        (by simpa [Form.links] using .missing)
    have rest := hypothesis (buildInput builder name).2 (buildInput builder' name).2
    exact ⟨first.grows.trans rest.grows, first.grows'.trans rest.grows',
      .cons (first.alike_behind rest.grows rest.grows') rest.alike⟩

/-- Nodes with one operand each. -/
theorem builtAlike_operand {make : NodeId → Form} {made made' : NodeId × Builder}
    (inner : BuiltAlike builder builder' made made') (same : ∀ id id', (make id).bare = (make id').bare)
    (lists : ∀ id, (make id).childLists = []) (links : ∀ id read, (make id).links read = [id]) :
    BuiltAlike builder builder' (made.2.alloc (make made.1)) (made'.2.alloc (make made'.1)) :=
  builtAlike_alloc inner.grows inner.grows' (same _ _) (by simp [lists]) (by simp [lists])
    (by simpa [links] using inner.alike)

mutual

/-- The nodes of an expression are alike wherever they are built. -/
theorem builtAlike_build (expression : Expr) (builder builder' : Builder) :
    BuiltAlike builder builder' (expression.build builder) (expression.build builder') := by
  cases expression with
  | number digits measure => exact builtAlike_leaf _ _ rfl fun _ => rfl
  | text value => exact builtAlike_leaf _ _ rfl fun _ => rfl
  | boolean value => exact builtAlike_leaf _ _ rfl fun _ => rfl
  | none => exact builtAlike_leaf _ _ rfl fun _ => rfl
  | placeholder => exact builtAlike_leaf _ _ rfl fun _ => rfl
  | reference name => exact builtAlike_leaf _ _ rfl fun _ => rfl
  | unary op operand =>
    exact builtAlike_operand (builtAlike_build operand builder builder') (fun _ _ => rfl) (fun _ => rfl) fun _ _ => rfl
  | property owner name =>
    exact @builtAlike_operand _ _ (.property · name) _ _ (builtAlike_build owner builder builder') (fun _ _ => rfl)
      (fun _ => rfl) fun _ _ => rfl
  | changed stream =>
    exact builtAlike_operand (builtAlike_build stream builder builder') (fun _ _ => rfl) (fun _ => rfl) fun _ _ => rfl
  | binary op left right =>
    have first := builtAlike_build left builder builder'
    have second := builtAlike_build right (left.build builder).2 (left.build builder').2
    exact builtAlike_alloc (first.grows.trans second.grows) (first.grows'.trans second.grows') rfl
      (by simp [Form.childLists]) (by simp [Form.childLists])
      (.cons (first.alike_behind second.grows second.grows') (.cons second.alike .nil))
  | sequence items =>
    have inner := builtAllAlike_buildAll items builder builder'
    refine builtAlike_listed inner.grows inner.grows' (fun _ _ => rfl) (fun _ => rfl) (fun _ => rfl) ?_
    intro read read' run run' stored stored'
    simpa only [Form.links, stored, stored'] using inner.alike
  | call callee arguments =>
    -- The callee is built first, and has to stay alike while the arguments are built.
    have first := builtAlike_build callee builder builder'
    have inner := builtAllAlike_buildAll arguments (callee.build builder).2 (callee.build builder').2
    refine @builtAlike_listed _ _ _ _ _ _ (.call _) (.call _) (first.grows.trans inner.grows)
      (first.grows'.trans inner.grows') (fun _ _ => rfl) (fun _ => rfl) (fun _ => rfl) ?_
    intro read read' run run' stored stored'
    simp only [Form.links, stored, stored']
    exact .cons (first.alike_behind inner.grows inner.grows') inner.alike
  | function inputs body =>
    have first := builtAllAlike_inputs inputs builder builder'
    have inner := builtAlike_build body (buildInputs builder inputs).2 (buildInputs builder' inputs).2
    refine @builtAlike_listed _ _ _ _ _ _ (.function "" · _ none) (.function "" · _ none)
      (first.grows.trans inner.grows) (first.grows'.trans inner.grows') (fun _ _ => rfl) (fun _ => rfl)
      (fun _ => rfl) ?_
    intro read read' run run' stored stored'
    simp only [Form.links, stored, stored']
    exact List.rel_append (first.alike_behind inner.grows inner.grows') (.cons inner.alike .nil)
termination_by structural expression

theorem builtAllAlike_buildAll (expressions : List Expr) (builder builder' : Builder) :
    BuiltAllAlike builder builder' (Expr.buildAll builder expressions) (Expr.buildAll builder' expressions) := by
  cases expressions with
  | nil => exact ⟨.refl _, .refl _, .nil⟩
  | cons expression expressions =>
    have first := builtAlike_build expression builder builder'
    have rest := builtAllAlike_buildAll expressions (expression.build builder).2 (expression.build builder').2
    exact ⟨first.grows.trans rest.grows, first.grows'.trans rest.grows',
      .cons (first.alike_behind rest.grows rest.grows') rest.alike⟩
termination_by structural expressions

end

/-- So are those of a statement. -/
theorem builtAlike_statement (statement : Statement) (builder builder' : Builder) :
    BuiltAlike builder builder' (statement.build builder) (statement.build builder') := by
  cases statement with
  | borrow source => exact builtAlike_leaf _ _ rfl fun _ => rfl
  | bind name value =>
    exact @builtAlike_operand _ _ (.bind name · none false) _ _ (builtAlike_build value builder builder')
      (fun _ _ => rfl) (fun _ => rfl) fun _ _ => rfl
  | expression value => exact builtAlike_build value builder builder'

/-- What a line that failed has built stays in the tree. -/
theorem grows_pieces (pieces : List Piece) (builder : Builder) : builder.Grows (pieces.foldl Piece.build builder) := by
  induction pieces generalizing builder with
  | nil => exact .refl builder
  | cons piece pieces hypothesis =>
    refine Builder.Grows.trans ?_ (hypothesis (piece.build builder))
    cases piece with
    | input name => exact Builder.grows_alloc builder _
    | statement value => exact (builtAlike_statement value builder builder).grows

end Line

end Rivulet
