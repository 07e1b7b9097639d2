import Rivulet.Proofs.Line.Layout

/-!
The spans of nodes nest. Whatever is built by adding nodes and child lists one after the other (`Builder.Made`), the
span of a node covers those of the children that were there before it (`Builder.Nested`). In the tree of a source that
can be read these are all its children.

Main statement: `tidy_of_parse`.
-/

namespace Rivulet

/-- One span covers another one. -/
structure Span.Covers (outer inner : Span) : Prop where
  start : outer.start ≤ inner.start
  stop : inner.stop ≤ outer.stop

namespace Span

variable {outer inner : Span} {spans : List Span}

theorem Covers.merge (covers : outer.Covers inner) (span : Span) : (outer.merge span).Covers inner :=
  ⟨Nat.le_trans (Nat.min_le_left _ _) covers.start, Nat.le_trans covers.stop (Nat.le_max_left _ _)⟩

theorem merge_covers (outer span : Span) : (outer.merge span).Covers span :=
  ⟨Nat.min_le_right _ _, Nat.le_max_right _ _⟩

/-- A span that was merged with others covers what it covered before, and the others. -/
theorem covers_foldl_merge (among : outer.Covers inner ∨ inner ∈ spans) : (spans.foldl merge outer).Covers inner := by
  induction spans generalizing outer with
  | nil => simpa using among
  | cons span spans hypothesis =>
    refine hypothesis ?_
    rcases among with covers | among
    · exact .inl (covers.merge span)
    · rcases List.mem_cons.mp among with rfl | later
      · exact .inl (merge_covers outer inner)
      · exact .inr later

end Span

/-- A tree as those who read it take for granted. -/
structure Tree.Tidy (tree : Tree) : Prop where
  root : (tree.form? tree.root).isSome
  /-- Children come before their parents. -/
  older : ∀ child parent, child ∈ tree.children parent →
    ∃ index later, child = .node index ∧ parent = .node later ∧ index < later
  /-- Every node but the root is a child of one other node. -/
  parent : ∀ id, (tree.form? id).isSome → id ≠ tree.root → ∃! parent, id ∈ tree.children parent
  top : ∀ parent, tree.root ∉ tree.children parent
  /-- No node is a child of its parent twice. -/
  once : ∀ id, (tree.children id).Nodup
  reached : ∀ id, (tree.form? id).isSome → tree.Below id tree.root
  lists_within : ∀ id form list, tree.form? id = some form → list ∈ form.childLists →
    list.start + list.length ≤ tree.lists.size
  /-- A child is a node of the tree, unless it is the default of an input of a function. -/
  whole : ∀ parent form child, tree.form? parent = some form → child ∈ form.links tree.list →
    (tree.form? child).isSome ∨ child = .missing ∧ (∃ name, form = .bind name .missing none false) ∧
      ∃ function name inputs body output,
        tree.form? function = some (.function name inputs body output) ∧ parent ∈ tree.list inputs
  covers : ∀ child parent, child ∈ tree.children parent → (tree.span parent).Covers (tree.span child)

namespace Builder

variable {builder builder' : Builder} {form : Form} {id child parent : NodeId}

/-! ### Builders of which nothing else is known -/

/-- One builder was made of another one by adding nodes, whose child lists were stored before, and child lists. -/
inductive Made (builder : Builder) : Builder → Prop where
  | nothing : Made builder builder
  | node {builder' : Builder} (made : Made builder builder') (form : Form)
      (within : ∀ list ∈ form.childLists, list.start + list.length ≤ builder'.lists.size) :
      Made builder (builder'.alloc form).2
  | list {builder' : Builder} (made : Made builder builder') (ids : List NodeId) : Made builder (builder'.list ids).2

/-- A node without child lists. -/
theorem Made.leaf (made : builder.Made builder') (form : Form) (listless : form.childLists = []) :
    builder.Made (builder'.alloc form).2 :=
  made.node form (by simp [listless])

/-- A node with a child list that was just stored. -/
theorem Made.listed (made : builder.Made builder') (ids : List NodeId) (make : ChildList → Form)
    (listed : ∀ list, (make list).childLists = [list]) :
    builder.Made ((builder'.list ids).2.alloc (make (builder'.list ids).1)).2 :=
  (made.list ids).node _ (by simpa [listed] using builder'.within_list ids)

/-- The child lists of all nodes are stored, and the span of a node covers those of its older children. -/
structure Nested (builder : Builder) : Prop where
  lists_within : ∀ id form list, builder.tree.form? id = some form → list ∈ form.childLists →
    list.start + list.length ≤ builder.lists.size
  covers : ∀ child parent, child ∈ builder.tree.children parent → Tree.isOlder child parent = true →
    (builder.tree.span parent).Covers (builder.tree.span child)

theorem nested_empty : empty.Nested where
  lists_within id form list is := by
    cases id <;> simp [tree, finish, empty, Tree.form?, Tree.node?] at is
  covers child parent link := by
    obtain ⟨form, is, -⟩ := Tree.child_of_mem_children link
    cases parent <;> simp [tree, finish, empty, Tree.form?, Tree.node?] at is

theorem node?_alloc_older {index : Nat} (older : index < builder.nodes.size) :
    (builder.alloc form).2.tree.node? (.node index) = builder.tree.node? (.node index) := by
  simp [alloc, allocAt, tree, finish, Tree.node?, Array.getElem?_push, Nat.ne_of_lt older]

theorem span_alloc_older {index : Nat} (older : index < builder.nodes.size) :
    (builder.alloc form).2.tree.span (.node index) = builder.tree.span (.node index) := by
  rw [Tree.span, Tree.span, node?_alloc_older older]

theorem span_alloc_self (builder : Builder) (form : Form) :
    (builder.alloc form).2.tree.span (builder.alloc form).1 = builder.spanOf form := by
  simp [alloc, allocAt, tree, finish, Tree.span, Tree.node?]

/-- The span of a new node covers those of the children that are there. -/
theorem spanOf_covers {index : Nat} (link : .node index ∈ form.links builder.tree.list)
    (older : index < builder.nodes.size) : (builder.spanOf form).Covers (builder.tree.span (.node index)) := by
  have there : builder.nodes[index]? = some builder.nodes[index] := Array.getElem?_eq_getElem older
  have span : builder.tree.span (.node index) = builder.nodes[index].span := by
    simp [Tree.span, Tree.node?, tree, finish, there]
  unfold spanOf
  rw [span, ← List.foldl_map]
  refine Span.covers_foldl_merge (.inr ?_)
  exact List.mem_map.mpr ⟨_, List.mem_filterMap.mpr ⟨_, link, there⟩, rfl⟩

section

variable (nested : builder.Nested)

include nested

theorem Nested.alloc (within : ∀ list ∈ form.childLists, list.start + list.length ≤ builder.lists.size) :
    (builder.alloc form).2.Nested where
  lists_within id form' list is listed := by
    rcases form?_alloc is with ⟨-, rfl⟩ | old
    · exact within list listed
    · exact nested.lists_within id form' list old listed
  covers child parent link older := by
    obtain ⟨⟨form', is, link'⟩, present⟩ := Tree.mem_children_iff.mp link
    cases child with
    | missing => simp [NodeId.isPresent, NodeId.isMissing] at present
    | node index =>
      rcases form?_alloc is with ⟨rfl, rfl⟩ | old
      · have before : index < builder.nodes.size := by simpa [Tree.isOlder, Builder.alloc, allocAt] using older
        rw [span_alloc_self, span_alloc_older before]
        exact spanOf_covers link' before
      · cases parent with
        | missing => simp [Tree.form?_missing] at old
        | node later =>
          have bound : later < builder.nodes.size := Tree.lt_size_of_form? (by rw [old]; rfl)
          have before : index < later := by simpa [Tree.isOlder] using older
          rw [span_alloc_older bound, span_alloc_older (Nat.lt_trans before bound)]
          exact nested.covers _ _ (Tree.mem_children_iff.mpr ⟨⟨form', old, link'⟩, present⟩) older

theorem Nested.list (ids : List NodeId) : (builder.list ids).2.Nested where
  lists_within id form list is listed :=
    Nat.le_trans (nested.lists_within id form list is listed) (grows_list builder ids).size
  covers child parent link older := by
    obtain ⟨⟨form, is, link'⟩, present⟩ := Tree.mem_children_iff.mp link
    have is : builder.tree.form? parent = some form := is
    rw [(grows_list builder ids).links fun list => nested.lists_within parent form list is] at link'
    exact nested.covers child parent (Tree.mem_children_iff.mpr ⟨⟨form, is, link'⟩, present⟩) older

end

theorem Made.nested (made : empty.Made builder) : builder.Nested := by
  induction made with
  | nothing => exact nested_empty
  | node _ form within hypothesis => exact hypothesis.alloc within
  | list _ ids hypothesis => exact hypothesis.list ids

end Builder

namespace Line

variable {builder builder' : Builder}

/-! ### Everything read is made that way -/

theorem made_buildInputs (inputs : List String) (made : builder.Made builder') :
    builder.Made (buildInputs builder' inputs).2 := by
  induction inputs generalizing builder' with
  | nil => exact made
  | cons input inputs hypothesis => exact hypothesis (made.leaf _ rfl)

mutual

theorem made_build (expression : Expr) {builder' : Builder} (made : builder.Made builder') :
    builder.Made (expression.build builder').2 := by
  cases expression with
  | number | text | boolean | none | placeholder | reference => exact made.leaf _ rfl
  | unary op operand => exact (made_build operand made).leaf _ rfl
  | property owner name => exact (made_build owner made).leaf _ rfl
  | changed stream => exact (made_build stream made).leaf _ rfl
  | binary op left right => exact (made_build right (made_build left made)).leaf _ rfl
  | sequence items => exact (made_buildAll items made).listed _ .sequence fun _ => rfl
  | call callee arguments => exact (made_buildAll arguments (made_build callee made)).listed _ (.call _) fun _ => rfl
  | function inputs body =>
    exact (made_build body (made_buildInputs inputs made)).listed _ (.function "" · _ none) fun _ => rfl
termination_by structural expression

theorem made_buildAll (expressions : List Expr) {builder' : Builder} (made : builder.Made builder') :
    builder.Made (Expr.buildAll builder' expressions).2 := by
  cases expressions with
  | nil => exact made
  | cons expression expressions => exact made_buildAll expressions (made_build expression made)
termination_by structural expressions

end

theorem made_statement (statement : Statement) (made : builder.Made builder') :
    builder.Made (statement.build builder').2 := by
  cases statement with
  | borrow source => exact made.leaf _ rfl
  | bind name value => exact (made_build value made).leaf _ rfl
  | expression value => exact made_build value made

theorem made_readLines {lines : List (List Char)} {number : Nat} {builder' builder'' : Builder}
    {statements : List NodeId} (made : builder.Made builder')
    (read : readLines false number builder' lines = .ok (statements, builder'')) : builder.Made builder'' := by
  induction lines generalizing number builder' statements with
  | nil =>
    cases read
    exact made
  | cons line lines hypothesis =>
    unfold readLines at read
    dsimp only at read
    split at read
    · exact hypothesis made read
    · split at read
      · split at read
        · rename_i readRest
          cases read
          exact hypothesis (made_statement _ made) readRest
        · cases read
      · cases read

/-- The span of a node covers those of its children. -/
theorem covers_of_parse {text : String} {tree : Tree} (read : parse false text = .ok tree) {child parent : NodeId}
    (link : child ∈ tree.children parent) : (tree.span parent).Covers (tree.span child) := by
  have older := (written_of_parse read).older child parent (Tree.child_of_mem_children link)
  unfold parse at read
  split at read
  · rename_i statements builder readAll
    cases read
    have listed := (made_readLines .nothing readAll).listed statements .block fun _ => rfl
    exact (listed.leaf (.program _) rfl).nested.covers child parent link older
  · cases read

/-! ### Tidy trees -/

/-- The tree of a source that can be read is tidy. -/
theorem tidy_of_parse {text : String} {tree : Tree} (read : parse false text = .ok tree) : tree.Tidy := by
  have written := written_of_parse read
  have proper := written.proper
  refine ⟨proper.root, fun child parent link => ?_, fun id there apart => ?_, fun parent link => ?_, written.once,
    fun id there => proper.reached_iff.mp (written.reached id there), written.lists_within,
    fun parent form child is link => ?_, fun _ _ => covers_of_parse read⟩
  · have older := written.older child parent (Tree.child_of_mem_children link)
    have present := Tree.isPresent_of_mem_children link
    cases child with
    | missing => cases present
    | node index =>
      cases parent with
      | missing => cases older
      | node later => exact ⟨index, later, rfl, rfl, by simpa [Tree.isOlder] using older⟩
  · obtain ⟨parent, link⟩ := written.exists_parent there apart
    exact ⟨parent, link, fun other link' => written.single id other parent link' link⟩
  · exact proper.forest.root_notMem_children (written.reached_of_link link) link
  · cases written.takes_of_child is link with
    | body inside => exact .inl (by rw [inside]; rfl)
    | statement fits => exact .inl (Tree.regular_of_isStatement fits).1
    | input _ fits =>
      obtain ⟨name, -, inside⟩ := fits
      exact .inl (by rw [inside]; rfl)
    | required =>
      obtain ⟨⟨_, -, is'⟩, function, inputs, body, there, among⟩ := written.input_of_bind is
      cases is.symm.trans is'
      exact .inr ⟨rfl, ⟨_, rfl⟩, function, "", inputs, body, none, there, among⟩
    | term term => exact .inl (Tree.isSome_of_isTerm term)

/-- A function that scales a pair, and a call of it. -/
def scaling : Tree where
  nodes := #[
    ⟨.bind "x" .missing none false, ⟨0, 1⟩⟩,
    ⟨.reference "x", ⟨1, 2⟩⟩,
    ⟨.number "2" .unitless, ⟨2, 3⟩⟩,
    ⟨.sequence ⟨0, 2⟩, ⟨1, 4⟩⟩,
    ⟨.function "" ⟨2, 1⟩ (.node 3) none, ⟨0, 5⟩⟩,
    ⟨.bind "scale" (.node 4) none false, ⟨0, 6⟩⟩,
    ⟨.reference "scale", ⟨6, 7⟩⟩,
    ⟨.number "5" (.dimension "m"), ⟨7, 8⟩⟩,
    ⟨.call (.node 6) ⟨3, 1⟩, ⟨6, 9⟩⟩,
    ⟨.block ⟨4, 2⟩, ⟨0, 10⟩⟩,
    ⟨.program (.node 9), ⟨0, 11⟩⟩]
  lists := #[.node 1, .node 2, .node 0, .node 7, .node 5, .node 8]
  root := .node 10

theorem tidy_scaling : parse false "scale: ƒ(x) [x, 2]\nscale(5m)" = .ok scaling ∧ scaling.Tidy := by
  have read : parse false "scale: ƒ(x) [x, 2]\nscale(5m)" = .ok scaling := by decide +kernel
  exact ⟨read, tidy_of_parse read⟩

end Line

end Rivulet
