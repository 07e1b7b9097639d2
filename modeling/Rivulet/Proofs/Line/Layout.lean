import Rivulet.Proofs.Line.Naming
import Rivulet.Proofs.Tree.Written
import Mathlib.Data.List.Flatten
import Mathlib.Data.List.Nodup

/-!
How the trees of lines are laid out. While a tree is built, every node is a child of one node that was
built later, or waits to become one (`Builder.Orderly`); so a source that can be read becomes a tree as
lines make them.

Main statement: `written_of_parse`.
-/

namespace Rivulet

namespace Builder

variable {builder builder' builder'' : Builder} {form : Form} {id : NodeId} {run : ChildList}

/-- What is built so far, as a tree without a root. -/
def tree (builder : Builder) : Tree :=
  builder.finish .missing

/-- One builder has all that another one has, and maybe more. -/
structure Grows (builder builder' : Builder) : Prop where
  nodes : builder.nodes.toList <+: builder'.nodes.toList
  lists : builder.lists.toList <+: builder'.lists.toList

theorem Grows.refl (builder : Builder) : builder.Grows builder :=
  ⟨List.prefix_refl _, List.prefix_refl _⟩

theorem Grows.trans (first : builder.Grows builder') (second : builder'.Grows builder'') :
    builder.Grows builder'' :=
  ⟨first.nodes.trans second.nodes, first.lists.trans second.lists⟩

theorem grows_alloc (builder : Builder) (form : Form) : builder.Grows (builder.alloc form).2 :=
  ⟨by simp [alloc, allocAt], List.prefix_refl _⟩

theorem grows_list (builder : Builder) (ids : List NodeId) : builder.Grows (builder.list ids).2 :=
  ⟨List.prefix_refl _, by simp [list]⟩

/-! ### What stays -/

section

variable (grows : builder.Grows builder')

include grows

theorem Grows.form? (is : builder.tree.form? id = some form) : builder'.tree.form? id = some form := by
  cases id with
  | missing => simp [Tree.form?_missing] at is
  | node index =>
    obtain ⟨node, there, rfl⟩ := Tree.form?_eq_some_iff.mp is
    refine Tree.form?_eq_some_iff.mpr ⟨node, ?_, rfl⟩
    have there' : builder.nodes.toList[index]? = some node := by simpa [tree, finish] using there
    obtain ⟨more, same⟩ := grows.nodes
    have still : builder'.nodes.toList[index]? = some node := by
      rw [← same, List.getElem?_append_left (List.getElem?_eq_some_iff.mp there').1, there']
    simpa [tree, finish] using still

theorem Grows.size : builder.lists.size ≤ builder'.lists.size := by
  simpa using grows.lists.length_le

theorem Grows.list (within : run.start + run.length ≤ builder.lists.size) :
    builder'.tree.list run = builder.tree.list run := by
  obtain ⟨more, same⟩ := grows.lists
  have within' := Nat.le_trans within grows.size
  have bound : run.start ≤ builder.lists.toList.length := by
    simp
    omega
  simp only [Tree.list, Tree.readList, tree, finish, within, within', if_true, Array.toList_extract,
    List.extract_eq_take_drop, ← same]
  rw [List.drop_append_of_le_length bound, List.take_append_of_le_length]
  simp
  omega

theorem Grows.links (within : ∀ list ∈ form.childLists, list.start + list.length ≤ builder.lists.size) :
    form.links builder'.tree.list = form.links builder.tree.list :=
  Form.links_congr fun list listed => grows.list (within list listed)

theorem Grows.isTerm (term : builder.tree.isTerm id = true) : builder'.tree.isTerm id = true := by
  obtain ⟨form, is, term⟩ := Tree.form?_of_isTerm term
  simp [Tree.isTerm, grows.form? is, term]

theorem Grows.isInput (input : builder.tree.IsInput id) : builder'.tree.IsInput id := by
  obtain ⟨name, named, is⟩ := input
  exact ⟨name, named, grows.form? is⟩

theorem Grows.isStatement (statement : builder.tree.IsStatement id) : builder'.tree.IsStatement id := by
  rcases statement with term | ⟨name, value, named, is, term⟩ | ⟨source, named, is⟩
  · exact .inl (grows.isTerm term)
  · exact .inr (.inl ⟨name, value, named, grows.form? is, grows.isTerm term⟩)
  · exact .inr (.inr ⟨source, named, grows.form? is⟩)

theorem Grows.fits (within : ∀ list ∈ form.childLists, list.start + list.length ≤ builder.lists.size)
    (fits : builder.tree.Fits form) : builder'.tree.Fits form := by
  have terms (fits : form.isTerm = true ∧
      ∀ child ∈ form.links builder.tree.list, builder.tree.isTerm child = true) :
      form.isTerm = true ∧ ∀ child ∈ form.links builder'.tree.list, builder'.tree.isTerm child = true := by
    rw [grows.links within]
    exact ⟨fits.1, fun child link => grows.isTerm (fits.2 child link)⟩
  cases form with
  | program body =>
    obtain ⟨statements, is⟩ := fits
    exact ⟨statements, grows.form? is⟩
  | block statements =>
    intro statement among
    rw [grows.list (within statements (by simp [Form.childLists]))] at among
    exact grows.isStatement (fits statement among)
  | bind name value declared variadic => exact fits.imp_right grows.isTerm
  | borrow source => trivial
  | reference name => exact fits
  | function name inputs body output =>
    obtain ⟨unnamed, undeclared, inputsFit, bodyFits⟩ := fits
    refine ⟨unnamed, undeclared, fun input among => ?_, grows.isTerm bodyFits⟩
    rw [grows.list (within inputs (by simp [Form.childLists]))] at among
    exact grows.isInput (inputsFit input among)
  | _ => exact terms fits

end

/-! ### Orderly construction -/

/-- The children of all nodes so far that are not missing. -/
def links (builder : Builder) : List NodeId :=
  builder.nodes.toList.flatMap fun node => (node.form.links builder.tree.list).filter NodeId.isPresent

/-- Every node so far is as lines make it, and a child of one other node or among those that wait to
become one. -/
structure Orderly (builder : Builder) (waiting : List NodeId) : Prop where
  fits : ∀ id form, builder.tree.form? id = some form → builder.tree.Fits form
  lists_within : ∀ id form list, builder.tree.form? id = some form → list ∈ form.childLists →
    list.start + list.length ≤ builder.lists.size
  older : ∀ child parent, builder.tree.Child child parent → Tree.isOlder child parent = true
  placed : (builder.links ++ waiting).Perm builder.tree.ids

theorem orderly_empty : empty.Orderly [] where
  fits id form is := by cases id <;> simp [tree, finish, empty, Tree.form?, Tree.node?] at is
  lists_within id form list is := by
    cases id <;> simp [tree, finish, empty, Tree.form?, Tree.node?] at is
  older child parent link := by
    obtain ⟨form, is, _⟩ := link
    cases parent <;> simp [tree, finish, empty, Tree.form?, Tree.node?] at is
  placed := by simp [links, Tree.ids, tree, finish, empty, Tree.size]

theorem form?_alloc_self (builder : Builder) (form : Form) :
    (builder.alloc form).2.tree.form? (builder.alloc form).1 = some form := by
  simp [alloc, allocAt, tree, finish, Tree.form?, Tree.node?]

theorem form?_alloc {form' : Form} (is : (builder.alloc form).2.tree.form? id = some form') :
    (id = (builder.alloc form).1 ∧ form' = form) ∨ builder.tree.form? id = some form' := by
  cases id with
  | missing => simp [Tree.form?_missing] at is
  | node index =>
    by_cases last : index = builder.nodes.size
    · subst last
      have self := form?_alloc_self builder form
      rw [show (builder.alloc form).1 = .node builder.nodes.size from rfl] at self
      rw [self, Option.some.injEq] at is
      exact .inl ⟨rfl, is.symm⟩
    · refine .inr ?_
      simpa [alloc, allocAt, tree, finish, Tree.form?, Tree.node?, Array.getElem?_push, last] using is

/-- A new node takes its children from those that wait. -/
theorem Orderly.alloc {waiting children : List NodeId}
    (orderly : builder.Orderly (waiting ++ children)) (fits : builder.tree.Fits form)
    (within : ∀ list ∈ form.childLists, list.start + list.length ≤ builder.lists.size)
    (taken : (form.links builder.tree.list).filter NodeId.isPresent = children) :
    (builder.alloc form).2.Orderly (waiting ++ [(builder.alloc form).1]) := by
  have grows := grows_alloc builder form
  have lists : (builder.alloc form).2.tree.list = builder.tree.list := rfl
  have known (child : NodeId) (among : child ∈ children) : child ∈ builder.tree.ids :=
    orderly.placed.subset (by simp [among])
  refine ⟨?_, ?_, ?_, ?_⟩
  · intro id form' is
    rcases form?_alloc is with ⟨-, rfl⟩ | old
    · exact grows.fits within fits
    · exact grows.fits (fun list => orderly.lists_within id form' list old) (orderly.fits id form' old)
  · intro id form' list is listed
    rcases form?_alloc is with ⟨-, rfl⟩ | old
    · exact within list listed
    · exact orderly.lists_within id form' list old listed
  · rintro child parent ⟨form', is, link⟩
    rw [lists] at link
    rcases form?_alloc is with ⟨rfl, rfl⟩ | old
    · cases child with
      | missing => rfl
      | node index =>
        have among : .node index ∈ children := by
          rw [← taken]
          simpa [NodeId.isPresent, NodeId.isMissing] using link
        have bound := known _ among
        simpa [Tree.ids, Tree.size, tree, finish, Builder.alloc, allocAt, Tree.isOlder] using bound
    · exact orderly.older child parent ⟨form', old, link⟩
  · have more : (builder.alloc form).2.links = builder.links ++ children := by
      rw [← taken]
      have nodes : (builder.alloc form).2.nodes.toList =
          builder.nodes.toList ++ [⟨form, builder.spanOf form⟩] := by simp [Builder.alloc, allocAt]
      rw [links, links, nodes, lists, List.flatMap_append]
      simp
    have ids : (builder.alloc form).2.tree.ids = builder.tree.ids ++ [(builder.alloc form).1] := by
      simp [Tree.ids, Tree.size, tree, finish, Builder.alloc, allocAt, List.range_succ]
    rw [more, ids, List.append_assoc, ← List.append_assoc children]
    have swapped : (builder.links ++ (children ++ waiting)).Perm (builder.links ++ (waiting ++ children)) :=
      List.Perm.append_left _ List.perm_append_comm
    have placed := (swapped.trans orderly.placed).append_right [(builder.alloc form).1]
    simpa using placed

/-- Storing a child list changes no node. -/
theorem Orderly.list {waiting : List NodeId} (orderly : builder.Orderly waiting) (ids : List NodeId) :
    (builder.list ids).2.Orderly waiting := by
  have grows := grows_list builder ids
  have same (id : NodeId) : (builder.list ids).2.tree.form? id = builder.tree.form? id := by
    cases id <;> rfl
  refine ⟨?_, ?_, ?_, ?_⟩
  · intro id form is
    rw [same] at is
    exact grows.fits (fun list => orderly.lists_within id form list is) (orderly.fits id form is)
  · intro id form list is listed
    rw [same] at is
    exact Nat.le_trans (orderly.lists_within id form list is listed) grows.size
  · rintro child parent ⟨form, is, link⟩
    rw [same] at is
    rw [grows.links fun list => orderly.lists_within parent form list is] at link
    exact orderly.older child parent ⟨form, is, link⟩
  · have links : (builder.list ids).2.links = builder.links := by
      refine List.flatMap_congr fun node among => ?_
      obtain ⟨index, there⟩ := List.getElem?_of_mem among
      have there : builder.nodes.toList[index]? = some node := there
      have is : builder.tree.form? (.node index) = some node.form :=
        Tree.form?_eq_some_iff.mpr ⟨node, by simpa [tree, finish] using there, rfl⟩
      rw [grows.links fun list => orderly.lists_within _ node.form list is]
    rw [links]
    exact orderly.placed

theorem lists_list (builder : Builder) (ids : List NodeId) :
    (builder.list ids).2.lists.toList = builder.lists.toList ++ ids := by
  simp [Builder.list]

theorem within_list (builder : Builder) (ids : List NodeId) :
    (builder.list ids).1.start + (builder.list ids).1.length ≤ (builder.list ids).2.lists.size := by
  rw [← Array.length_toList, lists_list]
  simp [Builder.list]

/-- A child list that was just stored reads as it was stored. -/
theorem list_list (builder : Builder) (ids : List NodeId) :
    (builder.list ids).2.tree.list (builder.list ids).1 = ids := by
  have within := within_list builder ids
  rw [Tree.list, Tree.readList]
  simp only [tree, finish, within, if_true, Array.toList_extract, List.extract_eq_take_drop,
    lists_list]
  simp [Builder.list]

end Builder

namespace Line

variable {builder : Builder} {waiting : List NodeId}

/-! ### Expressions -/

/-- An expression was built, and waits to become a child. -/
structure Built (builder : Builder) (waiting : List NodeId) (made : NodeId × Builder) : Prop where
  orderly : made.2.Orderly (waiting ++ [made.1])
  grows : builder.Grows made.2
  term : made.2.tree.isTerm made.1 = true

/-- Some expressions were built, and wait to become children. -/
structure BuiltAll (builder : Builder) (waiting : List NodeId) (made : List NodeId × Builder) :
    Prop where
  orderly : made.2.Orderly (waiting ++ made.1)
  grows : builder.Grows made.2
  terms : ∀ id ∈ made.1, made.2.tree.isTerm id = true

theorem isPresent_of_isTerm {tree : Tree} {id : NodeId} (term : tree.isTerm id = true) :
    id.isPresent = true := by
  cases id with
  | missing => simp [Tree.isTerm, Tree.form?_missing] at term
  | node index => rfl

theorem filter_of_terms {tree : Tree} {ids : List NodeId}
    (terms : ∀ id ∈ ids, tree.isTerm id = true) : ids.filter NodeId.isPresent = ids :=
  List.filter_eq_self.mpr fun id among => isPresent_of_isTerm (terms id among)

theorem filter_of_inputs {tree : Tree} {ids : List NodeId} (inputs : ∀ id ∈ ids, tree.IsInput id) :
    ids.filter NodeId.isPresent = ids := by
  refine List.filter_eq_self.mpr fun id among => ?_
  obtain ⟨name, -, is⟩ := inputs id among
  cases id with
  | missing => simp [Tree.form?_missing] at is
  | node index => rfl

/-- A node of some others that were built before it. -/
theorem built_alloc {builder' : Builder} {form : Form} {children : List NodeId}
    (grows : builder.Grows builder') (orderly : builder'.Orderly (waiting ++ children))
    (term : form.isTerm = true) (fits : builder'.tree.Fits form)
    (within : ∀ list ∈ form.childLists, list.start + list.length ≤ builder'.lists.size)
    (taken : (form.links builder'.tree.list).filter NodeId.isPresent = children) :
    Built builder waiting (builder'.alloc form) where
  orderly := orderly.alloc fits within taken
  grows := grows.trans (Builder.grows_alloc builder' form)
  term := by simp [Tree.isTerm, Builder.form?_alloc_self, term]

/-- A node without children. -/
theorem built_leaf (orderly : builder.Orderly waiting) {form : Form} (term : form.isTerm = true)
    (fits : builder.tree.Fits form) (childless : ∀ read, form.links read = [])
    (listless : form.childLists = []) : Built builder waiting (builder.alloc form) := by
  refine @built_alloc builder waiting builder form [] (.refl _) (by simpa using orderly) term fits ?_ ?_
  · simp [listless]
  · simp [childless]

/-- A node of one expression that was built before it. -/
theorem built_operand {made : NodeId × Builder} (inner : Built builder waiting made) {form : Form}
    (term : form.isTerm = true) (fits : made.2.tree.isTerm made.1 = true → made.2.tree.Fits form)
    (operand : ∀ read, form.links read = [made.1]) (listless : form.childLists = []) :
    Built builder waiting (made.2.alloc form) := by
  refine built_alloc inner.grows inner.orderly term (fits inner.term) ?_ ?_
  · simp [listless]
  · simp [operand, isPresent_of_isTerm inner.term]

/-- A node of some others that were built before it, part of which stand in a list. -/
theorem built_listed {builder' : Builder} {children : List NodeId} (ids : List NodeId)
    (grows : builder.Grows builder') (orderly : builder'.Orderly (waiting ++ children))
    (form : ChildList → Form) (term : ∀ run, (form run).isTerm = true)
    (listed : ∀ run, (form run).childLists = [run])
    (fits : ∀ (tree : Tree) run, (∀ id, builder'.tree.isTerm id = true → tree.isTerm id = true) →
      (∀ id, builder'.tree.IsInput id → tree.IsInput id) → tree.list run = ids → tree.Fits (form run))
    (taken : ∀ read run, read run = ids →
      ((form run).links read).filter NodeId.isPresent = children) :
    Built builder waiting ((builder'.list ids).2.alloc (form (builder'.list ids).1)) := by
  have stored := Builder.list_list builder' ids
  have more := Builder.grows_list builder' ids
  refine built_alloc (grows.trans more) (orderly.list ids) (term _) ?_ ?_ (taken _ _ stored)
  · exact fits _ _ (fun _ => more.isTerm) (fun _ => more.isInput) stored
  · rw [listed]
    simpa using Builder.within_list builder' ids

theorem inputs_build {names : List String} (named : ∀ name ∈ names, name ≠ "")
    (orderly : builder.Orderly waiting) :
    (buildInputs builder names).2.Orderly (waiting ++ (buildInputs builder names).1) ∧
      builder.Grows (buildInputs builder names).2 ∧
      ∀ input ∈ (buildInputs builder names).1, (buildInputs builder names).2.tree.IsInput input := by
  induction names generalizing builder waiting with
  | nil => exact ⟨by simpa [buildInputs] using orderly, .refl _, by simp [buildInputs]⟩
  | cons name names hypothesis =>
    have first : (buildInput builder name).2.Orderly (waiting ++ [(buildInput builder name).1]) :=
      @Builder.Orderly.alloc builder (.bind name .missing none false) waiting []
        (by simpa using orderly) (.inl rfl) (by simp [Form.childLists])
        (by simp [Form.links, NodeId.isPresent, NodeId.isMissing])
    obtain ⟨rest, grows, inputs⟩ := hypothesis (fun other among => named other (by simp [among])) first
    refine ⟨?_, (Builder.grows_alloc builder _).trans grows, ?_⟩
    · simpa [buildInputs] using rest
    · intro input among
      rcases List.mem_cons.mp among with rfl | inRest
      · exact ⟨name, named name (by simp), grows.form? (Builder.form?_alloc_self builder _)⟩
      · exact inputs input inRest

mutual

/-- An expression becomes a node that waits to become a child. -/
theorem built_build (expression : Expr) {builder : Builder} {waiting : List NodeId}
    (named : expression.Named) (orderly : builder.Orderly waiting) :
    Built builder waiting (expression.build builder) := by
  cases expression with
  | number digits measure =>
    exact built_leaf orderly rfl ⟨rfl, by simp [Form.links]⟩ (fun _ => rfl) rfl
  | text value => exact built_leaf orderly rfl ⟨rfl, by simp [Form.links]⟩ (fun _ => rfl) rfl
  | boolean value => exact built_leaf orderly rfl ⟨rfl, by simp [Form.links]⟩ (fun _ => rfl) rfl
  | none => exact built_leaf orderly rfl ⟨rfl, by simp [Form.links]⟩ (fun _ => rfl) rfl
  | placeholder => exact built_leaf orderly rfl ⟨rfl, by simp [Form.links]⟩ (fun _ => rfl) rfl
  | reference name =>
    exact built_leaf orderly rfl (by simpa [Expr.Named, Tree.Fits] using named) (fun _ => rfl) rfl
  | unary op operand =>
    have inner := built_build operand (by simpa [Expr.Named] using named) orderly
    exact built_operand inner rfl (fun term => ⟨rfl, by simpa [Form.links] using term⟩)
      (fun _ => rfl) rfl
  | property owner name =>
    have inner := built_build owner (by simpa [Expr.Named] using named) orderly
    exact built_operand inner rfl (fun term => ⟨rfl, by simpa [Form.links] using term⟩)
      (fun _ => rfl) rfl
  | changed stream =>
    have inner := built_build stream (by simpa [Expr.Named] using named) orderly
    exact built_operand inner rfl (fun term => ⟨rfl, by simpa [Form.links] using term⟩)
      (fun _ => rfl) rfl
  | binary op left right =>
    have both : left.Named ∧ right.Named := by simpa [Expr.Named] using named
    have first := built_build left both.1 orderly
    have second := built_build right both.2 first.orderly
    have firstTerm := second.grows.isTerm first.term
    have orderly := second.orderly
    rw [List.append_assoc] at orderly
    refine built_alloc (first.grows.trans second.grows) orderly rfl ⟨rfl, ?_⟩ (by simp [Form.childLists]) ?_
    · simp [Form.links, firstTerm, second.term]
    · simp [Form.links, isPresent_of_isTerm firstTerm, isPresent_of_isTerm second.term]
  | sequence items =>
    have inner := built_buildAll items (by simpa [Expr.Named] using named) orderly
    refine built_listed _ inner.grows inner.orderly .sequence (fun _ => rfl) (fun _ => rfl) ?_ ?_
    · intro tree run terms _ stored
      refine ⟨rfl, ?_⟩
      simp only [Form.links, stored]
      exact fun id among => terms id (inner.terms id among)
    · intro read run stored
      simp only [Form.links, stored]
      exact filter_of_terms inner.terms
  | call callee arguments =>
    have both : callee.Named ∧ Expr.NamedItems arguments := by simpa [Expr.Named] using named
    have first := built_build callee both.1 orderly
    have inner := built_buildAll arguments both.2 first.orderly
    have calleeTerm := inner.grows.isTerm first.term
    have orderly := inner.orderly
    rw [List.append_assoc] at orderly
    refine built_listed _ (first.grows.trans inner.grows) orderly (.call _) (fun _ => rfl) (fun _ => rfl)
      ?_ ?_
    · intro tree run terms _ stored
      refine ⟨rfl, ?_⟩
      simp only [Form.links, stored]
      intro id among
      rcases List.mem_cons.mp among with rfl | inArguments
      · exact terms _ calleeTerm
      · exact terms id (inner.terms id inArguments)
    · intro read run stored
      simp only [Form.links, stored, List.filter_cons, isPresent_of_isTerm calleeTerm, if_true]
      rw [filter_of_terms inner.terms]
      rfl
  | function inputs body =>
    have both : (∀ input ∈ inputs, input ≠ "") ∧ body.Named := by simpa [Expr.Named] using named
    obtain ⟨first, firstGrows, inputsFit⟩ := inputs_build both.1 orderly
    have inner := built_build body both.2 first
    have orderly := inner.orderly
    rw [List.append_assoc] at orderly
    refine built_listed _ (firstGrows.trans inner.grows) orderly (.function "" · _ none) (fun _ => rfl)
      (fun _ => rfl) ?_ ?_
    · intro tree run terms asInputs stored
      refine ⟨rfl, rfl, ?_, terms _ inner.term⟩
      rw [stored]
      exact fun input among => asInputs input (inner.grows.isInput (inputsFit input among))
    · intro read run stored
      simp only [Form.links, stored, List.filter_append]
      rw [filter_of_inputs inputsFit]
      simp [isPresent_of_isTerm inner.term]
termination_by structural expression

/-- Expressions become nodes that wait to become children. -/
theorem built_buildAll (expressions : List Expr) {builder : Builder} {waiting : List NodeId}
    (named : Expr.NamedItems expressions) (orderly : builder.Orderly waiting) :
    BuiltAll builder waiting (Expr.buildAll builder expressions) := by
  cases expressions with
  | nil => exact ⟨by simpa [Expr.buildAll] using orderly, .refl _, by simp [Expr.buildAll]⟩
  | cons expression expressions =>
    have both : expression.Named ∧ Expr.NamedItems expressions := by
      simpa [Expr.NamedItems] using named
    have first := built_build expression both.1 orderly
    have rest := built_buildAll expressions both.2 first.orderly
    refine ⟨?_, first.grows.trans rest.grows, ?_⟩
    · simpa [Expr.buildAll] using rest.orderly
    · intro id among
      rcases List.mem_cons.mp among with rfl | inRest
      · exact rest.grows.isTerm first.term
      · exact rest.terms id inRest
termination_by structural expressions

end

/-! ### Statements and programs -/

/-- A statement was built, and waits to become a child. -/
structure BuiltStatement (builder : Builder) (waiting : List NodeId) (made : NodeId × Builder) :
    Prop where
  orderly : made.2.Orderly (waiting ++ [made.1])
  grows : builder.Grows made.2
  statement : made.2.tree.IsStatement made.1

theorem builtStatement_build {statement : Statement} (named : statement.Named)
    (orderly : builder.Orderly waiting) :
    BuiltStatement builder waiting (statement.build builder) := by
  cases statement with
  | borrow source =>
    refine ⟨?_, Builder.grows_alloc _ _, .inr (.inr ⟨source, named, Builder.form?_alloc_self _ _⟩)⟩
    exact @Builder.Orderly.alloc builder (.borrow source) waiting [] (by simpa using orderly) trivial
      (by simp [Form.childLists]) (by simp [Form.links])
  | bind name value =>
    obtain ⟨nameNamed, valueNamed⟩ := named
    have inner := built_build value valueNamed orderly
    have grows := Builder.grows_alloc (value.build builder).2
      (.bind name (value.build builder).1 none false)
    refine ⟨?_, inner.grows.trans grows, .inr (.inl ⟨name, _, nameNamed, Builder.form?_alloc_self _ _,
      grows.isTerm inner.term⟩)⟩
    exact inner.orderly.alloc (.inr inner.term) (by simp [Form.childLists])
      (by simp [Form.links, isPresent_of_isTerm inner.term])
  | expression value =>
    have inner := built_build value named orderly
    exact ⟨inner.orderly, inner.grows, .inl inner.term⟩

theorem statements_readLines {lines : List (List Char)} {number : Nat} {builder' : Builder}
    {statements : List NodeId} (orderly : builder.Orderly waiting)
    (read : readLines false number builder lines = .ok (statements, builder')) :
    builder'.Orderly (waiting ++ statements) ∧ builder.Grows builder' ∧
      ∀ statement ∈ statements, builder'.tree.IsStatement statement := by
  induction lines generalizing number builder waiting statements with
  | nil =>
    cases read
    exact ⟨by simpa using orderly, .refl _, by simp⟩
  | cons line lines hypothesis =>
    unfold readLines at read
    dsimp only at read
    split at read
    · exact hypothesis orderly read
    · split at read
      · rename_i statement readOne
        have first := builtStatement_build (named_of_readStatement readOne) orderly
        split at read
        · rename_i rest builder'' readRest
          cases read
          obtain ⟨orderly, grows, fits⟩ := hypothesis first.orderly readRest
          refine ⟨by simpa using orderly, first.grows.trans grows, ?_⟩
          intro other among
          rcases List.mem_cons.mp among with rfl | inRest
          · exact grows.isStatement first.statement
          · exact fits other inRest
        · simp at read
      · simp at read

end Line

/-! ### Finished trees -/

namespace Builder

variable {builder : Builder} {root child parent parent' : NodeId}

theorem children_finish (builder : Builder) (root : NodeId) (index : Nat) :
    (builder.finish root).children (.node index) =
      match builder.nodes.toList[index]? with
      | some node => (node.form.links builder.tree.list).filter NodeId.isPresent
      | none => [] := by
  have list : (builder.finish root).list = builder.tree.list := rfl
  simp only [Tree.children, Tree.form?, Tree.node?, list]
  simp only [finish, Array.getElem?_toList]
  cases builder.nodes[index]? <;> rfl

theorem exists_of_mem_children (link : child ∈ (builder.finish root).children parent) :
    ∃ index node, parent = .node index ∧ builder.nodes.toList[index]? = some node ∧
      child ∈ (node.form.links builder.tree.list).filter NodeId.isPresent := by
  cases parent with
  | missing => simp [Tree.children, Tree.form?_missing] at link
  | node index =>
    rw [children_finish] at link
    cases there : builder.nodes.toList[index]? with
    | none => simp [there] at link
    | some node => exact ⟨index, node, rfl, there, by simpa [there] using link⟩

section

variable (orderly : builder.Orderly [root])

include orderly

theorem Orderly.nodup_links : builder.links.Nodup := by
  have nodup : (builder.links ++ [root]).Nodup := by
    rw [orderly.placed.nodup_iff, Tree.ids]
    exact List.nodup_range.map fun _ _ same => by simpa using same
  exact (List.nodup_append.mp nodup).1

theorem Orderly.single (link : child ∈ (builder.finish root).children parent)
    (link' : child ∈ (builder.finish root).children parent') : parent = parent' := by
  obtain ⟨index, node, rfl, there, among⟩ := exists_of_mem_children link
  obtain ⟨index', node', rfl, there', among'⟩ := exists_of_mem_children link'
  obtain ⟨bound, rfl⟩ := List.getElem?_eq_some_iff.mp there
  obtain ⟨bound', rfl⟩ := List.getElem?_eq_some_iff.mp there'
  have apart := List.pairwise_iff_getElem.mp (List.nodup_flatMap.mp orderly.nodup_links).2
  rcases Nat.lt_trichotomy index index' with before | same | behind
  · exact absurd among' (apart index index' bound bound' before among)
  · rw [same]
  · exact absurd among (apart index' index bound' bound behind among')

theorem Orderly.once (id : NodeId) : ((builder.finish root).children id).Nodup := by
  cases id with
  | missing => simp [Tree.children, Tree.form?_missing]
  | node index =>
    rw [children_finish]
    cases there : builder.nodes.toList[index]? with
    | none => exact List.nodup_nil
    | some node =>
      exact (List.nodup_flatMap.mp orderly.nodup_links).1 node (List.mem_of_getElem? there)

/-- Every node is the root or a child of a younger one. -/
theorem Orderly.cases {index : Nat} (bound : index < builder.nodes.size) :
    .node index = root ∨ ∃ later, index < later ∧ later < builder.nodes.size ∧
      .node index ∈ (builder.finish root).children (.node later) := by
  have known : .node index ∈ builder.tree.ids := by simpa [Tree.ids, Tree.size, tree, finish] using bound
  rcases List.mem_append.mp (orderly.placed.symm.subset known) with among | waits
  · obtain ⟨node, there, link⟩ := List.mem_flatMap.mp among
    obtain ⟨later, there⟩ := List.getElem?_of_mem there
    have link' : .node index ∈ (builder.finish root).children (.node later) := by
      rw [children_finish, there]
      exact link
    have older : Tree.isOlder (.node index) (.node later) = true :=
      orderly.older _ _ (Tree.child_of_mem_children link')
    have bound' := (List.getElem?_eq_some_iff.mp there).1
    exact .inr ⟨later, by simpa [Tree.isOlder] using older, by simpa using bound', link'⟩
  · exact .inl (List.mem_singleton.mp waits)

theorem Orderly.acyclic : (builder.finish root).Acyclic :=
  Tree.acyclic_of_older fun child parent link => orderly.older child parent link

theorem Orderly.reached (is : (builder.tree.form? root).isSome) {index : Nat}
    (bound : index < builder.nodes.size) :
    .node index ∈ (builder.finish root).descendants root := by
  have acyclic : (builder.finish root).Acyclic := orderly.acyclic
  rw [Tree.mem_descendants_iff acyclic is]
  induction left : builder.nodes.size - index using Nat.strong_induction_on generalizing index with
  | _ _ hypothesis =>
    rcases orderly.cases bound with same | ⟨later, younger, bound', link⟩
    · rw [same]
    · exact .head link (hypothesis _ (by omega) bound' rfl)

/-- What is built in an orderly way, down to one node that waits, is a tree as lines make it. -/
theorem Orderly.written {body : NodeId} (is : builder.tree.form? root = some (.program body)) :
    (builder.finish root).Written where
  fits := orderly.fits
  root := ⟨body, is⟩
  older := orderly.older
  lists_within := orderly.lists_within
  single _ _ _ := orderly.single
  once := orderly.once
  reached id there := by
    cases id with
    | missing => simp [Tree.form?_missing] at there
    | node index => exact orderly.reached (by simp [is]) (Tree.lt_size_of_form? there)

end

/-- The program of statements that were built is a tree as lines make them. -/
theorem written_program {statements : List NodeId} (orderly : builder.Orderly statements)
    (fits : ∀ statement ∈ statements, builder.tree.IsStatement statement) : (builder.program statements).Written := by
  let listed := builder.list statements
  let block := listed.2.alloc (.block listed.1)
  let program := block.2.alloc (.program block.1)
  have stored : listed.2.tree.list listed.1 = statements := Builder.list_list builder statements
  have grows : builder.Grows listed.2 := Builder.grows_list builder statements
  have present : statements.filter NodeId.isPresent = statements := by
    refine List.filter_eq_self.mpr fun statement among => ?_
    have there := (Tree.regular_of_isStatement (fits statement among)).1
    cases statement with
    | missing => simp [Tree.form?_missing] at there
    | node index => rfl
  have blockOrderly : block.2.Orderly ([] ++ [block.1]) := by
    refine @Builder.Orderly.alloc listed.2 (.block listed.1) [] statements (orderly.list statements)
      ?_ ?_ ?_
    · show ∀ statement ∈ listed.2.tree.list listed.1, listed.2.tree.IsStatement statement
      rw [stored]
      exact fun statement among => grows.isStatement (fits statement among)
    · simpa [Form.childLists] using Builder.within_list builder statements
    · simp only [Form.links, stored, present]
  have blockIs : block.2.tree.form? block.1 = some (.block listed.1) :=
    Builder.form?_alloc_self listed.2 _
  have programOrderly : program.2.Orderly ([] ++ [program.1]) := by
    refine blockOrderly.alloc ⟨_, blockIs⟩ (by simp [Form.childLists]) ?_
    rfl
  exact Builder.Orderly.written programOrderly (Builder.form?_alloc_self block.2 (.program block.1))

end Builder

namespace Line

/-- A source that can be read becomes a tree as lines make them. -/
theorem written_of_parse {text : String} {tree : Tree} (read : parse false text = .ok tree) :
    tree.Written := by
  unfold parse at read
  split at read
  · rename_i statements builder readAll
    cases read
    obtain ⟨orderly, -, fits⟩ := statements_readLines Builder.orderly_empty readAll
    exact Builder.written_program orderly fits
  · simp at read

end Line

end Rivulet
