import Rivulet.Tree.Rank
import Mathlib.Logic.Relation

/-!
The shape of trees that programs are made of: no node lies below itself, child lists lie inside the
shared list, and pairs stand in mappings and nowhere else.

Main statement: in a tree without cycles every node has a rank below the height of the tree, and
children have lower ranks (`exists_rank`).
-/

namespace Rivulet.Tree

/-- One node is a child of another. -/
def Child (tree : Tree) (child parent : NodeId) : Prop :=
  ∃ form, tree.form? parent = some form ∧ child ∈ form.links tree.list

/-- No node lies below itself. -/
def Acyclic (tree : Tree) : Prop :=
  ∀ id, ¬ Relation.TransGen tree.Child id id

/-- Whether a node is a pair. -/
def isPair (tree : Tree) (id : NodeId) : Bool :=
  match tree.form? id with
  | some (.pair ..) => true
  | _ => false

end Rivulet.Tree

namespace Rivulet.Form

/-- The child lists of a node. -/
def childLists : Form → List ChildList
  | block list | sequence list | set list | mapping list | function _ list .. | record _ list
  | call _ list => [list]
  | _ => []

theorem links_congr {form : Form} {read read' : ChildList → List NodeId}
    (same : ∀ list ∈ form.childLists, read list = read' list) : form.links read = form.links read' := by
  cases form <;> simp_all [links, childLists]

/-- Whether a node is a mapping. -/
def isMapping : Form → Bool
  | mapping _ => true
  | _ => false

end Rivulet.Form

namespace Rivulet.Tree

/-- A tree as programs are made of: without cycles, with all child lists inside the shared list, and
with pairs for the entries of mappings and nothing else. -/
structure WellFormed (tree : Tree) : Prop where
  acyclic : tree.Acyclic
  lists_within : ∀ id form list, tree.form? id = some form → list ∈ form.childLists →
    list.start + list.length ≤ tree.lists.size
  pair_iff_entry : ∀ id form child, tree.form? id = some form → child ∈ form.links tree.list →
    (tree.form? child).isSome → tree.isPair child = form.isMapping
  root_no_pair : tree.isPair tree.root = false

/-- The child lists and the pairs below one node are as in a well-formed tree. -/
structure FormedAt (tree : Tree) (id : NodeId) : Prop where
  lists_within : ∀ form list, tree.form? id = some form → list ∈ form.childLists →
    list.start + list.length ≤ tree.lists.size
  pair_iff_entry : ∀ form child, tree.form? id = some form → child ∈ form.links tree.list →
    (tree.form? child).isSome → tree.isPair child = form.isMapping

variable {tree : Tree}

theorem WellFormed.formedAt (formed : tree.WellFormed) (id : NodeId) : tree.FormedAt id :=
  ⟨formed.lists_within id, formed.pair_iff_entry id⟩

/-- A child list inside the shared list has as many entries as it says. -/
theorem FormedAt.length_list {id : NodeId} (formed : tree.FormedAt id) {form : Form}
    {list : ChildList} (is : tree.form? id = some form) (listed : list ∈ form.childLists) :
    (tree.list list).length = list.length := by
  have within := formed.lists_within form list is listed
  simp [Tree.list, readList, within]
  omega

theorem WellFormed.length_list (formed : tree.WellFormed) {id : NodeId} {form : Form}
    {list : ChildList} (is : tree.form? id = some form) (listed : list ∈ form.childLists) :
    (tree.list list).length = list.length :=
  (formed.formedAt id).length_list is listed

theorem isMapping_of_isPair {id : NodeId} {form : Form} (is : tree.form? id = some form)
    (pair : tree.isPair id = true) : form.isMapping = false := by
  rw [isPair, is] at pair
  cases form with
  | pair key value => rfl
  | _ => simp at pair

/-- Only entries of mappings are pairs. -/
theorem FormedAt.isPair_eq_false {parent child : NodeId} (formed : tree.FormedAt parent) {form : Form}
    (is : tree.form? parent = some form) (link : child ∈ form.links tree.list)
    (other : form.isMapping = false) : tree.isPair child = false := by
  cases there : tree.form? child with
  | none => simp [isPair, there]
  | some found => rw [formed.pair_iff_entry form child is link (by simp [there]), other]

theorem WellFormed.isPair_eq_false (formed : tree.WellFormed) {parent child : NodeId} {form : Form}
    (is : tree.form? parent = some form) (link : child ∈ form.links tree.list)
    (other : form.isMapping = false) : tree.isPair child = false :=
  (formed.formedAt parent).isPair_eq_false is link other

/-! ### Trees whose children are older than their parents -/

/-- Nodes that rank lower the further down they are form no cycle. -/
theorem acyclic_of_rank {rank : NodeId → Nat}
    (lower : ∀ child parent, tree.Child child parent → rank child < rank parent) : tree.Acyclic := by
  have descends {below above : NodeId} (path : Relation.TransGen tree.Child below above) :
      rank below < rank above := by
    induction path with
    | single link => exact lower _ _ link
    | tail _ link hypothesis => exact Nat.lt_trans hypothesis (lower _ _ link)
  exact fun id cycle => Nat.lt_irrefl _ (descends cycle)

/-- Whether one node is older than another; a missing node is older than all others. -/
def isOlder : NodeId → NodeId → Bool
  | .missing, .node _ => true
  | .node child, .node parent => child < parent
  | _, .missing => false

/-- When a node was added, counted from one on; a missing node is there from the beginning. -/
def addedAt : NodeId → Nat
  | .missing => 0
  | .node index => index + 1

theorem addedAt_lt_of_isOlder {child parent : NodeId} (older : isOlder child parent = true) :
    addedAt child < addedAt parent := by
  cases child <;> cases parent <;> simp_all [isOlder, addedAt]

theorem acyclic_of_older (older : ∀ child parent, tree.Child child parent → isOlder child parent = true) :
    tree.Acyclic :=
  acyclic_of_rank fun child parent link => addedAt_lt_of_isOlder (older child parent link)

/-- Whether the children of a node are as they have to be, and older than the node. -/
def isOrderlyAt (tree : Tree) (id : NodeId) : Bool :=
  (tree.form? id).all fun form =>
    form.childLists.all (fun list => list.start + list.length ≤ tree.lists.size) &&
      (form.links tree.list).all fun child =>
        isOlder child id && ((tree.form? child).isNone || tree.isPair child == form.isMapping)

/-- A test that trees pass only if they are well formed. -/
def isOrderly (tree : Tree) : Bool :=
  tree.ids.all tree.isOrderlyAt && !tree.isPair tree.root

theorem mem_ids_of_form? {id : NodeId} {form : Form} (is : tree.form? id = some form) : id ∈ tree.ids := by
  cases id with
  | missing => simp [form?_missing] at is
  | node index =>
    obtain ⟨node, there, _⟩ := form?_eq_some_iff.mp is
    obtain ⟨bound, _⟩ := Array.getElem?_eq_some_iff.mp there
    simp [ids, size, bound]

theorem wellFormed_of_isOrderly (orderly : tree.isOrderly = true) : tree.WellFormed := by
  simp only [isOrderly, Bool.and_eq_true, Bool.not_eq_true', List.all_eq_true] at orderly
  obtain ⟨each, root⟩ := orderly
  have here (id : NodeId) (form : Form) (is : tree.form? id = some form) :
      (∀ list ∈ form.childLists, list.start + list.length ≤ tree.lists.size) ∧
        ∀ child ∈ form.links tree.list, isOlder child id = true ∧
          ((tree.form? child).isSome → tree.isPair child = form.isMapping) := by
    have passed := each id (mem_ids_of_form? is)
    simp only [isOrderlyAt, is, Option.all_some, Bool.and_eq_true, List.all_eq_true] at passed
    refine ⟨fun list listed => by simpa using passed.1 list listed, fun child link => ?_⟩
    have both := passed.2 child link
    refine ⟨both.1, fun there => ?_⟩
    rw [Option.isNone_eq_false_iff.mpr there] at both
    simpa using both.2
  refine ⟨acyclic_of_older ?_, ?_, ?_, root⟩
  · rintro child parent ⟨form, is, link⟩
    exact ((here parent form is).2 child link).1
  · exact fun id form list is listed => (here id form is).1 list listed
  · exact fun id form child is link there => ((here id form is).2 child link).2 there

/-! ### Ranks -/

/-- How far up a node stands in the tree. -/
noncomputable def rank (tree : Tree) : NodeId → Nat :=
  tree.rankBy tree.Child

theorem rank_lt_of_child (acyclic : tree.Acyclic) {child parent : NodeId}
    (link : tree.Child child parent) : tree.rank child < tree.rank parent := by
  have there : (tree.form? parent).isSome := by
    obtain ⟨form, is, -⟩ := link
    simp [is]
  exact rankBy_lt acyclic link there

theorem rank_lt_height (acyclic : tree.Acyclic) (id : NodeId) : tree.rank id < tree.height :=
  rankBy_lt_height acyclic id

/-- In a tree without cycles nodes have ranks below the height of the tree, lower for children. -/
theorem exists_rank (acyclic : tree.Acyclic) :
    ∃ rank : NodeId → Nat, (∀ child parent, tree.Child child parent → rank child < rank parent) ∧
      ∀ id, rank id < tree.height :=
  ⟨tree.rank, fun _ _ => rank_lt_of_child acyclic, rank_lt_height acyclic⟩

end Rivulet.Tree
