import Rivulet.Proofs.Tree.Walk

/-!
Trees in which every node has one place: nothing lies below itself, no node has two parents, and all ids lie
inside the tree. Whatever the walk from the root comes to leads back up to the root through its parents.

Main statements: `Forest.parent?_of_child`, `Forest.ancestors_of_child` and `Forest.isWithin_iff`.
-/

namespace Rivulet.Tree

/-- A tree in which every node has one place. -/
structure Proper (tree : Tree) : Prop where
  acyclic : tree.Acyclic
  root : (tree.form? tree.root).isSome
  /-- A child that is not missing is a node of the tree. -/
  inside : ∀ child parent, child ∈ tree.children parent → (tree.form? child).isSome
  lists_within : ∀ id form list, tree.form? id = some form → list ∈ form.childLists →
    list.start + list.length ≤ tree.lists.size
  /-- No node has two parents. -/
  single : ∀ child parent parent', child ∈ tree.children parent → child ∈ tree.children parent' →
    parent = parent'
  /-- No node is a child of its parent twice. -/
  once : ∀ id, (tree.children id).Nodup

/-- Nodes of which none lies below itself and none has two parents; a child that is not missing is a node. -/
structure Forest (tree : Tree) : Prop where
  acyclic : tree.Acyclic
  inside : ∀ child parent, child ∈ tree.children parent → (tree.form? child).isSome
  single : ∀ child parent parent', child ∈ tree.children parent → child ∈ tree.children parent' →
    parent = parent'

/-- The walk from the root comes to a node. -/
def Reached (tree : Tree) (id : NodeId) : Prop :=
  id ∈ tree.descendants tree.root

/-- One node is another one or lies below it. -/
def Below (tree : Tree) : NodeId → NodeId → Prop :=
  Relation.ReflTransGen fun child parent => child ∈ tree.children parent

variable {tree : Tree} {id child parent ancestor : NodeId}

/-- Where the walk from the root comes to anything there is a root. -/
theorem isSome_root_of_reached (reached : tree.Reached id) : (tree.form? tree.root).isSome := by
  unfold Reached descendants at reached
  split at reached
  · simp at reached
  · rename_i there
    simpa [form?, Option.isSome_iff_ne_none] using there

namespace Forest

variable (forest : tree.Forest)

include forest

theorem reached_iff (root : (tree.form? tree.root).isSome) : tree.Reached id ↔ tree.Below id tree.root :=
  mem_descendants_iff forest.acyclic root

/-- What holds of the root, and of a child whenever it holds of its parent, holds of all that is reached. -/
theorem reached_induction {motive : NodeId → Prop} (root : motive tree.root)
    (child : ∀ child parent, tree.Reached parent → child ∈ tree.children parent → motive parent → motive child)
    (reached : tree.Reached id) : motive id := by
  have there := isSome_root_of_reached reached
  have path := (forest.reached_iff there).mp reached
  induction path using Relation.ReflTransGen.head_induction_on with
  | refl => exact root
  | head link rest hypothesis =>
    have above := (forest.reached_iff there).mpr rest
    exact child _ _ above link (hypothesis above)

theorem isSome_of_reached (reached : tree.Reached id) : (tree.form? id).isSome :=
  forest.reached_induction (isSome_root_of_reached reached)
    (fun child parent _ link _ => forest.inside child parent link) reached

theorem parent?_of_child (reached : tree.Reached parent) (link : child ∈ tree.children parent) :
    (Parents.ofTree tree).parent? child = some parent :=
  Parents.parent?_of_child (fun other link' => forest.single child other parent link' link)
    (forest.inside child parent link) link reached

/-- Nothing that is reached has the root for a child. -/
theorem root_notMem_children (reached : tree.Reached parent) : tree.root ∉ tree.children parent := by
  intro link
  have path := (forest.reached_iff (isSome_root_of_reached reached)).mp reached
  have links (child parent : NodeId) (link : child ∈ tree.children parent) : tree.Child child parent :=
    child_of_mem_children link
  have cycle : Relation.TransGen tree.Child tree.root tree.root :=
    Relation.TransGen.head' (links _ _ link) (Relation.ReflTransGen.mono links _ _ path)
  exact forest.acyclic _ cycle

theorem parent?_root : (Parents.ofTree tree).parent? tree.root = none := by
  cases is : (Parents.ofTree tree).parent? tree.root with
  | none => rfl
  | some parent =>
    obtain ⟨reached, link⟩ := Parents.child_of_parent? is
    exact absurd link (forest.root_notMem_children reached)

theorem ancestors_of_child (reached : tree.Reached parent) (link : child ∈ tree.children parent) :
    (Parents.ofTree tree).ancestors child = parent :: (Parents.ofTree tree).ancestors parent := by
  rw [Parents.ancestors_eq forest.acyclic, forest.parent?_of_child reached link]

theorem ancestors_root : (Parents.ofTree tree).ancestors tree.root = [] := by
  rw [Parents.ancestors_eq forest.acyclic, forest.parent?_root]

/-- A node and the nodes around it are those that it lies below. -/
theorem mem_cons_ancestors_iff (reached : tree.Reached id) (reached' : tree.Reached ancestor) :
    ancestor ∈ id :: (Parents.ofTree tree).ancestors id ↔ tree.Below id ancestor := by
  refine forest.reached_induction
    (motive := fun id => ancestor ∈ id :: (Parents.ofTree tree).ancestors id ↔ tree.Below id ancestor) ?_ ?_ reached
  · rw [forest.ancestors_root, List.mem_singleton]
    refine ⟨fun same => same ▸ .refl, fun path => ?_⟩
    rcases path.cases_head with same | ⟨parent, link, above⟩
    · exact same.symm
    · -- The root would lie below a node that lies below the root.
      have root := isSome_root_of_reached reached'
      have within := (forest.reached_iff root).mpr (above.trans ((forest.reached_iff root).mp reached'))
      exact absurd link (forest.root_notMem_children within)
  · intro child parent reachedParent link hypothesis
    rw [forest.ancestors_of_child reachedParent link, List.mem_cons, hypothesis]
    constructor
    · rintro (rfl | above)
      · exact .refl
      · exact above.head link
    · intro path
      rcases path.cases_head with same | ⟨other, link', above⟩
      · exact .inl same.symm
      · rw [forest.single child other parent link' link] at above
        exact .inr above

/-- The index of parents answers what the walk down answers. -/
theorem isWithin_iff (reached : tree.Reached id) (reached' : tree.Reached ancestor) :
    (Parents.ofTree tree).isWithin id ancestor = true ↔ id ∈ tree.descendants ancestor := by
  rw [mem_descendants_iff forest.acyclic (forest.isSome_of_reached reached')]
  refine Iff.trans ?_ (forest.mem_cons_ancestors_iff reached reached')
  rw [Parents.isWithin, Bool.or_eq_true, beq_iff_eq, List.contains_iff_mem, List.mem_cons, @eq_comm _ id]

end Forest

namespace Proper

variable (proper : tree.Proper)

include proper

theorem forest : tree.Forest :=
  ⟨proper.acyclic, proper.inside, proper.single⟩

theorem reached_iff :
    tree.Reached id ↔ Relation.ReflTransGen (fun child parent => child ∈ tree.children parent) id tree.root :=
  proper.forest.reached_iff proper.root

theorem reached_root : tree.Reached tree.root :=
  proper.reached_iff.mpr .refl

theorem reached_child (reached : tree.Reached parent) (link : child ∈ tree.children parent) :
    tree.Reached child :=
  proper.reached_iff.mpr ((proper.reached_iff.mp reached).head link)

theorem reached_induction {motive : NodeId → Prop} (root : motive tree.root)
    (child : ∀ child parent, tree.Reached parent → child ∈ tree.children parent → motive parent → motive child)
    (reached : tree.Reached id) : motive id :=
  proper.forest.reached_induction root child reached

theorem isSome_of_reached (reached : tree.Reached id) : (tree.form? id).isSome :=
  proper.forest.isSome_of_reached reached

theorem parent?_of_child (reached : tree.Reached parent) (link : child ∈ tree.children parent) :
    (Parents.ofTree tree).parent? child = some parent :=
  proper.forest.parent?_of_child reached link

theorem parent?_root : (Parents.ofTree tree).parent? tree.root = none :=
  proper.forest.parent?_root

theorem ancestors_of_child (reached : tree.Reached parent) (link : child ∈ tree.children parent) :
    (Parents.ofTree tree).ancestors child = parent :: (Parents.ofTree tree).ancestors parent :=
  proper.forest.ancestors_of_child reached link

theorem ancestors_root : (Parents.ofTree tree).ancestors tree.root = [] :=
  proper.forest.ancestors_root

end Proper

/-- It is enough to look at the nodes of a tree whose children are older than their parents. -/
theorem proper_of_isOrderly {tree : Tree} (orderly : tree.isOrderly = true) (root : (tree.form? tree.root).isSome)
    (inside : ∀ parent ∈ tree.ids, ∀ child ∈ tree.children parent, (tree.form? child).isSome)
    (single : ∀ parent ∈ tree.ids, ∀ parent' ∈ tree.ids, ∀ child ∈ tree.children parent,
      child ∈ tree.children parent' → parent = parent')
    (once : ∀ id ∈ tree.ids, (tree.children id).Nodup) : tree.Proper := by
  have formed := wellFormed_of_isOrderly orderly
  have among {child parent : NodeId} (link : child ∈ tree.children parent) : parent ∈ tree.ids := by
    obtain ⟨form, is, -⟩ := child_of_mem_children link
    exact mem_ids_of_form? is
  refine ⟨formed.acyclic, root, fun child parent link => inside parent (among link) child link, formed.lists_within,
    fun child parent parent' link link' => single parent (among link) parent' (among link') child link link', ?_⟩
  intro id
  cases is : tree.form? id with
  | some form => exact once id (mem_ids_of_form? is)
  | none => simp [children, is]

end Rivulet.Tree
