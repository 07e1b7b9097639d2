import Rivulet.Analysis.Typing
import Rivulet.Proofs.Tree.Proper

/-!
Which nodes an analysis comes to. The rules go down from the root, and so do the types of nodes, except that a declared
type may name a record that nothing else in the tree leads to: a field of such a type has the type of an input of that
record (`Tree.Explored`). A name refers to a node that the root leads to (`explored_of_resolve?`). Where every record is
reached from the root, so is every explored node (`reached_of_explored`).
-/

namespace Rivulet

namespace Tree

variable {tree : Tree} {id child parent : NodeId} {form : Form}

/-- What the rules and types of a tree can come to: whatever lies below the root or below a record. -/
inductive Explored (tree : Tree) : NodeId → Prop where
  | root : tree.Explored tree.root
  | record {id : NodeId} {name : String} {inputs : ChildList} (is : tree.form? id = some (.record name inputs)) :
    tree.Explored id
  | child {child parent : NodeId} (explored : tree.Explored parent) (link : tree.Child child parent) :
    tree.Explored child

theorem Explored.link (explored : tree.Explored parent) (is : tree.form? parent = some form)
    (link : child ∈ form.links tree.list) : tree.Explored child :=
  explored.child ⟨form, is, link⟩

/-- What holds of all that waits and of the children of whatever it holds of, holds of all that a walk visits. -/
theorem walkDown_induction {holds : NodeId → Prop}
    (below : ∀ child parent, child ∈ tree.children parent → holds parent → holds child) {steps : Nat}
    {stack : List NodeId} {visited : Array NodeId} (waiting : ∀ id ∈ stack, holds id) (before : ∀ id ∈ visited, holds id) :
    ∀ id ∈ tree.walkDown steps stack visited, holds id := by
  induction steps generalizing stack visited with
  | zero => exact before
  | succ steps hypothesis =>
    cases stack with
    | nil => exact before
    | cons next stack =>
      obtain ⟨first, rest⟩ := List.forall_mem_cons.mp waiting
      refine hypothesis (fun id among => ?_) (fun id among => ?_)
      · rcases List.mem_append.mp among with inside | later
        · exact below id next inside first
        · exact rest id later
      · rcases Array.mem_push.mp among with earlier | rfl
        · exact before id earlier
        · exact first

theorem explored_of_reached (reached : tree.Reached id) : tree.Explored id := by
  unfold Reached descendants at reached
  split at reached
  · simp at reached
  · have below (child parent : NodeId) (link : child ∈ tree.children parent) (explored : tree.Explored parent) :
        tree.Explored child :=
      explored.child (child_of_mem_children link)
    have start (id : NodeId) (among : id ∈ [tree.root]) : tree.Explored id := List.mem_singleton.mp among ▸ .root
    exact walkDown_induction below start (by simp) id (Array.mem_toList_iff.mp reached)

/-- In a tree without cycles the root leads on to all children that are not missing. -/
theorem reached_of_child (acyclic : tree.Acyclic) (reached : tree.Reached parent) (link : tree.Child child parent)
    (present : child.isPresent = true) : tree.Reached child := by
  have rooted := isSome_root_of_reached reached
  have path := (mem_descendants_iff acyclic rooted).mp reached
  exact (mem_descendants_iff acyclic rooted).mpr (path.head (mem_children_iff.mpr ⟨link, present⟩))

/-- Where the root leads to every record, it leads to all that is explored. -/
theorem reached_of_explored (acyclic : tree.Acyclic)
    (records : ∀ id name inputs, tree.form? id = some (.record name inputs) → tree.Reached id)
    (explored : tree.Explored id) (there : (tree.form? id).isSome) : tree.Reached id := by
  induction explored with
  | root => exact (mem_descendants_iff acyclic there).mpr .refl
  | record is => exact records _ _ _ is
  | @child child parent explored link hypothesis =>
    have above : tree.Reached parent := by
      obtain ⟨form, is, -⟩ := link
      exact hypothesis (by simp [is])
    obtain ⟨index, rfl⟩ := Parents.isPresent_of_form? there
    exact reached_of_child acyclic above link rfl

end Tree

namespace Context

variable {context : Context} {node parent child : NodeId} {name : String} {definition : Definition}

theorem node?_definitionOf (context : Context) (node : NodeId) : (context.definitionOf node).node? = some node := by
  unfold definitionOf
  split <;> rfl

section

variable {holds : NodeId → Prop} (below : ∀ child parent, holds parent → context.tree.Child child parent → holds child)

include below

/-- What holds of a parent, and of whatever lies below a node that it holds of, holds of what a name refers to there. -/
theorem holds_of_inParent? (above : holds parent) (link : context.tree.Child child parent)
    (found : context.inParent? parent child name = some definition) (is : definition.node? = some node) : holds node := by
  have here (place : NodeId) (holding : holds place) (same : context.definitionOf place = definition) : holds node := by
    rw [← same, node?_definitionOf] at is
    cases is
    exact holding
  have inside (own : String) (inputs : ChildList) (body : List NodeId) (form : Form)
      (form_is : context.tree.form? parent = some form) (links : form.links context.tree.list = context.tree.list inputs ++ body)
      (found : context.inDefinition? parent own (context.tree.list inputs) child name = some definition) :
      holds node := by
    unfold inDefinition? at found
    split at found
    · rename_i input sought
      cases found
      cases is
      exact below _ parent above ⟨form, form_is, by simp [links, List.mem_of_find?_eq_some sought]⟩
    · split at found
      · exact here parent above (Option.some.inj found)
      · simp at found
  unfold inParent? at found
  split at found
  · rename_i statements form
    unfold inBlock? at found
    split at found
    · simp at found
    · rename_i position _
      split at found
      · exact here child (below child parent above link) (Option.some.inj found)
      · obtain ⟨statement, sought, same⟩ := Option.map_eq_some_iff.mp found
        have among := List.mem_of_mem_take (List.mem_reverse.mp (List.mem_of_find?_eq_some sought))
        exact here statement (below statement parent above ⟨_, form, among⟩) same
  · rename_i own inputs body output form
    exact inside own inputs [body] _ form rfl found
  · rename_i own inputs form
    exact inside own inputs [] _ form (by simp [Form.links]) found
  · simp at found

/-- What holds of all that is reached and of whatever lies below a node that it holds of, holds of what a name refers
to, unless that comes from outside the tree. -/
theorem holds_of_resolve? (walked : ∀ id, context.tree.Reached id → holds id)
    (indexed : context.parents = .ofTree context.tree) (found : context.resolve? child name = some definition)
    (is : definition.node? = some node) : holds node := by
  have around (count : Nat) (child : NodeId)
      (found : context.inAncestors? name child (context.parents.ancestorsFrom count child) = some definition) :
      holds node := by
    induction count generalizing child with
    | zero => simp [Parents.ancestorsFrom, inAncestors?] at found
    | succ count hypothesis =>
      unfold Parents.ancestorsFrom at found
      cases above : context.parents.parent? child with
      | none => simp [above, inAncestors?] at found
      | some parent =>
        simp only [above, inAncestors?] at found
        rw [indexed] at above
        obtain ⟨reached, link⟩ := Parents.child_of_parent? above
        split at found
        · rename_i inner
          cases found
          exact holds_of_inParent? below (walked parent reached) (Tree.child_of_mem_children link) inner is
        · exact hypothesis parent found
  unfold resolve? at found
  split at found
  · rename_i inner
    cases found
    exact around _ _ inner
  · split at found
    · cases found
      simp [Definition.node?] at is
    · obtain ⟨index, -, rfl⟩ := Option.map_eq_some_iff.mp found
      simp [Definition.node?] at is

end

/-- A name refers to an explored node, or to something outside the tree. -/
theorem explored_of_resolve? (indexed : context.parents = .ofTree context.tree)
    (found : context.resolve? child name = some definition) (is : definition.node? = some node) :
    context.tree.Explored node :=
  holds_of_resolve? (fun _ _ explored link => explored.child link) (fun _ => Tree.explored_of_reached) indexed found is

end Context

namespace Typing

variable {tree : Tree} {id parent : NodeId}

theorem exists_entry_of_pairsOf {entries : List NodeId} {key value : NodeId} (among : (key, value) ∈ pairsOf tree entries) :
    ∃ entry ∈ entries, tree.form? entry = some (.pair key value) := by
  obtain ⟨entry, there, found⟩ := List.mem_filterMap.mp among
  refine ⟨entry, there, ?_⟩
  cases is : tree.form? entry with
  | none => simp [is] at found
  | some form =>
    cases form with
    | pair key' value' => simpa [is] using found
    | _ => simp [is] at found

end Typing

end Rivulet
