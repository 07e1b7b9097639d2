import Rivulet.Proofs.Tree.Shape
import Rivulet.Tree.Parents
import Mathlib.Data.List.Basic
import Mathlib.Data.List.Induction
import Mathlib.Data.Nat.Init

/-!
Walks in trees without cycles. The walk with an explicit stack visits what the recursive order lists
(`descendants_eq`), which is all that lies below its start (`mem_descendants_iff`). Where no node has
two parents, the index of parents leads back up (`ancestors_eq`).
-/

namespace Rivulet.Tree

variable {tree : Tree} {id child parent start : NodeId}

theorem child_of_mem_children (link : child ∈ tree.children parent) : tree.Child child parent := by
  unfold children at link
  cases is : tree.form? parent with
  | none => simp [is] at link
  | some form =>
    simp only [is, List.mem_filter] at link
    exact ⟨form, is, link.1⟩

theorem isPresent_of_mem_children (link : child ∈ tree.children parent) : child.isPresent = true := by
  unfold children at link
  cases is : tree.form? parent with
  | none => simp [is] at link
  | some form =>
    simp only [is, List.mem_filter] at link
    exact link.2

theorem mem_children_iff :
    child ∈ tree.children parent ↔ tree.Child child parent ∧ child.isPresent = true := by
  constructor
  · exact fun link => ⟨child_of_mem_children link, isPresent_of_mem_children link⟩
  · rintro ⟨⟨form, is, link⟩, present⟩
    simp [children, is, link, present]

/-! ### The recursive order -/

/-- What is told of a node level by level, each level from what the one below tells of the children, comes to rest above
the rank of the node. -/
theorem level_eq_level {α : Type} {level : Nat → NodeId → α} {rank : NodeId → Nat}
    (lower : ∀ child parent, tree.Child child parent → rank child < rank parent)
    (next : ∀ depth depth' id, (∀ child ∈ tree.children id, level depth child = level depth' child) →
      level (depth + 1) id = level (depth' + 1) id) {depth depth' : Nat}
    (enough : rank id < depth) (enough' : rank id < depth') : level depth id = level depth' id := by
  induction depth generalizing depth' id with
  | zero => omega
  | succ depth hypothesis =>
    obtain ⟨depth', rfl⟩ : ∃ less, depth' = less + 1 := ⟨depth' - 1, by omega⟩
    refine next depth depth' id fun child link => ?_
    have := lower child id (child_of_mem_children link)
    exact hypothesis (by omega) (by omega)

/-- The level below the height of a tree tells of children what the height does. -/
theorem level_size_eq (acyclic : tree.Acyclic) {α : Type} {level : Nat → NodeId → α}
    (next : ∀ depth depth' id, (∀ child ∈ tree.children id, level depth child = level depth' child) →
      level (depth + 1) id = level (depth' + 1) id) (link : child ∈ tree.children id) :
    level tree.size child = level tree.height child := by
  obtain ⟨rank, lower, bounded⟩ := exists_rank acyclic
  have height : tree.height = tree.size + 1 := rfl
  have := lower child id (child_of_mem_children link)
  have := bounded id
  exact level_eq_level lower next (by omega) (bounded child)

/-- A node, then everything below it, parents before their children. -/
def preorder (tree : Tree) (id : NodeId) : List NodeId :=
  tree.preorderFrom tree.height id

theorem preorder_eq (acyclic : tree.Acyclic) (id : NodeId) :
    tree.preorder id = id :: (tree.children id).flatMap tree.preorder := by
  have next (depth depth' : Nat) (id : NodeId)
      (same : ∀ child ∈ tree.children id, tree.preorderFrom depth child = tree.preorderFrom depth' child) :
      tree.preorderFrom (depth + 1) id = tree.preorderFrom (depth' + 1) id := by
    rw [preorderFrom, preorderFrom, List.flatMap_congr same]
  have below (child : NodeId) (link : child ∈ tree.children id) :
      tree.preorderFrom tree.size child = tree.preorder child := level_size_eq acyclic next link
  rw [preorder, height, preorderFrom, List.flatMap_congr below]

theorem length_preorderFrom (depth : Nat) (id : NodeId) :
    (tree.preorderFrom depth id).length = tree.pathsFrom depth id := by
  induction depth generalizing id with
  | zero => rfl
  | succ depth hypothesis =>
    unfold preorderFrom pathsFrom
    induction tree.children id with
    | nil => rfl
    | cons child children hypothesis' =>
      simp only [List.length_cons, List.flatMap_cons, List.length_append, List.foldr_cons,
        hypothesis] at hypothesis' ⊢
      omega

/-! ### The walk -/

/-- The walk down from a stack is over after some turns, when the stack is empty, and visited nodes in an order. -/
inductive WalksDown (tree : Tree) : Nat → List NodeId → List NodeId → Prop where
  | done : WalksDown tree 0 [] []
  | visit {turns : Nat} {id : NodeId} {stack order : List NodeId}
      (later : WalksDown tree turns (tree.children id ++ stack) order) :
      WalksDown tree (turns + 1) (id :: stack) (id :: order)

/-- A walk that may take as many steps as it has turns comes to its end. -/
theorem WalksDown.walkDown_eq {turns steps : Nat} {stack order : List NodeId} (walks : tree.WalksDown turns stack order)
    (enough : turns ≤ steps) (visited : Array NodeId) :
    (tree.walkDown steps stack visited).toList = visited.toList ++ order := by
  induction walks generalizing steps visited with
  | done => cases steps <;> simp [walkDown]
  | visit _ hypothesis =>
    obtain ⟨steps, rfl⟩ : ∃ less, steps = less + 1 := ⟨steps - 1, by omega⟩
    rw [walkDown, hypothesis (by omega)]
    simp

/-- What holds of a node whenever it holds of its children holds of all nodes. -/
theorem induction_below (acyclic : tree.Acyclic) {motive : NodeId → Prop}
    (next : ∀ id, (∀ child ∈ tree.children id, motive child) → motive id) (id : NodeId) : motive id := by
  obtain ⟨rank, lower, -⟩ := exists_rank acyclic
  induction bound : rank id using Nat.strong_induction_on generalizing id with
  | _ _ hypothesis =>
    subst bound
    exact next id fun child link => hypothesis _ (lower child id (child_of_mem_children link)) child rfl

/-- Whatever waits on the stack waits until all below the node on top was visited. -/
theorem walksDown_preorder (acyclic : tree.Acyclic) (id : NodeId) {turns : Nat} {stack order : List NodeId}
    (later : tree.WalksDown turns stack order) :
    tree.WalksDown ((tree.preorder id).length + turns) (id :: stack) (tree.preorder id ++ order) := by
  induction id using induction_below acyclic generalizing turns stack order with
  | next id hypothesis =>
    have among (children : List NodeId) (links : children ⊆ tree.children id) :
        tree.WalksDown ((children.flatMap tree.preorder).length + turns) (children ++ stack)
          (children.flatMap tree.preorder ++ order) := by
      induction children with
      | nil => simpa using later
      | cons child children others =>
        obtain ⟨link, links⟩ := List.cons_subset.mp links
        have walks := hypothesis child link (others links)
        rw [← Nat.add_assoc, ← List.length_append, ← List.append_assoc] at walks
        exact walks
    have walks := (among _ (List.Subset.refl _)).visit
    rw [preorder_eq acyclic, List.length_cons, Nat.add_right_comm]
    exact walks

/-- The walk visits what the recursive order lists. -/
theorem descendants_eq (acyclic : tree.Acyclic) (there : (tree.form? start).isSome) :
    tree.descendants start = tree.preorder start := by
  have exists_ : (tree.node? start).isNone = false := by
    cases node : tree.node? start with
    | none => simp [form?, node] at there
    | some node => rfl
  have walks := walksDown_preorder acyclic start .done
  have paths : (tree.preorder start).length = tree.pathsFrom tree.height start := length_preorderFrom _ start
  rw [descendants, exists_, if_neg Bool.false_ne_true, walks.walkDown_eq (by omega)]
  simp

theorem mem_preorder_iff (acyclic : tree.Acyclic) :
    id ∈ tree.preorder start ↔
      Relation.ReflTransGen (fun child parent => child ∈ tree.children parent) id start := by
  induction start using induction_below acyclic with
  | next start hypothesis =>
    rw [preorder_eq acyclic, List.mem_cons, List.mem_flatMap]
    constructor
    · rintro (rfl | ⟨child, link, below⟩)
      · exact .refl
      · exact ((hypothesis child link).mp below).tail link
    · intro path
      rcases path.cases_tail with same | ⟨child, below, link⟩
      · exact .inl same.symm
      · exact .inr ⟨child, link, (hypothesis child link).mpr below⟩

/-- The walk visits what lies below its start. -/
theorem mem_descendants_iff (acyclic : tree.Acyclic) (there : (tree.form? start).isSome) :
    id ∈ tree.descendants start ↔
      Relation.ReflTransGen (fun child parent => child ∈ tree.children parent) id start := by
  rw [descendants_eq acyclic there, mem_preorder_iff acyclic]

end Rivulet.Tree

namespace Rivulet.Parents

open Rivulet.Tree

variable {tree : Tree} {index : Parents} {id child parent : NodeId} {position : Nat}

/-! ### Noting parents -/

theorem size_note (parent : NodeId) (index : Parents) (child : NodeId) :
    (note parent index child).parents.size = index.parents.size := by
  cases child <;> simp [note]

theorem size_foldl_note (parent : NodeId) (index : Parents) (children : List NodeId) :
    (children.foldl (note parent) index).parents.size = index.parents.size := by
  induction children generalizing index with
  | nil => rfl
  | cons child children hypothesis => rw [List.foldl_cons, hypothesis, size_note]

theorem getElem?_foldl_note (bound : position < index.parents.size) (children : List NodeId) :
    (children.foldl (note parent) index).parents[position]? =
      if .node position ∈ children then some parent else index.parents[position]? := by
  induction children generalizing index with
  | nil => simp
  | cons child children hypothesis =>
    rw [List.foldl_cons, hypothesis (by rwa [size_note])]
    cases child with
    | missing => simp [note]
    | node other =>
      by_cases among : .node position ∈ children
      · simp [among]
      · by_cases same : other = position
        · subst same
          simp [among, note, bound]
        · simp [among, note, Array.getElem?_setIfInBounds_ne same, Ne.symm same]

/-- The parents noted after a part of a walk. -/
def noted (tree : Tree) (walked : List NodeId) : Parents :=
  walked.foldl (fun index parent => (tree.children parent).foldl (note parent) index)
    ⟨Array.replicate tree.size .missing⟩

theorem noted_concat (walked : List NodeId) (parent : NodeId) :
    noted tree (walked ++ [parent]) = (tree.children parent).foldl (note parent) (noted tree walked) := by
  simp [noted]

@[simp]
theorem size_noted (walked : List NodeId) : (noted tree walked).parents.size = tree.size := by
  induction walked using List.reverseRecOn with
  | nil => simp [noted]
  | append_singleton walked parent hypothesis => rw [noted_concat, size_foldl_note, hypothesis]

/-- A node that is a child of one walked node only has that one for a parent. -/
theorem getElem?_noted_of_child (bound : position < tree.size) {walked : List NodeId}
    (single : ∀ other ∈ walked, .node position ∈ tree.children other → other = parent)
    (link : .node position ∈ tree.children parent) (among : parent ∈ walked) :
    (noted tree walked).parents[position]? = some parent := by
  induction walked using List.reverseRecOn with
  | nil => simp at among
  | append_singleton walked last hypothesis =>
    rw [noted_concat, getElem?_foldl_note (by rwa [size_noted])]
    by_cases here : .node position ∈ tree.children last
    · rw [if_pos here, single last (by simp) here]
    · rw [if_neg here]
      refine hypothesis (fun other inWalked => single other (by simp [inWalked])) ?_
      rcases List.mem_append.mp among with earlier | now
      · exact earlier
      · rw [List.mem_singleton.mp now] at link
        exact absurd link here

theorem child_of_getElem?_noted {walked : List NodeId}
    (is : (noted tree walked).parents[position]? = some parent) (present : parent.isPresent = true) :
    parent ∈ walked ∧ .node position ∈ tree.children parent := by
  have bound : position < tree.size := by
    obtain ⟨bound, _⟩ := Array.getElem?_eq_some_iff.mp is
    rwa [size_noted] at bound
  induction walked using List.reverseRecOn with
  | nil =>
    simp only [noted, List.foldl_nil, Array.getElem?_replicate, bound, if_true, Option.some.injEq] at is
    subst is
    simp [NodeId.isPresent, NodeId.isMissing] at present
  | append_singleton walked last hypothesis =>
    rw [noted_concat, getElem?_foldl_note (by rwa [size_noted])] at is
    split at is
    · rename_i link
      cases is
      exact ⟨by simp, link⟩
    · obtain ⟨earlier, link⟩ := hypothesis is
      exact ⟨by simp [earlier], link⟩

/-! ### Leading back up -/

theorem ofTree_eq (tree : Tree) : ofTree tree = noted tree (tree.descendants tree.root) :=
  rfl

theorem isPresent_of_form? (there : (tree.form? id).isSome) : ∃ position, id = .node position := by
  cases id with
  | missing => simp [form?_missing] at there
  | node position => exact ⟨position, rfl⟩

/-- What the index says is true. -/
theorem child_of_parent? (is : (ofTree tree).parent? id = some parent) :
    parent ∈ tree.descendants tree.root ∧ id ∈ tree.children parent := by
  cases id with
  | missing => simp [parent?] at is
  | node position =>
    unfold parent? at is
    dsimp only at is
    split at is
    · rename_i found
      cases is
      exact child_of_getElem?_noted found rfl
    · simp at is

/-- The index knows the parent of a node that has one only. -/
theorem parent?_of_child (single : ∀ other, id ∈ tree.children other → other = parent)
    (there : (tree.form? id).isSome) (link : id ∈ tree.children parent)
    (reached : parent ∈ tree.descendants tree.root) : (ofTree tree).parent? id = some parent := by
  obtain ⟨position, rfl⟩ := isPresent_of_form? there
  have noted := getElem?_noted_of_child (lt_size_of_form? there) (fun other _ => single other) link
    reached
  obtain ⟨form, is, _⟩ := child_of_mem_children link
  obtain ⟨index, rfl⟩ := isPresent_of_form? (show (tree.form? parent).isSome by simp [is])
  simp [parent?, ofTree_eq, noted]

theorem ancestorsFrom_succ (acyclic : tree.Acyclic) {count : Nat}
    (enough : tree.size ≤ count + tree.rank id) :
    (ofTree tree).ancestorsFrom (count + 1) id = (ofTree tree).ancestorsFrom count id := by
  have higher (id parent : NodeId) (is : (ofTree tree).parent? id = some parent) :
      tree.rank id < tree.rank parent :=
    rank_lt_of_child acyclic (child_of_mem_children (child_of_parent? is).2)
  induction count generalizing id with
  | zero =>
    cases is : (ofTree tree).parent? id with
    | none => simp [ancestorsFrom, is]
    | some parent =>
      have := higher id parent is
      have := rank_lt_height acyclic parent
      have height : tree.height = tree.size + 1 := rfl
      omega
  | succ count hypothesis =>
    rw [ancestorsFrom, ancestorsFrom]
    cases is : (ofTree tree).parent? id with
    | none => rfl
    | some parent =>
      have := higher id parent is
      dsimp only
      rw [hypothesis (by omega)]

/-- The nodes around a node are its parent and those around its parent. -/
theorem ancestors_eq (acyclic : tree.Acyclic) (id : NodeId) :
    (ofTree tree).ancestors id =
      match (ofTree tree).parent? id with
      | none => []
      | some parent => parent :: (ofTree tree).ancestors parent := by
  have size : (ofTree tree).parents.size = tree.size := size_noted _
  unfold ancestors
  rw [size]
  cases is : (ofTree tree).parent? id with
  | none =>
    cases tree.size with
    | zero => rfl
    | succ count => simp [ancestorsFrom, is]
  | some parent =>
    have link := child_of_mem_children (child_of_parent? is).2
    have := rank_lt_of_child acyclic link
    have := rank_lt_height acyclic parent
    have height : tree.height = tree.size + 1 := rfl
    obtain ⟨count, more⟩ : ∃ count, tree.size = count + 1 := ⟨tree.size - 1, by omega⟩
    have stable := @ancestorsFrom_succ tree parent acyclic count (by omega)
    rw [more]
    dsimp only
    rw [stable, ancestorsFrom, is]

end Rivulet.Parents
