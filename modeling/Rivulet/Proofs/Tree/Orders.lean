import Rivulet.Proofs.Tree.Proper
import Mathlib.Tactic.IntervalCases

/-!
Walks with an explicit stack against the recursive orders. A walk goes on until its stack is empty (`WalksDown`,
`WalksUp`). In a tree without cycles both walks come to that end, and visit the nodes in the recursive orders, a node
that several others share once for each path that leads to it.

Main statement: `walks_in_order`.
-/

namespace Rivulet.Tree

variable {tree : Tree} {id : NodeId} {order : List NodeId}

/-! ### The walk up -/

/-- The walk up from a stack is over after some turns, when the stack is empty, and visited nodes in an order. A node
that is marked has its children behind it. -/
inductive WalksUp (tree : Tree) : Nat → List (NodeId × Bool) → List NodeId → Prop where
  | done : WalksUp tree 0 [] []
  | visit {turns : Nat} {id : NodeId} {stack : List (NodeId × Bool)} {order : List NodeId}
      (later : WalksUp tree turns stack order) : WalksUp tree (turns + 1) ((id, true) :: stack) (id :: order)
  | expand {turns : Nat} {id : NodeId} {stack : List (NodeId × Bool)} {order : List NodeId}
      (later : WalksUp tree turns ((tree.children id).map (·, false) ++ (id, true) :: stack) order) :
      WalksUp tree (turns + 1) ((id, false) :: stack) order

/-- A walk that may take as many steps as it has turns comes to its end. -/
theorem WalksUp.walkUp_eq {turns steps : Nat} {stack : List (NodeId × Bool)} (walks : tree.WalksUp turns stack order)
    (enough : turns ≤ steps) (visited : Array NodeId) :
    (tree.walkUp steps stack visited).toList = visited.toList ++ order := by
  induction walks generalizing steps visited with
  | done => cases steps <;> simp [walkUp]
  | visit _ hypothesis =>
    obtain ⟨steps, rfl⟩ : ∃ less, steps = less + 1 := ⟨steps - 1, by omega⟩
    rw [walkUp, hypothesis (by omega)]
    simp
  | expand _ hypothesis =>
    obtain ⟨steps, rfl⟩ : ∃ less, steps = less + 1 := ⟨steps - 1, by omega⟩
    rw [walkUp, hypothesis (by omega)]

/-! ### The order from below -/

/-- Everything below a node, children before their parents, then the node. -/
def postorder (tree : Tree) (id : NodeId) : List NodeId :=
  tree.postorderFrom tree.height id

theorem postorder_eq (acyclic : tree.Acyclic) (id : NodeId) :
    tree.postorder id = (tree.children id).flatMap tree.postorder ++ [id] := by
  have next (depth depth' : Nat) (id : NodeId)
      (same : ∀ child ∈ tree.children id, tree.postorderFrom depth child = tree.postorderFrom depth' child) :
      tree.postorderFrom (depth + 1) id = tree.postorderFrom (depth' + 1) id := by
    rw [postorderFrom, postorderFrom, List.flatMap_congr same]
  have below (child : NodeId) (link : child ∈ tree.children id) :
      tree.postorderFrom tree.size child = tree.postorder child := level_size_eq acyclic next link
  rw [postorder, height, postorderFrom, List.flatMap_congr below]

theorem length_postorderFrom (depth : Nat) (id : NodeId) :
    (tree.postorderFrom depth id).length = tree.pathsFrom depth id := by
  induction depth generalizing id with
  | zero => rfl
  | succ depth hypothesis =>
    unfold postorderFrom pathsFrom
    rw [List.length_append, List.length_singleton]
    induction tree.children id with
    | nil => rfl
    | cons child children hypothesis' =>
      rw [List.flatMap_cons, List.length_append, List.foldr_cons, hypothesis child, ← hypothesis', Nat.add_assoc]

/-! ### The walk up ends -/

section

variable (acyclic : tree.Acyclic)

include acyclic

/-- Every node below the one on top is expanded in one turn and visited in another. -/
theorem walksUp_postorder (id : NodeId) {turns : Nat} {stack : List (NodeId × Bool)}
    (later : tree.WalksUp turns stack order) :
    tree.WalksUp (2 * (tree.postorder id).length + turns) ((id, false) :: stack) (tree.postorder id ++ order) := by
  induction id using induction_below acyclic generalizing turns stack order with
  | next id hypothesis =>
    have among (children : List NodeId) (links : children ⊆ tree.children id) {turns : Nat}
        {stack : List (NodeId × Bool)} {order : List NodeId} (later : tree.WalksUp turns stack order) :
        tree.WalksUp (2 * (children.flatMap tree.postorder).length + turns) (children.map (·, false) ++ stack)
          (children.flatMap tree.postorder ++ order) := by
      induction children with
      | nil => simpa using later
      | cons child children others =>
        obtain ⟨link, links⟩ := List.cons_subset.mp links
        have walks := hypothesis child link (others links)
        rw [← Nat.add_assoc, ← Nat.mul_add, ← List.append_assoc, ← List.length_append] at walks
        exact walks
    have walks := (among _ (List.Subset.refl _) (.visit later)).expand
    rw [postorder_eq acyclic, List.length_append, List.append_assoc]
    have turns' : 2 * (((tree.children id).flatMap tree.postorder).length + [id].length) + turns =
        2 * ((tree.children id).flatMap tree.postorder).length + (turns + 1) + 1 := by
      simp only [List.length_singleton]
      omega
    rw [turns']
    exact walks

/-- The walk up visits what the recursive order lists. -/
theorem postOrder_eq (there : (tree.form? id).isSome) : tree.postOrder id = tree.postorder id := by
  have exists_ : (tree.node? id).isNone = false := by
    cases node : tree.node? id with
    | none => simp [form?, node] at there
    | some node => rfl
  have walks := walksUp_postorder acyclic id .done
  have paths : (tree.postorder id).length = tree.pathsFrom tree.height id := length_postorderFrom _ id
  rw [postOrder, exists_, if_neg Bool.false_ne_true, walks.walkUp_eq (by omega)]
  simp

end

/-- In a tree without cycles both walks from a node end, in the orders that recursion gives: a node, then the orders of
its children in order, or the orders of its children, then the node. So does the way up, from parent to parent. Where
no node has two parents and all children are nodes of the tree, the way up from one node leads to another one if and
only if the walk down from there comes to it. -/
theorem walks_in_order (acyclic : tree.Acyclic) :
    (∀ id, tree.preorder id = id :: (tree.children id).flatMap tree.preorder ∧
      tree.postorder id = (tree.children id).flatMap tree.postorder ++ [id]) ∧
    (∀ start, (tree.form? start).isSome →
      (∃ turns, tree.WalksDown turns [start] (tree.descendants start)) ∧ tree.descendants start = tree.preorder start ∧
      (∃ turns, tree.WalksUp turns [(start, false)] (tree.postOrder start)) ∧
        tree.postOrder start = tree.postorder start) ∧
    (∀ id, (Parents.ofTree tree).ancestors id =
      match (Parents.ofTree tree).parent? id with
      | none => []
      | some parent => parent :: (Parents.ofTree tree).ancestors parent) ∧
    ((∀ child parent parent', child ∈ tree.children parent → child ∈ tree.children parent' → parent = parent') →
      (∀ child parent, child ∈ tree.children parent → (tree.form? child).isSome) →
      ∀ id ancestor, tree.Reached id → tree.Reached ancestor →
        ((Parents.ofTree tree).isWithin id ancestor = true ↔ id ∈ tree.descendants ancestor)) := by
  refine ⟨fun id => ⟨preorder_eq acyclic id, postorder_eq acyclic id⟩, fun start there => ?_,
    Parents.ancestors_eq acyclic, ?_⟩
  · have down := walksDown_preorder acyclic start .done
    have up := walksUp_postorder acyclic start .done
    rw [descendants_eq acyclic there, postOrder_eq acyclic there]
    rw [List.append_nil] at down up
    exact ⟨⟨_, down⟩, rfl, ⟨_, up⟩, rfl⟩
  · intro single inside id ancestor reached reached'
    exact (Forest.mk acyclic inside single).isWithin_iff reached reached'

/-- A product of one sum with itself, the second part of which is no node. -/
def squared : Tree where
  nodes := #[
    ⟨.number "1" .unitless, ⟨0, 1⟩⟩,
    ⟨.binary .add (.node 0) (.node 9), ⟨0, 2⟩⟩,
    ⟨.binary .multiply (.node 1) (.node 1), ⟨0, 3⟩⟩]
  lists := #[]
  root := .node 2

/-- A sum whose first part has a sign. -/
def signedSum : Tree where
  nodes := #[
    ⟨.number "1" .unitless, ⟨0, 1⟩⟩,
    ⟨.unary .negate (.node 0), ⟨0, 2⟩⟩,
    ⟨.number "2" .unitless, ⟨2, 3⟩⟩,
    ⟨.binary .add (.node 1) (.node 2), ⟨0, 4⟩⟩]
  lists := #[]
  root := .node 3

theorem acyclic_squared : squared.Acyclic := by
  refine @acyclic_of_rank squared (fun id => if squared.form? id = none then 0 else addedAt id) ?_
  rintro child parent ⟨form, is, link⟩
  cases parent with
  | missing => simp [form?_missing] at is
  | node index =>
    have there : (squared.form? (.node index)).isSome := by rw [is]; rfl
    have bound : index < 3 := lt_size_of_form? there
    interval_cases index <;> cases is <;> revert child <;> decide

theorem proper_signedSum : signedSum.Proper :=
  proper_of_isOrderly (by decide) rfl (by decide) (by decide) (by decide)

/-- The sum is visited once for each use of it, and so is what is no node; and the sign lies within the other sum. -/
theorem walks_of_squared :
    squared.descendants squared.root = [2, 1, 0, 9, 1, 0, 9].map NodeId.node ∧
      squared.postOrder squared.root = [0, 9, 1, 0, 9, 1, 2].map NodeId.node ∧
      (Parents.ofTree signedSum).isWithin (.node 0) signedSum.root = true := by
  obtain ⟨-, walks, -⟩ := walks_in_order acyclic_squared
  obtain ⟨-, -, -, within⟩ := walks_in_order proper_signedSum.acyclic
  obtain ⟨-, down, -, up⟩ := walks squared.root rfl
  have number : .node 0 ∈ signedSum.descendants signedSum.root := by decide
  have root : signedSum.root ∈ signedSum.descendants signedSum.root := by decide
  refine ⟨down.trans (by decide), up.trans (by decide), ?_⟩
  exact (within proper_signedSum.single proper_signedSum.inside _ _ number root).mpr number

end Rivulet.Tree
