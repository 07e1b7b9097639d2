import Rivulet.Tree

/-!
Ranks. Where no node lies below itself in some relation, every node has a rank: it is less than the height of the tree,
and nodes further down have lower ones. So whatever follows the relation down to the height of the tree comes to an end
before.
-/

namespace Rivulet

theorem not_rel_self_of_acc {α : Type} {relation : α → α → Prop} {element : α} (acc : Acc relation element) :
    ¬ relation element element := by
  induction acc with
  | intro element _ hypothesis => exact fun loop => hypothesis element loop loop

namespace Tree

variable {N : Type} {tree : Tree N}

theorem form?_missing : tree.form? .missing = none :=
  rfl

theorem form?_eq_some_iff {index : Nat} {form : Form N} :
    tree.form? (.node index) = some form ↔ ∃ node, tree.nodes[index]? = some node ∧ node.form = form := by
  simp [form?, node?]

theorem lt_size_of_form? {index : Nat} (is : (tree.form? (.node index)).isSome) :
    index < tree.size := by
  obtain ⟨form, is⟩ := Option.isSome_iff_exists.mp is
  obtain ⟨node, there, -⟩ := form?_eq_some_iff.mp is
  exact (Array.getElem?_eq_some_iff.mp there).1

open Classical in
/-- The positions of the nodes that a relation leads down to from a node. -/
noncomputable def belowBy (tree : Tree N) (relation : NodeId → NodeId → Prop) (id : NodeId) : List Nat :=
  (List.range tree.size).filter fun index => Relation.TransGen relation (.node index) id

/-- How far up a node stands: zero for what is no node, and otherwise one more than there are nodes
below it. -/
noncomputable def rankBy (tree : Tree N) (relation : NodeId → NodeId → Prop) (id : NodeId) : Nat :=
  if (tree.form? id).isSome then (tree.belowBy relation id).length + 1 else 0

variable {relation : NodeId → NodeId → Prop} (acyclic : ∀ id, ¬ Relation.TransGen relation id id)

theorem mem_belowBy {index : Nat} {id : NodeId} :
    index ∈ tree.belowBy relation id ↔ index < tree.size ∧ Relation.TransGen relation (.node index) id := by
  simp [belowBy]

include acyclic

theorem rankBy_lt {lower upper : NodeId} (link : relation lower upper) (there : (tree.form? upper).isSome) :
    tree.rankBy relation lower < tree.rankBy relation upper := by
  classical
  by_cases lowerIs : (tree.form? lower).isSome
  · simp only [rankBy, lowerIs, there, if_true]
    -- Some of what lies below the upper node lies below the lower one, and the lower one itself does not.
    have among : tree.belowBy relation lower = (tree.belowBy relation upper).filter fun index =>
        Relation.TransGen relation (.node index) lower := by
      unfold belowBy
      rw [List.filter_filter]
      refine List.filter_congr fun index _ => ?_
      by_cases path : Relation.TransGen relation (.node index) lower
      · simp [path, path.tail link]
      · simp [path]
    have fewer : (tree.belowBy relation lower).length < (tree.belowBy relation upper).length := by
      rw [among, List.length_filter_lt_length_iff_exists]
      cases lower with
      | missing => simp [form?_missing] at lowerIs
      | node index => exact ⟨index, mem_belowBy.mpr ⟨lt_size_of_form? lowerIs, .single link⟩, by simpa using acyclic _⟩
    omega
  · simp [rankBy, lowerIs, there]

theorem rankBy_lt_height (id : NodeId) : tree.rankBy relation id < tree.height := by
  classical
  unfold rankBy height
  split
  case isFalse => omega
  case isTrue is =>
    cases id with
    | missing => simp [form?_missing] at is
    | node index =>
      have fewer : (tree.belowBy relation (.node index)).length < (List.range tree.size).length := by
        unfold belowBy
        rw [List.length_filter_lt_length_iff_exists]
        exact ⟨index, List.mem_range.mpr (lt_size_of_form? is), by simpa using acyclic _⟩
      rw [List.length_range] at fewer
      omega

end Tree

end Rivulet
