import Rivulet.Proofs.Meaning
import Rivulet.Proofs.Tree.Shape

/-!
The recursion over nodes. In a tree without cycles the height of the tree is never in the way: the value
of a node is made of the values of its children (`node_eq`).
-/

namespace Rivulet.Meaning

variable {α β : Type}

theorem mapM_congr {elements : List β} {each each' : β → Eval α}
    (same : ∀ element ∈ elements, each element = each' element) :
    elements.mapM each = elements.mapM each' := by
  induction elements with
  | nil => rfl
  | cons element rest hypothesis =>
    rw [List.mapM_cons, List.mapM_cons, same element (by simp),
      hypothesis fun other inRest => same other (by simp [inRest])]

section

variable {setting : Setting} {call : Caller} {node node' : Evaluator} {rank : NodeId → Nat}
  {id : NodeId}

theorem childWith_congr {evaluated evaluated' : NodeId → Eval Value} (parent : NodeId) {child : NodeId}
    (same : evaluated child = evaluated' child) :
    childWith setting.tree evaluated parent child = childWith setting.tree evaluated' parent child := by
  rw [childWith, childWith, same]

/-- The value of a node depends on how the nodes below it are evaluated, and on no others. -/
theorem nodeWith_congr
    (lower : ∀ child parent, setting.tree.Child child parent → rank child < rank parent)
    (same : ∀ scope child, rank child < rank id → node scope child = node' scope child)
    (scope : ScopeId) :
    nodeWith setting node call scope id = nodeWith setting node' call scope id := by
  unfold nodeWith
  dsimp only
  cases is : setting.tree.form? id with
  | none => rfl
  | some form =>
    have child (scope : ScopeId) (child : NodeId) (link : child ∈ form.links setting.tree.list) :
        childWith setting.tree (node scope) id child = childWith setting.tree (node' scope) id child :=
      childWith_congr id (same scope child (lower child id ⟨form, is, link⟩))
    have list (scope : ScopeId) (list : List NodeId)
        (links : ∀ child ∈ list, child ∈ form.links setting.tree.list) :
        list.mapM (childWith setting.tree (node scope) id) =
          list.mapM (childWith setting.tree (node' scope) id) :=
      mapM_congr fun element among => child scope element (links element among)
    cases form with
    | program body => exact child scope body (by simp [Form.links])
    | block statements =>
      have evaluated (scope : ScopeId) :
          statementsWith setting.tree (node scope) id (setting.tree.list statements) =
            statementsWith setting.tree (node' scope) id (setting.tree.list statements) := by
        rw [statementsWith, statementsWith, list scope _ (by simp [Form.links])]
      simp only [blockWith, evaluated]
    | bind name value => simp only [child scope value (by simp [Form.links])]
    | sequence items => simp only [list scope (setting.tree.list items) (by simp [Form.links])]
    | set items => simp only [list scope (setting.tree.list items) (by simp [Form.links])]
    | mapping entries =>
      have each : (setting.tree.list entries).mapM (entryWith setting.tree (node scope) id) =
          (setting.tree.list entries).mapM (entryWith setting.tree (node' scope) id) := by
        refine mapM_congr fun entry among => ?_
        have link := lower entry id ⟨_, is, by simpa [Form.links] using among⟩
        unfold entryWith
        cases is' : setting.tree.form? entry with
        | none => rfl
        | some form =>
          cases form with
          | pair key value =>
            have part (part : NodeId) (among : part ∈ [key, value]) :
                childWith setting.tree (node scope) entry part =
                  childWith setting.tree (node' scope) entry part := by
              have below := lower part entry ⟨_, is', by simpa [Form.links] using among⟩
              exact childWith_congr entry (same scope part (Nat.lt_trans below link))
            simp only [part key (by simp), part value (by simp)]
          | _ => rfl
      simp only [each]
    | property owner name => simp only [child scope owner (by simp [Form.links])]
    | binary op left right =>
      simp only [child scope left (by simp [Form.links]), child scope right (by simp [Form.links])]
    | unary op operand => simp only [child scope operand (by simp [Form.links])]
    | conditional condition yes no =>
      simp only [child scope condition (by simp [Form.links]), child scope yes (by simp [Form.links]),
        child scope no (by simp [Form.links])]
    | call callee arguments =>
      simp only [child scope callee (by simp [Form.links]),
        list scope (setting.tree.list arguments) fun argument among => by simp [Form.links, among]]
    | _ => rfl

/-- All depths that the descendants of a node do not reach give it the same value. -/
theorem nodeTo_eq_nodeTo
    (lower : ∀ child parent, setting.tree.Child child parent → rank child < rank parent)
    {depth depth' : Nat} (enough : rank id < depth) (enough' : rank id < depth') (scope : ScopeId) :
    nodeTo setting call depth scope id = nodeTo setting call depth' scope id := by
  induction depth generalizing depth' scope id with
  | zero => omega
  | succ depth hypothesis =>
    obtain ⟨depth', rfl⟩ : ∃ less, depth' = less + 1 := ⟨depth' - 1, by omega⟩
    refine nodeWith_congr lower (fun scope child below => ?_) scope
    exact hypothesis (by omega) (by omega) scope

end

/-- The value of a node is made of the values of its children, and of calls. -/
theorem node_eq {setting : Setting} (acyclic : setting.tree.Acyclic) (calls : Nat) (scope : ScopeId)
    (id : NodeId) :
    node setting calls scope id =
      nodeWith setting (node setting calls) (callTo setting calls) scope id := by
  obtain ⟨rank, lower, bounded⟩ := Tree.exists_rank acyclic
  refine nodeWith_congr lower (fun scope child below => ?_) scope
  have := bounded id
  have height : setting.tree.height = setting.tree.size + 1 := rfl
  exact nodeTo_eq_nodeTo lower (by omega) (bounded child) scope

end Rivulet.Meaning
