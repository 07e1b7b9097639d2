import Rivulet.Natives
import Rivulet.Step
import Rivulet.Machine.Call
import Rivulet.Tree.Renaming
import Mathlib.Logic.Function.Basic

/-!
What trees are under other names. Different names must stay different, and what evaluation knows of names must keep its
name (`Renaming`). The shape of a tree then stays, and so do the steps that its nodes compile to.
-/

namespace Rivulet

/-- Other names in place of texts: different texts have different ones, and the texts that evaluation itself knows have
those that it knows them by. -/
structure Renaming (M : Type) [Naming M] where
  name : String → M
  injective : Function.Injective name
  anonymous : name "" = Naming.anonymous
  standard : ∀ text ∈ Natives.texts, name text = Naming.ofText text

namespace Renaming

/-- Texts as they are. -/
def refl : Renaming String :=
  ⟨id, Function.injective_id, rfl, fun _ _ => rfl⟩

variable {M : Type} [Naming M] (naming : Renaming M)

theorem collectionName : naming.name Natives.collectionName = Natives.collectionName :=
  naming.standard _ (by decide)

theorem functionName : naming.name Natives.functionName = Natives.functionName :=
  naming.standard _ (by decide)

theorem initialName : naming.name Natives.initialName = Natives.initialName :=
  naming.standard _ (by decide)

theorem indexName : naming.name Natives.indexName = Natives.indexName :=
  naming.standard _ (by decide)

theorem resultName : naming.name Natives.resultName = Natives.resultName :=
  naming.standard _ (by decide)

theorem eq_anonymous_iff (name : String) : naming.name name = Naming.anonymous ↔ name = "" := by
  rw [← naming.anonymous, naming.injective.eq_iff]

end Renaming

theorem Form.renamed_id {N : Type} (form : Form N) : form.renamed id = form := by
  cases form <;> rfl

namespace Tree

variable {N M : Type} {rename : N → M}

theorem renamed_id (tree : Tree N) : tree.renamed id = tree := by
  have same : (Node.renamed id : Node N → Node N) = fun node => node :=
    funext fun node => congrArg (Node.mk · node.span) (Form.renamed_id node.form)
  unfold renamed
  rw [same, Array.map_id']

/-! ### Shape -/

@[simp]
theorem form?_renamed (tree : Tree N) (node : NodeId) :
    (tree.renamed rename).form? node = (tree.form? node).map (Form.renamed rename) := by
  cases node with
  | missing => rfl
  | node index =>
    show ((tree.nodes.map (Node.renamed rename))[index]?).map Node.form = ((tree.nodes[index]?).map Node.form).map _
    rw [Array.getElem?_map]
    cases tree.nodes[index]? <;> rfl

@[simp]
theorem list_renamed (tree : Tree N) (run : ChildList) : (tree.renamed rename).list run = tree.list run :=
  rfl

@[simp]
theorem root_renamed (tree : Tree N) : (tree.renamed rename).root = tree.root :=
  rfl

@[simp]
theorem height_renamed (tree : Tree N) : (tree.renamed rename).height = tree.height := by
  simp [height, size, renamed]

theorem children_renamed (tree : Tree N) : (tree.renamed rename).children = tree.children := by
  funext node
  unfold children
  rw [form?_renamed]
  cases tree.form? node with
  | none => rfl
  | some form => cases form <;> rfl

theorem descendants_renamed (tree : Tree N) (start : NodeId) :
    (tree.renamed rename).descendants start = tree.descendants start := by
  have walk (steps : Nat) (stack : List NodeId) (visited : Array NodeId) :
      (tree.renamed rename).walkDown steps stack visited = tree.walkDown steps stack visited := by
    induction steps generalizing stack visited with
    | zero => rfl
    | succ steps hypothesis =>
      cases stack with
      | nil => rfl
      | cons node stack =>
        unfold walkDown
        rw [children_renamed, hypothesis]
  have paths (depth : Nat) (node : NodeId) :
      (tree.renamed rename).pathsFrom depth node = tree.pathsFrom depth node := by
    induction depth generalizing node with
    | zero => rfl
    | succ depth hypothesis =>
      unfold pathsFrom
      simp only [children_renamed, hypothesis]
  have there : ((tree.renamed rename).node? start).isNone = (tree.node? start).isNone := by
    cases start with
    | missing => rfl
    | node index => simp [node?, renamed]
  unfold descendants
  rw [there, paths, walk, height_renamed]

end Tree

/-- The literals of a tree read as before. -/
def Tree.Reads {M : Type} [Naming M] (rename : String → M) (tree : Tree) : Prop :=
  ∀ node form, tree.form? node = some form →
    ∀ literal, form.literal? = some literal → Naming.text (rename literal) = literal

theorem Tree.reads_id (tree : Tree) : tree.Reads (fun name : String => name) :=
  fun _ _ _ _ _ => rfl

/-! ### Sequences -/

namespace Tree

variable {M : Type} [Naming M] {naming : Renaming M}

theorem declaredName?_renamed [DecidableEq M] (naming : Renaming M) (form : Form) :
    (form.renamed naming.name).declaredName? = form.declaredName?.map naming.name := by
  have same := naming.eq_anonymous_iff
  cases form with
  | function name inputs body output | record name inputs =>
    by_cases anonymous : name = "" <;> simp [Form.renamed, Form.declaredName?, same, anonymous]
  | _ => rfl

theorem declaresNames_renamed [DecidableEq M] (tree : Tree) (statements : List NodeId) :
    (tree.renamed naming.name).declaresNames statements = tree.declaresNames statements := by
  unfold declaresNames
  congr 1
  funext node
  rw [form?_renamed]
  cases tree.form? node with
  | none => rfl
  | some form => simp [declaredName?_renamed]

theorem childCode_renamed (tree : Tree) : (tree.renamed naming.name).childCode = tree.childCode := by
  funext code parent child
  unfold childCode
  rw [form?_renamed, Option.isSome_map]

theorem codeWith_renamed [DecidableEq M] (tree : Tree) : (tree.renamed naming.name).codeWith = tree.codeWith := by
  funext code node
  unfold codeWith childrenCode
  simp only [form?_renamed, childCode_renamed, list_renamed, declaresNames_renamed]
  cases tree.form? node with
  | none => rfl
  | some form => cases form <;> rfl

theorem codeTo_renamed [DecidableEq M] (tree : Tree) (depth : Nat) :
    (tree.renamed naming.name).codeTo depth = tree.codeTo depth := by
  induction depth with
  | zero => rfl
  | succ depth hypothesis =>
    funext node
    unfold codeTo
    rw [codeWith_renamed, hypothesis]

theorem code_renamed [DecidableEq M] (tree : Tree) : (tree.renamed naming.name).code = tree.code := by
  funext node
  unfold code
  rw [height_renamed, codeTo_renamed]

theorem default?_renamed (tree : Tree) : (tree.renamed naming.name).default? = tree.default? := by
  funext input
  unfold default?
  rw [form?_renamed]
  cases tree.form? input with
  | none => rfl
  | some form => cases form <;> rfl

theorem entryCode_renamed [DecidableEq M] (tree : Tree) (definition : NodeId) :
    (tree.renamed naming.name).entryCode definition = tree.entryCode definition := by
  unfold entryCode entryWith defaultWith
  simp only [form?_renamed, list_renamed, code_renamed, default?_renamed]
  cases tree.form? definition with
  | none => rfl
  | some form => cases form <;> rfl

end Tree

/-! ### Definitions -/

namespace Machine

variable {M : Type} [Naming M] {naming : Renaming M}

theorem definitionOf?_renamed (tree : Tree) (node : NodeId) :
    definitionOf? (tree.renamed naming.name) node = definitionOf? tree node := by
  unfold definitionOf?
  rw [Tree.form?_renamed]
  cases tree.form? node with
  | none => rfl
  | some form => cases form <;> rfl

theorem declaredByInput_renamed [DecidableEq M] (tree : Tree) (inputs : List NodeId) (name : String) :
    declaredByInput (tree.renamed naming.name) inputs (naming.name name) = declaredByInput tree inputs name := by
  unfold declaredByInput
  congr 1
  funext input
  rw [Tree.form?_renamed]
  cases tree.form? input with
  | none => rfl
  | some form =>
    have same := (Option.map_injective naming.injective).eq_iff (a := form.declaredName?) (b := some name)
    refine Bool.eq_iff_iff.mpr ?_
    simpa [Tree.declaredName?_renamed] using same

end Machine

end Rivulet
