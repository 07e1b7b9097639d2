import Rivulet.Proofs.Analysis.Arity
import Rivulet.Proofs.Analysis.Visibility
import Rivulet.Proofs.Segments.Charts

/-!
References to the inputs of a definition. An input is seen from a node of the tree if no block in between declares its
name before the statement that the node is in, and nothing nearer does.

Main statement: on the way from a default to a reference in it that refers to an input, nothing that is evaluated before
the reference declares the name (`Context.unshaded_of_visible?`).
-/

namespace Rivulet

open Checking

/-! ### References to inputs -/

namespace Context

variable {context : Context} {id child parent other definition : NodeId} {name : String}

/-- What a block declares is no input. -/
theorem inBlock?_ne_input (statements : List NodeId) :
    context.inBlock? statements child name ≠ some (.input other definition) := by
  have apart (node : NodeId) : context.definitionOf node ≠ .input other definition := by
    unfold definitionOf
    split <;> simp
  unfold inBlock?
  split
  · simp
  · split
    · simp [apart]
    · cases (statements.take _).reverse.find? fun statement => context.declares statement name <;> simp [apart]

/-- An input that a node sees in its parent is one of the parent, and declares the name. -/
theorem input_of_inParent? (found : context.inParent? parent child name = some (.input other definition)) :
    definition = parent ∧ declaredName? context.tree other = some name ∧
      ∃ kind inputs, Machine.definitionOf? context.tree parent = some (kind, inputs) ∧ other ∈ inputs := by
  have input {own : String} {inputs : List NodeId}
      (found : context.inDefinition? parent own inputs child name = some (.input other definition)) :
      definition = parent ∧ declaredName? context.tree other = some name ∧ other ∈ inputs := by
    unfold inDefinition? at found
    split at found
    · rename_i input is
      cases found
      have declares := List.find?_some is
      simp only [Bool.and_eq_true, declares_iff] at declares
      exact ⟨rfl, declares.2, List.mem_of_find?_eq_some is⟩
    · split at found
      · have apart : context.definitionOf parent ≠ .input other definition := by
          unfold definitionOf
          split <;> simp
        exact absurd (Option.some.inj found) apart
      · cases found
  unfold inParent? at found
  split at found
  · exact absurd found (inBlock?_ne_input _)
  · rename_i is
    obtain ⟨rfl, declares, among⟩ := input found
    exact ⟨rfl, declares, .function definition, _, by simp [Machine.definitionOf?, is], among⟩
  · rename_i is
    obtain ⟨rfl, declares, among⟩ := input found
    exact ⟨rfl, declares, .record definition, _, by simp [Machine.definitionOf?, is], among⟩
  · cases found

/-- An input that a name refers to is seen in the tree. -/
theorem visible?_of_resolve? (resolved : context.resolve? id name = some (.input other definition)) :
    context.visible? id name = some (.input other definition) := by
  rw [resolve?_eq] at resolved
  cases visible : context.visible? id name with
  | some found => simpa [visible] using resolved
  | none =>
    rw [visible, Option.none_or, outermost?] at resolved
    cases lastIndex? (fun stream : StreamSignature => stream.name == name) context.streams with
    | some index => simp at resolved
    | none => cases context.natives.find? name <;> simp at resolved

section

variable (acyclic : context.tree.Acyclic) (indexed : context.parents = .ofTree context.tree)

include acyclic indexed

/-- What a node sees is what it sees in its parent, or what the parent sees. -/
theorem visible?_eq_some {found : Definition} (visible : context.visible? child name = some found) :
    ∃ parent, context.tree.Reached parent ∧ child ∈ context.tree.children parent ∧
      (context.inParent? parent child name).or (context.visible? parent name) = some found := by
  unfold visible? at visible
  rw [indexed, Parents.ancestors_eq acyclic] at visible
  cases around : (Parents.ofTree context.tree).parent? child with
  | none => simp [around, inAncestors?] at visible
  | some parent =>
    obtain ⟨reached, link⟩ := Parents.child_of_parent? around
    refine ⟨parent, reached, link, ?_⟩
    rw [← visible, around, visible?, indexed, inAncestors?]
    cases context.inParent? parent child name <;> rfl

/-- An input that is seen is one of a definition that the walk from the root comes to, and declares the name. -/
theorem input_of_visible? (visible : context.visible? id name = some (.input other definition)) :
    context.tree.Reached definition ∧ declaredName? context.tree other = some name ∧
      ∃ kind inputs, Machine.definitionOf? context.tree definition = some (kind, inputs) ∧ other ∈ inputs := by
  induction size : context.tree.height - context.tree.rank id using Nat.strong_induction_on generalizing id with
  | _ count hypothesis =>
    obtain ⟨parent, reached, link, found⟩ := visible?_eq_some acyclic indexed visible
    cases here : context.inParent? parent id name with
    | some input =>
      rw [here, Option.some_or, Option.some.injEq] at found
      subst found
      obtain ⟨rfl, declares, kind, inputs, of, among⟩ := input_of_inParent? here
      exact ⟨reached, declares, kind, inputs, of, among⟩
    | none =>
      rw [here, Option.none_or] at found
      have higher := Tree.rank_lt_of_child acyclic (Tree.child_of_mem_children link)
      have bounded := Tree.rank_lt_height acyclic parent
      exact hypothesis _ (by omega) found rfl

end

/-- Where a part of a node sees an input, the node sees it too, and no block in between declares the name before the
part. -/
theorem visible?_of_codeChild (proper : context.tree.Proper) (indexed : context.parents = .ofTree context.tree)
    (link : child ∈ context.tree.codeChildren parent)
    (visible : context.visible? child name = some (.input other definition)) :
    context.visible? parent name = some (.input other definition) ∧
      ∀ statements, context.tree.form? parent = some (.block statements) →
        context.inBlock? (context.tree.list statements) child name = none := by
  obtain ⟨below, there, defines⟩ := Tree.of_mem_codeChildren link
  have link' : child ∈ context.tree.children parent := Tree.mem_children_iff.mpr ⟨below, isPresent_of_isSome there⟩
  obtain ⟨outer, -, around, found⟩ := visible?_eq_some proper.acyclic indexed visible
  obtain rfl := proper.single child outer parent around link'
  have none : context.inParent? outer child name = none := by
    cases here : context.inParent? outer child name with
    | none => rfl
    | some input =>
      rw [here, Option.some_or, Option.some.injEq] at found
      subst found
      obtain ⟨rfl, -, kind, inputs, of, -⟩ := input_of_inParent? here
      rw [defines] at of
      cases of
  refine ⟨by rwa [none, Option.none_or] at found, fun statements is => ?_⟩
  simpa [inParent?, is] using none

/-- Wherever a part of a node sees an input, the node sees it too. -/
theorem visible?_of_isPart (proper : context.tree.Proper) (indexed : context.parents = .ofTree context.tree)
    (part : context.tree.IsPart child id) (visible : context.visible? child name = some (.input other definition)) :
    context.visible? id name = some (.input other definition) := by
  induction part with
  | refl => exact visible
  | tail _ link hypothesis => exact (visible?_of_codeChild proper indexed link hypothesis).1

end Context

/-! ### Declarations in a default -/

namespace Tree

variable {tree : Tree} {name : String} {id reference : NodeId}

/-- Where a name is declared among the parts of a node, a statement of a block does so. -/
def DeclaresInBlocks (tree : Tree) (name : String) (id : NodeId) : Prop :=
  ∀ part, tree.IsPart part id → declaredName? tree part = some name →
    ∃ block statements, tree.form? block = some (.block statements) ∧ part ∈ tree.list statements

/-- Blocks among the parts of a node declare a name only behind a reference that is a part too, as far as they have it
for a part, and nothing else declares the name. -/
structure Unshaded (tree : Tree) (name : String) (reference id : NodeId) : Prop where
  inBlocks : ∀ parent, tree.IsPart parent id → ∀ child ∈ tree.codeChildren parent,
    declaredName? tree child = some name → ∃ statements, tree.form? parent = some (.block statements)
  later : ∀ block statements before statement following, tree.IsPart block id →
    tree.form? block = some (.block statements) → tree.list statements = before ++ statement :: following →
    statement ∈ tree.codeChildren block → tree.IsPart reference statement →
    ∀ earlier ∈ before, declaredName? tree earlier ≠ some name

theorem Unshaded.child {part : NodeId} (unshaded : tree.Unshaded name reference id)
    (link : part ∈ tree.codeChildren id) : tree.Unshaded name reference part where
  inBlocks parent below := unshaded.inBlocks parent (below.tail link)
  later block statements before statement following below :=
    unshaded.later block statements before statement following (below.tail link)

end Tree

/-- A reference to an input is not shaded by what is declared on the way to it. -/
theorem Context.unshaded_of_visible? {context : Context} {name : String} {id reference other definition : NodeId}
    (proper : context.tree.Proper) (indexed : context.parents = .ofTree context.tree)
    (visible : context.visible? reference name = some (.input other definition))
    (inBlocks : context.tree.DeclaresInBlocks name id) : context.tree.Unshaded name reference id where
  inBlocks parent part child link declares := by
    obtain ⟨block, statements, is, among⟩ := inBlocks child (part.head link) declares
    obtain ⟨below, there, -⟩ := Tree.of_mem_codeChildren link
    have present := isPresent_of_isSome there
    have single := proper.single child parent block (Tree.mem_children_iff.mpr ⟨below, present⟩)
      (Tree.mem_children_iff.mpr ⟨⟨_, is, among⟩, present⟩)
    exact ⟨statements, single ▸ is⟩
  later block statements before statement following part is split link inside earlier among declares := by
    have seen := visible?_of_isPart proper indexed inside visible
    have none := (visible?_of_codeChild proper indexed link seen).2 statements is
    obtain ⟨-, there, -⟩ := Tree.of_mem_codeChildren link
    have present := isPresent_of_isSome there
    have fresh : statement ∉ before := by
      have children : context.tree.children block = (context.tree.list statements).filter NodeId.isPresent := by
        rw [Tree.children, is]
        rfl
      have once := proper.once block
      rw [children, split, List.filter_append, List.filter_cons_of_pos present] at once
      intro twice
      exact (List.nodup_append.mp once).2.2 statement (List.mem_filter.mpr ⟨twice, present⟩) statement
        List.mem_cons_self rfl
    have found : (context.tree.list statements).idxOf? statement = some before.length := by
      have bound : before.length < (context.tree.list statements).length := by simp [split]
      refine List.idxOf?_eq_some_iff.mpr ⟨bound, by simp [split], fun position less => ?_⟩
      have is : (context.tree.list statements)[position] = before[position] := by
        simp only [split]
        exact List.getElem_append_left less
      rw [is]
      rintro rfl
      exact fresh (List.getElem_mem less)
    simp only [inBlock?, found] at none
    split at none
    · cases none
    · rw [Option.map_eq_none_iff, List.find?_eq_none, split, List.take_left] at none
      exact none earlier (List.mem_reverse.mpr among) (declares_iff.mpr declares)

end Rivulet
