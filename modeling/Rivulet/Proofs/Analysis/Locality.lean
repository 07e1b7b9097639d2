import Rivulet.Proofs.Analysis.Continuation
import Rivulet.Proofs.Analysis.Edges

/-!
What an analysis reports about the statements of a program, when more lines are appended. The nodes of the statements
before are walked first and answer for what they answered for; the block has complaints to add at the later statements
only; and no node of a later statement answers for one of an earlier statement.

Main statement: conflicts in the statements before, and what names refer to there, stay as they were
(`reports_of_followedBy`).
-/

namespace Rivulet

open Typing Checking

/-! ### Statements -/

/-- Whether a node lies in a statement of a program. -/
def Tree.inStatement (tree : Tree) (id : NodeId) : Bool :=
  tree.statements.any fun statement => (tree.descendants statement).contains id

namespace Tree.IsProgram

variable {tree : Tree} {count : Nat} {statements : List NodeId} (program : tree.IsProgram count statements)
  {id child parent statement : NodeId} {index : Nat}

include program

theorem statements_eq : tree.statements = statements := by
  obtain ⟨list, is, stored⟩ := program.block
  unfold Tree.statements
  simp only [program.root, is, stored]

/-- A node lies in a statement if the walk gets there from the statement. -/
theorem inStatement_iff : tree.inStatement id = true ↔ id ∈ statements.flatMap tree.preorder := by
  unfold inStatement
  rw [program.statements_eq, List.any_eq_true, List.mem_flatMap]
  refine exists_congr fun statement => and_congr_right fun among => ?_
  rw [List.contains_iff_mem,
    descendants_eq program.written.acyclic (regular_of_isStatement (program.isStatement among)).1]

/-- The nodes of statements come before the block. -/
theorem exists_index_of_inStatement (inside : tree.inStatement id = true) : ∃ index < count, id = .node index := by
  obtain ⟨statement, among, below⟩ := List.mem_flatMap.mp (program.inStatement_iff.mp inside)
  have path := (mem_preorder_iff program.written.acyclic).mp below
  clear inside below
  induction path using Relation.ReflTransGen.head_induction_on with
  | refl =>
    obtain ⟨index, rfl⟩ := NodeId.exists_index (program.isPresent_of_mem among)
    exact ⟨index, program.before _ among, rfl⟩
  | head link _ hypothesis =>
    obtain ⟨above, before, rfl⟩ := hypothesis
    obtain ⟨index, rfl⟩ := NodeId.exists_index (isPresent_of_mem_children link)
    exact ⟨index, @before_of_child _ _ _ program _ (.node above) before (child_of_mem_children link), rfl⟩

theorem inStatement_of_le (enough : count ≤ index) : tree.inStatement (.node index) = false := by
  cases inside : tree.inStatement (.node index) with
  | false => rfl
  | true =>
    obtain ⟨other, bound, same⟩ := program.exists_index_of_inStatement inside
    cases same
    omega

/-- A program is walked from the root to the block, and then statement by statement. -/
theorem descendants_root : tree.descendants tree.root = tree.root :: .node count :: statements.flatMap tree.preorder := by
  have acyclic := program.written.acyclic
  have below : tree.children tree.root = [.node count] := by
    rw [Tree.children, program.root]
    rfl
  rw [descendants_eq acyclic (by simp [program.root]), preorder_eq acyclic, below, List.flatMap_singleton,
    preorder_eq acyclic, program.children_block]

/-! ### Conflicts -/

variable {σ : Type} (natives : Natives) (streams : List StreamSignature) (lookup : SourceLookup σ)

/-- A block complains about itself and about names that are declared again; binds are results of the program, whether
they are used or not. -/
theorem checkBlock_eq :
    (Checking.ofTree tree natives streams lookup).checkBlock (.node count) statements =
      require (.node count) statements ++ ending tree (.node count) statements ++ duplicates tree [] statements := by
  have link : .node count ∈ tree.children tree.root := by
    rw [Tree.children, program.root]
    exact List.mem_singleton_self _
  unfold Checking.checkBlock Checking.isTopLevel
  simp only [Checking.ofTree, Context.ofTree, program.written.parent?_eq_some_iff.mpr link, Option.bind_some,
    program.root, if_true, List.append_nil]

theorem conflicts_analyze (host : σ) :
    let checking := Checking.ofTree tree natives streams lookup
    (Analysis.analyze tree natives streams lookup host).1.conflicts =
      checking.checkBlock (.node count) statements ++
        (((statements.flatMap tree.preorder).mapM checking.check).run (initial tree host)).1.flatten := by
  intro checking
  obtain ⟨list, is, stored⟩ := program.block
  have root : checking.check tree.root = pure [] := by
    have is : checking.context.tree.form? tree.root = some (.program (.node count)) := program.root
    unfold Checking.check
    simp only [is]
    rfl
  have block : checking.check (.node count) = pure (checking.checkBlock (.node count) statements) := by
    have is : checking.context.tree.form? (.node count) = some (.block list) := is
    unfold Checking.check
    simp only [is]
    rw [show checking.context.tree.list list = statements from stored]
  have found : (Analysis.analyze tree natives streams lookup host).1.conflicts =
      (((tree.descendants tree.root).mapM checking.check).run (initial tree host)).1.flatten := rfl
  rw [found, program.descendants_root, List.mapM_cons, List.mapM_cons, root, block]
  rfl

end Tree.IsProgram

/-! ### Statements that are appended -/

namespace Tree.Continues

variable {tree tree' : Tree} {count count' : Nat} {earlier later : List NodeId}
  (continues : tree.Continues tree' count count' earlier later) {id parent : NodeId} {index : Nat}

include continues

/-- What lies below a node that was appended was appended too. -/
theorem appended_of_child (enough : count ≤ index) (bound : index < count') (link : id ∈ tree'.children (.node index)) :
    ∃ below, id = .node below ∧ count ≤ below ∧ below < count' := by
  obtain ⟨below, rfl⟩ := NodeId.exists_index (isPresent_of_mem_children link)
  have older := continues.second.written.older _ _ (child_of_mem_children link)
  have less : below < index := by simpa [isOlder] using older
  refine ⟨below, rfl, Nat.le_of_not_lt fun before => ?_, Nat.lt_trans less bound⟩
  rcases continues.parent_of_before before link with ⟨-, same⟩ | ⟨above, inside, same⟩
  · cases same
    omega
  · cases same
    omega

theorem appended_of_mem (among : id ∈ later) : ∃ index, id = .node index ∧ count ≤ index ∧ index < count' := by
  have inside := List.mem_append_right earlier among
  obtain ⟨index, rfl⟩ := NodeId.exists_index (continues.second.isPresent_of_mem inside)
  refine ⟨index, rfl, Nat.le_of_not_lt fun before => ?_, continues.second.before _ inside⟩
  have statements := continues.second.children_block
  rcases continues.parent_of_before before (statements ▸ inside) with ⟨twice, -⟩ | ⟨above, bound, same⟩
  · have distinct : (earlier ++ later).Nodup := statements ▸ continues.second.written.once (.node count')
    exact (List.nodup_append.mp distinct).2.2 _ twice _ among rfl
  · cases same
    have longer := continues.longer
    omega

/-- The nodes of statements that are appended come behind those of the statements before. -/
theorem appended_of_preorder (among : id ∈ later.flatMap tree'.preorder) :
    ∃ index, id = .node index ∧ count ≤ index ∧ index < count' := by
  obtain ⟨statement, there, below⟩ := List.mem_flatMap.mp among
  have path := (mem_preorder_iff continues.second.written.acyclic).mp below
  clear among below
  induction path using Relation.ReflTransGen.head_induction_on with
  | refl => exact continues.appended_of_mem there
  | head link _ hypothesis =>
    obtain ⟨index, rfl, enough, bound⟩ := hypothesis
    exact continues.appended_of_child enough bound link

/-- Statements that are appended add to the complaints about names that are declared again, at these statements. -/
theorem duplicates_append (declared : List (String × NodeId)) {first : List NodeId}
    (within : ∀ statement ∈ first, statement.Before count) (second : List NodeId) :
    ∃ others, duplicates tree' declared (first ++ second) = duplicates tree declared first ++ others ∧
      Confined (· ∈ second) others := by
  induction first generalizing declared with
  | nil => exact ⟨_, rfl, confined_duplicates _ _ fun _ => id⟩
  | cons statement first hypothesis =>
    obtain ⟨here, rest⟩ := List.forall_mem_cons.mp within
    rw [List.cons_append]
    unfold duplicates
    have same : declaredName? tree' statement = declaredName? tree statement := by
      unfold declaredName?
      rw [continues.shares.form?_eq statement here]
    rw [same]
    cases declaredName? tree statement with
    | none => exact hypothesis declared rest
    | some name =>
      dsimp only
      cases declared.lookup name with
      | none => exact hypothesis _ rest
      | some _ =>
        obtain ⟨others, is, confined⟩ := hypothesis declared rest
        exact ⟨others, congrArg (_ :: ·) is, confined⟩

theorem inStatement_of_later (among : id ∈ later) : tree.inStatement id = false := by
  obtain ⟨index, rfl, enough, -⟩ := continues.appended_of_mem among
  exact continues.first.inStatement_of_le enough

/-- The statements before are walked first, and in the same way. -/
theorem walked_eq : (earlier ++ later).flatMap tree'.preorder =
    earlier.flatMap tree.preorder ++ later.flatMap tree'.preorder := by
  have same : earlier.flatMap tree'.preorder = earlier.flatMap tree.preorder :=
    List.flatMap_congr fun statement among => continues.preorder_eq (continues.first.before statement among)
  rw [List.flatMap_append, same]

variable {σ : Type} (natives : Natives) (streams : List StreamSignature)

/-- In the statements before, the block complains about the same. -/
theorem filter_checkBlock (lookup : SourceLookup σ) :
    ((Checking.ofTree tree' natives streams lookup).checkBlock (.node count') (earlier ++ later)).filter
        (fun conflict => tree.inStatement conflict.primary) =
      ((Checking.ofTree tree natives streams lookup).checkBlock (.node count) earlier).filter
        fun conflict => tree.inStatement conflict.primary := by
  have around (tree'' : Tree) (statements : List NodeId) {index : Nat} (enough : count ≤ index) :
      (require (.node index) statements ++ ending tree'' (.node index) statements).filter
        (fun conflict => tree.inStatement conflict.primary) = [] := by
    let AtBlock (id : NodeId) : Prop := id = .node index
    have here : AtBlock (.node index) := rfl
    have confined := confined_append (confined_require here statements) (confined_ending tree'' here statements)
    exact confined.filter_eq_nil fun id same => same ▸ continues.first.inStatement_of_le enough
  obtain ⟨others, is, confined⟩ := continues.duplicates_append [] continues.first.before later
  have behind := confined.filter_eq_nil fun id among => continues.inStatement_of_later among
  rw [continues.first.checkBlock_eq, continues.second.checkBlock_eq, is, List.filter_append,
    around tree' _ continues.longer, List.filter_append, behind, List.append_nil, List.filter_append,
    around tree _ (Nat.le_refl count)]

/-- No node that was appended answers for a node of the statements before. -/
theorem filter_appended (lookup : SourceLookup σ) (state : TypeState σ) :
    (((later.flatMap tree'.preorder).mapM (Checking.ofTree tree' natives streams lookup).check).run state).1.flatten.filter
      (fun conflict => tree.inStatement conflict.primary) = [] := by
  refine List.filter_eq_nil_iff.mpr fun conflict among chosen => ?_
  obtain ⟨conflicts, found, inside⟩ := List.mem_flatten.mp among
  let anywhere : IsPreorder (TypeState σ) (fun _ _ => True) :=
    { refl := fun _ => trivial, trans := fun _ _ _ _ _ => trivial }
  obtain ⟨id, walked, between, -, rfl⟩ := @exists_element_of_mapM _ _ _ (fun _ _ => True) anywhere _ _
    (fun _ _ _ => trivial) conflicts state found
  obtain ⟨index, rfl, enough, bound⟩ := continues.appended_of_preorder walked
  obtain ⟨place, before, same⟩ := continues.first.exists_index_of_inStatement chosen
  rcases primary_of_mem_check inside with own | link
  · cases own.symm.trans same
    omega
  · have below : .node place ∈ tree'.children (.node index) := mem_children_iff.mpr ⟨same ▸ link, rfl⟩
    obtain ⟨_, is, behind, -⟩ := continues.appended_of_child enough bound below
    cases is
    omega

variable (answer : String → SourceType) (host : σ)

/-- The conflicts in the statements before are the same ones in the same order. -/
theorem filter_conflicts :
    ((Analysis.analyze tree' natives streams (.steady answer) host).1.conflicts.filter fun conflict =>
        tree.inStatement conflict.primary) =
      (Analysis.analyze tree natives streams (.steady answer) host).1.conflicts.filter fun conflict =>
        tree.inStatement conflict.primary := by
  let checking : Checking σ := .ofTree tree natives streams (.steady answer)
  let checking' : Checking σ := .ofTree tree' natives streams (.steady answer)
  let nodes := earlier.flatMap tree.preorder
  have enough : count ≤ tree.size := continues.first.size_eq ▸ Nat.le_add_right _ _
  have enough' : count ≤ tree'.size := Nat.le_trans continues.longer (continues.second.size_eq ▸ Nat.le_add_right _ _)
  have checks : Matches (@Alike σ count count) (nodes.mapM checking.check) (nodes.mapM checking'.check) := by
    refine matches_mapM fun id among => continues.matches_check ?_
    obtain ⟨index, before, rfl⟩ := continues.first.exists_index_of_inStatement (continues.first.inStatement_iff.mpr among)
    exact before
  obtain ⟨same, -⟩ := checks _ _ (Alike.initial enough enough' host)
  have both : (((nodes ++ later.flatMap tree'.preorder).mapM checking'.check).run (initial tree' host)).1 =
      ((nodes.mapM checking'.check).run (initial tree' host)).1 ++
        (((later.flatMap tree'.preorder).mapM checking'.check).run
          ((nodes.mapM checking'.check).run (initial tree' host)).2).1 := by
    rw [List.mapM_append]
    rfl
  rw [continues.first.conflicts_analyze, continues.second.conflicts_analyze, continues.walked_eq, both,
    List.flatten_append, List.filter_append, List.filter_append, List.filter_append, continues.filter_checkBlock,
    continues.filter_appended, List.append_nil, same]

/-- What names refer to in the statements before. -/
theorem resolution?_eq {id : NodeId} (inside : tree.inStatement id = true) :
    (Analysis.analyze tree' natives streams (.steady answer) host).1.resolution? id =
      (Analysis.analyze tree natives streams (.steady answer) host).1.resolution? id := by
  obtain ⟨index, before, rfl⟩ := continues.first.exists_index_of_inStatement inside
  have here : (NodeId.node index).Before count := before
  have same : tree'.form? (.node index) = tree.form? (.node index) := continues.shares.form?_eq _ here
  by_cases reference : ∃ name, tree.form? (.node index) = some (.reference name)
  · obtain ⟨name, is⟩ := reference
    have reached := continues.first.written.reached (.node index) (by simp [is])
    have reached' := continues.second.written.reached (.node index) (by simp [same, is])
    have first := @Context.resolution?_referencesOf (.ofTree tree natives streams) _ _ _ reached is
    have second := @Context.resolution?_referencesOf (.ofTree tree' natives streams) _ _ _ reached' (same.trans is)
    exact second.trans ((continues.concurs.resolve?_eq here is).trans first.symm)
  · have none (name : String) : tree.form? (.node index) ≠ some (.reference name) := not_exists.mp reference name
    have first := @Context.resolution?_eq_none (.ofTree tree natives streams) _ (tree.descendants tree.root) none
    have second := @Context.resolution?_eq_none (.ofTree tree' natives streams) _ (tree'.descendants tree'.root)
      fun name => same ▸ none name
    exact second.trans first.symm

end Tree.Continues

namespace Line

/-- Appending lines to a source changes nothing about what is reported in its statements: their conflicts are the same
ones in the same order, their nodes are as they were, and their names refer to the same. -/
theorem reports_of_followedBy {text more : String} {tree tree' : Tree} (read : parse false text = .ok tree)
    (read' : parse false (followedBy text more) = .ok tree') (natives : Natives) (streams : List StreamSignature)
    {σ : Type} (answer : String → SourceType) (host : σ) :
    let analysis := (Analysis.analyze tree natives streams (.steady answer) host).1
    let analysis' := (Analysis.analyze tree' natives streams (.steady answer) host).1
    (analysis'.conflicts.filter fun conflict => tree.inStatement conflict.primary) =
        (analysis.conflicts.filter fun conflict => tree.inStatement conflict.primary) ∧
      ∀ id, tree.inStatement id = true → tree'.inStatement id = true ∧ tree'.node? id = tree.node? id ∧
        analysis'.resolution? id = analysis.resolution? id := by
  obtain ⟨count, count', earlier, later, continues⟩ := continues_of_followedBy read read'
  refine ⟨continues.filter_conflicts natives streams answer host, fun id inside => ⟨?_, ?_, ?_⟩⟩
  · rw [continues.second.inStatement_iff, continues.walked_eq]
    exact List.mem_append_left _ (continues.first.inStatement_iff.mp inside)
  · obtain ⟨index, before, rfl⟩ := continues.first.exists_index_of_inStatement inside
    exact continues.node?_eq index before
  · exact continues.resolution?_eq natives streams answer host inside

/-- A name that nothing declares. -/
def undeclared : Tree where
  nodes := #[⟨.reference "a", ⟨0, 1⟩⟩, ⟨.block ⟨0, 1⟩, ⟨0, 2⟩⟩, ⟨.program (.node 1), ⟨0, 3⟩⟩]
  lists := #[.node 0]
  root := .node 2

/-- A name that is declared too late. -/
def declaredLate : Tree where
  nodes := #[⟨.reference "a", ⟨0, 1⟩⟩, ⟨.number "1" .unitless, ⟨1, 2⟩⟩, ⟨.bind "a" (.node 1) none false, ⟨1, 3⟩⟩,
    ⟨.block ⟨0, 2⟩, ⟨0, 4⟩⟩, ⟨.program (.node 3), ⟨0, 5⟩⟩]
  lists := #[.node 0, .node 2]
  root := .node 4

/-- A line that declares a name comes too late for those before. -/
theorem reports_of_late_declaration :
    let analysis := (Analysis.analyze undeclared .standard [] (.steady fun _ => .missing) ()).1
    let analysis' := (Analysis.analyze declaredLate .standard [] (.steady fun _ => .missing) ()).1
    parse false "a" = .ok undeclared ∧ parse false (followedBy "a" "a: 1") = .ok declaredLate ∧
      (analysis'.conflicts.filter fun conflict => undeclared.inStatement conflict.primary) =
        [.alone (.unknownName "a") (.node 0)] ∧
      analysis'.resolution? (.node 0) = analysis.resolution? (.node 0) := by
  intro analysis analysis'
  have read : parse false "a" = .ok undeclared := by decide +kernel
  have read' : parse false (followedBy "a" "a: 1") = .ok declaredLate := by decide +kernel
  obtain ⟨conflicts, rest⟩ := reports_of_followedBy read read' .standard [] (fun _ => .missing) ()
  have first : (analysis.conflicts.filter fun conflict => undeclared.inStatement conflict.primary) =
      [.alone (.unknownName "a") (.node 0)] := by decide +kernel
  exact ⟨read, read', conflicts.trans first, (rest (.node 0) (by decide +kernel)).2.2⟩

end Line

end Rivulet
