import Rivulet.Step
import Rivulet.Tree.Rank

/-!
The cache of a program. A node is compiled when its sequence is first needed, from the sequences of its children, and
an entry when a definition is first called; both are kept from then on, and later evaluations find them.

Nothing of this can be told from what is compiled: a cache is faithful if it holds the sequences of its tree, asking it
keeps it so, and whatever a faithful cache holds, it gives the sequence that compiling the tree afresh would
(`StepCache.IsFaithful.compile`, `StepCache.IsFaithful.entry`).
-/

namespace Rivulet

/-- The sequences compiled so far, each with its node, and the entries, each with its definition. -/
structure StepCache where
  sequences : List (NodeId × Array Step) := []
  entries : List (NodeId × Array Step) := []
deriving DecidableEq, Repr, Inhabited

namespace StepCache

variable {N : Type} [DecidableEq N] [Naming N]

/-- How many nodes were compiled so far. -/
def size (cache : StepCache) : Nat :=
  cache.sequences.length

/-- The sequence kept for a node. A node that leads back to itself has none that could be kept, and what it compiles to
breaks off. -/
def sequence (cache : StepCache) (tree : Tree N) (id : NodeId) : Array Step :=
  match cache.sequences.lookup id with
  | some steps => steps
  | none => (tree.code id).toArray

/-- Compiles a node that is not compiled yet, after its children; this gives up further down than a depth. -/
def compileTo (tree : Tree N) : Nat → StepCache → NodeId → Option StepCache
  | 0, _, _ => none
  | depth + 1, cache, id =>
    if (cache.sequences.lookup id).isSome then some cache
    else do
      let cache ← (tree.codeChildren id).foldlM (compileTo tree depth) cache
      let steps := tree.codeWith (fun child => (cache.sequence tree child).toList) id
      some { cache with sequences := (id, steps.toArray) :: cache.sequences }

/-- The sequence of a node, and the cache after it was asked for. -/
def compile (cache : StepCache) (tree : Tree N) (id : NodeId) : Array Step × StepCache :=
  let cache := (compileTo tree tree.height cache id).getD cache
  (cache.sequence tree id, cache)

/-- The entry of a definition, and the cache after it was asked for. -/
def entry (cache : StepCache) (tree : Tree N) (definition : NodeId) : Array Step × StepCache :=
  match cache.entries.lookup definition with
  | some steps => (steps, cache)
  | none =>
    let cache := (tree.entryNodes definition).foldl (fun cache id => (cache.compile tree id).2) cache
    let steps := tree.entryWith (fun id => (cache.sequence tree id).toList) definition
    (steps.toArray, { cache with entries := (definition, steps.toArray) :: cache.entries })

end StepCache

/-! ### Compiling afresh -/

namespace Tree

variable {N : Type}

/-- Compiling a node comes to an end: no way down from it goes on for ever. -/
def Compiles (tree : Tree N) : NodeId → Prop :=
  Acc fun child parent => child ∈ tree.codeChildren parent

variable {tree : Tree N} {code code' : NodeId → List Step}

theorem childCode_congr {parent child : NodeId} (same : (tree.form? child).isSome → code child = code' child) :
    tree.childCode code parent child = tree.childCode code' parent child := by
  unfold childCode
  split
  · rename_i there
    exact same there
  · rfl

/-- The sequence of a node depends on those of the children that are compiled for it. -/
theorem codeWith_congr [DecidableEq N] [Naming N] {id : NodeId}
    (same : ∀ child ∈ tree.codeChildren id, code child = code' child) :
    tree.codeWith code id = tree.codeWith code' id := by
  unfold codeWith
  cases is : tree.form? id with
  | none => rfl
  | some form =>
    have child {child : NodeId} (link : (tree.form? child).isSome → child ∈ tree.codeChildren id) :
        tree.childCode code id child = tree.childCode code' id child :=
      childCode_congr fun there => same child (link there)
    have children {among : List NodeId}
        (links : ∀ child ∈ among, (tree.form? child).isSome → child ∈ tree.codeChildren id) :
        tree.childrenCode code id among = tree.childrenCode code' id among := by
      unfold childrenCode
      rw [List.flatMap_def, List.flatMap_def, List.map_congr_left fun part among => child (links part among)]
    cases form with
    | function | record | changed | number | boolean | text | none | reference | borrow | placeholder
    | unparsable => rfl
    | block run | sequence run | set run | mapping run =>
      simp only [@children (tree.list run) (by simp +contextual [codeChildren, is, Form.links])]
    | call callee run =>
      simp only [@child (callee) (by simp +contextual [codeChildren, is, Form.links]),
        @children (tree.list run) (by simp +contextual [codeChildren, is, Form.links])]
    | program part | bind _ part | property part | unary _ part =>
      simp only [@child (part) (by simp +contextual [codeChildren, is, Form.links])]
    | pair first second | binary _ first second =>
      simp only [@child (first) (by simp +contextual [codeChildren, is, Form.links]),
        @child second (by simp +contextual [codeChildren, is, Form.links])]
    | conditional condition yes no =>
      simp only [@child (condition) (by simp +contextual [codeChildren, is, Form.links]),
        @child yes (by simp +contextual [codeChildren, is, Form.links]),
        @child no (by simp +contextual [codeChildren, is, Form.links])]

/-- A node is compiled for another one that compiles. -/
def IsCompiledFor (tree : Tree N) (child parent : NodeId) : Prop :=
  child ∈ tree.codeChildren parent ∧ tree.Compiles parent

theorem acyclic_isCompiledFor (id : NodeId) : ¬ Relation.TransGen tree.IsCompiledFor id id := by
  intro cycle
  have compiles : tree.Compiles id := by
    cases cycle with
    | single link => exact link.2
    | tail _ link => exact link.2
  have below {lower upper : NodeId} (path : Relation.TransGen tree.IsCompiledFor lower upper) :
      Relation.TransGen (fun child parent => child ∈ tree.codeChildren parent) lower upper := by
    induction path with
    | single link => exact .single link.1
    | tail _ link hypothesis => exact .tail hypothesis link.1
  exact not_rel_self_of_acc compiles.transGen (below cycle)

theorem form?_of_mem_codeChildren {child parent : NodeId} (link : child ∈ tree.codeChildren parent) :
    (tree.form? parent).isSome := by
  cases is : tree.form? parent with
  | none => simp [codeChildren, is] at link
  | some form => rfl

/-- The sequence of a node that compiles is the same from any depth on that lies below its rank. -/
theorem codeTo_eq_codeTo [DecidableEq N] [Naming N] {id : NodeId} (compiles : tree.Compiles id) {depth depth' : Nat}
    (deep : tree.rankBy tree.IsCompiledFor id < depth) (deep' : tree.rankBy tree.IsCompiledFor id < depth') :
    tree.codeTo depth id = tree.codeTo depth' id := by
  induction depth generalizing id depth' with
  | zero => exact absurd deep (Nat.not_lt_zero _)
  | succ depth hypothesis =>
    cases depth' with
    | zero => exact absurd deep' (Nat.not_lt_zero _)
    | succ depth' =>
      refine codeWith_congr fun child link => ?_
      have lower := rankBy_lt acyclic_isCompiledFor (show tree.IsCompiledFor child id from ⟨link, compiles⟩)
        (form?_of_mem_codeChildren link)
      exact hypothesis (compiles.inv link) (by omega) (by omega)

/-- The sequence of a node that compiles is put together from those of its children. -/
theorem code_eq_codeWith [DecidableEq N] [Naming N] {id : NodeId} (compiles : tree.Compiles id) :
    tree.code id = tree.codeWith tree.code id := by
  refine codeWith_congr fun child link => ?_
  have lower := rankBy_lt acyclic_isCompiledFor (show tree.IsCompiledFor child id from ⟨link, compiles⟩)
    (form?_of_mem_codeChildren link)
  have bounded : tree.rankBy tree.IsCompiledFor id < tree.height := rankBy_lt_height acyclic_isCompiledFor id
  have all : tree.height = tree.size + 1 := rfl
  exact codeTo_eq_codeTo (compiles.inv link) (by omega) (by omega)

end Tree

/-! ### Faithful caches -/

namespace StepCache

variable {N : Type} [DecidableEq N] [Naming N]

/-- A cache that holds what its tree compiles to. -/
structure IsFaithful (cache : StepCache) (tree : Tree N) : Prop where
  sequences : ∀ id steps, cache.sequences.lookup id = some steps →
    tree.Compiles id ∧ steps = (tree.code id).toArray
  entries : ∀ definition steps, cache.entries.lookup definition = some steps →
    steps = (tree.entryCode definition).toArray

variable {tree : Tree N} {cache cache' : StepCache}

/-- Nothing is compiled at first. -/
theorem isFaithful_empty : IsFaithful {} tree :=
  ⟨by simp, by simp⟩

namespace IsFaithful

theorem sequence (faithful : cache.IsFaithful tree) (id : NodeId) :
    cache.sequence tree id = (tree.code id).toArray := by
  unfold StepCache.sequence
  split
  · rename_i steps kept
    exact (faithful.sequences id steps kept).2
  · rfl

theorem sequence_toList (faithful : cache.IsFaithful tree) :
    (fun id => (cache.sequence tree id).toList) = tree.code := by
  funext id
  rw [faithful.sequence]

/-- Compiling a node keeps what it compiles to. -/
theorem compileTo {depth : Nat} {id : NodeId} (faithful : cache.IsFaithful tree)
    (compiled : StepCache.compileTo tree depth cache id = some cache') :
    cache'.IsFaithful tree ∧ tree.Compiles id := by
  induction depth generalizing cache cache' id with
  | zero => simp [StepCache.compileTo] at compiled
  | succ depth hypothesis =>
    unfold StepCache.compileTo at compiled
    split at compiled
    · rename_i kept
      obtain ⟨steps, is⟩ := Option.isSome_iff_exists.mp kept
      cases compiled
      exact ⟨faithful, (faithful.sequences id steps is).1⟩
    · -- The children come first, one after the other, each with the cache that the one before left.
      have children {among : List NodeId} {cache second : StepCache} (faithful : cache.IsFaithful tree)
          (folded : among.foldlM (StepCache.compileTo tree depth) cache = some second) :
          second.IsFaithful tree ∧ ∀ child ∈ among, tree.Compiles child := by
        induction among generalizing cache with
        | nil =>
          cases folded
          exact ⟨faithful, by simp⟩
        | cons child among rest =>
          obtain ⟨first, compiledChild, folded⟩ := Option.bind_eq_some_iff.mp folded
          obtain ⟨faithful, compiles⟩ := hypothesis faithful compiledChild
          obtain ⟨faithful, compilesAll⟩ := rest faithful folded
          exact ⟨faithful, by simpa using ⟨compiles, compilesAll⟩⟩
      obtain ⟨second, folded, is⟩ := Option.bind_eq_some_iff.mp compiled
      cases is
      obtain ⟨faithful, compilesAll⟩ := children faithful folded
      have compiles : tree.Compiles id := .intro id compilesAll
      refine ⟨⟨fun other steps kept => ?_, faithful.entries⟩, compiles⟩
      by_cases same : other = id
      · subst same
        simp only [List.lookup_cons_self, Option.some.injEq] at kept
        rw [← kept, faithful.sequence_toList, Tree.code_eq_codeWith compiles]
        exact ⟨compiles, rfl⟩
      · rw [List.lookup_cons, beq_false_of_ne same] at kept
        exact faithful.sequences other steps kept

/-- A faithful cache answers for a node as compiling it afresh does, and stays faithful. -/
theorem compile (faithful : cache.IsFaithful tree) (id : NodeId) :
    (cache.compile tree id).1 = (tree.code id).toArray ∧ (cache.compile tree id).2.IsFaithful tree := by
  have after : ((StepCache.compileTo tree tree.height cache id).getD cache).IsFaithful tree := by
    cases compiled : StepCache.compileTo tree tree.height cache id with
    | none => exact faithful
    | some second => exact (faithful.compileTo compiled).1
  exact ⟨after.sequence id, after⟩

/-- Compiling does not give up on a node that compiles, if it may go down further than the rank of the node. -/
theorem exists_compileTo {depth : Nat} {id : NodeId} (faithful : cache.IsFaithful tree) (compiles : tree.Compiles id)
    (deep : tree.rankBy tree.IsCompiledFor id < depth) :
    ∃ after, StepCache.compileTo tree depth cache id = some after ∧ (after.sequences.lookup id).isSome := by
  induction depth generalizing cache id with
  | zero => exact absurd deep (Nat.not_lt_zero _)
  | succ depth hypothesis =>
    unfold StepCache.compileTo
    split
    · rename_i kept
      exact ⟨cache, rfl, kept⟩
    · have children {among : List NodeId} {cache : StepCache} (faithful : cache.IsFaithful tree)
          (links : ∀ child ∈ among, child ∈ tree.codeChildren id) :
          ∃ after, among.foldlM (StepCache.compileTo tree depth) cache = some after := by
        induction among generalizing cache with
        | nil => exact ⟨cache, rfl⟩
        | cons child among rest =>
          have link := links child List.mem_cons_self
          have lower := Tree.rankBy_lt Tree.acyclic_isCompiledFor
            (show tree.IsCompiledFor child id from ⟨link, compiles⟩) (Tree.form?_of_mem_codeChildren link)
          obtain ⟨first, compiled, -⟩ := hypothesis faithful (compiles.inv link) (by omega)
          obtain ⟨after, folded⟩ := rest (faithful.compileTo compiled).1 fun other listed =>
            links other (List.mem_cons_of_mem _ listed)
          exact ⟨after, by rw [List.foldlM_cons, compiled]; exact folded⟩
      obtain ⟨after, folded⟩ := children faithful fun _ link => link
      rw [folded]
      exact ⟨_, rfl, by simp⟩

/-- What compiles is compiled once: its sequence is kept. -/
theorem lookup_compile {id : NodeId} (faithful : cache.IsFaithful tree) (compiles : tree.Compiles id) :
    (cache.compile tree id).2.sequences.lookup id = some (tree.code id).toArray := by
  obtain ⟨after, compiled, kept⟩ :=
    faithful.exists_compileTo compiles (Tree.rankBy_lt_height Tree.acyclic_isCompiledFor id)
  obtain ⟨steps, is⟩ := Option.isSome_iff_exists.mp kept
  have same := ((faithful.compileTo compiled).1.sequences id steps is).2
  simp only [StepCache.compile, compiled, Option.getD_some, is, same]

/-- A faithful cache answers for a definition as compiling it afresh does, and stays faithful. -/
theorem entry (faithful : cache.IsFaithful tree) (definition : NodeId) :
    (cache.entry tree definition).1 = (tree.entryCode definition).toArray ∧
      (cache.entry tree definition).2.IsFaithful tree := by
  unfold StepCache.entry
  split
  · rename_i steps kept
    exact ⟨faithful.entries definition steps kept, faithful⟩
  · have parts {among : List NodeId} {cache : StepCache} (faithful : cache.IsFaithful tree) :
        (among.foldl (fun cache id => (cache.compile tree id).2) cache).IsFaithful tree := by
      induction among generalizing cache with
      | nil => exact faithful
      | cons part among hypothesis => exact hypothesis (faithful.compile part).2
    have after := @parts (tree.entryNodes definition) cache faithful
    dsimp only
    rw [after.sequence_toList]
    refine ⟨rfl, after.sequences, fun other steps kept => ?_⟩
    by_cases same : other = definition
    · subst same
      simp only [List.lookup_cons_self, Option.some.injEq] at kept
      exact kept.symm
    · rw [List.lookup_cons, beq_false_of_ne same] at kept
      exact after.entries other steps kept

end IsFaithful

end StepCache

end Rivulet
