import Rivulet.Proofs.Analysis.Affected
import Rivulet.Proofs.Analysis.Exploration

/-!
The edges of an analysis, and what the search along them comes to. An edge stands in the lists of both its ends
(`mem_dependents_analyze`), and in a tree without cycles it does not lead out of what the root leads to
(`reached_of_mem_dependencies`). The search for the nodes that a stream affects comes to its end without a bound on its
steps (`searches_spread`).

Main statement: a node is affected exactly if edges lead from it to a question about changes or to a reference to the
stream (`affected_iff_leads`).
-/

namespace Rivulet

namespace Analysis

variable {analysis : Analysis} {id : NodeId} {found waiting : List NodeId}

/-! ### The search without a bound -/

/-- The search along the edges, however long it takes: of the nodes that wait the first is passed over if it was found
before, and otherwise found, and the nodes that read it wait behind the others. -/
inductive Searches (analysis : Analysis) : List NodeId → List NodeId → List NodeId → Prop where
  | over (found : List NodeId) : analysis.Searches [] found found
  | again {id : NodeId} {waiting found result : List NodeId} (known : id ∈ found)
    (rest : analysis.Searches waiting found result) : analysis.Searches (id :: waiting) found result
  | first {id : NodeId} {waiting found result : List NodeId} (fresh : id ∉ found)
    (rest : analysis.Searches (waiting ++ analysis.dependents id) (found ++ [id]) result) :
    analysis.Searches (id :: waiting) found result

/-- With a step for every node that waits and one for every edge to a node that was not found, the search comes to its
end. -/
theorem searches_spread {steps : Nat} (enough : waiting.length + analysis.unseen found < steps) :
    analysis.Searches waiting found (analysis.spread steps waiting found) := by
  induction steps generalizing waiting found with
  | zero => omega
  | succ steps hypothesis =>
    cases waiting with
    | nil => exact .over found
    | cons next waiting =>
      rw [List.length_cons] at enough
      unfold spread
      by_cases known : found.contains next = true
      · rw [if_pos known]
        exact .again (by simpa using known) (hypothesis (by omega))
      · rw [if_neg known]
        have fewer := @unseen_concat analysis next found (by simpa using known)
        have readers := analysis.length_dependents next
        refine .first (by simpa using known) (hypothesis ?_)
        rw [List.length_append]
        omega

theorem searches_affectedByStream (analysis : Analysis) (stream : String) :
    analysis.Searches (analysis.referencesTo stream ++ analysis.changed) [] (analysis.affectedByStream stream) := by
  refine searches_spread ?_
  have := analysis.unseen_le []
  omega

end Analysis

/-! ### What references were found to mean -/

namespace Context

variable {context : Context} {reachable : List NodeId} {id node : NodeId} {definition : Definition}

/-- What the table of what references refer to holds at a node is what the node refers to, as a reference among those
that the table was made for. -/
theorem exists_reference_of_resolution? (found : (context.referencesOf reachable).resolution? id = some definition) :
    id ∈ reachable ∧ ∃ name, context.tree.form? id = some (.reference name) ∧ context.resolve? id name = some definition := by
  -- Every entry of the table that is filled so far is right.
  let Right (table : Array (Option Definition)) : Prop := ∀ index definition,
    table[index]? = some (some definition) → .node index ∈ reachable ∧
      ∃ name, context.tree.form? (.node index) = some (.reference name) ∧
        context.resolve? (.node index) name = some definition
  have right : Right (context.resolutionsOf reachable) := by
    unfold resolutionsOf
    refine List.foldlRecOn (motive := Right) reachable _ ?_ fun table right id among => ?_
    · intro index definition found
      simp [Array.getElem?_replicate] at found
    · split
      · rename_i place name is
        intro index definition found
        rw [Array.getElem?_setIfInBounds] at found
        split at found
        · rename_i same
          subst same
          split at found
          · exact ⟨among, name, is, Option.some.inj found⟩
          · simp at found
        · exact right index definition found
      · exact right
  cases id with
  | missing => simp [References.resolution?] at found
  | node index => exact right index definition (Option.join_eq_some_iff.mp found)

/-- What is no reference refers to nothing. -/
theorem resolution?_eq_none (reachable : List NodeId) (other : ∀ name, context.tree.form? id ≠ some (.reference name)) :
    (context.referencesOf reachable).resolution? id = none := by
  cases found : (context.referencesOf reachable).resolution? id with
  | none => rfl
  | some definition =>
    obtain ⟨-, name, is, -⟩ := exists_reference_of_resolution? found
    exact absurd is (other name)

end Context

/-! ### Edges stay inside -/

/-- A node is missing, or the root leads to it. -/
def Tree.Inside (tree : Tree) (id : NodeId) : Prop :=
  id.isPresent = true → tree.Reached id

namespace Context

section

variable {context : Context} {id node callee : NodeId} {target : CallTarget} {references : References}

/-- What references refer to, seen from inside the tree, lies inside it. -/
def Grounded (context : Context) (references : References) : Prop :=
  ∀ id definition node, references.resolution? id = some definition → definition.node? = some node →
    context.tree.Inside node

variable (acyclic : context.tree.Acyclic) (grounded : context.Grounded references)

include acyclic

theorem inside_of_link {form : Form} (inside : context.tree.Inside id) (is : context.tree.form? id = some form)
    (link : node ∈ form.links context.tree.list) : context.tree.Inside node :=
  fun present =>
    Tree.reached_of_child acyclic (inside (isPresent_of_isSome (Option.isSome_of_eq_some is))) ⟨form, is, link⟩ present

theorem grounded_referencesOf (indexed : context.parents = .ofTree context.tree) :
    context.Grounded (context.referencesOf (context.tree.descendants context.tree.root)) := by
  intro id definition node found is
  obtain ⟨-, name, -, resolved⟩ := exists_reference_of_resolution? found
  have below (child parent : NodeId) (inside : context.tree.Inside parent) (link : context.tree.Child child parent) :
      context.tree.Inside child := by
    obtain ⟨form, is, link⟩ := link
    exact inside_of_link acyclic inside is link
  exact holds_of_resolve? below (fun _ reached _ => reached) indexed resolved is

/-- What an input of a definition inside the tree gets its value from lies inside the tree. -/
theorem inside_of_mem_inputDependencies {input definition : NodeId}
    (sites : ∀ call ∈ references.calls, context.tree.Inside call.2.node) (inside : context.tree.Inside input)
    (among : node ∈ context.inputDependencies references input definition) : context.tree.Inside node := by
  unfold inputDependencies at among
  dsimp only at among
  split at among
  case h_3 => simp at among
  -- A function and a record get their inputs in the same way.
  all_goals
    split at among
    case h_2 => simp at among
    rename_i value declared variadic _ is
    rcases List.mem_cons.mp among with rfl | among
    · exact inside_of_link acyclic inside is (by simp [Form.links])
    · obtain ⟨site, calls, among⟩ := List.mem_flatMap.mp among
      obtain ⟨call, called, same⟩ := List.mem_filterMap.mp calls
      split at same
      case isFalse => simp at same
      cases same
      split at among
      case h_2 => simp at among
      rename_i callee arguments call_is
      refine inside_of_link acyclic (sites call called) call_is (List.mem_cons_of_mem _ ?_)
      split at among
      · exact among
      · split at among
        · exact List.mem_of_mem_drop among
        · exact List.mem_of_getElem? (Option.mem_toList.mp among)

include grounded

/-- The definition that calling a node inside the tree runs lies inside the tree. -/
theorem inside_of_target? (inside : context.tree.Inside callee)
    (found : context.target? references callee = some (.definition node)) : context.tree.Inside node := by
  unfold target? at found
  split at found
  · cases found
    exact inside
  · cases found
    exact inside
  · split at found
    · simp at found
    · rename_i definition _ resolved
      obtain ⟨called, through, same⟩ := Option.map_eq_some_iff.mp found
      cases same
      unfold callable? at through
      split at through
      · cases through
        exact grounded _ _ _ resolved rfl
      · cases through
        exact grounded _ _ _ resolved rfl
      · split at through
        · rename_i name value declared variadic is
          have bound : context.tree.Inside value :=
            inside_of_link acyclic (grounded _ _ _ resolved rfl) is (by simp [Form.links])
          split at through
          · cases through
            exact bound
          · cases through
            exact bound
          · simp at through
        · simp at through
      · simp at through
    · simp at found
  · simp at found

/-- What a call of a node inside the tree yields lies inside the tree. -/
theorem inside_of_bodyOf? (inside : context.tree.Inside callee) (called : context.target? references callee = some target)
    (found : context.bodyOf? target = some node) : context.tree.Inside node := by
  cases target with
  | native index => simp [bodyOf?] at found
  | definition definition =>
    have defined := inside_of_target? acyclic grounded inside called
    unfold bodyOf? at found
    dsimp only at found
    split at found
    · rename_i name inputs body output is
      split at found
      · simp at found
      · cases found
        exact inside_of_link acyclic defined is (by simp [Form.links])
    · cases found
      exact defined
    · simp at found

omit acyclic grounded in
/-- The calls that a node makes are made there. -/
theorem node_of_mem_callsAt {call : CallTarget × CallSite} (among : call ∈ context.callsAt references id) :
    call.2.node = id := by
  unfold callsAt at among
  split at among
  case h_2 => simp at among
  split at among
  · simp at among
  · rename_i target _
    rcases List.mem_cons.mp among with rfl | indirect
    · rfl
    · cases target with
      | definition definition => simp at indirect
      | native index =>
        dsimp only at indirect
        split at indirect
        case isFalse => simp at indirect
        obtain ⟨argument, -, found⟩ := List.mem_filterMap.mp indirect
        split at found
        · cases found
          rfl
        · simp at found

/-- What a node inside the tree reads lies inside the tree. -/
theorem inside_of_mem_readsOf (sites : ∀ call ∈ references.calls, context.tree.Inside call.2.node)
    (inside : context.tree.Inside id) (reads : node ∈ context.readsOf references id) : context.tree.Inside node := by
  unfold readsOf at reads
  dsimp only at reads
  split at reads
  · simp at reads
  · rename_i form is
    have child (link : node ∈ context.tree.children id) : context.tree.Inside node := by
      obtain ⟨form, is, link⟩ := Tree.child_of_mem_children link
      exact inside_of_link acyclic inside is link
    have link (link : node ∈ form.links context.tree.list) : context.tree.Inside node :=
      inside_of_link acyclic inside is link
    cases form with
    | program body => exact link (by simpa [Form.links] using reads)
    | bind name value declared variadic => exact link (by simpa [Form.links] using reads)
    | function name inputs body output => exact link (by simp [Form.links, List.mem_singleton.mp reads])
    | block statements => exact link (List.mem_of_getLast? (Option.mem_toList.mp reads))
    | sequence | set | mapping | pair | property | binary | unary | conditional | changed => exact child reads
    | record name inputs =>
      obtain ⟨input, among, value⟩ := List.mem_filterMap.mp reads
      split at value
      · rename_i name value declared variadic input_is
        cases value
        exact inside_of_link acyclic (inside_of_link acyclic inside is among) input_is (by simp [Form.links])
      · simp at value
    | reference name =>
      dsimp only at reads
      split at reads
      · rename_i input definition resolved
        exact inside_of_mem_inputDependencies acyclic sites (grounded _ _ _ resolved rfl) reads
      · rename_i definition _ resolved
        exact grounded _ _ _ resolved (Option.mem_toList.mp reads)
      · simp at reads
    | call callee arguments =>
      rcases List.mem_append.mp reads with linked | called
      · exact child linked
      · unfold callDependencies at called
        split at called
        · simp at called
        · rename_i target found
          rcases List.mem_append.mp called with body | passed
          · refine inside_of_bodyOf? acyclic grounded ?_ found (Option.mem_toList.mp body)
            exact inside_of_link acyclic inside is (by simp [Form.links])
          · cases target with
            | definition definition => simp at passed
            | native index =>
              dsimp only at passed
              split at passed
              · obtain ⟨argument, among, body⟩ := List.mem_filterMap.mp passed
                obtain ⟨target, found, body⟩ := Option.bind_eq_some_iff.mp body
                refine inside_of_bodyOf? acyclic grounded ?_ found body
                exact inside_of_link acyclic inside is (by simp [Form.links, among])
              · simp at passed
    | number | boolean | text | none | borrow | placeholder | unparsable => simp at reads

end

/-- A node asks about changes, or refers to a stream. -/
def Watches (context : Context) (stream : String) (id : NodeId) : Prop :=
  (∃ asked, context.tree.form? id = some (.changed asked)) ∨
    ∃ name index signature, context.tree.form? id = some (.reference name) ∧
      context.resolve? id name = some (.stream index) ∧ context.streams[index]? = some signature ∧ signature.name = stream

end Context

/-! ### Edges of an analysis -/

section

variable {σ : Type} {tree : Tree} {natives : Natives} {signatures : List StreamSignature} {lookup : SourceLookup σ}
  {host : σ} {reader read id : NodeId} {stream : String}

/-- The nodes that were entered as readers of a node are those that the search for it finds. -/
theorem mem_dependents_analyze : reader ∈ (Analysis.analyze tree natives signatures lookup host).1.dependents read ↔
    tree.Reached reader ∧ read ∈ (Context.ofTree tree natives signatures).dependenciesOf
      ((Context.ofTree tree natives signatures).referencesOf (tree.descendants tree.root)) reader := by
  rw [Analysis.dependents, Edges.mem_readers_iff, reads_analyze]
  constructor
  · rintro ⟨reads, among, depends⟩
    obtain ⟨id, reached, same⟩ := List.mem_map.mp among
    cases same
    exact ⟨reached, depends⟩
  · rintro ⟨reached, depends⟩
    exact ⟨_, List.mem_map.mpr ⟨reader, reached, rfl⟩, depends⟩

theorem lookup_map_self {β : Type} {entry : NodeId → β} {ids : List NodeId} :
    (ids.map fun id => (id, entry id)).lookup id = if id ∈ ids then some (entry id) else none := by
  induction ids with
  | nil => rfl
  | cons first rest hypothesis =>
    rw [List.map_cons, List.lookup_cons, hypothesis]
    by_cases same : id = first
    · simp [same]
    · simp [same, beq_eq_false_iff_ne.mpr same]

/-- What a node depends on is what it reads, if the root leads to it. -/
theorem mem_dependencies_analyze : read ∈ (Analysis.analyze tree natives signatures lookup host).1.dependencies reader ↔
    tree.Reached reader ∧ read ∈ (Context.ofTree tree natives signatures).dependenciesOf
      ((Context.ofTree tree natives signatures).referencesOf (tree.descendants tree.root)) reader := by
  rw [Analysis.dependencies, reads_analyze, lookup_map_self]
  by_cases reached : tree.Reached reader
  · have among : reader ∈ tree.descendants tree.root := reached
    simp [reached, among]
  · have absent : reader ∉ tree.descendants tree.root := reached
    simp [reached, absent]

/-- In a tree without cycles no edge leads out of what the root leads to. -/
theorem reached_of_mem_dependencies (acyclic : tree.Acyclic)
    (depends : read ∈ (Analysis.analyze tree natives signatures lookup host).1.dependencies reader) : tree.Reached read := by
  obtain ⟨reached, among⟩ := mem_dependencies_analyze.mp depends
  obtain ⟨reads, present⟩ := Context.mem_dependenciesOf_iff.mp among
  refine Context.inside_of_mem_readsOf acyclic (Context.grounded_referencesOf acyclic rfl) ?_ (fun _ => reached) reads present
  intro call among _
  obtain ⟨site, walked, calls⟩ := List.mem_flatMap.mp among
  exact Context.node_of_mem_callsAt calls ▸ walked

/-- The search for what a stream affects starts with the nodes that watch it. -/
theorem mem_starts_analyze : id ∈ (Analysis.analyze tree natives signatures lookup host).1.referencesTo stream ++
      (Analysis.analyze tree natives signatures lookup host).1.changed ↔
    tree.Reached id ∧ (Context.ofTree tree natives signatures).Watches stream id := by
  have resolves {id : NodeId} {name : String} (reached : tree.Reached id) (is : tree.form? id = some (.reference name)) :
      ((Context.ofTree tree natives signatures).referencesOf (tree.descendants tree.root)).resolution? id =
        (Context.ofTree tree natives signatures).resolve? id name :=
    Context.resolution?_referencesOf reached is
  rw [List.mem_append]
  constructor
  · rintro (refers | asks)
    · obtain ⟨⟨name, place⟩, among, named⟩ := List.mem_filterMap.mp refers
      obtain ⟨node, reached, found⟩ := List.mem_filterMap.mp among
      split at named
      case isFalse => simp at named
      rename_i is_stream
      cases named
      split at found
      case h_2 => simp at found
      rename_i index resolved
      obtain ⟨signature, there, same⟩ := Option.map_eq_some_iff.mp found
      cases same
      obtain ⟨-, name, is, meaning⟩ := Context.exists_reference_of_resolution? resolved
      exact ⟨reached, .inr ⟨name, index, signature, is, meaning, there, is_stream⟩⟩
    · obtain ⟨reached, asks⟩ := List.mem_filter.mp asks
      split at asks
      · rename_i asked is
        exact ⟨reached, .inl ⟨asked, is⟩⟩
      · simp at asks
  · rintro ⟨reached, ⟨asked, is⟩ | ⟨name, index, signature, is, meaning, there, named⟩⟩
    · refine .inr (List.mem_filter.mpr ⟨reached, ?_⟩)
      simp [show tree.form? id = _ from is]
    · refine .inl (List.mem_filterMap.mpr ⟨(signature.name, id), ?_, by simp [named]⟩)
      refine List.mem_filterMap.mpr ⟨id, reached, ?_⟩
      simp [resolves reached is, meaning, there]

/-- A stream affects exactly the nodes from which edges lead to a question about changes or to a reference to the
stream. -/
theorem affected_iff_leads (tree : Tree) (natives : Natives) (signatures : List StreamSignature) (lookup : SourceLookup σ)
    (host : σ) (stream : String) :
    let analysis := (Analysis.analyze tree natives signatures lookup host).1
    (∀ reader read, reader ∈ analysis.dependents read ↔ read ∈ analysis.dependencies reader) ∧
      (tree.Acyclic → ∀ reader, ∀ read ∈ analysis.dependencies reader, tree.Reached read) ∧
      analysis.Searches (analysis.referencesTo stream ++ analysis.changed) [] (analysis.affectedByStream stream) ∧
      ∀ id, id ∈ analysis.affectedByStream stream ↔
        ∃ source, tree.Reached source ∧ (Context.ofTree tree natives signatures).Watches stream source ∧
          Relation.ReflTransGen (fun reader read => read ∈ analysis.dependencies reader) id source := by
  intro analysis
  have inverse (reader read : NodeId) : reader ∈ analysis.dependents read ↔ read ∈ analysis.dependencies reader :=
    mem_dependents_analyze.trans mem_dependencies_analyze.symm
  refine ⟨inverse, fun acyclic reader read depends => reached_of_mem_dependencies acyclic depends,
    analysis.searches_affectedByStream stream, fun id => ?_⟩
  have edges : analysis.Reads = fun reader read => read ∈ analysis.dependencies reader :=
    funext fun reader => funext fun read => propext (inverse reader read)
  rw [Analysis.mem_affectedByStream_iff, edges]
  refine exists_congr fun source => ?_
  rw [mem_starts_analyze, and_assoc]

end

end Rivulet
