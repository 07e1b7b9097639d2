import Rivulet.Proofs.Analysis.Visibility
import Rivulet.Analysis
import Mathlib.Logic.Relation

/-!
Which nodes a change of a stream affects. The search that follows the edges of an analysis backwards takes
enough steps to come to its end, so it finds all nodes that read one of those it starts from, directly or
through others, and no more (`mem_affectedByStream_iff`).

In an analysed tree the nodes that are not affected are therefore shielded from the stream: they read nothing
that is affected, do not refer to the stream, and ask about no change (`shields_of_analyze`).
-/

namespace Rivulet

/-! ### The tables of edges -/

/-- A node reads another exactly if it is entered as its reader. -/
theorem Edges.mem_readers_iff (edges : Edges) {reader read : NodeId} :
    reader ∈ (edges.readers.lookup read).getD [] ↔ ∃ reads, (reader, reads) ∈ edges.reads ∧ read ∈ reads := by
  rw [edges.paired, List.mem_flatMap]
  constructor
  · rintro ⟨edge, among, again⟩
    obtain ⟨some, rfl⟩ := List.mem_replicate.mp again
    exact ⟨edge.2, among, List.count_pos_iff.mp (Nat.pos_of_ne_zero some)⟩
  · rintro ⟨reads, among, depends⟩
    exact ⟨(reader, reads), among, List.mem_replicate.mpr ⟨Nat.pos_iff_ne_zero.mp (List.count_pos_iff.mpr depends), rfl⟩⟩

theorem reads_edgesOf (context : Context) (references : References) (reachable : List NodeId) :
    (context.edgesOf references reachable).reads = reachable.map fun id => (id, context.dependenciesOf references id) := by
  have entered (edges : Edges) : (reachable.foldl (fun edges id => edges.enter id (context.dependenciesOf references id))
      edges).reads = edges.reads ++ reachable.map fun id => (id, context.dependenciesOf references id) := by
    induction reachable generalizing edges with
    | nil => simp
    | cons first rest hypothesis =>
      rw [List.foldl_cons, hypothesis]
      simp [Edges.enter]
  exact entered .empty

namespace Analysis

variable {analysis : Analysis} {id : NodeId} {found waiting : List NodeId}

/-! ### The search -/

/-- The reads of nodes that were not found yet, each as often as an edge names it. -/
def unseen (analysis : Analysis) (found : List NodeId) : Nat :=
  (analysis.edges.reads.flatMap Prod.snd).countP fun id => !found.contains id

theorem unseen_le (analysis : Analysis) (found : List NodeId) :
    analysis.unseen found ≤ (analysis.edges.reads.flatMap Prod.snd).length :=
  List.countP_le_length

theorem length_dependents (analysis : Analysis) (id : NodeId) :
    (analysis.dependents id).length = (analysis.edges.reads.flatMap Prod.snd).count id := by
  rw [dependents, analysis.edges.paired]
  induction analysis.edges.reads with
  | nil => rfl
  | cons edge rest hypothesis =>
    rw [List.flatMap_cons, List.flatMap_cons, List.length_append, List.length_replicate, hypothesis, List.count_append]

/-- A node that is found takes its reads along. -/
theorem unseen_concat (unfound : found.contains id = false) :
    (analysis.unseen (found ++ [id])) + (analysis.edges.reads.flatMap Prod.snd).count id = analysis.unseen found := by
  unfold unseen
  induction analysis.edges.reads.flatMap Prod.snd with
  | nil => simp
  | cons first rest hypothesis =>
    have here : (found ++ [id]).contains first = (found.contains first || first == id) := by
      rw [Bool.eq_iff_iff]
      simp [or_comm]
    rw [List.countP_cons, List.countP_cons, List.count_cons, here]
    by_cases same : first = id
    · subst same
      simp only [unfound, beq_self_eq_true, Bool.or_true, Bool.not_true, Bool.false_eq_true, if_false,
        Bool.not_false, if_true]
      omega
    · have apart : (first == id) = false := by simpa using same
      simp only [apart, Bool.or_false, Bool.false_eq_true, if_false]
      omega

/-- What is found and closed but for the nodes that wait, the search completes. -/
theorem spread_spec {steps : Nat} (enough : waiting.length + analysis.unseen found < steps)
    (frontier : ∀ id ∈ found, ∀ reader ∈ analysis.dependents id, reader ∈ found ∨ reader ∈ waiting) :
    (∀ id, id ∈ found ∨ id ∈ waiting → id ∈ analysis.spread steps waiting found) ∧
      ∀ id ∈ analysis.spread steps waiting found, ∀ reader ∈ analysis.dependents id,
        reader ∈ analysis.spread steps waiting found := by
  induction steps generalizing waiting found with
  | zero => omega
  | succ steps hypothesis =>
    cases waiting with
    | nil =>
      refine ⟨fun id among => ?_, fun id among reader reads => ?_⟩
      · simpa [spread] using among
      · simpa [spread] using frontier id (by simpa [spread] using among) reader reads
    | cons next waiting =>
      rw [List.length_cons] at enough
      unfold spread
      by_cases known : found.contains next = true
      · rw [if_pos known]
        have known : next ∈ found := by simpa using known
        obtain ⟨contains, closed⟩ := @hypothesis found waiting (by omega) fun id among reader reads => by
          rcases frontier id among reader reads with there | there
          · exact .inl there
          · rcases List.mem_cons.mp there with rfl | later
            · exact .inl known
            · exact .inr later
        refine ⟨fun id among => contains id ?_, closed⟩
        rcases among with there | there
        · exact .inl there
        · rcases List.mem_cons.mp there with rfl | later
          · exact .inl known
          · exact .inr later
      · rw [if_neg known]
        have fewer := @unseen_concat analysis next found (by simpa using known)
        have readers := analysis.length_dependents next
        obtain ⟨contains, closed⟩ := @hypothesis (found ++ [next]) (waiting ++ analysis.dependents next)
          (by simp only [List.length_append]; omega) fun id among reader reads => by
          rcases List.mem_append.mp among with before | last
          · rcases frontier id before reader reads with there | there
            · simp [there]
            · rcases List.mem_cons.mp there with rfl | later <;> simp_all
          · rw [List.mem_singleton.mp last] at reads
            simp [reads]
        refine ⟨fun id among => contains id ?_, closed⟩
        rcases among with there | there
        · simp [there]
        · rcases List.mem_cons.mp there with rfl | later
          · simp
          · simp [later]

/-- A node reads another. -/
def Reads (analysis : Analysis) (reader read : NodeId) : Prop :=
  reader ∈ analysis.dependents read

/-- All that the search finds reads something that it started with. -/
theorem reads_of_mem_spread {start : List NodeId} {steps : Nat}
    (sound : ∀ id, id ∈ found ∨ id ∈ waiting → ∃ first ∈ start, Relation.ReflTransGen analysis.Reads id first)
    (among : id ∈ analysis.spread steps waiting found) :
    ∃ first ∈ start, Relation.ReflTransGen analysis.Reads id first := by
  induction steps generalizing waiting found with
  | zero => exact sound id (.inl among)
  | succ steps hypothesis =>
    cases waiting with
    | nil => exact sound id (.inl among)
    | cons next waiting =>
      unfold spread at among
      split at among
      · refine hypothesis (fun id there => sound id ?_) among
        exact there.imp_right (List.mem_cons_of_mem next)
      · refine hypothesis (fun id there => ?_) among
        have first := sound next (.inr List.mem_cons_self)
        rcases there with found | waits
        · rcases List.mem_append.mp found with before | last
          · exact sound id (.inl before)
          · rwa [List.mem_singleton.mp last]
        · rcases List.mem_append.mp waits with later | reads
          · exact sound id (.inr (List.mem_cons_of_mem next later))
          · obtain ⟨start, among, path⟩ := first
            exact ⟨start, among, Relation.ReflTransGen.head reads path⟩

/-- A change of a stream affects the references to the stream, the questions about changes, and all that reads
one of those. -/
theorem mem_affectedByStream_iff {stream : String} :
    id ∈ analysis.affectedByStream stream ↔
      ∃ first ∈ analysis.referencesTo stream ++ analysis.changed, Relation.ReflTransGen analysis.Reads id first := by
  constructor
  · intro among
    refine reads_of_mem_spread (fun id there => ?_) among
    rcases there with found | waits
    · simp at found
    · exact ⟨id, waits, .refl⟩
  · rintro ⟨first, among, path⟩
    have enough : (analysis.referencesTo stream ++ analysis.changed).length + analysis.unseen [] <
        (analysis.referencesTo stream ++ analysis.changed).length + (analysis.edges.reads.flatMap Prod.snd).length + 1 := by
      have := analysis.unseen_le []
      omega
    obtain ⟨contains, closed⟩ := analysis.spread_spec enough (by simp)
    induction path using Relation.ReflTransGen.head_induction_on with
    | refl => exact contains first (.inr among)
    | head reads _ hypothesis => exact closed _ hypothesis _ reads

end Analysis

/-! ### Analysed trees -/

/-- Whether a node reads all nodes that are linked to it. -/
def Form.readsLinks : Form → Bool
  | program _ | bind .. | sequence _ | property .. | binary .. | unary .. | call .. => true
  | _ => false

theorem mem_eraseReps_iff {element : NodeId} {list : List NodeId} : element ∈ list.eraseReps ↔ element ∈ list := by
  have loop (last : NodeId) (rest kept : List NodeId) :
      element ∈ List.eraseRepsBy.loop (· == ·) last rest kept ↔ element = last ∨ element ∈ rest ∨ element ∈ kept := by
    induction rest generalizing last kept with
    | nil => simp [List.eraseRepsBy.loop, or_comm]
    | cons next rest hypothesis =>
      unfold List.eraseRepsBy.loop
      split
      · rename_i same
        rw [hypothesis, beq_iff_eq.mp same, List.mem_cons]
        tauto
      · rw [hypothesis, List.mem_cons, List.mem_cons]
        tauto
  cases list with
  | nil => simp [List.eraseReps, List.eraseRepsBy]
  | cons first rest => simp [List.eraseReps, List.eraseRepsBy, loop]

namespace Context

variable {context : Context} {references : References} {id read : NodeId} {name : String}

theorem mem_dependenciesOf_iff :
    read ∈ context.dependenciesOf references id ↔ read ∈ context.readsOf references id ∧ read.isPresent = true := by
  simp [dependenciesOf, mem_eraseReps_iff]

/-- Of a table that is filled node by node, the place of a node holds what that node puts there. -/
theorem getElem?_foldl_of_put {entry : Option Definition} {index : Nat}
    {put : Array (Option Definition) → NodeId → Array (Option Definition)}
    (sized : ∀ table id, (put table id).size = table.size)
    (here : ∀ table, index < table.size → (put table (.node index))[index]? = some entry)
    (elsewhere : ∀ table id, id ≠ .node index → (put table id)[index]? = table[index]?)
    (nodes : List NodeId) (table : Array (Option Definition)) (bound : index < table.size) :
    (nodes.foldl put table)[index]? = if .node index ∈ nodes then some entry else table[index]? := by
  induction nodes generalizing table with
  | nil => simp
  | cons first rest hypothesis =>
    rw [List.foldl_cons, hypothesis _ (by rwa [sized])]
    by_cases same : first = .node index
    · simp [same, here table bound]
    · simp [Ne.symm same, elsewhere table first same]

/-- The table of what references refer to holds what each of them refers to. -/
theorem resolution?_referencesOf {reachable : List NodeId} (among : id ∈ reachable)
    (is : context.tree.form? id = some (.reference name)) :
    (context.referencesOf reachable).resolution? id = context.resolve? id name := by
  cases id with
  | missing => simp [Tree.form?_missing] at is
  | node index =>
    have bound : index < context.tree.size := by
      obtain ⟨node, there, -⟩ := Tree.form?_eq_some_iff.mp is
      exact (Array.getElem?_eq_some_iff.mp there).1
    have filled : (context.resolutionsOf reachable)[index]? = some (context.resolve? (.node index) name) := by
      unfold resolutionsOf
      rw [@getElem?_foldl_of_put (context.resolve? (.node index) name) index, if_pos among]
      · intro table id
        split <;> simp
      · intro table bound
        simp [is, bound]
      · intro table id other
        split
        · rename_i position _ _
          have different : position ≠ index := fun same => other (congrArg NodeId.node same)
          exact Array.getElem?_setIfInBounds_ne different
        · rfl
      · simpa using bound
    unfold referencesOf References.resolution?
    dsimp only
    rw [filled, Option.join_some]

/-- A set of nodes shields the others from a stream: whatever reads a node of the set, refers to the stream or
asks about changes is in the set. -/
structure Shields (context : Context) (stream : String) (affected : NodeId → Prop) : Prop where
  links : ∀ id form child, context.tree.form? id = some form → form.readsLinks = true →
    child ∈ form.links context.tree.list → (context.tree.form? child).isSome → affected child → affected id
  last : ∀ id statements statement, context.tree.form? id = some (.block statements) →
    (context.tree.list statements).getLast? = some statement → (context.tree.form? statement).isSome →
    affected statement → affected id
  binds : ∀ id name bind, context.tree.form? id = some (.reference name) →
    context.resolve? id name = some (.bind bind) → (context.tree.form? bind).isSome → affected bind → affected id
  streams : ∀ id name index signature, context.tree.form? id = some (.reference name) →
    context.resolve? id name = some (.stream index) → context.streams[index]? = some signature →
    signature.name = stream → affected id
  changed : ∀ id asked, context.tree.form? id = some (.changed asked) → affected id

end Context

section

variable {σ : Type} {tree : Tree} (natives : Natives) (signatures : List StreamSignature) (lookup : SourceLookup σ)
  (host : σ) {id read : NodeId}

theorem reads_analyze : (Analysis.analyze tree natives signatures lookup host).1.edges.reads =
    (tree.descendants tree.root).map fun id => (id, (Context.ofTree tree natives signatures).dependenciesOf
      ((Context.ofTree tree natives signatures).referencesOf (tree.descendants tree.root)) id) :=
  reads_edgesOf _ _ _

/-- In an analysed tree a node reads what its dependencies say. -/
theorem reads_of_mem_readsOf (reached : id ∈ tree.descendants tree.root) (there : (tree.form? read).isSome)
    (among : read ∈ (Context.ofTree tree natives signatures).readsOf
      ((Context.ofTree tree natives signatures).referencesOf (tree.descendants tree.root)) id) :
    (Analysis.analyze tree natives signatures lookup host).1.Reads id read := by
  have depends := Context.mem_dependenciesOf_iff.mpr ⟨among, Context.isPresent_of_isSome there⟩
  refine (Edges.mem_readers_iff _).mpr ⟨_, ?_, depends⟩
  rw [reads_analyze]
  exact List.mem_map.mpr ⟨id, reached, rfl⟩

/-- What a stream affects shields all other nodes from it. -/
theorem shields_of_analyze (reached : ∀ id, (tree.form? id).isSome → id ∈ tree.descendants tree.root) (stream : String) :
    (Context.ofTree tree natives signatures).Shields stream
      (· ∈ (Analysis.analyze tree natives signatures lookup host).1.affectedByStream stream) := by
  let context := Context.ofTree tree natives signatures
  let references := context.referencesOf (tree.descendants tree.root)
  have spreads {id read : NodeId} {form : Form} (is : tree.form? id = some form) (there : (tree.form? read).isSome)
      (reads : read ∈ context.readsOf references id)
      (affected : read ∈ (Analysis.analyze tree natives signatures lookup host).1.affectedByStream stream) :
      id ∈ (Analysis.analyze tree natives signatures lookup host).1.affectedByStream stream := by
    rw [Analysis.mem_affectedByStream_iff] at affected ⊢
    obtain ⟨first, among, path⟩ := affected
    refine ⟨first, among, Relation.ReflTransGen.head ?_ path⟩
    exact reads_of_mem_readsOf natives signatures lookup host (reached id (by simp [is])) there reads
  have starts {id : NodeId}
      (among : id ∈ (Analysis.analyze tree natives signatures lookup host).1.referencesTo stream ++
        (Analysis.analyze tree natives signatures lookup host).1.changed) :
      id ∈ (Analysis.analyze tree natives signatures lookup host).1.affectedByStream stream :=
    Analysis.mem_affectedByStream_iff.mpr ⟨id, among, .refl⟩
  have resolves {id : NodeId} {name : String} (is : tree.form? id = some (.reference name)) :
      references.resolution? id = context.resolve? id name :=
    Context.resolution?_referencesOf (reached id (by simp [is])) is
  constructor
  · intro id form child is reads link there affected
    have is' : context.tree.form? id = some form := is
    refine spreads is there ?_ affected
    have present := Context.isPresent_of_isSome there
    have among : child ∈ context.tree.children id := by
      rw [Tree.children, is']
      exact List.mem_filter.mpr ⟨link, present⟩
    cases form with
    | program body => simpa [Context.readsOf, is', Form.links] using link
    | bind name value declared variadic => simpa [Context.readsOf, is', Form.links] using link
    | call callee arguments =>
      simp only [Context.readsOf, is']
      exact List.mem_append_left _ among
    | sequence | property | binary | unary => simpa only [Context.readsOf, is'] using among
    | _ => simp [Form.readsLinks] at reads
  · intro id statements statement is last there affected
    have is' : context.tree.form? id = some (.block statements) := is
    refine spreads is there ?_ affected
    simp only [Context.readsOf, is']
    simpa using last
  · intro id name bind is resolved there affected
    have is' : context.tree.form? id = some (.reference name) := is
    refine spreads is there ?_ affected
    simp only [Context.readsOf, is', resolves is, show context.resolve? id name = _ from resolved]
    simp [Definition.node?]
  · intro id name index signature is resolved there named
    refine starts (List.mem_append_left _ (List.mem_filterMap.mpr ⟨(signature.name, id), ?_, by simp [named]⟩))
    refine List.mem_filterMap.mpr ⟨id, reached id (by simp [show tree.form? id = _ from is]), ?_⟩
    simp only [show (Context.ofTree tree natives signatures).referencesOf (tree.descendants tree.root) = references
      from rfl, resolves is, show context.resolve? id name = _ from resolved]
    simp [show (Context.ofTree tree natives signatures).streams[index]? = _ from there]
  · intro id asked is
    refine starts (List.mem_append_right _ (List.mem_filter.mpr ⟨?_, by simp [show tree.form? id = _ from is]⟩))
    exact reached id (by simp [show tree.form? id = _ from is])

end

end Rivulet
