import Rivulet.Project.Interned
import Rivulet.Proofs.Interner
import Rivulet.Proofs.Project.Spelling
import Rivulet.Proofs.Saved.RoundTrip

/-!
Projects with numbers for names, and the projects with texts for names that they stand for (`Spells`). Reading, edits
and loading do the same to both, and the sources have the same values and errors, whatever numbers the table gave
(`Spells.evaluateSource`).
-/

namespace Rivulet

open Interner (extends_internAll knows_internAll internAll_append)
open InternedProject (standardTexts)
open Project (exists_of_bind_eq_ok forall_mem_modify)

/-! ### Projects in a table -/

theorem Node.renamed_congr {N M : Type} {rename rename' : N → M} {node : Node N}
    (same : ∀ name, node.form.name? = some name → rename name = rename' name) :
    node.renamed rename = node.renamed rename' := by
  obtain ⟨form, span⟩ := node
  cases form <;> simp_all [renamed, Form.renamed, Form.name?]

theorem Tree.renamed_congr {N M : Type} {rename rename' : N → M} {tree : Tree N}
    (same : ∀ name ∈ tree.names, rename name = rename' name) : tree.renamed rename = tree.renamed rename' := by
  have nodes : tree.nodes.map (Node.renamed rename) = tree.nodes.map (Node.renamed rename') :=
    Array.map_congr_left fun node among => Node.renamed_congr fun name is =>
      same name (List.mem_filterMap.mpr ⟨node, Array.mem_toList_iff.mpr among, is⟩)
  unfold renamed
  rw [nodes]

/-- Nodes that are numbered one after the other have the numbers that their texts have in the end. -/
theorem Node.internAll_eq (nodes : List Node) (table : Interner) :
    internAll nodes table = (nodes.map (renamed (table.internAll (nodes.filterMap (·.form.name?))).name),
      table.internAll (nodes.filterMap (·.form.name?))) := by
  induction nodes generalizing table with
  | nil => rfl
  | cons node nodes hypothesis =>
    unfold internAll intern
    cases is : node.form.name? with
    | none =>
      have names : (node :: nodes).filterMap (·.form.name?) = nodes.filterMap (·.form.name?) :=
        List.filterMap_cons_none is
      have same (rename : String → Name) : node.renamed table.name = node.renamed rename :=
        renamed_congr fun name there => by rw [is] at there; cases there
      dsimp only
      rw [hypothesis, names, List.map_cons, same]
    | some text =>
      have names : (node :: nodes).filterMap (·.form.name?) = text :: nodes.filterMap (·.form.name?) :=
        List.filterMap_cons_some is
      obtain ⟨-, knows, number⟩ := table.intern_spec text
      have grows := extends_internAll (table.intern text).2 (nodes.filterMap (·.form.name?))
      have same : node.renamed (fun _ => (table.intern text).1) =
          node.renamed ((table.intern text).2.internAll (nodes.filterMap (·.form.name?))).name := by
        refine renamed_congr fun name there => ?_
        obtain rfl : text = name := Option.some.inj (is.symm.trans there)
        rw [grows.name_eq knows, number]
      dsimp only
      rw [hypothesis, names, List.map_cons, same]
      rfl

/-- A tree whose texts join a table holds their numbers there. -/
theorem Tree.intern_eq (tree : Tree) (table : Interner) :
    tree.intern table = (tree.renamed (table.internAll tree.names).name, table.internAll tree.names) := by
  unfold intern renamed
  rw [Node.internAll_eq, ← Array.toList_map]
  rfl

theorem Source.intern_eq (source : Source) (table : Interner) :
    source.intern table =
      (source.renamed (table.internAll source.tree.names).name, table.internAll source.tree.names) := by
  unfold intern renamed
  rw [Tree.intern_eq]

/-- Whether a table knows all texts of a source. -/
def Source.IsIn (table : Interner) (source : Source) : Prop :=
  ∀ text ∈ source.tree.names, table.Knows text

namespace Project

/-- A project whose names are the numbers that their texts have in a table. -/
def numbered (table : Interner) (project : Project) : Project Name :=
  @Project.renamed Name _ table.naming table.name project

/-- Whether a table knows all texts of a project. -/
structure IsIn (table : Interner) (project : Project) : Prop where
  standard : ∀ text ∈ standardTexts, table.Knows text
  sources : ∀ source ∈ project.sources, source.IsIn table

variable {table table' : Interner} {project : Project} {sources : List Source}

theorem renamed_sources_congr {rename rename' : String → Name} (known : ∀ source ∈ sources, source.IsIn table)
    (same : ∀ text, table.Knows text → rename text = rename' text) :
    sources.map (Source.renamed rename) = sources.map (Source.renamed rename') := by
  refine List.map_congr_left fun source among => ?_
  have tree : source.tree.renamed rename = source.tree.renamed rename' :=
    Tree.renamed_congr fun text inside => same text (known source among text inside)
  unfold Source.renamed
  rw [tree]

theorem mem_texts_of_mem_signatures {stream : StreamSignature} (among : stream ∈ Streams.standard.signatures) :
    stream.name ∈ Streams.texts := by
  obtain ⟨id, -, found⟩ := List.mem_filterMap.mp among
  obtain ⟨defined, there, rfl⟩ := Option.map_eq_some_iff.mp found
  exact List.mem_map.mpr ⟨defined, List.mem_of_getElem? there, rfl⟩

/-- A project under other names is the same for names that agree on the texts of the project. -/
theorem IsIn.renamed_congr (isIn : project.IsIn table) (streams : project.streams = Streams.standard.signatures)
    {first second : Naming Name} {rename rename' : String → Name}
    (natives : ∀ text ∈ Natives.texts, first.ofText text = second.ofText text)
    (same : ∀ text, table.Knows text → rename text = rename' text) :
    @Project.renamed Name _ first rename project = @Project.renamed Name _ second rename' project := by
  have signatures :
      (project.streams.map fun stream => (⟨rename stream.name, stream.valueType⟩ : StreamSignature Name)) =
        project.streams.map fun stream => ⟨rename' stream.name, stream.valueType⟩ := by
    refine List.map_congr_left fun stream among => ?_
    have known := mem_texts_of_mem_signatures (streams ▸ among)
    rw [same stream.name (isIn.standard _ (List.mem_append_right _ known))]
  unfold renamed
  rw [renamed_sources_congr isIn.sources same, Natives.standard_congr natives, signatures]

/-- The numbers of a project stay when other texts join the table. -/
theorem IsIn.numbered_eq (isIn : project.IsIn table) (streams : project.streams = Streams.standard.signatures)
    (grows : table.Extends table') : project.numbered table' = project.numbered table :=
  isIn.renamed_congr streams
    (fun text among => grows.name_eq (isIn.standard text (List.mem_append_left _ among)))
    fun _ knows => grows.name_eq knows

end Project

namespace InternedProject

variable {table : Interner} {parser : SourceParser} {shared shared' : InternedProject} {project : Project}

/-! ### Reading -/

/-- The texts in the trees of some sources, in the order in which they are read. -/
def textsOf (sources : List Source) : List String :=
  sources.flatMap fun source => source.tree.names

theorem isIn_of_textsOf {sources : List Source} (knows : ∀ text ∈ textsOf sources, table.Knows text) :
    ∀ source ∈ sources, source.IsIn table :=
  fun source among text inside => knows text (List.mem_flatMap.mpr ⟨source, among, inside⟩)

theorem readSource_run (name text : String) (parser : SourceParser) (table : Interner) :
    (readSource name text parser).run table = (Project.readSource name text parser).map (Source.intern · table) :=
  rfl

/-- Reading in order numbers all texts in the table that is reached at the end. -/
theorem mapM_run {α : Type} {read : α → Reading (Source Name)} {plain : α → Except ProjectError Source}
    (each : ∀ item table, (read item).run table = (plain item).map (Source.intern · table))
    (items : List α) (table : Interner) :
    (items.mapM read).run table = (items.mapM plain).map fun sources =>
      (sources.map (Source.renamed (table.internAll (textsOf sources)).name), table.internAll (textsOf sources)) := by
  induction items generalizing table with
  | nil => rfl
  | cons item items hypothesis =>
    rw [List.mapM_cons, List.mapM_cons, StateT.run_bind, each]
    cases plain item with
    | error error => rfl
    | ok source =>
      have rest := hypothesis (table.internAll source.tree.names)
      have numbers (sources : List Source) : table.internAll (textsOf (source :: sources)) =
          (table.internAll source.tree.names).internAll (textsOf sources) :=
        internAll_append table source.tree.names (textsOf sources)
      rw [Except.map, source.intern_eq]
      show ((items.mapM read >>= fun sources => pure (_ :: sources)).run (table.internAll source.tree.names)) = _
      rw [StateT.run_bind, rest]
      cases items.mapM plain with
      | error error => rfl
      | ok sources =>
        have kept : source.tree.renamed (table.internAll (textsOf (source :: sources))).name =
            source.tree.renamed (table.internAll source.tree.names).name := by
          rw [numbers]
          exact Tree.renamed_congr fun text among => (extends_internAll _ _).name_eq (knows_internAll table among)
        have same : source.renamed (table.internAll (textsOf (source :: sources))).name =
            source.renamed (table.internAll source.tree.names).name :=
          congrArg (Source.mk _ _ · _) kept
        show Except.ok (_ :: _, _) = Except.ok (_ :: _, _)
        rw [same, numbers]

/-- The project with numbers that a project is read as, with a table of its own. -/
def ofProject (project : Project) : InternedProject :=
  let table := (Interner.empty.internAll (textsOf project.sources)).internAll standardTexts
  ⟨project.numbered table, table⟩

theorem signatures_numbered (knows : ∀ text ∈ standardTexts, table.Knows text) :
    (@Streams.standard Name _ table.naming).signatures =
      Streams.standard.signatures.map fun stream => ⟨table.name stream.name, stream.valueType⟩ := by
  let _ := table.naming
  have spelled (text : String) (among : text ∈ Streams.texts) : table.number text = table.name text :=
    Interner.number_of_knows (knows text (List.mem_append_right _ among))
  have signatures := @Streams.signatures_standard Name _ _
    (table.spelling fun text among => knows text (List.mem_append_left _ among)).relocation spelled
  rw [signatures]
  refine List.map_congr_left fun stream among => ?_
  exact congrArg (StreamSignature.mk · _) (spelled stream.name (Project.mem_texts_of_mem_signatures among))

theorem create_renamed (id : Uuid) (name : String) {sources : List Source}
    (known : ∀ source ∈ sources, source.IsIn table) :
    create id name (sources.map (Source.renamed table.name)) table = (Project.create id name sources).map fun project =>
      ⟨project.numbered (table.internAll standardTexts), table.internAll standardTexts⟩ := by
  have grows := extends_internAll table standardTexts
  have same : sources.map (Source.renamed table.name) =
      sources.map (Source.renamed (table.internAll standardTexts).name) :=
    Project.renamed_sources_congr known fun _ knows => (grows.name_eq knows).symm
  have made := @Project.withSources_renamed Name _ (table.internAll standardTexts).naming
    (table.internAll standardTexts).name ⟨id, name, [], .standard, Streams.standard.signatures⟩ sources
  unfold Project.renamed at made
  dsimp only at made
  rw [List.map_nil, ← signatures_numbered fun text among => knows_internAll table among] at made
  unfold create Project.create
  rw [same]
  dsimp only
  rw [made]
  cases Project.withSources _ sources <;> rfl

/-- Sources that are read in order make the project that they make with texts for names. -/
theorem create_of_mapM {α : Type} {read : α → Reading (Source Name)} {plain : α → Except ProjectError Source}
    (each : ∀ item table, (read item).run table = (plain item).map (Source.intern · table))
    (items : List α) (id : Uuid) (name : String) :
    ((items.mapM read).run .empty >>= fun result => create id name result.1 result.2) =
      (items.mapM plain >>= Project.create id name).map ofProject := by
  rw [mapM_run each]
  cases items.mapM plain with
  | error error => rfl
  | ok sources =>
    have numbers := @create_renamed (Interner.empty.internAll (textsOf sources)) id name sources
      (isIn_of_textsOf fun text among => knows_internAll _ among)
    simp only [Except.map, bind, Except.bind] at numbers ⊢
    rw [numbers]
    cases made : Project.create id name sources with
    | error error => rfl
    | ok project =>
      obtain ⟨-, -, is⟩ := Project.withSources_eq_ok_iff.mp made
      have same : project.sources = sources := is ▸ rfl
      dsimp only
      rw [ofProject, same]

theorem parse_eq (id : Uuid) (name : String) (texts : List (String × String)) (parser : SourceParser) :
    parse id name texts parser = (Project.parse id name texts parser).map ofProject :=
  create_of_mapM (fun text table => readSource_run text.1 text.2 parser table) texts id name

theorem load_eq (saved : SavedProject) (parser : SourceParser) :
    load saved parser = (Project.load saved parser).map ofProject := by
  refine create_of_mapM (fun source table => ?_) saved.sources saved.id saved.name
  rw [StateT.run_bind, readSource_run]
  cases Project.readSource source.name source.code parser <;> rfl

theorem ofJson_eq (text : String) (parser : SourceParser) :
    ofJson text parser = (Project.ofJson text parser).map ofProject := by
  unfold ofJson Project.ofJson
  cases SavedProject.parse? text with
  | none => rfl
  | some saved => exact load_eq saved parser

/-! ### Edits -/

/-- Whether a project with numbers stands for one with texts. -/
structure Spells (shared : InternedProject) (project : Project) : Prop where
  numbers : shared.toProject = project.numbered shared.table
  isIn : project.IsIn shared.table

theorem spells_ofProject (project : Project) : (ofProject project).Spells project where
  numbers := rfl
  isIn := {
    standard := fun _ among => knows_internAll _ among
    sources := isIn_of_textsOf fun _ among => (extends_internAll _ _).knows (knows_internAll _ among) }

section

variable (spells : shared.Spells project) (streams : project.streams = Streams.standard.signatures)

include spells streams

/-- A project stands for the same when other texts join the table. -/
theorem Spells.grown (grows : shared.table.Extends table) : Spells ⟨shared.toProject, table⟩ project where
  numbers := spells.numbers.trans (spells.isIn.numbered_eq streams grows).symm
  isIn := {
    standard := fun text among => grows.knows (spells.isIn.standard text among)
    sources := fun source among text inside => grows.knows (spells.isIn.sources source among text inside) }

end

/-- Other sources in a project with numbers stand for other sources in the project with texts. -/
theorem Spells.withSources (spells : shared.Spells project) {sources : List Source}
    (known : ∀ source ∈ sources, source.IsIn shared.table) {changed : Project Name}
    (made : shared.toProject.withSources (sources.map (Source.renamed shared.table.name)) = .ok changed) :
    ∃ project', project.withSources sources = .ok project' ∧ Spells ⟨changed, shared.table⟩ project' := by
  have numbers := @Project.withSources_renamed Name _ shared.table.naming shared.table.name project sources
  rw [spells.numbers, Project.numbered, numbers] at made
  cases other : project.withSources sources with
  | error error => rw [other] at made; cases made
  | ok project' =>
    rw [other] at made
    obtain rfl := Except.ok.inj made
    obtain ⟨-, -, is⟩ := Project.withSources_eq_ok_iff.mp other
    exact ⟨project', rfl, rfl, spells.isIn.standard, is ▸ known⟩

/-- A source that is read into a table. -/
theorem exists_of_readSource {name text : String} {table' : Interner} {numbered : Source Name}
    (read : (readSource name text parser).run table = .ok (numbered, table')) :
    ∃ source, Project.readSource name text parser = .ok source ∧ numbered = source.renamed table'.name ∧
      table.Extends table' ∧ source.IsIn table' := by
  rw [readSource_run] at read
  cases plain : Project.readSource name text parser with
  | error error => rw [plain] at read; cases read
  | ok source =>
    rw [plain, Except.map, source.intern_eq] at read
    obtain ⟨rfl, rfl⟩ := Prod.mk.inj (Except.ok.inj read)
    exact ⟨source, rfl, rfl, extends_internAll _ _, fun _ among => knows_internAll _ among⟩

theorem map_modify {α β : Type} {make : α → β} {change : α → α} {change' : β → β}
    (same : ∀ item, change' (make item) = make (change item)) (items : List α) (index : Nat) :
    (items.map make).modify index change' = (items.modify index change).map make := by
  induction items generalizing index with
  | nil => simp
  | cons item items hypothesis => cases index <;> simp [same, hypothesis]

section

variable (spells : shared.Spells project)

include spells

theorem Spells.indexOf (name : String) : shared.indexOf name = project.indexOf name :=
  (congrArg (Project.indexOf · name) spells.numbers).trans
    (@Project.indexOf_renamed Name _ shared.table.naming _ project name)

theorem Spells.sources : shared.sources = project.sources.map (Source.renamed shared.table.name) :=
  congrArg Project.sources spells.numbers

theorem Spells.modifySource {index : Nat} (change : Source → Source) {change' : Source Name → Source Name}
    (same : ∀ source, change' (source.renamed shared.table.name) = (change source).renamed shared.table.name)
    (known : ∀ source ∈ project.sources, (change source).IsIn shared.table) {changed : Project Name}
    (made : shared.toProject.modifySource index change' = .ok changed) :
    ∃ project', project.modifySource index change = .ok project' ∧ Spells ⟨changed, shared.table⟩ project' := by
  unfold Project.modifySource at made
  rw [spells.sources, map_modify same] at made
  exact spells.withSources (forall_mem_modify index spells.isIn.sources known) made

end

theorem Spells.withSource (spells : shared.Spells project) (streams : project.streams = Streams.standard.signatures)
    {name text : String} (made : shared.withSource name text parser = .ok shared') :
    ∃ project', project.withSource name text parser = .ok project' ∧ shared'.Spells project' := by
  obtain ⟨index, place, rest⟩ := exists_of_bind_eq_ok made
  obtain ⟨⟨numbered, table⟩, read, rest⟩ := exists_of_bind_eq_ok rest
  obtain ⟨changed, modified, is⟩ := exists_of_bind_eq_ok rest
  obtain ⟨source, plain, rfl, grows, known⟩ := exists_of_readSource read
  obtain ⟨project', same, spells'⟩ := (spells.grown streams grows).modifySource
    (fun old => source.withCaret old.caret) (fun _ => rfl) (fun _ _ => known) modified
  refine ⟨project', ?_, Except.ok.inj is ▸ spells'⟩
  unfold Project.withSource
  rw [← spells.indexOf, place, plain]
  exact same

theorem Spells.withCaret (spells : shared.Spells project) {name : String} {caret : Nat}
    (made : shared.withCaret name caret = .ok shared') :
    ∃ project', project.withCaret name caret = .ok project' ∧ shared'.Spells project' := by
  obtain ⟨changed, inside, is⟩ := exists_of_bind_eq_ok made
  obtain ⟨index, place, modified⟩ := exists_of_bind_eq_ok inside
  obtain ⟨project', same, spells'⟩ :=
    spells.modifySource (Source.withCaret · caret) (fun _ => rfl) spells.isIn.sources modified
  refine ⟨project', ?_, Except.ok.inj is ▸ spells'⟩
  unfold Project.withCaret
  rw [← spells.indexOf, place]
  exact same

theorem Spells.withNewSource (spells : shared.Spells project) (streams : project.streams = Streams.standard.signatures)
    {name text : String} (made : shared.withNewSource name text parser = .ok shared') :
    ∃ project', project.withNewSource name text parser = .ok project' ∧ shared'.Spells project' := by
  have free : (shared.source? name).isSome = (project.source? name).isSome :=
    (congrArg (fun project => (Project.source? project name).isSome) spells.numbers).trans
      (@Project.isSome_source?_renamed Name _ shared.table.naming _ project name)
  unfold InternedProject.withNewSource at made
  unfold Project.withNewSource
  rw [free] at made
  split at made
  · contradiction
  obtain ⟨⟨numbered, table⟩, read, rest⟩ := exists_of_bind_eq_ok made
  obtain ⟨changed, added, is⟩ := exists_of_bind_eq_ok rest
  obtain ⟨source, plain, rfl, grows, known⟩ := exists_of_readSource read
  have grown := spells.grown streams grows
  have together : shared.sources ++ [source.renamed table.name] =
      (project.sources ++ [source]).map (Source.renamed table.name) := by
    rw [List.map_append]
    exact congrArg (· ++ _) grown.sources
  rw [together] at added
  have all : ∀ other ∈ project.sources ++ [source], other.IsIn table := fun other among =>
    (List.mem_append.mp among).elim (grown.isIn.sources other) fun last => List.mem_singleton.mp last ▸ known
  obtain ⟨project', same, spells'⟩ := grown.withSources all added
  refine ⟨project', ?_, Except.ok.inj is ▸ spells'⟩
  rw [if_neg ‹_›, plain]
  exact same

theorem Spells.withoutSource (spells : shared.Spells project) {name : String}
    (made : shared.withoutSource name = .ok shared') :
    ∃ project', project.withoutSource name = .ok project' ∧ shared'.Spells project' := by
  obtain ⟨changed, inside, is⟩ := exists_of_bind_eq_ok made
  obtain ⟨index, place, removed⟩ := exists_of_bind_eq_ok inside
  rw [spells.sources, List.eraseIdx_map] at removed
  have known : ∀ source ∈ project.sources.eraseIdx index, source.IsIn shared.table :=
    fun source among => spells.isIn.sources source (List.mem_of_mem_eraseIdx among)
  obtain ⟨project', same, spells'⟩ := spells.withSources known removed
  refine ⟨project', ?_, Except.ok.inj is ▸ spells'⟩
  unfold Project.withoutSource
  rw [← spells.indexOf, place]
  exact same

/-! ### Evaluation -/

/-- Whatever numbers the names of a project have, its sources have the same values as texts, and the same errors. -/
theorem Spells.evaluateSource (spells : shared.Spells project) (standard : project.natives = .standard)
    (streams : project.streams = Streams.standard.signatures) (source : String) (limits : Limits)
    (trigger : Option Nat) :
    (shared.evaluateSource source (shared.initial limits trigger)).map Value.toText =
      (project.evaluateSource source (.initial limits trigger)).map Value.toText := by
  let _ := shared.table.naming
  have known (text : String) (knows : shared.table.Knows text) : shared.table.number text = shared.table.name text :=
    Interner.number_of_knows knows
  let spelling := shared.table.spelling fun text among => spells.isIn.standard text (List.mem_append_left _ among)
  have numbers : shared.toProject = project.renamed spelling.name :=
    spells.numbers.trans (spells.isIn.renamed_congr streams (fun _ _ => rfl) fun text knows => (known text knows).symm)
  have spelled (text : String) (among : text ∈ Streams.texts) : spelling.relocation.name text = Naming.ofText text :=
    known text (spells.isIn.standard text (List.mem_append_right _ among))
  have occasion : shared.initial limits trigger = (Occasion.initial limits trigger).relocated spelling.relocation := by
    have trigger' : trigger.bind (Streams.standard : Streams Name).name? =
        (trigger.bind (Streams.standard : Streams).name?).map spelling.relocation.name := by
      cases trigger with
      | none => rfl
      | some id => exact Streams.name?_standard spelled id
    exact congr (congrArg (Occasion.mk limits) (Streams.bindings_standard spelled)) trigger'
  have reads : project.Reads spelling.name := fun source among text inside => by
    have knows := spells.isIn.sources source among text inside
    exact (congrArg shared.table.text (known text knows)).trans (Interner.text_name knows)
  unfold InternedProject.evaluateSource
  rw [numbers, occasion, Project.evaluateSource_renamed spelling standard Project.isWithin_standard reads]
  cases project.evaluateSource source (.initial limits trigger) with
  | error error => rfl
  | ok value => exact congrArg Except.ok value.toText_relocated

end InternedProject

end Rivulet
