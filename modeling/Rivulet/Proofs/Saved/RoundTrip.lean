import Rivulet.Project.Edit
import Rivulet.Proofs.Project.Success
import Rivulet.Proofs.Saved.Document

/-!
Projects that are saved and loaded. A project that was read and then edited with one parser is faithful: its sources say
all that there is to know of it, and its carets lie inside their texts. Every edit keeps that, and the document of a
faithful project loads as the project.

Main statement: the document of a faithful project loads as the project (`ofJson_toJson`).
-/

namespace Rivulet

/-- A source has the tree that its text reads as, and its caret is a place in the text. -/
structure Source.Faithful (parser : SourceParser) (source : Source) : Prop where
  tree : parser source.text = .ok source.tree
  inside : source.caret ≤ source.text.length
  small : source.caret < Text.countBound

theorem Source.Faithful.withCaret {parser : SourceParser} {source : Source} (faithful : source.Faithful parser)
    {caret : Nat} (small : caret < Text.countBound) : (source.withCaret caret).Faithful parser :=
  ⟨faithful.tree, Nat.min_le_right _ _, Nat.lt_of_le_of_lt (Nat.min_le_left _ _) small⟩

namespace Project

/-- A project is what its identity, its name, and the names, texts and carets of its sources make it. -/
structure Faithful (parser : SourceParser) (project : Project) : Prop where
  bits : project.id.value < 2 ^ 128
  some : project.sources ≠ []
  distinct : firstRepeated? [] (project.sources.map Source.name) = none
  sources : ∀ source ∈ project.sources, source.Faithful parser
  natives : project.natives = .standard
  streams : project.streams = Streams.standard.signatures

section

variable {parser : SourceParser} {project project' : Project} {sources : List Source} {source : Source} {id : Uuid}
  {name text : String} {texts : List (String × String)}

/-! ### Edits keep projects faithful -/

theorem withSources_eq_ok_iff : project.withSources sources = .ok project' ↔
    sources ≠ [] ∧ firstRepeated? [] (sources.map Source.name) = none ∧ { project with sources } = project' := by
  unfold withSources
  cases sources with
  | nil => simp
  | cons source sources => cases firstRepeated? [] ((source :: sources).map Source.name) <;> simp

theorem readSource_eq_ok_iff : readSource name text parser = .ok source ↔
    ∃ tree, parser text = .ok tree ∧ ⟨name, text, tree, 0⟩ = source := by
  unfold readSource Source.parse
  cases parser text <;> simp

theorem faithful_of_readSource (read : readSource name text parser = .ok source) : source.Faithful parser := by
  obtain ⟨tree, parsed, rfl⟩ := readSource_eq_ok_iff.mp read
  exact ⟨parsed, Nat.zero_le _, show 0 < Text.countBound by decide⟩

theorem Faithful.withSources (faithful : project.Faithful parser) (all : ∀ source ∈ sources, source.Faithful parser)
    (made : project.withSources sources = .ok project') : project'.Faithful parser := by
  obtain ⟨some, distinct, rfl⟩ := withSources_eq_ok_iff.mp made
  exact ⟨faithful.bits, some, distinct, all, faithful.natives, faithful.streams⟩

/-- What holds of all elements of a list and of the one that is changed, holds after the change. -/
theorem forall_mem_modify {α : Type} {property : α → Prop} {items : List α} {change : α → α} (index : Nat)
    (before : ∀ item ∈ items, property item) (changed : ∀ item ∈ items, property (change item)) :
    ∀ item ∈ items.modify index change, property item := by
  intro item among
  obtain ⟨place, bound, is⟩ := List.getElem_of_mem among
  rw [List.length_modify] at bound
  rw [List.getElem_modify] at is
  subst is
  split
  · exact changed _ (List.getElem_mem bound)
  · exact before _ (List.getElem_mem bound)

theorem Faithful.modifySource (faithful : project.Faithful parser) {index : Nat} {change : Source → Source}
    (keeps : ∀ source ∈ project.sources, (change source).Faithful parser)
    (made : project.modifySource index change = .ok project') : project'.Faithful parser :=
  faithful.withSources (forall_mem_modify index faithful.sources keeps) made

theorem Faithful.withSource (faithful : project.Faithful parser)
    (made : project.withSource name text parser = .ok project') : project'.Faithful parser := by
  unfold Project.withSource at made
  obtain ⟨index, -, made⟩ := exists_of_bind_eq_ok made
  obtain ⟨replacement, read, made⟩ := exists_of_bind_eq_ok made
  exact faithful.modifySource
    (fun source among => (faithful_of_readSource read).withCaret (faithful.sources source among).small) made

theorem Faithful.withCaret (faithful : project.Faithful parser) {caret : Nat} (small : caret < Text.countBound)
    (made : project.withCaret name caret = .ok project') : project'.Faithful parser := by
  unfold Project.withCaret at made
  obtain ⟨index, -, made⟩ := exists_of_bind_eq_ok made
  exact faithful.modifySource (fun source among => (faithful.sources source among).withCaret small) made

theorem Faithful.withNewSource (faithful : project.Faithful parser)
    (made : project.withNewSource name text parser = .ok project') : project'.Faithful parser := by
  unfold Project.withNewSource at made
  split at made
  · contradiction
  obtain ⟨added, read, made⟩ := exists_of_bind_eq_ok made
  refine faithful.withSources (fun source among => ?_) made
  rcases List.mem_append.mp among with before | last
  · exact faithful.sources source before
  · exact List.mem_singleton.mp last ▸ faithful_of_readSource read

theorem Faithful.withoutSource (faithful : project.Faithful parser)
    (made : project.withoutSource name = .ok project') : project'.Faithful parser := by
  unfold Project.withoutSource at made
  obtain ⟨index, -, made⟩ := exists_of_bind_eq_ok made
  exact faithful.withSources (fun source among => faithful.sources source (List.mem_of_mem_eraseIdx among)) made

/-- One change keeps a project faithful. -/
theorem Faithful.apply (faithful : project.Faithful parser) {edit : Edit}
    (made : edit.apply parser project = .ok project') : project'.Faithful parser := by
  cases edit with
  | replace name text => exact faithful.withSource made
  | moveCaret name caret => exact faithful.withCaret caret.toNat_lt made
  | add name text => exact faithful.withNewSource made
  | remove name => exact faithful.withoutSource made

theorem Faithful.edit (faithful : project.Faithful parser) {edits : List Edit}
    (made : project.edit parser edits = .ok project') : project'.Faithful parser := by
  induction edits generalizing project with
  | nil =>
    cases made
    exact faithful
  | cons edit edits hypothesis =>
    rw [Project.edit, List.foldlM_cons] at made
    obtain ⟨between, one, others⟩ := exists_of_bind_eq_ok made
    exact hypothesis (faithful.apply one) others

theorem faithful_of_mapM (read : (texts.mapM fun text => readSource text.1 text.2 parser) = .ok sources) :
    ∀ source ∈ sources, source.Faithful parser := by
  induction texts generalizing sources with
  | nil =>
    cases read
    simp
  | cons text texts hypothesis =>
    rw [List.mapM_cons] at read
    obtain ⟨source, here, read⟩ := exists_of_bind_eq_ok read
    obtain ⟨others, there, read⟩ := exists_of_bind_eq_ok read
    cases read
    exact List.forall_mem_cons.mpr ⟨faithful_of_readSource here, hypothesis there⟩

theorem faithful_of_parse (bits : id.value < 2 ^ 128) (made : parse id name texts parser = .ok project) :
    project.Faithful parser := by
  obtain ⟨sources, read, made⟩ := exists_of_bind_eq_ok made
  obtain ⟨some, distinct, rfl⟩ := withSources_eq_ok_iff.mp made
  exact ⟨bits, some, distinct, faithful_of_mapM read, rfl, rfl⟩

/-! ### Loading -/

/-- A faithful source is read again as it is. -/
theorem reread_source (faithful : source.Faithful parser) :
    (do let read ← readSource source.name source.text parser; pure (read.withCaret source.caret)) =
      (.ok source : Except ProjectError Source) := by
  have read : readSource source.name source.text parser = .ok ⟨source.name, source.text, source.tree, 0⟩ :=
    readSource_eq_ok_iff.mpr ⟨source.tree, faithful.tree, rfl⟩
  simp only [read, bind, Except.bind, pure, Except.pure, Source.withCaret, Nat.min_eq_left faithful.inside]

theorem load_save (faithful : project.Faithful parser) : load project.save parser = .ok project := by
  have reread (sources : List Source) (all : ∀ source ∈ sources, source.Faithful parser) :
      ((sources.map fun source => (⟨source.name, source.text, source.caret⟩ : SavedSource)).mapM fun source => do
        let read ← readSource source.name source.code parser
        pure (read.withCaret source.caret)) = (.ok sources : Except ProjectError (List Source)) := by
    induction sources with
    | nil => rfl
    | cons source sources hypothesis =>
      obtain ⟨here, others⟩ := List.forall_mem_cons.mp all
      rw [List.map_cons, List.mapM_cons, hypothesis others, reread_source here]
      rfl
  have made : create project.id project.name project.sources = .ok project := by
    refine withSources_eq_ok_iff.mpr ⟨faithful.some, faithful.distinct, ?_⟩
    rw [← faithful.natives, ← faithful.streams]
  unfold load save
  rw [reread project.sources faithful.sources]
  exact made

theorem ofJson_toJson (faithful : project.Faithful parser) : ofJson project.toJson parser = .ok project := by
  have bits : project.save.id.value < 2 ^ 128 := faithful.bits
  have carets (source : SavedSource) (among : source ∈ project.save.sources) : source.caret < Text.countBound := by
    obtain ⟨source, inside, rfl⟩ := List.mem_map.mp among
    exact (faithful.sources source inside).small
  simp only [ofJson, toJson, SavedProject.parse?_render bits carets, load_save faithful]

end

end Project

end Rivulet
