import Rivulet.Proofs.Saved.Numbering

/-!
Loading what was edited. While a project is edited, its table collects the texts of all that was read; the project that
is loaded from its document has a table of its own, with other numbers for the same texts.

Main statement: the document of an edited project loads, with the same identity, the same saved form, and the same
values and errors (`loads_of_edited`).
-/

namespace Rivulet.InternedProject

variable {parser : SourceParser} {shared shared' : InternedProject} {project : Project} {changes : List Change}

/-- A change stands for the same change to the project with texts for names. -/
theorem Spells.apply (spells : shared.Spells project) (streams : project.streams = Streams.standard.signatures)
    {change : Change} (made : change.apply parser shared = .ok shared') :
    ∃ project', project.edit parser change.edits = .ok project' ∧ shared'.Spells project' := by
  have single (edit : Project.Edit) : project.edit parser [edit] = edit.apply parser project := by
    unfold Project.edit
    rw [List.foldlM_cons]
    cases edit.apply parser project <;> rfl
  cases change with
  | edit edit =>
    unfold Change.edits
    rw [single]
    cases edit with
    | replace name text => exact spells.withSource streams made
    | moveCaret name caret => exact spells.withCaret made
    | add name text => exact spells.withNewSource streams made
    | remove name => exact spells.withoutSource made
  | join texts =>
    obtain rfl := Except.ok.inj made
    exact ⟨project, rfl, spells.grown streams (Interner.extends_internAll shared.table texts)⟩

/-- Whatever happens to a project, it stands for a faithful one. -/
theorem Spells.change (spells : shared.Spells project) (faithful : project.Faithful parser)
    (made : shared.change parser changes = .ok shared') :
    ∃ project', project'.Faithful parser ∧ shared'.Spells project' := by
  induction changes generalizing shared project with
  | nil =>
    obtain rfl := Except.ok.inj made
    exact ⟨project, faithful, spells⟩
  | cons first changes hypothesis =>
    rw [InternedProject.change, List.foldlM_cons] at made
    obtain ⟨between, one, others⟩ := Project.exists_of_bind_eq_ok made
    obtain ⟨project', edited, spells'⟩ := spells.apply faithful.streams one
    exact hypothesis spells' (faithful.edit edited) others

/-- A document loads as what is kept in it. -/
theorem ofJson_render {saved : SavedProject} (bits : saved.id.value < 2 ^ 128)
    (carets : ∀ source ∈ saved.sources, source.caret < Text.countBound) (parser : SourceParser) :
    ofJson saved.render parser = load saved parser := by
  unfold ofJson
  rw [SavedProject.parse?_render bits carets]

/-- The document of a project that was read and edited with one parser loads with that parser. What is loaded has the
same identity and the same saved form, and each of its sources has the same value, as a text, or the same error. -/
theorem loads_of_edited {lenient : Bool} {bits : BitVec 128} {name : String} {texts : List (String × String)}
    {changes : List Change} {start project : InternedProject}
    (read : parse ⟨bits.toNat⟩ name texts (Line.parse lenient) = .ok start)
    (changed : start.change (Line.parse lenient) changes = .ok project) :
    ∃ loaded, ofJson project.toJson (Line.parse lenient) = .ok loaded ∧ loaded.id = project.id ∧
      loaded.save = project.save ∧ ∀ (source : String) (limits : Limits) (trigger : Option Nat),
        (loaded.evaluateSource source (loaded.initial limits trigger)).map Value.toText =
          (project.evaluateSource source (project.initial limits trigger)).map Value.toText := by
  rw [parse_eq] at read
  cases plain : Project.parse ⟨bits.toNat⟩ name texts (Line.parse lenient) with
  | error error => rw [plain] at read; cases read
  | ok first =>
    rw [plain] at read
    obtain rfl := Except.ok.inj read
    obtain ⟨last, faithful, spells⟩ :=
      (spells_ofProject first).change (Project.faithful_of_parse bits.isLt plain) changed
    have saved : project.save = last.save := by
      rw [spells.numbers]
      exact @Project.save_renamed Name _ project.table.naming _ last
    have document : project.toJson = last.toJson := congrArg SavedProject.render saved
    refine ⟨ofProject last, ?_, ?_, ?_, fun source limits trigger => ?_⟩
    · rw [document, ofJson_eq, Project.ofJson_toJson faithful]
      rfl
    · exact (congrArg SavedProject.id saved).symm
    · exact (@Project.save_renamed Name _ (ofProject last).table.naming _ last).trans saved.symm
    · rw [(spells_ofProject last).evaluateSource faithful.natives faithful.streams,
        spells.evaluateSource faithful.natives faithful.streams]

/-- Sources are replaced, added and removed, a caret is moved, another text joins the table, and a line that does not
parse is left. A literal has another number in the project that is loaded. -/
theorem loads_of_edited_prices :
    ∃ start project loaded,
      parse ⟨(7 : BitVec 128).toNat⟩ "prices" [("main", "borrow rate"), ("rate", "7 +"), ("old", "1")]
        (Line.parse true) = .ok start ∧
      start.change (Line.parse true) [.edit (.replace "rate" "21m"), .edit (.moveCaret "main" 40),
        .join ["late"], .edit (.add "note" "\"say \\\"hi\\\"\"\n)"), .edit (.remove "old")] = .ok project ∧
      ofJson project.toJson (Line.parse true) = .ok loaded ∧ loaded.id = project.id ∧ loaded.save = project.save ∧
      (loaded.evaluateSource "main" (loaded.initial ⟨1000, 10⟩ (some 0))).map Value.toText = .ok "21m" ∧
      loaded.table.name "21" ≠ project.table.name "21" := by
  have checked : (match parse ⟨(7 : BitVec 128).toNat⟩ "prices" [("main", "borrow rate"), ("rate", "7 +"), ("old", "1")]
      (Line.parse true) with
    | .ok start =>
      match start.change (Line.parse true) [.edit (.replace "rate" "21m"), .edit (.moveCaret "main" 40),
        .join ["late"], .edit (.add "note" "\"say \\\"hi\\\"\"\n)"), .edit (.remove "old")] with
      | .ok project =>
        match load project.save (Line.parse true) with
        | .ok loaded =>
          decide (project.save.id.value < 2 ^ 128 ∧ (∀ source ∈ project.save.sources, source.caret < Text.countBound) ∧
            (project.evaluateSource "main" (project.initial ⟨1000, 10⟩ (some 0))).map Value.toText = .ok "21m" ∧
            loaded.table.name "21" ≠ project.table.name "21")
        | .error _ => false
      | .error _ => false
    | .error _ => false) = true := by decide +kernel
  split at checked
  · rename_i start read
    split at checked
    · rename_i project edited
      obtain ⟨loaded, loads, same, kept, values⟩ := loads_of_edited read edited
      split at checked
      · rename_i other reread
        obtain ⟨bits, carets, value, apart⟩ := of_decide_eq_true checked
        have document : ofJson project.toJson (Line.parse true) = load project.save (Line.parse true) :=
          ofJson_render bits carets _
        have is : loaded = other := Except.ok.inj (loads.symm.trans (document.trans reread))
        exact ⟨start, project, loaded, read, edited, loads, same, kept, (values _ _ _).trans value, is ▸ apart⟩
      · cases checked
    · cases checked
  · cases checked

end Rivulet.InternedProject
