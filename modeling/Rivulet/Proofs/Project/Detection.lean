import Rivulet.Proofs.Project.Recording

/-!
Which cycles of borrows are reported. While a source is analysed, whatever is under way waits for it, along borrows that
an analysis may ask about; so a report is warranted by a cycle of such borrows (`Project.Warranted`). A cycle of borrows
that the roots of the sources lead to is reported, wherever the analyses begin (`analyses_report_cycles`). The two differ
in a default of a record that nothing leads to but a declared type (`roundabout_reports_cycle`).
-/

namespace Rivulet

/-- Whether the analysis of some source reports a cycle. -/
def Analyses.ReportsCycle (states : Analyses) : Prop :=
  ∃ index analysis, states.finished? index = some analysis ∧ analysis.reportsCycle = true

namespace Project

open Relation

/-- The analysis of one source may ask about another one, since an explored node borrows it. -/
def MayBorrow (project : Project) (lender borrower : Nat) : Prop :=
  ∃ source id name, project.sources[borrower]? = some source ∧ source.tree.Explored id ∧
    source.tree.form? id = some (.borrow name) ∧ project.indexOf? name = some lender

/-- The analysis of one source is not finished before that of another one. -/
def WaitsFor (project : Project) (index waiting : Nat) : Prop :=
  ReflTransGen project.MayBorrow index waiting

/-- If a cycle is reported there is one. -/
def Warranted (project : Project) (states : Analyses) : Prop :=
  states.ReportsCycle → ∃ index, TransGen project.MayBorrow index index

/-- Analyses go on, and as long as only those are under way that wait, reports remain warranted. -/
structure Warrants (project : Project) (waits : Nat → Prop) (states states' : Analyses) : Prop where
  continues : states.Continues states'
  warranted : (∀ other, states.isUnderWay other = true → waits other) → project.Warranted states → project.Warranted states'

instance {project : Project} {waits : Nat → Prop} : IsPreorder Analyses (project.Warrants waits) where
  refl states := ⟨Std.Refl.refl states, fun _ warranted => warranted⟩
  trans _ _ _ first second :=
    ⟨IsTrans.trans _ _ _ first.continues second.continues, fun waiting warranted =>
      second.warranted (fun other underWay => waiting other (first.continues.underWay other ▸ underWay))
        (first.warranted waiting warranted)⟩

variable {project : Project} {depth index lender borrower : Nat} {states states' : Analyses} {waits waits' : Nat → Prop}

theorem Warrants.more (warrants : project.Warrants waits' states states') (more : ∀ other, waits other → waits' other) :
    project.Warrants waits states states' :=
  ⟨warrants.continues, fun waiting => warrants.warranted fun other underWay => more other (waiting other underWay)⟩

/-- Where the roots lead to all records, an analysis asks about nothing but what the roots lead to. -/
theorem borrows_of_mayBorrow
    (plain : ∀ source ∈ project.sources, source.tree.Acyclic ∧
      ∀ id name inputs, source.tree.form? id = some (.record name inputs) → source.tree.Reached id)
    (borrows : project.MayBorrow lender borrower) : project.Borrows lender borrower := by
  obtain ⟨source, id, name, there, explored, is, found⟩ := borrows
  obtain ⟨acyclic, records⟩ := plain source (List.mem_of_getElem? there)
  have reached := Tree.reached_of_explored acyclic records explored (by simp [is])
  exact ⟨source, name, there, List.mem_filterMap.mpr ⟨id, reached, by simp [is]⟩, found⟩

/-! ### Reports of cycles -/

/-- Answers about the sources that a source may borrow are warranted if all analyses are. -/
theorem warrants_sourceTypeWith {source : Source} (there : project.sources[index]? = some source)
    (moves : ∀ lender, Moves (project.Warrants (project.WaitsFor lender)) (project.analyzeTo depth lender)) :
    Answering (project.Warrants (project.WaitsFor index)) source.tree (project.sourceTypeWith (project.analyzeTo depth)) := by
  intro id name explored is states
  cases found : project.indexOf? name with
  | none =>
    have same : (project.sourceTypeWith (project.analyzeTo depth) name).run states = (.missing, states) := by
      simp only [sourceTypeWith, found]
      rfl
    rw [same]
    exact Std.Refl.refl states
  | some lender =>
    obtain ⟨type, same⟩ := @run_sourceTypeWith project (project.analyzeTo depth) name lender found states
    rw [same]
    split
    · exact Std.Refl.refl states
    · have borrows : project.MayBorrow lender index := ⟨source, id, name, there, explored, is, found⟩
      exact (moves lender states).more fun other waiting => .head borrows waiting

/-- The analysis of a source reports a cycle only if there is one. -/
theorem warranted_analyzed (moves : ∀ lender, Moves (project.Warrants (project.WaitsFor lender)) (project.analyzeTo depth lender))
    {source : Source} (unanalyzed : states[index]? = some .unanalyzed) (there : project.sources[index]? = some source)
    (waiting : ∀ other, states.isUnderWay other = true → project.WaitsFor index other) (warranted : project.Warranted states) :
    let outcome := project.analyzed depth source (states.set index .analyzing)
    project.Warranted (outcome.2.set index (.analyzed outcome.1)) := by
  intro outcome
  have bound := (List.getElem?_eq_some_iff.mp unanalyzed).1
  have answering := warrants_sourceTypeWith there moves
  have between : project.Warrants (project.WaitsFor index) (states.set index .analyzing) outcome.2 := moves_analyze answering _
  have waiting' (other : Nat) (underWay : Analyses.isUnderWay (states.set index .analyzing) other = true) :
      project.WaitsFor index other := by
    rw [Analyses.isUnderWay_set bound] at underWay
    split at underWay
    · rename_i same
      exact same ▸ .refl
    · exact waiting other underWay
  rintro ⟨other, analysis, finished, reports⟩
  rw [Analyses.finished?_set (by rw [between.continues.length, List.length_set]; exact bound)] at finished
  split at finished
  · -- The borrow that is reported closes a cycle with what waits for this source.
    cases finished
    obtain ⟨id, name, states', reached, is, before, answer⟩ := exists_answer_of_reportsCycle answering _ reports
    cases found : project.indexOf? name with
    | none =>
      simp only [sourceTypeWith, found] at answer
      cases answer
    | some lender =>
      obtain ⟨type, same⟩ := @run_sourceTypeWith project (project.analyzeTo depth) name lender found states'
      have underWay : states'.isUnderWay lender = true := by
        by_contra rests
        simp [same, rests] at answer
      rw [before.continues.underWay] at underWay
      have borrows : project.MayBorrow lender index :=
        ⟨source, id, name, there, Tree.explored_of_reached reached, is, found⟩
      exact ⟨lender, TransGen.head' borrows (waiting' lender underWay)⟩
  · refine between.warranted waiting' ?_ ⟨other, analysis, finished, reports⟩
    rintro ⟨other, analysis, found, reports⟩
    refine warranted ⟨other, analysis, ?_, reports⟩
    rw [Analyses.finished?_set bound] at found
    split at found
    · simp [AnalysisState.finished?] at found
    · exact found

theorem warrants_analyzeTo (project : Project) (depth index : Nat) :
    Moves (project.Warrants (project.WaitsFor index)) (project.analyzeTo depth index) := by
  induction depth generalizing index with
  | zero => exact moves_pure _
  | succ depth hypothesis =>
    intro states
    refine ⟨continues_analyzeTo project (depth + 1) index states, fun waiting warranted => ?_⟩
    rcases analyzeTo_cases project depth index states with ⟨same, -⟩ | ⟨source, unanalyzed, there, ran⟩
    · rw [same]
      exact warranted
    · rw [ran]
      exact warranted_analyzed hypothesis unanalyzed there waiting warranted

/-! ### Calls -/

/-- What holds of the analyses of single sources holds of an analysis that is asked for by name. -/
theorem moves_analyzeNamed {relation : Analyses → Analyses → Prop} [IsPreorder Analyses relation]
    (moves : ∀ index, Moves relation (project.analyzeAt index)) (name : String) : Moves relation (project.analyze name) := by
  unfold analyze
  cases project.indexOf name with
  | error error => exact moves_pure _
  | ok index => exact moves_map (moves index)

section

variable {calls : List String} (covers : ∀ index < project.sources.length, ∃ name ∈ calls, project.indexOf? name = some index)

theorem goesOn_calls (project : Project) (calls : List String) :
    ∀ name ∈ calls, Moves (project.GoesOn (project.sources.length + 1)) (project.analyze name) :=
  fun name _ => moves_analyzeNamed (goesOn_analyzeTo project _) name

include covers

/-- Calls that cover all sources analyse them all. -/
theorem finished_of_calls (bound : index < project.sources.length) :
    (((calls.mapM project.analyze).run project.noAnalyses).2.finished? index).isSome := by
  obtain ⟨name, among, place⟩ := covers index bound
  obtain ⟨between, before, -, after⟩ := exists_state_of_mapM (goesOn_calls project calls) among project.noAnalyses
  have place' : project.indexOf name = .ok index := by simp only [indexOf, place]
  have same : ((project.analyze name).run between).2 = ((project.analyzeAt index).run between).2 := by
    simp only [analyze, place']
    rfl
  have finished := finished_of_goesOn before (Nat.lt_succ_self _) bound
  rw [same] at after
  rw [after.continues.finished _ _ finished]
  rfl

/-- A cycle of borrows is reported. -/
theorem reportsCycle_of_cycle (cycle : TransGen project.Borrows index index) :
    ((calls.mapM project.analyze).run project.noAnalyses).2.ReportsCycle := by
  by_contra silent
  refine not_rel_self_of_acc (Acc.transGen ?_) cycle
  refine acc_of_finished (moves_mapM (goesOn_calls project calls) _) (Nat.lt_succ_self _) (fun other analysis found => ?_)
    (finished_of_calls covers (lt_length_of_transGen cycle))
  exact Bool.eq_false_iff.mpr fun reports => silent ⟨other, analysis, found, reports⟩

end

/-- A cycle that is reported is one of borrows that analyses may ask about. -/
theorem cycle_of_reportsCycle {calls : List String}
    (reports : ((calls.mapM project.analyze).run project.noAnalyses).2.ReportsCycle) :
    ∃ index, TransGen project.MayBorrow index index := by
  have moves : ∀ name ∈ calls, Moves (project.Warrants fun _ => False) (project.analyze name) :=
    fun name _ => moves_analyzeNamed (fun index states => (warrants_analyzeTo project _ index states).more nofun) name
  refine (moves_mapM moves project.noAnalyses).warranted (fun other underWay => ?_) ?_ reports
  · simp [(project.noAnalyses_rests other).2] at underWay
  · rintro ⟨other, analysis, found, -⟩
    simp [(project.noAnalyses_rests other).1] at found

/-- Whatever calls are made, in whatever order, if they cover all sources: the recursion ends by itself, every source is
analysed once, and a cycle is reported if the roots of the sources lead to borrows in a cycle; and none is unless borrows
that analyses may ask about make a cycle. These are the same borrows where the roots lead to all records. -/
theorem analyses_report_cycles (project : Project) (calls : List String)
    (covers : ∀ index < project.sources.length, ∃ name ∈ calls, project.indexOf? name = some index) :
    let outcome := (calls.mapM project.analyze).run project.noAnalyses
    (∀ depth, project.sources.length < depth →
      ∃ begun, (calls.mapM (project.callOnRecord depth)).run ⟨project.noAnalyses, []⟩ = (outcome.1, ⟨outcome.2, begun⟩) ∧
        begun.Perm (List.range project.sources.length)) ∧
    (∀ index < project.sources.length, (outcome.2.finished? index).isSome) ∧
    ((∃ index, TransGen project.Borrows index index) → outcome.2.ReportsCycle) ∧
    (outcome.2.ReportsCycle → ∃ index, TransGen project.MayBorrow index index) ∧
    ((∀ source ∈ project.sources, source.tree.Acyclic ∧
        ∀ id name inputs, source.tree.form? id = some (.record name inputs) → source.tree.Reached id) →
      (outcome.2.ReportsCycle ↔ ∃ index, TransGen project.Borrows index index)) := by
  intro outcome
  have finished (index : Nat) (bound : index < project.sources.length) : (outcome.2.finished? index).isSome :=
    finished_of_calls covers bound
  have reported : (∃ index, TransGen project.Borrows index index) → outcome.2.ReportsCycle :=
    fun ⟨_, cycle⟩ => reportsCycle_of_cycle covers cycle
  refine ⟨fun depth deep => ?_, finished, reported, cycle_of_reportsCycle, fun plain => ⟨fun reports => ?_, reported⟩⟩
  · obtain ⟨begun, recorded, once, mem⟩ := exists_record_of_calls deep calls
    refine ⟨begun, recorded, (List.perm_ext_iff_of_nodup once List.nodup_range).mpr fun index => ?_⟩
    rw [mem, List.mem_range]
    have goes := moves_mapM (goesOn_calls project calls) project.noAnalyses
    refine ⟨fun begun => ?_, fun bound => .inl (finished index bound)⟩
    have bound := Analyses.lt_length_of_hasBegun begun
    rwa [goes.continues.length, project.length_noAnalyses] at bound
  · obtain ⟨index, cycle⟩ := cycle_of_reportsCycle reports
    exact ⟨index, TransGen.mono (fun _ _ => borrows_of_mayBorrow plain) _ _ cycle⟩

/-- A source that borrows another one and has a number for its value. -/
def borrowing (name lender : String) : Source where
  name := name
  text := "borrow " ++ lender ++ "\n1"
  tree := {
    nodes := #[
      ⟨.borrow lender, ⟨0, 1⟩⟩,
      ⟨.number "1" .unitless, ⟨1, 2⟩⟩,
      ⟨.block ⟨0, 2⟩, ⟨0, 3⟩⟩,
      ⟨.program (.node 2), ⟨0, 4⟩⟩]
    lists := #[.node 0, .node 1]
    root := .node 3 }
  caret := 0

/-- A project of some sources. -/
def ofSources (sources : List Source) : Project :=
  ⟨⟨0⟩, "demo", sources, .standard, Streams.standard.signatures⟩

theorem mutual_borrows_reported :
    let project := ofSources [borrowing "a" "b", borrowing "b" "a"]
    (∀ index < project.sources.length, ∃ name ∈ ["b", "a", "b"], project.indexOf? name = some index) ∧
      ((["b", "a", "b"].mapM project.analyze).run project.noAnalyses).2.ReportsCycle := by
  intro project
  have covers : ∀ index < project.sources.length, ∃ name ∈ ["b", "a", "b"], project.indexOf? name = some index := by
    decide +kernel
  have first : project.Borrows 1 0 := ⟨borrowing "a" "b", "b", rfl, by decide +kernel, by decide +kernel⟩
  have second : project.Borrows 0 1 := ⟨borrowing "b" "a", "a", rfl, by decide +kernel, by decide +kernel⟩
  obtain ⟨-, -, reported, -⟩ := analyses_report_cycles project ["b", "a", "b"] covers
  exact ⟨covers, reported ⟨0, .head second (.single first)⟩⟩

/-- A project without a cycle of borrows. The first source declares that an input is of a record that nothing else leads
to, and the default of a field of that record borrows the second source, which borrows the first. -/
def roundabout : Project :=
  ofSources [
    ⟨"a", "", {
      nodes := #[
        ⟨.borrow "b", ⟨0, 1⟩⟩,
        ⟨.bind "f" (.node 0) none false, ⟨0, 2⟩⟩,
        ⟨.record "" ⟨0, 1⟩, ⟨0, 3⟩⟩,
        ⟨.bind "s" .missing (some (.record (.node 2))) false, ⟨3, 4⟩⟩,
        ⟨.reference "s", ⟨4, 5⟩⟩,
        ⟨.property (.node 4) "f", ⟨4, 6⟩⟩,
        ⟨.function "g" ⟨1, 1⟩ (.node 5) none, ⟨3, 7⟩⟩,
        ⟨.number "1" .unitless, ⟨7, 8⟩⟩,
        ⟨.block ⟨2, 2⟩, ⟨3, 9⟩⟩,
        ⟨.program (.node 8), ⟨3, 10⟩⟩]
      lists := #[.node 1, .node 3, .node 6, .node 7]
      root := .node 9 }, 0⟩,
    borrowing "b" "a"]

/-- A borrow that no root leads to is asked about all the same, and the second source is reported to be part of a
cycle. -/
theorem roundabout_reports_cycle :
    (∀ index < roundabout.sources.length, ∃ name ∈ ["a", "b"], roundabout.indexOf? name = some index) ∧
      ((["a", "b"].mapM roundabout.analyze).run roundabout.noAnalyses).2.ReportsCycle ∧
      ¬ ∃ index, TransGen roundabout.Borrows index index := by
  refine ⟨by decide +kernel, ?_, ?_⟩
  · have reports : (((["a", "b"].mapM roundabout.analyze).run roundabout.noAnalyses).2.finished? 1).any
        Analysis.reportsCycle = true := by decide +kernel
    obtain ⟨analysis, found, reports⟩ := (Option.any_eq_true _ _).mp reports
    exact ⟨1, analysis, found, reports⟩
  · have only (lender borrower : Nat) (borrows : roundabout.Borrows lender borrower) : lender = 0 ∧ borrower = 1 := by
      have lent : roundabout.sources.map Source.borrows = [[], ["a"]] := by decide +kernel
      have place : roundabout.indexOf? "a" = some 0 := by decide +kernel
      obtain ⟨source, name, there, among, found⟩ := borrows
      have names : ([[], ["a"]] : List (List String))[borrower]? = some source.borrows := by
        rw [← lent, List.getElem?_map, there]
        rfl
      match borrower with
      | 0 => simp [← Option.some.inj names] at among
      | 1 =>
        rw [← Option.some.inj names, List.mem_singleton] at among
        rw [among, place] at found
        cases found
        exact ⟨rfl, rfl⟩
      | _ + 2 => simp at names
    rintro ⟨index, cycle⟩
    obtain ⟨_, first, -⟩ := TransGen.head'_iff.mp cycle
    obtain ⟨_, -, last⟩ := TransGen.tail'_iff.mp cycle
    have := (only _ _ first).1
    have := (only _ _ last).2
    omega

end Project

end Rivulet
