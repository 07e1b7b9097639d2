import Rivulet.Project.Analyses
import Rivulet.Proofs.Analysis.Sources
import Mathlib.Data.List.Perm.Subperm

/-!
Cycles of borrows. The analysis of a source is under way while those that it borrows are analysed, so the last borrow
of a cycle finds its source under way and is reported. If no analysis reports a cycle, the analyses were finished in an
order in which every source comes after those that it borrows (`acc_of_finished`).
-/

namespace Rivulet

/-! ### How far analyses are -/

/-- The analysis that is finished. -/
def AnalysisState.finished? : AnalysisState → Option Analysis
  | analyzed analysis => some analysis
  | _ => none

/-- Whether an analysis is under way. -/
def AnalysisState.isUnderWay : AnalysisState → Bool
  | analyzing => true
  | _ => false

namespace Analyses

/-- The analysis of the source at a place, if it is finished. -/
def finished? (states : Analyses) (index : Nat) : Option Analysis :=
  states[index]?.bind AnalysisState.finished?

/-- Whether the analysis of the source at a place is under way. -/
def isUnderWay (states : Analyses) (index : Nat) : Bool :=
  states[index]?.any AnalysisState.isUnderWay

/-- Analyses may have been finished since, and none are under way that were not. -/
structure Continues (states states' : Analyses) : Prop where
  length : states'.length = states.length
  finished : ∀ index analysis, states.finished? index = some analysis → states'.finished? index = some analysis
  underWay : ∀ index, states'.isUnderWay index = states.isUnderWay index

instance : IsPreorder Analyses Continues where
  refl _ := ⟨rfl, fun _ _ found => found, fun _ => rfl⟩
  trans _ _ _ first second :=
    ⟨second.length.trans first.length, fun _ _ found => second.finished _ _ (first.finished _ _ found),
      fun _ => (second.underWay _).trans (first.underWay _)⟩

variable {states : Analyses} {index other : Nat}

theorem lt_length_of_isUnderWay (underWay : states.isUnderWay index = true) : index < states.length := by
  cases there : states[index]? with
  | none => simp [isUnderWay, there] at underWay
  | some state => exact (List.getElem?_eq_some_iff.mp there).1

theorem lt_length_of_finished {analysis : Analysis} (finished : states.finished? index = some analysis) :
    index < states.length := by
  obtain ⟨state, there, -⟩ := Option.bind_eq_some_iff.mp finished
  exact (List.getElem?_eq_some_iff.mp there).1

theorem finished?_of_isUnderWay (underWay : states.isUnderWay index = true) : states.finished? index = none := by
  unfold isUnderWay at underWay
  unfold finished?
  cases there : states[index]? with
  | none => rfl
  | some state => cases state <;> simp [there, AnalysisState.isUnderWay, AnalysisState.finished?] at underWay ⊢

theorem finished?_set (bound : index < states.length) (state : AnalysisState) :
    finished? (states.set index state) other = if other = index then state.finished? else states.finished? other := by
  unfold finished?
  by_cases same : other = index
  · simp [same, bound]
  · simp [Ne.symm same, same]

theorem isUnderWay_set (bound : index < states.length) (state : AnalysisState) :
    isUnderWay (states.set index state) other = if other = index then state.isUnderWay else states.isUnderWay other := by
  unfold isUnderWay
  by_cases same : other = index
  · simp [same, bound]
  · simp [Ne.symm same, same]

end Analyses

namespace Project

variable {project : Project} {depth index : Nat} {states states' : Analyses}

/-- One source borrows another one. -/
def Borrows (project : Project) (lender borrower : Nat) : Prop :=
  ∃ source name, project.sources[borrower]? = some source ∧ name ∈ source.borrows ∧ project.indexOf? name = some lender

theorem lt_length_of_transGen {lender borrower : Nat} (path : Relation.TransGen project.Borrows lender borrower) :
    borrower < project.sources.length := by
  obtain ⟨_, -, _, _, there, -⟩ := Relation.TransGen.tail'_iff.mp path
  exact (List.getElem?_eq_some_iff.mp there).1

/-- No more sources are visited at a time than there are. -/
theorem length_le_of_inside {count : Nat} {visiting : List Nat} (distinct : visiting.Nodup)
    (inside : ∀ other ∈ visiting, other < count) : visiting.length ≤ count := by
  have within : visiting ⊆ List.range count := fun other among => List.mem_range.mpr (inside other among)
  simpa using (distinct.subperm within).length_le

/-- Analyses may still follow borrows down to a depth, because so many are under way already. -/
def Allows (project : Project) (depth : Nat) (states : Analyses) : Prop :=
  states.length = project.sources.length ∧
    ∃ visiting : List Nat, visiting.Nodup ∧ (∀ index ∈ visiting, states.isUnderWay index = true) ∧
      states.length < depth + visiting.length

/-- Unless a cycle is reported, no borrow of a source that has been analysed leads back to that source. -/
def Grounded (project : Project) (states : Analyses) : Prop :=
  (∀ index analysis, states.finished? index = some analysis → analysis.reportsCycle = false) →
    ∀ index, (states.finished? index).isSome → Acc project.Borrows index

/-- Analyses go on, down to a depth, and stay grounded. -/
structure GoesOn (project : Project) (depth : Nat) (states states' : Analyses) : Prop where
  continues : states.Continues states'
  grounded : project.Allows depth states → project.Grounded states → project.Grounded states'

theorem Allows.continue (allows : project.Allows depth states) (continues : states.Continues states') :
    project.Allows depth states' := by
  obtain ⟨sized, visiting, distinct, underWay, enough⟩ := allows
  refine ⟨continues.length.trans sized, visiting, distinct, fun index among => ?_, continues.length ▸ enough⟩
  rw [continues.underWay, underWay index among]

instance : IsPreorder Analyses (project.GoesOn depth) where
  refl states := ⟨Std.Refl.refl states, fun _ grounded => grounded⟩
  trans _ _ _ first second :=
    ⟨IsTrans.trans _ _ _ first.continues second.continues, fun allows grounded =>
      second.grounded (allows.continue first.continues) (first.grounded allows grounded)⟩

/-- No more analyses can be under way than there are sources. -/
theorem Allows.pos (allows : project.Allows depth states) : 0 < depth := by
  obtain ⟨-, visiting, distinct, underWay, enough⟩ := allows
  have few := length_le_of_inside distinct fun index among => Analyses.lt_length_of_isUnderWay (underWay index among)
  omega

/-- An analysis that begins is under way, and goes down one less. -/
theorem Allows.begin (allows : project.Allows (depth + 1) states) (bound : index < states.length)
    (resting : states.isUnderWay index = false) : project.Allows depth (states.set index .analyzing) := by
  obtain ⟨sized, visiting, distinct, underWay, enough⟩ := allows
  refine ⟨by simpa using sized, index :: visiting, ?_, fun other among => ?_, ?_⟩
  · refine List.nodup_cons.mpr ⟨fun among => ?_, distinct⟩
    simp [underWay index among] at resting
  · rw [Analyses.isUnderWay_set bound]
    split
    · rfl
    · rename_i apart
      exact underWay other ((List.mem_cons.mp among).resolve_left apart)
  · simp only [List.length_set, List.length_cons]
    omega

/-! ### Analyses that go on -/

/-- The analysis of a source, and what it leaves, if the sources that it borrows are analysed down to a depth. -/
def analyzed (project : Project) (depth : Nat) (source : Source) (states : Analyses) : Analysis × Analyses :=
  (Analysis.analyze source.tree project.natives project.streams
    (project.sourceTypeWith (project.analyzeTo depth))).run states

/-- Either there is nothing left to do for a source, or its analysis begins and is finished. -/
theorem analyzeTo_cases (project : Project) (depth index : Nat) (states : Analyses) :
    (project.analyzeTo (depth + 1) index).run states = ((states.finished? index).getD .empty, states) ∧
        (states[index]? = some .unanalyzed → project.sources[index]? = none) ∨
      ∃ source, states[index]? = some .unanalyzed ∧ project.sources[index]? = some source ∧
        let outcome := project.analyzed depth source (states.set index .analyzing)
        (project.analyzeTo (depth + 1) index).run states = (outcome.1, outcome.2.set index (.analyzed outcome.1)) := by
  simp only [analyzeTo, StateT.run_bind, StateT.run_get, pure_bind]
  unfold Analyses.finished?
  cases states[index]? with
  | none => exact .inl ⟨rfl, by simp⟩
  | some state =>
    cases state with
    | analyzing => exact .inl ⟨rfl, by simp⟩
    | analyzed analysis => exact .inl ⟨rfl, by simp⟩
    | unanalyzed =>
      cases project.sources[index]? with
      | none => exact .inl ⟨rfl, fun _ => rfl⟩
      | some source => exact .inr ⟨source, rfl, rfl, rfl⟩

theorem answering_sourceTypeWith {relation : Analyses → Analyses → Prop} [IsPreorder Analyses relation]
    (moves : ∀ index, Moves relation (project.analyzeTo depth index)) (tree : Tree) :
    Answering relation tree (project.sourceTypeWith (project.analyzeTo depth)) := by
  intro _ name _ _
  unfold sourceTypeWith
  split
  · exact moves_pure _
  · refine moves_bind (fun states => Std.Refl.refl states) fun states => ?_
    split
    · exact moves_pure _
    · exact moves_map (moves _)

/-- Analyses continue when a source that has not been analysed begins to be and is then finished. -/
theorem continues_set {analysis : Analysis} (unanalyzed : states[index]? = some .unanalyzed)
    (between : Analyses.Continues (states.set index .analyzing) states') :
    states.Continues (states'.set index (.analyzed analysis)) := by
  have bound := (List.getElem?_eq_some_iff.mp unanalyzed).1
  have bound' : index < states'.length := by simpa [between.length] using bound
  refine ⟨by simpa using between.length, fun other found is => ?_, fun other => ?_⟩
  · have apart : other ≠ index := by
      rintro rfl
      simp [Analyses.finished?, unanalyzed, AnalysisState.finished?] at is
    rw [Analyses.finished?_set bound', if_neg apart]
    exact between.finished other found (by rw [Analyses.finished?_set bound, if_neg apart, is])
  · rw [Analyses.isUnderWay_set bound']
    split
    · rename_i same
      simp [same, Analyses.isUnderWay, unanalyzed, AnalysisState.isUnderWay]
    · rename_i apart
      rw [between.underWay, Analyses.isUnderWay_set bound, if_neg apart]

theorem continues_analyzeTo (project : Project) (depth index : Nat) :
    Moves Analyses.Continues (project.analyzeTo depth index) := by
  induction depth generalizing index with
  | zero => exact moves_pure _
  | succ depth hypothesis =>
    intro states
    rcases analyzeTo_cases project depth index states with ⟨same, -⟩ | ⟨source, unanalyzed, is, ran⟩
    · rw [same]
      exact Std.Refl.refl states
    · rw [ran]
      exact continues_set unanalyzed (moves_analyze (answering_sourceTypeWith hypothesis _) _)

/-- The analysis of a source that is not under way is finished once it has been asked for. -/
theorem finished_of_analyzeTo (allows : project.Allows depth states) (bound : index < project.sources.length)
    (resting : states.isUnderWay index = false) :
    ((project.analyzeTo depth index).run states).2.finished? index =
      some ((project.analyzeTo depth index).run states).1 := by
  obtain ⟨depth, rfl⟩ := Nat.exists_eq_succ_of_ne_zero (Nat.ne_of_gt allows.pos)
  rcases analyzeTo_cases project depth index states with ⟨same, sourceless⟩ | ⟨source, unanalyzed, is, ran⟩
  · obtain ⟨state, there⟩ : ∃ state, states[index]? = some state := by
      rw [← allows.1] at bound
      exact ⟨_, List.getElem?_eq_getElem bound⟩
    cases state with
    | unanalyzed => simp [there, List.getElem?_eq_getElem bound] at sourceless
    | analyzing => simp [Analyses.isUnderWay, there, AnalysisState.isUnderWay] at resting
    | analyzed analysis => simp [same, Analyses.finished?, there, AnalysisState.finished?]
  · have continues : Analyses.Continues _ (project.analyzed depth source (states.set index .analyzing)).2 :=
      moves_analyze (answering_sourceTypeWith (continues_analyzeTo project depth) _) _
    rw [ran, Analyses.finished?_set, if_pos rfl]
    · rfl
    · rw [continues.length, List.length_set, allows.1]
      exact bound

theorem sourceTypeWith_eq {analyze : Nat → StateM Analyses Analysis} {name : String} {lender : Nat}
    (found : project.indexOf? name = some lender) (states : Analyses) :
    (project.sourceTypeWith analyze name).run states =
      (match states[lender]? with
        | some .analyzing => pure .analyzing
        | _ => do
          let analysis ← analyze lender
          let root := ((project.sources[lender]?).map fun source => source.tree.root).getD .missing
          pure (.resolved (analysis.typeOf root)) : StateM Analyses SourceType).run states := by
  simp only [sourceTypeWith, found]
  rfl

theorem run_sourceTypeWith {analyze : Nat → StateM Analyses Analysis} {name : String} {lender : Nat}
    (found : project.indexOf? name = some lender) (states : Analyses) :
    ∃ type, (project.sourceTypeWith analyze name).run states =
      if states.isUnderWay lender = true then (.analyzing, states)
      else (.resolved type, ((analyze lender).run states).2) := by
  refine ⟨((analyze lender).run states).1.typeOf
    (((project.sources[lender]?).map fun source => source.tree.root).getD .missing), ?_⟩
  rw [sourceTypeWith_eq found]
  unfold Analyses.isUnderWay
  cases states[lender]? with
  | none => rfl
  | some state => cases state <;> rfl

/-- A source that is asked for and is not being analysed has been analysed then. -/
theorem finished_of_sourceTypeWith {name : String} {lender : Nat} (found : project.indexOf? name = some lender)
    (allows : project.Allows depth states)
    (rests : ((project.sourceTypeWith (project.analyzeTo depth) name).run states).1 ≠ .analyzing) :
    (((project.sourceTypeWith (project.analyzeTo depth) name).run states).2.finished? lender).isSome := by
  have bound : lender < project.sources.length := (List.findIdx?_eq_some_iff_getElem.mp found).1
  obtain ⟨_, ran⟩ := @run_sourceTypeWith project (project.analyzeTo depth) name lender found states
  rw [ran] at rests ⊢
  split at rests
  · simp at rests
  · rename_i resting
    rw [if_neg resting, finished_of_analyzeTo allows bound (Bool.eq_false_iff.mpr resting)]
    rfl

/-- A source that a source borrows is the one of a reached borrow. -/
theorem exists_borrow_of_borrows {source : Source} {name : String} (among : name ∈ source.borrows) :
    ∃ id, source.tree.Reached id ∧ source.tree.form? id = some (.borrow name) := by
  obtain ⟨id, reached, found⟩ := List.mem_filterMap.mp among
  refine ⟨id, reached, ?_⟩
  split at found
  · rename_i is
    cases found
    exact is
  · simp at found

/-- Unless a cycle is reported, whatever a source borrows has been analysed by the time that the source has been. -/
theorem finished_of_borrows (moves : ∀ index, Moves (project.GoesOn depth) (project.analyzeTo depth index))
    (allows : project.Allows depth states) {source : Source} {name : String} {lender : Nat}
    (silent : (project.analyzed depth source states).1.reportsCycle = false) (among : name ∈ source.borrows)
    (found : project.indexOf? name = some lender) :
    ((project.analyzed depth source states).2.finished? lender).isSome := by
  obtain ⟨id, reached, is⟩ := exists_borrow_of_borrows among
  obtain ⟨between, before, reports, after⟩ :=
    exists_answer_of_analyze (answering_sourceTypeWith moves source.tree) states reached is
  have rests : ((project.sourceTypeWith (project.analyzeTo depth) name).run between).1 ≠ .analyzing :=
    fun analyzing => Bool.eq_false_iff.mp silent (reports analyzing)
  have finished := finished_of_sourceTypeWith found (allows.continue before.continues) rests
  obtain ⟨analysis, there⟩ := Option.isSome_iff_exists.mp finished
  exact Option.isSome_iff_exists.mpr ⟨analysis, after.continues.finished lender analysis there⟩

/-- A source that has been analysed is grounded, as those are that it borrows. -/
theorem grounded_analyzed (moves : ∀ index, Moves (project.GoesOn depth) (project.analyzeTo depth index))
    (allows : project.Allows (depth + 1) states) (grounded : project.Grounded states) {source : Source}
    (unanalyzed : states[index]? = some .unanalyzed) (is : project.sources[index]? = some source) :
    let outcome := project.analyzed depth source (states.set index .analyzing)
    project.Grounded (outcome.2.set index (.analyzed outcome.1)) := by
  intro outcome silent
  have bound := (List.getElem?_eq_some_iff.mp unanalyzed).1
  have begun : project.Allows depth (states.set index .analyzing) :=
    allows.begin bound (by simp [Analyses.isUnderWay, unanalyzed, AnalysisState.isUnderWay])
  have between : project.GoesOn depth (states.set index .analyzing) outcome.2 :=
    moves_analyze (answering_sourceTypeWith moves _) _
  have bound' : index < outcome.2.length := by
    rw [between.continues.length, List.length_set]
    exact bound
  have unfinished : outcome.2.finished? index = none := by
    refine Analyses.finished?_of_isUnderWay ?_
    rw [between.continues.underWay, Analyses.isUnderWay_set bound, if_pos rfl]
    rfl
  have groundedBefore : project.Grounded (states.set index .analyzing) := by
    have same (other : Nat) : Analyses.finished? (states.set index .analyzing) other = states.finished? other := by
      rw [Analyses.finished?_set bound]
      split
      · rename_i here
        simp [here, Analyses.finished?, unanalyzed, AnalysisState.finished?]
      · rfl
    simpa only [Grounded, same] using grounded
  have acc := between.grounded begun groundedBefore fun other analysis found => by
    have apart : other ≠ index := by
      rintro rfl
      simp [unfinished] at found
    exact silent other analysis (by rw [Analyses.finished?_set bound', if_neg apart, found])
  intro other finished
  rw [Analyses.finished?_set bound'] at finished
  split at finished
  · rename_i same
    subst same
    refine Acc.intro _ fun lender borrows => ?_
    obtain ⟨source', name, is', among, found⟩ := borrows
    rw [is] at is'
    cases is'
    refine acc lender (finished_of_borrows moves begun ?_ among found)
    exact silent other outcome.1 (by rw [Analyses.finished?_set bound', if_pos rfl]; rfl)
  · exact acc other finished

theorem goesOn_analyzeTo (project : Project) (depth index : Nat) :
    Moves (project.GoesOn depth) (project.analyzeTo depth index) := by
  induction depth generalizing index with
  | zero => exact moves_pure _
  | succ depth hypothesis =>
    intro states
    refine ⟨continues_analyzeTo project (depth + 1) index states, fun allows grounded => ?_⟩
    rcases analyzeTo_cases project depth index states with ⟨same, -⟩ | ⟨source, unanalyzed, is, ran⟩
    · rw [same]
      exact grounded
    · rw [ran]
      exact grounded_analyzed hypothesis allows grounded unanalyzed is

/-! ### From the beginning -/

theorem length_noAnalyses (project : Project) : project.noAnalyses.length = project.sources.length := by
  simp [noAnalyses]

theorem noAnalyses_rests (project : Project) (index : Nat) :
    project.noAnalyses.finished? index = none ∧ project.noAnalyses.isUnderWay index = false := by
  unfold Analyses.finished? Analyses.isUnderWay noAnalyses
  rw [List.getElem?_map]
  cases project.sources[index]? <;> exact ⟨rfl, rfl⟩

theorem allows_noAnalyses (deep : project.sources.length < depth) : project.Allows depth project.noAnalyses :=
  ⟨project.length_noAnalyses, [], .nil, by simp, by simpa [project.length_noAnalyses] using deep⟩

/-- What is asked for at a time when nothing is under way has been analysed then, and remains so. -/
theorem finished_of_goesOn (between : project.GoesOn depth project.noAnalyses states) (deep : project.sources.length < depth)
    (bound : index < project.sources.length) :
    ((project.analyzeTo depth index).run states).2.finished? index = some ((project.analyzeTo depth index).run states).1 := by
  refine finished_of_analyzeTo ((allows_noAnalyses deep).continue between.continues) bound ?_
  rw [between.continues.underWay, (project.noAnalyses_rests index).2]

/-- If no analysis reports a cycle, no borrow of a source that has been analysed leads back to it. -/
theorem acc_of_finished (goes : project.GoesOn depth project.noAnalyses states) (deep : project.sources.length < depth)
    (silent : ∀ other analysis, states.finished? other = some analysis → analysis.reportsCycle = false)
    (finished : (states.finished? index).isSome) : Acc project.Borrows index := by
  refine goes.grounded (allows_noAnalyses deep) (fun _ other finished => ?_) silent index finished
  simp [(project.noAnalyses_rests other).1] at finished

/-- If no source has a blocking conflict, no borrow of a source leads back to it. -/
theorem acc_of_unblocked (unblocked : (project.isBlocked.run project.noAnalyses).1 = false)
    (bound : index < project.sources.length) : Acc project.Borrows index := by
  have deep : project.sources.length < project.sources.length + 1 := Nat.lt_succ_self _
  have moves : ∀ other ∈ List.range project.sources.length,
      Moves (project.GoesOn (project.sources.length + 1)) (project.analyzeAt other) :=
    fun other _ => goesOn_analyzeTo project _ other
  let ended := (project.analyzeAll.run project.noAnalyses).2
  -- Whatever has been analysed in the end is among the analyses that do not block.
  have finished (other : Nat) (inside : other < project.sources.length) :
      ∃ analysis ∈ (project.analyzeAll.run project.noAnalyses).1, ended.finished? other = some analysis := by
    obtain ⟨between, before, found, after⟩ :=
      exists_state_of_mapM moves (List.mem_range.mpr inside) project.noAnalyses
    exact ⟨_, found, after.continues.finished _ _ (finished_of_goesOn before deep inside)⟩
  have goes : project.GoesOn (project.sources.length + 1) project.noAnalyses ended := moves_mapM moves _
  refine acc_of_finished goes deep (fun other analysis found => ?_) ?_
  · have inside := Analyses.lt_length_of_finished found
    rw [goes.continues.length, project.length_noAnalyses] at inside
    obtain ⟨analysis', among, found'⟩ := finished other inside
    rw [found, Option.some.injEq] at found'
    subst found'
    have none : (project.analyzeAll.run project.noAnalyses).1.any Analysis.isBlocked = false := unblocked
    refine Bool.eq_false_iff.mpr fun reports => List.any_eq_false.mp none analysis among ?_
    exact analysis.isBlocked_of_reportsCycle reports
  · obtain ⟨analysis, -, found⟩ := finished index bound
    rw [found]
    rfl

end Project

end Rivulet
