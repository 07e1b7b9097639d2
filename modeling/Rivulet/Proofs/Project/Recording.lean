import Rivulet.Proofs.Project.Cycles

/-!
Analyses on record. With a record of the sources whose analysis has begun, the analyses of a project come out as without
one, and at whatever depth they may go to beyond the number of sources (`matches_analyzeOnRecord`); so the recursion ends
by itself. No analysis of a source begins twice, and those on record are the ones that have begun
(`exists_record_of_calls`).
-/

namespace Rivulet

/-- How far the analyses of the sources of a project are, and whose analysis was begun, in order. -/
structure Record where
  states : Analyses
  begun : List Nat

namespace Analyses

/-- Whether the analysis of the source at a place has begun, finished or not. -/
def HasBegun (states : Analyses) (index : Nat) : Prop :=
  (states.finished? index).isSome ∨ states.isUnderWay index = true

variable {states : Analyses} {index other : Nat}

theorem hasBegun_set_analyzing (bound : index < states.length) :
    HasBegun (states.set index .analyzing) other ↔ other = index ∨ states.HasBegun other := by
  unfold HasBegun
  rw [finished?_set bound, isUnderWay_set bound]
  by_cases same : other = index
  · simp [same, AnalysisState.isUnderWay]
  · simp [same]

theorem hasBegun_set_analyzed (underWay : states.isUnderWay index = true) (analysis : Analysis) :
    HasBegun (states.set index (.analyzed analysis)) other ↔ states.HasBegun other := by
  have bound := lt_length_of_isUnderWay underWay
  unfold HasBegun
  rw [finished?_set bound, isUnderWay_set bound]
  by_cases same : other = index
  · simp [same, underWay, AnalysisState.finished?]
  · simp [same]

theorem not_hasBegun_of_unanalyzed (unanalyzed : states[index]? = some .unanalyzed) : ¬ states.HasBegun index := by
  simp [HasBegun, finished?, isUnderWay, unanalyzed, AnalysisState.finished?, AnalysisState.isUnderWay]

theorem lt_length_of_hasBegun (begun : states.HasBegun index) : index < states.length := by
  rcases begun with finished | underWay
  · obtain ⟨analysis, found⟩ := Option.isSome_iff_exists.mp finished
    exact lt_length_of_finished found
  · exact lt_length_of_isUnderWay underWay

end Analyses

namespace Project

/-! ### Analysing on record -/

/-- What a source evaluates to, given how to analyse the source at a place on record. -/
def typeOnRecord (project : Project) (analyze : Nat → StateM Record Analysis) : SourceLookup Record := fun name => do
  match project.indexOf? name with
  | none => pure .missing
  | some index =>
    match (← get).states[index]? with
    | some .analyzing => pure .analyzing
    | _ =>
      let analysis ← analyze index
      let root := ((project.sources[index]?).map fun source => source.tree.root).getD .missing
      pure (.resolved (analysis.typeOf root))

/-- Analyses the source at a place, or finds its analysis, and notes it if an analysis begins. -/
def analyzeOnRecord (project : Project) : Nat → Nat → StateM Record Analysis
  | 0, _ => pure .empty
  | depth + 1, index => do
    match (← get).states[index]?, project.sources[index]? with
    | some (.analyzed analysis), _ => pure analysis
    | some .unanalyzed, some source =>
      modify fun record => ⟨record.states.set index .analyzing, record.begun ++ [index]⟩
      let lookup := project.typeOnRecord (project.analyzeOnRecord depth)
      let analysis ← Analysis.analyze source.tree project.natives project.streams lookup
      modify fun record => ⟨record.states.set index (.analyzed analysis), record.begun⟩
      pure analysis
    | _, _ => pure .empty

/-- Analyses the source of a name on record, down to a depth, or finds its analysis. -/
def callOnRecord (project : Project) (depth : Nat) (name : String) :
    StateM Record (Except ProjectError Analysis) := do
  match project.indexOf name with
  | .ok index => return .ok (← project.analyzeOnRecord depth index)
  | .error error => pure (.error error)

/-- A record tells the truth about analyses that may follow borrows down to two depths. -/
structure Mirrors (project : Project) (depth depth' : Nat) (record : Record) (states : Analyses) : Prop where
  same : record.states = states
  allows : project.Allows depth states
  allows' : project.Allows depth' states
  once : record.begun.Nodup
  begun : ∀ index, index ∈ record.begun ↔ states.HasBegun index

variable {project : Project} {depth depth' index : Nat} {states states' : Analyses} {record record' : Record}

theorem Mirrors.begin (mirrors : project.Mirrors (depth + 1) (depth' + 1) record states)
    (unanalyzed : states[index]? = some .unanalyzed) :
    project.Mirrors depth depth' ⟨record.states.set index .analyzing, record.begun ++ [index]⟩
      (states.set index .analyzing) := by
  have bound := (List.getElem?_eq_some_iff.mp unanalyzed).1
  have resting : states.isUnderWay index = false := by
    simp [Analyses.isUnderWay, unanalyzed, AnalysisState.isUnderWay]
  have fresh : index ∉ record.begun :=
    fun among => Analyses.not_hasBegun_of_unanalyzed unanalyzed ((mirrors.begun index).mp among)
  refine ⟨by rw [mirrors.same], mirrors.allows.begin bound resting, mirrors.allows'.begin bound resting, ?_, fun other => ?_⟩
  · exact List.concat_eq_append ▸ mirrors.once.concat fresh
  · rw [Analyses.hasBegun_set_analyzing bound, ← mirrors.begun other, List.mem_append, List.mem_singleton, or_comm]

theorem Mirrors.finish (mirrors : project.Mirrors (depth + 1) (depth' + 1) record states)
    (unanalyzed : states[index]? = some .unanalyzed) (continues : Analyses.Continues (states.set index .analyzing) states')
    (between : project.Mirrors depth depth' record' states') (analysis : Analysis) :
    project.Mirrors (depth + 1) (depth' + 1) ⟨record'.states.set index (.analyzed analysis), record'.begun⟩
      (states'.set index (.analyzed analysis)) := by
  have bound := (List.getElem?_eq_some_iff.mp unanalyzed).1
  have after : states.Continues (states'.set index (.analyzed analysis)) := continues_set unanalyzed continues
  have underWay : states'.isUnderWay index = true := by
    rw [continues.underWay, Analyses.isUnderWay_set bound, if_pos rfl]
    rfl
  refine ⟨by rw [between.same], mirrors.allows.continue after, mirrors.allows'.continue after, between.once, fun other => ?_⟩
  rw [Analyses.hasBegun_set_analyzed underWay]
  exact between.begun other

theorem analyzeOnRecord_cases (project : Project) (depth index : Nat) (record : Record) :
    (project.analyzeOnRecord (depth + 1) index).run record = ((record.states.finished? index).getD .empty, record) ∧
        (record.states[index]? = some .unanalyzed → project.sources[index]? = none) ∨
      ∃ source, record.states[index]? = some .unanalyzed ∧ project.sources[index]? = some source ∧
        let begun : Record := ⟨record.states.set index .analyzing, record.begun ++ [index]⟩
        let outcome := (Analysis.analyze source.tree project.natives project.streams
          (project.typeOnRecord (project.analyzeOnRecord depth))).run begun
        (project.analyzeOnRecord (depth + 1) index).run record =
          (outcome.1, ⟨outcome.2.states.set index (.analyzed outcome.1), outcome.2.begun⟩) := by
  simp only [analyzeOnRecord, StateT.run_bind, StateT.run_get, pure_bind]
  unfold Analyses.finished?
  cases record.states[index]? with
  | none => exact .inl ⟨rfl, by simp⟩
  | some state =>
    cases state with
    | analyzing => exact .inl ⟨rfl, by simp⟩
    | analyzed analysis => exact .inl ⟨rfl, by simp⟩
    | unanalyzed =>
      cases project.sources[index]? with
      | none => exact .inl ⟨rfl, fun _ => rfl⟩
      | some source => exact .inr ⟨source, rfl, rfl, rfl⟩

theorem matches_typeOnRecord {relation : Record → Analyses → Prop}
    (same : ∀ record states, relation record states → record.states = states)
    (agree : ∀ index, Matches relation (project.analyzeOnRecord depth index) (project.analyzeTo depth' index))
    (tree : Tree) :
    Agrees relation tree (project.typeOnRecord (project.analyzeOnRecord depth))
      (project.sourceTypeWith (project.analyzeTo depth')) := by
  intro _ name _ _
  unfold typeOnRecord sourceTypeWith
  cases project.indexOf? name with
  | none => exact matches_pure _
  | some index =>
    refine matches_get fun record states related => ?_
    rw [same record states related]
    cases states[index]? with
    | none => exact matches_map (agree index)
    | some state =>
      cases state with
      | analyzing => exact matches_pure _
      | unanalyzed | analyzed analysis => exact matches_map (agree index)

/-- Analyses come out as they do on record, to whatever depth each may go, as long as it is deep enough. -/
theorem matches_analyzeOnRecord (project : Project) (depth depth' index : Nat) :
    Matches (project.Mirrors depth depth') (project.analyzeOnRecord depth index) (project.analyzeTo depth' index) := by
  induction depth generalizing depth' index with
  | zero => exact fun _ _ mirrors => absurd mirrors.allows.pos (Nat.lt_irrefl 0)
  | succ depth hypothesis =>
    intro record states mirrors
    obtain ⟨depth', rfl⟩ := Nat.exists_eq_succ_of_ne_zero (Nat.ne_of_gt mirrors.allows'.pos)
    obtain rfl := mirrors.same
    rcases analyzeOnRecord_cases project depth index record with ⟨recorded, sourceless⟩ | ⟨source, unanalyzed, there, recorded⟩
    · rcases analyzeTo_cases project depth' index record.states with ⟨same, -⟩ | ⟨source, unanalyzed, there, -⟩
      · rw [recorded, same]
        exact ⟨rfl, mirrors⟩
      · simp [sourceless unanalyzed] at there
    · rcases analyzeTo_cases project depth' index record.states with ⟨-, sourceless⟩ | ⟨source', -, there', ran⟩
      · simp [sourceless unanalyzed] at there
      · obtain rfl := Option.some.inj (there.symm.trans there')
        have agrees := matches_typeOnRecord (fun _ _ mirrors => mirrors.same) (hypothesis depth') source.tree
        obtain ⟨same, between⟩ := matches_analyze project.natives project.streams agrees _ _ (mirrors.begin unanalyzed)
        have continues : Analyses.Continues (record.states.set index .analyzing)
            (project.analyzed depth' source (record.states.set index .analyzing)).2 :=
          moves_analyze (answering_sourceTypeWith (continues_analyzeTo project depth') _) _
        rw [recorded, ran]
        refine ⟨same, ?_⟩
        dsimp only
        rw [same]
        exact mirrors.finish unanalyzed continues between _

theorem matches_callOnRecord (project : Project) (depth : Nat) (name : String) :
    Matches (project.Mirrors depth (project.sources.length + 1)) (project.callOnRecord depth name) (project.analyze name) := by
  unfold callOnRecord analyze
  cases project.indexOf name with
  | error error => exact matches_pure _
  | ok index => exact matches_map (matches_analyzeOnRecord project depth _ index)

/-- To whatever depth beyond the number of sources analyses may go, they come out the same, and each begins at most
once. -/
theorem exists_record_of_calls (deep : project.sources.length < depth) (calls : List String) :
    let outcome := (calls.mapM project.analyze).run project.noAnalyses
    ∃ begun, (calls.mapM (project.callOnRecord depth)).run ⟨project.noAnalyses, []⟩ = (outcome.1, ⟨outcome.2, begun⟩) ∧
      begun.Nodup ∧ ∀ index, index ∈ begun ↔ outcome.2.HasBegun index := by
  intro outcome
  have start : project.Mirrors depth (project.sources.length + 1) ⟨project.noAnalyses, []⟩ project.noAnalyses := by
    refine ⟨rfl, allows_noAnalyses deep, allows_noAnalyses (Nat.lt_succ_self _), .nil, fun index => ?_⟩
    simp [Analyses.HasBegun, project.noAnalyses_rests index]
  have calls_match : Matches (project.Mirrors depth (project.sources.length + 1)) (calls.mapM (project.callOnRecord depth))
      (calls.mapM project.analyze) :=
    matches_mapM fun name _ => matches_callOnRecord project depth name
  obtain ⟨same, ended⟩ := calls_match _ _ start
  refine ⟨_, Prod.ext same ?_, ended.once, ended.begun⟩
  rw [← ended.same]

end Project

end Rivulet
