import Rivulet.Project

/-!
The analyses of the sources of a project. Each source is analysed once; analysing a source that
borrows another one analyses that one first. A source that is asked for while its own analysis is
under way is part of a cycle of borrows, and the borrow that asks is reported.
-/

namespace Rivulet

/-- How far the analysis of a source is. -/
inductive AnalysisState where
  | unanalyzed
  | analyzing
  | analyzed (analysis : Analysis)

/-- How far the analyses of the sources of a project are, by place. -/
abbrev Analyses := List AnalysisState

namespace Project

/-- No source analysed yet. -/
def noAnalyses (project : Project) : Analyses :=
  project.sources.map fun _ => .unanalyzed

/-- Changes how far the analysis of a source is. -/
def setState (index : Nat) (state : AnalysisState) : StateM Analyses Unit :=
  modify fun states => states.set index state

/-- What a source evaluates to, given how to analyse the source at a place. -/
def sourceTypeWith (project : Project) (analyze : Nat → StateM Analyses Analysis) :
    SourceLookup Analyses := fun name => do
  match project.indexOf? name with
  | none => pure .missing
  | some index =>
    match (← get)[index]? with
    | some .analyzing => pure .analyzing
    | _ =>
      let analysis ← analyze index
      let root := ((project.sources[index]?).map fun source => source.tree.root).getD .missing
      pure (.resolved (analysis.typeOf root))

/-- Analyses the source at a place, or finds its analysis, analysing borrowed sources down to a
depth. -/
def analyzeTo (project : Project) : Nat → Nat → StateM Analyses Analysis
  | 0, _ => pure .empty
  | depth + 1, index => do
    match (← get)[index]?, project.sources[index]? with
    | some (.analyzed analysis), _ => pure analysis
    | some .unanalyzed, some source =>
      setState index .analyzing
      let lookup := project.sourceTypeWith (project.analyzeTo depth)
      let analysis ← Analysis.analyze source.tree project.natives project.streams lookup
      setState index (.analyzed analysis)
      pure analysis
    | _, _ => pure .empty

/-- Analyses the source at a place, or finds its analysis. A chain of borrows is no longer than
there are sources. -/
def analyzeAt (project : Project) (index : Nat) : StateM Analyses Analysis :=
  project.analyzeTo (project.sources.length + 1) index

/-- Analyses a source, or finds its analysis. -/
def analyze (project : Project) (name : String) :
    StateM Analyses (Except ProjectError Analysis) := do
  match project.indexOf name with
  | .ok index => return .ok (← project.analyzeAt index)
  | .error error => pure (.error error)

/-- Analyses every source, in order. -/
def analyzeAll (project : Project) : StateM Analyses (List Analysis) :=
  (List.range project.sources.length).mapM project.analyzeAt

/-- Whether some source has a blocking conflict. -/
def isBlocked (project : Project) : StateM Analyses Bool := do
  return (← project.analyzeAll).any Analysis.isBlocked

/-- How far the analysis of a source is. -/
def status (project : Project) (analyses : Analyses) (name : String) :
    Except ProjectError AnalysisState := do
  let index ← project.indexOf name
  pure (analyses[index]?.getD .unanalyzed)

end Project

end Rivulet
