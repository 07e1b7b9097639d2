import Rivulet.Project.Analyses
import Rivulet.Project.Evaluation

/-!
Reacting to streams. A reactor holds a project, the live streams and the latest value. Every value
that a stream accepts causes one reevaluation, in order; when nothing that the program produces
depends on the stream, the latest value is used again.
-/

namespace Rivulet

/-- Why a reactor cannot do something. -/
inductive ReactorError where
  | notStarted
  | unknownStream (name : String)
  | project (error : ProjectError)
deriving DecidableEq, Repr

/-- An error in words. -/
def ReactorError.message : ReactorError → String
  | notStarted => "reactor has not been started"
  | unknownStream name => s!"no stream named `{name}`"
  | project error => error.message

/-- What came of one change of a stream. -/
structure Reevaluation where
  stream : String
  /-- The nodes of the main source whose value may have changed. -/
  affected : List NodeId
  /-- Whether the program ran again. -/
  rerun : Bool
  value : Value

/-- A project with live streams. -/
structure Reactor where
  project : Project
  analyses : Analyses
  streams : Streams
  limits : Limits
  /-- The analysis of the main source since the last start. -/
  analysis : Analysis
  latest : Option Value

namespace Reactor

/-- A reactor over some streams, to which the names of the project are bound. -/
def withStreams (project : Project) (streams : Streams) (limits : Limits) : Reactor :=
  let project := project.withStreams streams.signatures
  ⟨project, project.noAnalyses, streams, limits, .empty, none⟩

/-- A reactor over the standard streams. -/
def create (project : Project) (limits : Limits) : Reactor :=
  withStreams project .standard limits

/-- Evaluates the project with the current values of the streams. -/
def evaluate (reactor : Reactor) (trigger : Option String) : Except ProjectError Value :=
  reactor.project.evaluate ⟨reactor.limits, reactor.streams.bindings, trigger⟩

/-- Analyses and evaluates from scratch. The analysis counts even if the evaluation fails. -/
def start (reactor : Reactor) : Except ReactorError Value × Reactor :=
  match (reactor.project.analyze reactor.project.main.name).run reactor.analyses with
  | (.error error, analyses) => (.error (.project error), { reactor with analyses })
  | (.ok analysis, analyses) =>
    let reactor := { reactor with analyses, analysis }
    match reactor.evaluate none with
    | .error error => (.error (.project error), reactor)
    | .ok value => (.ok value, { reactor with latest := some value })

/-- Takes an edited project in and starts again; changes that wait are kept. -/
def edit (reactor : Reactor) (project : Project) : Except ReactorError Value × Reactor :=
  let project := project.withStreams reactor.streams.signatures
  { reactor with project, analyses := project.noAnalyses }.start

/-- The number of the stream of a name. -/
def streamOf (reactor : Reactor) (name : String) : Except ReactorError Nat :=
  match reactor.streams.find? name with
  | some id => .ok id
  | none => .error (.unknownStream name)

/-- Gives a stream a new value and tells whether it was kept. -/
def record (reactor : Reactor) (name : String) (value : Value) :
    Except ReactorError Bool × Reactor :=
  match reactor.streamOf name with
  | .error error => (.error error, reactor)
  | .ok id =>
    let (kept, streams) := reactor.streams.record id value
    (.ok kept, { reactor with streams })

/-- Makes a stream take new values or drop them. -/
def setActive (reactor : Reactor) (name : String) (active : Bool) :
    Except ReactorError Unit × Reactor :=
  match reactor.streamOf name with
  | .error error => (.error error, reactor)
  | .ok id => (.ok (), { reactor with streams := reactor.streams.setActive id active })

/-- Whether a change waits. -/
def hasPending (reactor : Reactor) : Bool :=
  reactor.streams.hasPending

/-- The reevaluations of some changes in order, and the value after the last of them. Anything that
borrows always runs again, because borrowed sources are no part of the analysis. -/
def reevaluate (reactor : Reactor) (latest : Value) :
    List StreamChange → Except ProjectError (List Reevaluation × Value)
  | [] => .ok ([], latest)
  | change :: changes => do
    let affected := reactor.analysis.affectedByStream change.name
    let main := reactor.project.main
    let rerun := reactor.project.hasBorrows main.name || affected.contains main.tree.root
    let value ← if rerun then reactor.evaluate (some change.name) else .ok latest
    let (later, final) ← reactor.reevaluate value changes
    .ok (⟨change.name, affected, rerun, value⟩ :: later, final)

/-- Performs a reevaluation for every change that waits. The changes are taken even if an evaluation
fails; the latest value changes only if none does. -/
def react (reactor : Reactor) : Except ReactorError (List Reevaluation) × Reactor :=
  match reactor.latest with
  | none => (.error .notStarted, reactor)
  | some latest =>
    let (changes, streams) := reactor.streams.takePending
    let reactor := { reactor with streams }
    match reactor.reevaluate latest changes with
    | .error error => (.error (.project error), reactor)
    | .ok (reevaluations, final) => (.ok reevaluations, { reactor with latest := some final })

end Reactor

end Rivulet
