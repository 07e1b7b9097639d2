import Rivulet.Proofs.Project.Detection
import Rivulet.Proofs.Project.Success
import Rivulet.Proofs.Streams.Trace
import Rivulet.Reactor

/-!
What becomes of the changes of streams, and what a call that fails leaves as it was.

The exchanges of a reactor are its calls with their answers, the latest first. The definitions below read from them
alone which changes wait, which were taken together and which of those were lost: a reactor takes all changes that wait
before it reevaluates the first of them, and if one of the reevaluations fails it answers an error instead of the others
(`failed_reevaluation_loses_change`). Every change is delivered once and in its turn unless it was lost in this way.

Main statement: the exchanges of a reactor account for its changes, and a call that fails keeps the latest value, the
streams, and, unless it is an edit, the project and its analysis (`run_accounts`).
-/

namespace Rivulet

namespace Reactor

/-! ### Exchanges -/

/-- A call on a reactor. -/
inductive Call where
  | start
  | edit (project : Project)
  | record (name : String) (value : Value)
  | setActive (name : String) (active : Bool)
  | react

/-- What a call answers. -/
inductive Reply where
  | value (answer : Except ReactorError Value)
  | kept (answer : Except ReactorError Bool)
  | done (answer : Except ReactorError Unit)
  | reevaluations (answer : Except ReactorError (List Reevaluation))

/-- A call with its answer. -/
structure Exchange where
  call : Call
  reply : Reply

/-- Makes a call. -/
def perform (reactor : Reactor) : Call → Reply × Reactor
  | .start => (.value reactor.start.1, reactor.start.2)
  | .edit project => (.value (reactor.edit project).1, (reactor.edit project).2)
  | .record name value => (.kept (reactor.record name value).1, (reactor.record name value).2)
  | .setActive name active => (.done (reactor.setActive name active).1, (reactor.setActive name active).2)
  | .react => (.reevaluations reactor.react.1, reactor.react.2)

/-- Makes some calls after others. -/
def performAll (past : List Exchange) (reactor : Reactor) : List Call → List Exchange × Reactor
  | [] => (past, reactor)
  | call :: rest =>
    let (reply, next) := reactor.perform call
    performAll (⟨call, reply⟩ :: past) next rest

/-- Whether an answer is an error. -/
def Reply.isError : Reply → Bool
  | value (.error _) | kept (.error _) | done (.error _) | reevaluations (.error _) => true
  | _ => false

/-- Whether a call analyses the project. -/
def Call.starts : Call → Bool
  | start | edit _ => true
  | _ => false

/-! ### What exchanges say about changes -/

/-- A change by the name of its stream and its value. -/
abbrev Change := String × Value

/-- The change that a call made. -/
def Exchange.accepted : Exchange → List Change
  | ⟨.record name value, .kept (.ok true)⟩ => [(name, value)]
  | _ => []

/-- The streams of the changes that a call delivered. -/
def Exchange.delivered : Exchange → List String
  | ⟨_, .reevaluations (.ok reevaluations)⟩ => reevaluations.map Reevaluation.stream
  | _ => []

/-- Whether a call took the changes that waited. -/
def Exchange.takes : Exchange → Bool
  | ⟨_, .reevaluations (.error .notStarted)⟩ => false
  | ⟨_, .reevaluations _⟩ => true
  | _ => false

/-- Whether a call that took changes failed. -/
def Exchange.loses : Exchange → Bool
  | ⟨_, .reevaluations (.error .notStarted)⟩ => false
  | ⟨_, .reevaluations (.error _)⟩ => true
  | _ => false

/-- Changes that were taken together. -/
structure Batch where
  changes : List Change
  lost : Bool

/-- All changes that were made, in order. -/
def accepted : List Exchange → List Change
  | [] => []
  | exchange :: past => accepted past ++ exchange.accepted

/-- The streams of all changes that were delivered, in order. -/
def delivered : List Exchange → List String
  | [] => []
  | exchange :: past => delivered past ++ exchange.delivered

/-- The changes that wait after some exchanges, given those that waited before. -/
def waiting (first : List Change) : List Exchange → List Change
  | [] => first
  | exchange :: past => (if exchange.takes then [] else waiting first past) ++ exchange.accepted

/-- What was taken, in order. -/
def batches (first : List Change) : List Exchange → List Batch
  | [] => []
  | exchange :: past =>
    batches first past ++ if exchange.takes then [⟨waiting first past, exchange.loses⟩] else []

/-- The changes in the queue of a reactor. -/
def queue (reactor : Reactor) : List Change :=
  reactor.streams.pending.map fun change => (change.name, change.value)

/-! ### What holds of a reactor -/

/-- A call that failed has left all else as it was. -/
structure Withstands (started : Bool) (call : Call) (reactor after : Reactor) : Prop where
  latest : after.latest = reactor.latest
  limits : after.limits = reactor.limits
  /-- An edit that fails has taken the project in. -/
  project : after.project =
    match call with
    | .edit project => project.withStreams reactor.streams.signatures
    | _ => reactor.project
  /-- A start that fails may have been the first to analyse the project. -/
  analysis : (match call with
    | .edit _ => False
    | .start => started = true
    | _ => True) → after.analysis = reactor.analysis
  /-- The changes that wait are lost when their reevaluation fails. -/
  streams : after.streams =
    match call, reactor.latest with
    | .react, some _ => { reactor.streams with pending := [] }
    | _, _ => reactor.streams

/-- The exchanges of a reactor account for its changes, and for what it keeps when the next call fails. -/
structure Accounts (first : List Change) (past : List Exchange) (reactor : Reactor) : Prop where
  /-- The queue holds the changes that wait. -/
  waits : reactor.queue = waiting first past
  /-- Every change was taken once, in its turn, or waits. -/
  taken : first ++ accepted past = (batches first past).flatMap Batch.changes ++ reactor.queue
  /-- The changes that were taken are delivered, in order, unless they were lost together. -/
  delivers : delivered past =
    ((batches first past).filter fun batch => !batch.lost).flatMap fun batch => batch.changes.map Prod.fst
  /-- If no call that took changes failed, every change was delivered once, in its turn, or waits. -/
  complete : (∀ exchange ∈ past, exchange.loses = false) →
    (first ++ accepted past).map Prod.fst = delivered past ++ reactor.queue.map Prod.fst
  withstands : ∀ call, (reactor.perform call).1.isError = true →
    Withstands (past.any fun exchange => exchange.call.starts) call reactor (reactor.perform call).2

variable {reactor : Reactor} {first : List Change} {past : List Exchange} {exchange : Exchange} {name : String}
  {value latest : Value}

/-! ### Bookkeeping -/

/-- What was made was taken or waits. -/
theorem accepted_eq (first : List Change) (past : List Exchange) :
    first ++ accepted past = (batches first past).flatMap Batch.changes ++ waiting first past := by
  induction past with
  | nil => simp [accepted, batches, waiting]
  | cons exchange past hypothesis =>
    rw [accepted, ← List.append_assoc, hypothesis, batches, waiting]
    by_cases takes : exchange.takes = true <;> simp [takes]

/-- Nothing was lost if no call that took changes failed. -/
theorem batches_kept (none : ∀ exchange ∈ past, exchange.loses = false) :
    ∀ batch ∈ batches first past, batch.lost = false := by
  induction past with
  | nil => simp [batches]
  | cons exchange past hypothesis =>
    intro batch among
    rcases List.mem_append.mp among with earlier | last
    · exact hypothesis (fun exchange among => none exchange (List.mem_cons_of_mem _ among)) batch earlier
    · split at last
      · rw [List.mem_singleton.mp last]
        exact none exchange List.mem_cons_self
      · exact absurd last List.not_mem_nil

/-! ### Reevaluations -/

/-- Changes whose reevaluation succeeds are delivered one by one. -/
theorem stream_reevaluate {changes : List StreamChange} {reevaluations : List Reevaluation} {final : Value}
    (done : reactor.reevaluate latest changes = .ok (reevaluations, final)) :
    reevaluations.map Reevaluation.stream = changes.map StreamChange.name := by
  induction changes generalizing latest reevaluations final with
  | nil =>
    cases done
    rfl
  | cons change changes hypothesis =>
    simp only [reevaluate] at done
    split at done
    all_goals
      obtain ⟨value, -, done⟩ := Project.exists_of_bind_eq_ok done
      obtain ⟨⟨later, last⟩, more, done⟩ := Project.exists_of_bind_eq_ok done
      cases done
      rw [List.map_cons, hypothesis more, List.map_cons]

/-- A reactor that has started takes all changes that wait, whatever comes of them. -/
theorem react_cases (reactor : Reactor) :
    reactor.latest = none ∧ reactor.react = (.error .notStarted, reactor) ∨
      ∃ latest, reactor.latest = some latest ∧
        let taken := { reactor with streams := { reactor.streams with pending := [] } }
        (∃ error, reactor.react = (.error (.project error), taken)) ∨
          ∃ reevaluations final, reactor.react = (.ok reevaluations, { taken with latest := some final }) ∧
            reevaluations.map Reevaluation.stream = reactor.queue.map Prod.fst := by
  unfold react
  cases reactor.latest with
  | none => exact .inl ⟨rfl, rfl⟩
  | some latest =>
    refine .inr ⟨latest, rfl, ?_⟩
    dsimp only [Streams.takePending]
    split
    · exact .inl ⟨_, rfl⟩
    · rename_i reevaluations final done
      refine .inr ⟨reevaluations, final, rfl, ?_⟩
      rw [stream_reevaluate done, queue, List.map_map]
      rfl

/-! ### Starts -/

/-- What a start leaves: the analysis of the main source, if there is a main source, and its value, if it has one. -/
theorem start_cases (reactor : Reactor) :
    let asked := (reactor.project.analyze reactor.project.main.name).run reactor.analyses
    let next := { reactor with analyses := asked.2, analysis := asked.1.toOption.getD reactor.analysis }
    (∃ error, reactor.start = (.error error, next)) ∨
      ∃ value, reactor.start = (.ok value, { next with latest := some value }) := by
  unfold start
  dsimp only
  split
  · rename_i error analyses asked
    rw [asked]
    exact .inl ⟨_, rfl⟩
  · rename_i analysis analyses asked
    rw [asked]
    split
    · exact .inl ⟨_, rfl⟩
    · exact .inr ⟨_, rfl⟩

/-- Analysing the main source again would change nothing about its analysis. -/
def IsSettled (reactor : Reactor) : Prop :=
  ∀ analysis, ((reactor.project.analyze reactor.project.main.name).run reactor.analyses).1 = .ok analysis →
    analysis = reactor.analysis

/-- A reactor analyses sources of its own project only, and what it has started with is settled. -/
structure Steady (started : Bool) (reactor : Reactor) : Prop where
  continues : reactor.project.noAnalyses.Continues reactor.analyses
  settled : started = true → reactor.IsSettled

end Reactor

/-- Asking for an analysis a second time gives the same one. -/
theorem Project.analyze_twice {project : Project} {states : Analyses}
    (continues : project.noAnalyses.Continues states) {name : String} {analysis : Analysis}
    (found : ((project.analyze name).run ((project.analyze name).run states).2).1 = .ok analysis) :
    ((project.analyze name).run states).1 = .ok analysis := by
  unfold analyze at found ⊢
  cases place : project.indexOf name with
  | error error =>
    rw [place] at found
    exact found
  | ok index =>
    rw [place] at found
    have bound : index < project.sources.length := by
      unfold indexOf at place
      split at place
      · rename_i index' there
        cases place
        exact (List.findIdx?_eq_some_iff_getElem.mp there).1
      · contradiction
    have allows := (allows_noAnalyses (Nat.lt_succ_self project.sources.length)).continue continues
    have finished : ((project.analyzeAt index).run states).2.finished? index =
        some ((project.analyzeAt index).run states).1 :=
      finished_of_analyzeTo allows bound (by rw [continues.underWay, (project.noAnalyses_rests index).2])
    have again : ((project.analyzeAt index).run ((project.analyzeAt index).run states).2).1 =
        ((project.analyzeAt index).run states).1 := by
      rcases analyzeTo_cases project project.sources.length index ((project.analyzeAt index).run states).2 with
        ⟨same, -⟩ | ⟨_, unanalyzed, -, -⟩
      · refine (congrArg Prod.fst same).trans ?_
        rw [finished]
        rfl
      · simp [Analyses.finished?, unanalyzed, AnalysisState.finished?] at finished
    exact (congrArg Except.ok again.symm).trans found

namespace Reactor

variable {reactor : Reactor} {first : List Change} {past : List Exchange} {exchange : Exchange} {started : Bool}

theorem steady_asked (continues : reactor.project.noAnalyses.Continues reactor.analyses) (latest : Option Value) :
    let asked := (reactor.project.analyze reactor.project.main.name).run reactor.analyses
    Steady true
      { reactor with analyses := asked.2, analysis := asked.1.toOption.getD reactor.analysis, latest } := by
  refine ⟨?_, fun _ analysis found => ?_⟩
  · have moves : Moves Analyses.Continues (reactor.project.analyze reactor.project.main.name) :=
      Project.moves_analyzeNamed (fun index => Project.continues_analyzeTo reactor.project _ index) _
    exact IsTrans.trans _ _ _ continues (moves reactor.analyses)
  · have before := Project.analyze_twice continues found
    simp only [before]
    rfl

theorem steady_start (continues : reactor.project.noAnalyses.Continues reactor.analyses) :
    Steady true reactor.start.2 := by
  rcases start_cases reactor with ⟨error, same⟩ | ⟨value, same⟩
  · rw [same]
    exact steady_asked continues reactor.latest
  · rw [same]
    exact steady_asked continues (some value)

/-! ### Single calls -/

theorem streamOf_cases (reactor : Reactor) (name : String) :
    (∃ id, reactor.streamOf name = .ok id ∧ reactor.streams.name? id = some name) ∨
      reactor.streamOf name = .error (.unknownStream name) := by
  unfold streamOf
  cases found : reactor.streams.find? name with
  | none => exact .inr rfl
  | some id =>
    refine .inl ⟨id, rfl, ?_⟩
    rw [Streams.find?_eq_lastOfName] at found
    obtain ⟨place, rfl, last, -⟩ := Streams.lastOfName_eq_some_iff.mp found
    rw [Streams.name?, Nat.zero_add, ← List.getElem?_map]
    exact last

/-- A value that is kept is a change at the end of the queue; otherwise nothing has happened. -/
theorem record_cases (reactor : Reactor) (name : String) (value : Value) :
    (∃ answer, reactor.record name value = (answer, reactor) ∧ answer ≠ .ok true) ∨
      ∃ streams, reactor.record name value = (.ok true, { reactor with streams }) ∧
        ({ reactor with streams } : Reactor).queue = reactor.queue ++ [(name, value)] := by
  unfold record
  rcases streamOf_cases reactor name with ⟨id, found, named⟩ | unknown
  · simp only [found]
    unfold Streams.record
    split
    · exact .inl ⟨_, rfl, by simp⟩
    · rename_i stream present
      split
      · exact .inl ⟨_, rfl, by simp⟩
      · refine .inr ⟨_, rfl, ?_⟩
        have same : stream.signature.name = name := by simpa [Streams.name?, present] using named
        simp [queue, same]
  · simp only [unknown]
    exact .inl ⟨_, rfl, by simp⟩

theorem setActive_cases (reactor : Reactor) (name : String) (active : Bool) :
    (∃ error, reactor.setActive name active = (.error error, reactor)) ∨
      ∃ streams, reactor.setActive name active = (.ok (), { reactor with streams }) ∧
        ({ reactor with streams } : Reactor).queue = reactor.queue := by
  unfold setActive
  split
  · exact .inl ⟨_, rfl⟩
  · exact .inr ⟨_, rfl, rfl⟩

/-! ### Runs -/

/-- What a call keeps: the queue and the deliveries are those that the exchanges tell, and the reactor is steady. -/
structure Tallies (first : List Change) (past : List Exchange) (reactor : Reactor) : Prop where
  waits : reactor.queue = waiting first past
  delivers : delivered past =
    ((batches first past).filter fun batch => !batch.lost).flatMap fun batch => batch.changes.map Prod.fst
  steady : Steady (past.any fun exchange => exchange.call.starts) reactor

theorem Steady.later (steady : Steady started reactor) (streams : Streams) (latest : Option Value) :
    Steady started { reactor with streams, latest } :=
  ⟨steady.continues, steady.settled⟩

theorem Tallies.quiet (tallies : Tallies first past reactor) {after : Reactor} (queue : after.queue = reactor.queue)
    (accepts : exchange.accepted = []) (delivers : exchange.delivered = []) (takes : exchange.takes = false)
    (steady : Steady (exchange.call.starts || past.any fun exchange => exchange.call.starts) after) :
    Tallies first (exchange :: past) after := by
  refine ⟨?_, ?_, by simpa using steady⟩
  · rw [queue, tallies.waits, waiting, takes, accepts]
    simp
  · rw [delivered, delivers, batches, takes, tallies.delivers]
    simp

theorem queue_start (reactor : Reactor) : reactor.start.2.queue = reactor.queue := by
  rcases start_cases reactor with ⟨error, same⟩ | ⟨value, same⟩ <;> rw [same] <;> rfl

theorem Tallies.perform (tallies : Tallies first past reactor) (call : Call) :
    Tallies first (⟨call, (reactor.perform call).1⟩ :: past) (reactor.perform call).2 := by
  have steady := tallies.steady
  cases call with
  | start => exact tallies.quiet (queue_start reactor) rfl rfl rfl (steady_start steady.continues)
  | edit project =>
    refine tallies.quiet ?_ rfl rfl rfl (steady_start (Std.Refl.refl _))
    exact queue_start _
  | record name value =>
    rcases record_cases reactor name value with ⟨answer, same, rejected⟩ | ⟨streams, same, queue⟩
    · simp only [Reactor.perform, same]
      refine tallies.quiet rfl ?_ rfl rfl steady
      unfold Exchange.accepted
      split
      · simp_all
      · rfl
    · simp only [Reactor.perform, same]
      refine ⟨?_, ?_, ?_⟩
      · rw [queue, tallies.waits]
        rfl
      · rw [delivered, tallies.delivers, batches]
        simp [Exchange.delivered, Exchange.takes]
      · exact steady.later _ _
  | setActive name active =>
    rcases setActive_cases reactor name active with ⟨error, same⟩ | ⟨streams, same, queue⟩
    · simp only [Reactor.perform, same]
      exact tallies.quiet rfl rfl rfl rfl steady
    · simp only [Reactor.perform, same]
      exact tallies.quiet queue rfl rfl rfl (steady.later _ _)
  | react =>
    rcases react_cases reactor with ⟨-, same⟩ | ⟨latest, -, ⟨error, same⟩ | ⟨reevaluations, final, same, delivers⟩⟩
    · simp only [Reactor.perform, same]
      exact tallies.quiet rfl rfl rfl rfl steady
    · simp only [Reactor.perform, same]
      refine ⟨rfl, ?_, ?_⟩
      · rw [delivered, tallies.delivers, batches]
        simp [Exchange.delivered, Exchange.takes, Exchange.loses]
      · exact steady.later _ _
    · simp only [Reactor.perform, same]
      refine ⟨rfl, ?_, ?_⟩
      · rw [delivered, tallies.delivers, batches, ← tallies.waits]
        simp [Exchange.delivered, Exchange.takes, Exchange.loses, delivers]
      · exact steady.later _ _

theorem Tallies.performAll (tallies : Tallies first past reactor) (calls : List Call) :
    Tallies first (performAll past reactor calls).1 (performAll past reactor calls).2 := by
  induction calls generalizing past reactor with
  | nil => exact tallies
  | cons call rest hypothesis => exact hypothesis (tallies.perform call)

/-! ### Failures -/

/-- A start that fails keeps all but the analyses. -/
theorem start_failed (failed : (Reply.value reactor.start.1).isError = true) :
    let asked := (reactor.project.analyze reactor.project.main.name).run reactor.analyses
    reactor.start.2 = { reactor with analyses := asked.2, analysis := asked.1.toOption.getD reactor.analysis } := by
  rcases start_cases reactor with ⟨error, same⟩ | ⟨value, same⟩
  · exact congrArg Prod.snd same
  · simp [same, Reply.isError] at failed

theorem IsSettled.kept (settled : reactor.IsSettled) :
    ((reactor.project.analyze reactor.project.main.name).run reactor.analyses).1.toOption.getD reactor.analysis =
      reactor.analysis := by
  cases found : ((reactor.project.analyze reactor.project.main.name).run reactor.analyses).1 with
  | error error => rfl
  | ok analysis => exact settled analysis found

theorem Steady.withstands (steady : Steady started reactor) {call : Call}
    (failed : (reactor.perform call).1.isError = true) :
    Withstands started call reactor (reactor.perform call).2 := by
  cases call with
  | start =>
    simp only [Reactor.perform, start_failed failed]
    exact ⟨rfl, rfl, rfl, fun isStarted => (steady.settled isStarted).kept, rfl⟩
  | edit project =>
    simp only [Reactor.perform, edit, start_failed failed]
    exact ⟨rfl, rfl, rfl, False.elim, rfl⟩
  | record name value =>
    rcases record_cases reactor name value with ⟨answer, same, -⟩ | ⟨streams, same, -⟩
    · simp only [Reactor.perform, same]
      exact ⟨rfl, rfl, rfl, fun _ => rfl, rfl⟩
    · simp [Reactor.perform, same, Reply.isError] at failed
  | setActive name active =>
    rcases setActive_cases reactor name active with ⟨error, same⟩ | ⟨streams, same, -⟩
    · simp only [Reactor.perform, same]
      exact ⟨rfl, rfl, rfl, fun _ => rfl, rfl⟩
    · simp [Reactor.perform, same, Reply.isError] at failed
  | react =>
    rcases react_cases reactor with ⟨idle, same⟩ | ⟨latest, going, ⟨error, same⟩ | ⟨reevaluations, final, same, -⟩⟩
    · simp only [Reactor.perform, same]
      exact ⟨rfl, rfl, rfl, fun _ => rfl, by rw [idle]⟩
    · simp only [Reactor.perform, same]
      exact ⟨rfl, rfl, rfl, fun _ => rfl, by rw [going]⟩
    · simp [Reactor.perform, same, Reply.isError] at failed

theorem Tallies.accounts (tallies : Tallies first past reactor) : Accounts first past reactor where
  waits := tallies.waits
  taken := by rw [tallies.waits, accepted_eq]
  delivers := tallies.delivers
  complete none := by
    have all : (batches first past).filter (fun batch => !batch.lost) = batches first past :=
      List.filter_eq_self.mpr fun batch among => by simp [batches_kept none batch among]
    rw [tallies.delivers, all, tallies.waits, accepted_eq, List.map_append, List.map_flatMap]
  withstands _ failed := tallies.steady.withstands failed

/-- Whatever calls a new reactor receives, its exchanges account for its changes: every change is delivered once, in its
turn, unless it still waits or a reevaluation of a change that was taken with it failed; and a call that fails keeps all
but what it had already replaced. -/
theorem run_accounts (project : Project) (streams : Streams) (limits : Limits) (calls : List Call) :
    Accounts (withStreams project streams limits).queue (performAll [] (withStreams project streams limits) calls).1
      (performAll [] (withStreams project streams limits) calls).2 := by
  have new : Tallies (withStreams project streams limits).queue [] (withStreams project streams limits) :=
    ⟨rfl, rfl, Std.Refl.refl _, fun started => by simp at started⟩
  exact (new.performAll calls).accounts

/-- A program that calls a borrowed function once there is a key. -/
def calling : List (String × String) :=
  [("main", "borrow double\n(key != \"\") & (double(3) > 0)"), ("double", "ƒ(x) x * 2")]

/-- A reevaluation that fails takes the change with it: it is not delivered, and it does not wait any more. -/
theorem failed_reevaluation_loses_change :
    ∃ project, Project.parse ⟨0⟩ "calling" calling (Line.parse false) = .ok project ∧
      let (past, after) := performAll [] (withStreams project .standard ⟨1000, 10⟩)
        [.start, .record "key" (.text "a"), .react]
      past.map (·.reply.isError) = [true, false, false] ∧ (accepted past).map Prod.fst = ["key"] ∧
        delivered past = [] ∧ after.queue.map Prod.fst = [] := by
  have checked :
      (match Project.parse ⟨0⟩ "calling" calling (Line.parse false) with
        | .ok project =>
          let (past, after) := performAll [] (withStreams project .standard ⟨1000, 10⟩)
            [.start, .record "key" (.text "a"), .react]
          decide (past.map (·.reply.isError) = [true, false, false] ∧ (accepted past).map Prod.fst = ["key"] ∧
            delivered past = [] ∧ after.queue.map Prod.fst = [])
        | .error _ => false) = true := by decide +kernel
  split at checked
  · rename_i project made
    exact ⟨project, made, of_decide_eq_true checked⟩
  · simp at checked

end Reactor

end Rivulet
