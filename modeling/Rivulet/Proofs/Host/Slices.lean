import Rivulet.Proofs.Host.Lifecycle

/-!
Single steps, runs, and runs that are cut into pieces. An evaluation that single steps finish is finished by every run
with as many steps to take, and used up by every other one. However a host cuts it into single steps and runs, with
pauses in between, the machine passes through the same states, up to the wish for a pause.
-/

namespace Rivulet

namespace Machine

/-! ### Single steps -/

/-- Single steps first finish an evaluation after some of them, with a value. -/
inductive FinishesAfter : Machine → Nat → Value → Prop where
  | last {machine last : Machine} {value : Value} (stepped : machine.step = (last, .ok (.finished value))) :
      FinishesAfter machine 1 value
  | later {machine next : Machine} {count : Nat} {value : Value} (stepped : machine.step = (next, .ok .pending))
      (finishes : FinishesAfter next count value) : FinishesAfter machine (count + 1) value

/-- None of the single steps from a machine on returns a fault. -/
def StepsFreely (machine : Machine) : Prop :=
  ∀ count, ∃ outcome, (machine.stepped count).step.2 = .ok outcome

section

variable {program : Program} {natives : Natives} {limits : Limits} {machine second : Machine} {outcome : StepOutcome}
  {count total : Nat} {value : Value}

/-- A step returns what the machine that it leads to has come to. -/
theorem outcome_of_step (stepped : machine.step = (second, .ok outcome)) : outcome = second.outcome := by
  cases result : machine.result with
  | some value =>
    rw [step_of_result result] at stepped
    cases stepped
    simp [Machine.outcome, result]
  | none =>
    cases active : machine.frames with
    | nil =>
      rw [step_of_idle result active] at stepped
      cases stepped
    | cons frame rest =>
      cases current : frame.current? with
      | none =>
        rw [step_of_completed result active current] at stepped
        cases stepped
        rfl
      | some step =>
        rw [step_of_current result active current] at stepped
        unfold conclude at stepped
        split at stepped <;> cases stepped <;> rfl

theorem result_of_finished (stepped : machine.step = (second, .ok (.finished value))) : second.result = some value := by
  have is := outcome_of_step stepped
  unfold Machine.outcome at is
  split at is
  · rename_i final result
    cases is
    exact result
  · cases is

theorem result_of_pending (stepped : machine.step = (second, .ok .pending)) : second.result = none := by
  have is := outcome_of_step stepped
  unfold Machine.outcome at is
  split at is
  · cases is
  · assumption

/-- A live machine that has not finished takes one step at a time. -/
theorem IsLive.step_taken (live : machine.IsLive program natives limits) (result : machine.result = none)
    (stepped : machine.step = (second, .ok outcome)) : second.stepsTaken = machine.stepsTaken + 1 := by
  obtain ⟨⟨abides, -, -⟩, phase⟩ := live
  obtain ⟨rfl, rfl, rfl, -⟩ := id abides
  have comes := step_comesTo abides
  rw [stepped] at comes
  cases comes with
  | finished found => simp [result] at found
  | completed _ active current concludes =>
    rcases phase with finished | going
    · simp [finished.frames] at active
    · have some := going.current _ (active ▸ List.mem_cons_self)
      simp [current] at some
  | moved _ active current move concludes =>
    rcases concludes with ⟨value, log, paused, observers, is, -⟩ | ⟨frames, log, paused, observers, settles, is⟩ <;>
      cases is <;> rfl

/-- What the machines are like that single steps lead through to the end. -/
theorem FinishesAfter.results (finishes : machine.FinishesAfter count value) (going : machine.result = none) :
    (∀ earlier < count, (machine.stepped earlier).result = none) ∧ (machine.stepped count).result = some value := by
  induction finishes with
  | last stepped =>
    refine ⟨fun earlier few => ?_, ?_⟩
    · rw [Nat.lt_one_iff.mp few]
      exact going
    · rw [stepped_succ, stepped]
      exact result_of_finished stepped
  | later stepped finishes hypothesis =>
    obtain ⟨before, final⟩ := hypothesis (result_of_pending stepped)
    refine ⟨fun earlier few => ?_, ?_⟩
    · cases earlier with
      | zero => exact going
      | succ earlier =>
        rw [stepped_succ, stepped]
        exact before earlier (Nat.lt_of_succ_lt_succ few)
    · rw [stepped_succ, stepped]
      exact final

/-- Single steps that finish an evaluation return no fault, and none afterwards either. -/
theorem FinishesAfter.stepsFreely (finishes : machine.FinishesAfter count value) : machine.StepsFreely := by
  induction finishes with
  | @last machine last value stepped =>
    have stays (count : Nat) : last.stepped count = last := by
      induction count with
      | zero => rfl
      | succ count hypothesis =>
        unfold Machine.stepped
        rw [hypothesis, step_of_result (result_of_finished stepped)]
    intro count
    cases count with
    | zero => exact ⟨_, congrArg Prod.snd stepped⟩
    | succ count =>
      rw [stepped_succ, stepped, stays, step_of_result (result_of_finished stepped)]
      exact ⟨_, rfl⟩
  | later stepped finishes hypothesis =>
    intro count
    cases count with
    | zero => exact ⟨_, congrArg Prod.snd stepped⟩
    | succ count =>
      rw [stepped_succ, stepped]
      exact hypothesis count

/-! ### Runs -/

/-- Every run with enough steps to take does what single steps do. -/
theorem FinishesAfter.run_of_le (finishes : machine.FinishesAfter count value)
    (live : machine.IsLive program natives limits) (quiet : machine.IsQuiet) (going : machine.result = none)
    {limit : Nat} (enough : count ≤ limit) :
    machine.run limit = (machine.stepped count, .ok (.finished value)) ∧
      (machine.stepped count).stepsTaken = machine.stepsTaken + count := by
  induction finishes generalizing limit with
  | @last machine last value stepped =>
    obtain ⟨limit, rfl⟩ := Nat.exists_eq_add_of_le' enough
    have final := result_of_finished stepped
    have stops : last.stop? = some (.finished value) := by simp [stop?, final]
    have goes : machine.stop? = none := by simp [stop?, going, quiet.calm]
    rw [stepped_succ, stepped]
    refine ⟨?_, live.step_taken going stepped⟩
    unfold run
    rw [goes, stepped]
    show last.run limit = (last, _)
    cases limit <;> simp only [run, stops]
  | @later machine next count value stepped finishes hypothesis =>
    obtain ⟨limit, rfl⟩ := Nat.exists_eq_add_of_le' (Nat.le_trans (Nat.le_add_left 1 count) enough)
    have goes : machine.stop? = none := by simp [stop?, going, quiet.calm]
    have quiet' := quiet.step
    rw [stepped] at quiet'
    obtain ⟨ran, taken⟩ := hypothesis (live.step stepped) quiet' (result_of_pending stepped)
      (show count ≤ limit by omega)
    have one := live.step_taken going stepped
    have same : machine.stepped (count + 1) = next.stepped count := by rw [stepped_succ, stepped]
    rw [same]
    refine ⟨?_, by omega⟩
    unfold run
    rw [goes, stepped]
    exact ran

/-- Every run with too few steps to take uses them up. -/
theorem FinishesAfter.run_of_lt (finishes : machine.FinishesAfter count value)
    (live : machine.IsLive program natives limits) (quiet : machine.IsQuiet) (going : machine.result = none)
    {limit : Nat} (few : limit < count) :
    ∃ last, machine.run limit = (last, .ok (.finished (.failed .stepLimit machine.tree.root))) ∧
      last.stepsTaken = machine.stepsTaken + limit ∧ last.frames = [] := by
  induction limit generalizing machine count with
  | zero =>
    have goes : machine.stop? = none := by simp [stop?, going, quiet.calm]
    obtain ⟨frame, rest, active⟩ : ∃ frame rest, machine.frames = frame :: rest := by
      rcases live.phase with finished | goingOn
      · exact absurd finished.result (by simp [going])
      · exact List.exists_cons_of_ne_nil goingOn.frames
    refine ⟨machine.finishWith (.failed .stepLimit machine.tree.root), ?_, rfl, rfl⟩
    unfold run
    rw [goes]
    simp only [exhaust, active]
  | succ limit hypothesis =>
    have goes : machine.stop? = none := by simp [stop?, going, quiet.calm]
    cases finishes with
    | last stepped => omega
    | @later _ next count _ stepped finishes =>
      have quiet' := quiet.step
      rw [stepped] at quiet'
      obtain ⟨last, ran, taken, empty⟩ := hypothesis finishes (live.step stepped) quiet' (result_of_pending stepped)
        (by omega)
      have one := live.step_taken going stepped
      have same : next.tree = machine.tree := by
        have here := (live.step stepped).satisfies.abides.program
        have there := live.satisfies.abides.program
        rw [tree, tree, here, there]
      refine ⟨last, ?_, by omega, empty⟩
      unfold run
      rw [goes, stepped, ← same]
      exact ran

end

/-! ### Slices -/

/-- Whether a run among requests uses up the steps that it may take. -/
def exhaustsAmid (machine : Machine) (requests : Nat → Option Bool) : Nat → Bool
  | 0 => (machine.heed (requests 0)).stop?.isNone
  | remaining + 1 =>
    (machine.heed (requests 0)).stop?.isNone &&
      (machine.heed (requests 0)).step.1.exhaustsAmid (fun turn => requests (turn + 1)) remaining

/-- The machines that a run among requests passes through: one after each of its steps. -/
def passedAmid (machine : Machine) (requests : Nat → Option Bool) : Nat → List Machine
  | 0 => []
  | remaining + 1 =>
    if (machine.heed (requests 0)).stop?.isSome then []
    else
      (machine.heed (requests 0)).step.1 ::
        (machine.heed (requests 0)).step.1.passedAmid (fun turn => requests (turn + 1)) remaining

/-- Whether a deed is a run that uses up its steps. -/
def exhausts (machine : Machine) : Deed → Bool
  | .run limit requests => machine.exhaustsAmid requests limit
  | _ => false

/-- The machines that a deed which goes on with an evaluation passes through: one after each step. -/
def passed (machine : Machine) : Deed → List Machine
  | .step => if machine.result.isSome then [] else [machine.step.1]
  | .run limit requests => machine.passedAmid requests limit
  | _ => []

/-- None of some deeds, done one after the other, uses up its steps. -/
def IsThrifty (machine : Machine) : List Deed → Prop
  | [] => True
  | deed :: deeds => machine.exhausts deed = false ∧ (machine.perform deed).1.IsThrifty deeds

/-- The machines that some deeds, done one after the other, pass through. -/
def passedBy (machine : Machine) : List Deed → List Machine
  | [] => []
  | deed :: deeds => machine.passed deed ++ (machine.perform deed).1.passedBy deeds

/-- A machine that has come as far as some single steps, up to the wish for a pause. -/
structure HasCome (program : Program) (natives : Natives) (limits : Limits) (first : Machine) (count : Nat)
    (machine : Machine) : Prop where
  same : Veil.calm.Same machine (first.stepped count)
  live : machine.IsLive program natives limits
  taken : machine.stepsTaken = first.stepsTaken + count
  going : ∀ earlier < count, (first.stepped earlier).result = none

/-- The machines that some single steps lead through after others, without the wish for a pause. -/
def course (first : Machine) (count more : Nat) : List Machine :=
  (List.range' (count + 1) more).map fun count => (first.stepped count).resume

theorem course_append (first : Machine) (count more other : Nat) :
    first.course count more ++ first.course (count + more) other = first.course count (more + other) := by
  unfold course
  rw [← List.map_append, show count + more + 1 = count + 1 + more by omega, List.range'_append_1]

section

variable {program : Program} {natives : Natives} {limits : Limits} {first machine : Machine} {count : Nat}

theorem HasCome.heed (come : HasCome program natives limits first count machine) (request : Option Bool) :
    HasCome program natives limits first count (machine.heed request) := by
  refine ⟨?_, come.live.heed request, ?_, come.going⟩
  · cases request with
    | none => exact come.same
    | some paused => exact come.same
  · cases request with
    | none => exact come.taken
    | some paused => exact come.taken

/-- One more step. -/
theorem HasCome.step (free : first.StepsFreely) (come : HasCome program natives limits first count machine)
    (going : machine.result = none) :
    ∃ outcome second, machine.step = (second, .ok outcome) ∧
      HasCome program natives limits first (count + 1) second ∧ [second.resume] = first.course count 1 := by
  obtain ⟨looks, equal⟩ := come.same.step
  obtain ⟨outcome, regular⟩ := free count
  rw [regular] at equal
  obtain ⟨second, stepped⟩ : ∃ second, machine.step = (second, .ok outcome) := ⟨_, Prod.ext rfl equal⟩
  rw [stepped] at looks
  refine ⟨outcome, second, stepped, ⟨looks, come.live.step stepped, ?_, fun earlier few => ?_⟩,
    congrArg (fun machine => [machine]) looks⟩
  · rw [come.live.step_taken going stepped, come.taken]
    rfl
  · rcases Nat.lt_succ_iff_lt_or_eq.mp few with few | rfl
    · exact come.going earlier few
    · exact come.same.result.symm.trans going

/-- A run that does not use up its steps passes through the machines that single steps lead through. -/
theorem HasCome.runAmid (free : first.StepsFreely) (requests : Nat → Option Bool) (limit : Nat)
    (come : HasCome program natives limits first count machine)
    (thrifty : machine.exhaustsAmid requests limit = false) :
    ∃ outcome last more, machine.runAmid requests limit = (last, .ok outcome) ∧
      HasCome program natives limits first (count + more) last ∧
      (machine.passedAmid requests limit).map resume = first.course count more := by
  induction limit generalizing machine requests count with
  | zero =>
    unfold exhaustsAmid at thrifty
    unfold Machine.runAmid passedAmid
    dsimp only
    cases stops : (machine.heed (requests 0)).stop? with
    | none => simp [stops] at thrifty
    | some outcome => exact ⟨outcome, _, 0, rfl, come.heed _, rfl⟩
  | succ limit hypothesis =>
    have heeded := come.heed (requests 0)
    unfold exhaustsAmid at thrifty
    unfold Machine.runAmid passedAmid
    dsimp only
    generalize machine.heed (requests 0) = machine at heeded thrifty ⊢
    cases stops : machine.stop? with
    | some outcome => exact ⟨outcome, machine, 0, rfl, heeded, rfl⟩
    | none =>
      obtain ⟨_, second, stepped, come', one⟩ := heeded.step free (stop?_eq_none stops).1
      simp only [stops, stepped, Option.isNone_none, Bool.true_and] at thrifty
      obtain ⟨outcome, last, more, ran, come', passed⟩ := hypothesis _ come' thrifty
      refine ⟨outcome, last, 1 + more, ?_, ?_, ?_⟩
      · rw [stepped]
        exact ran
      · rwa [← Nat.add_assoc]
      · rw [stepped, ← course_append, ← one, ← passed]
        rfl

/-- Any deed that goes on with an evaluation. -/
theorem HasCome.perform (free : first.StepsFreely) {deed : Deed} (goesOn : deed.goesOn)
    (come : HasCome program natives limits first count machine) (thrifty : machine.exhausts deed = false) :
    ∃ more, (machine.perform deed).2 = .ok () ∧
      HasCome program natives limits first (count + more) (machine.perform deed).1 ∧
      (machine.passed deed).map resume = first.course count more := by
  cases deed with
  | step =>
    unfold Machine.perform passed
    dsimp only
    cases result : machine.result with
    | some value =>
      rw [step_of_result result]
      exact ⟨0, rfl, come, rfl⟩
    | none =>
      obtain ⟨outcome, second, stepped, come', one⟩ := come.step free result
      rw [stepped]
      exact ⟨1, rfl, come', one⟩
  | run limit requests =>
    obtain ⟨outcome, last, more, ran, come', passed⟩ := come.runAmid free requests limit thrifty
    unfold Machine.perform
    dsimp only
    rw [ran]
    exact ⟨more, rfl, come', passed⟩
  | pause => exact ⟨0, rfl, come.heed (some true), rfl⟩
  | resume => exact ⟨0, rfl, come.heed (some false), rfl⟩
  | start | call | jump | observe | ignore => simp [Deed.goesOn] at goesOn

/-- Any number of them. -/
theorem HasCome.after (free : first.StepsFreely) {deeds : List Deed} (goOn : ∀ deed ∈ deeds, deed.goesOn)
    (come : HasCome program natives limits first count machine) (thrifty : machine.IsThrifty deeds) :
    ∃ more, machine.Accepts deeds ∧ HasCome program natives limits first (count + more) (machine.after deeds) ∧
      (machine.passedBy deeds).map resume = first.course count more := by
  induction deeds generalizing machine count with
  | nil => exact ⟨0, trivial, come, rfl⟩
  | cons deed deeds hypothesis =>
    obtain ⟨one, accepted, come, here⟩ := come.perform free (goOn deed (by simp)) thrifty.1
    obtain ⟨more, all, come, there⟩ := hypothesis (fun deed among => goOn deed (by simp [among])) come thrifty.2
    refine ⟨one + more, ⟨accepted, all⟩, ?_, ?_⟩
    · rwa [← Nat.add_assoc]
    · rw [← course_append, ← here, ← there]
      exact List.map_append

end

/-- Stepping, running and pausing agree, for an evaluation without faults of a tree that compiles to some steps. -/
theorem stepping_running_pausing_agree (machine : Machine) (some : machine.tree.code machine.tree.root ≠ []) (inputs : Inputs)
    (free : (machine.start inputs).StepsFreely) :
    (∀ total value, (machine.start inputs).FinishesAfter total value → (machine.start inputs).IsQuiet →
      (∀ limit ≥ total, ∃ last, (machine.start inputs).run limit = (last, .ok (.finished value)) ∧
        last.stepsTaken = total) ∧
      ∀ limit < total, ∃ last, (machine.start inputs).run limit =
        (last, .ok (.finished (.failed .stepLimit machine.tree.root))) ∧ last.stepsTaken = limit ∧ last.frames = []) ∧
    ∀ deeds : List Deed, (∀ deed ∈ deeds, deed.goesOn) → (machine.start inputs).IsThrifty deeds →
      (machine.start inputs).Accepts deeds ∧
      ∃ count, ((machine.start inputs).passedBy deeds).map resume =
          (List.range' 1 count).map (fun count => ((machine.start inputs).stepped count).resume) ∧
        ((machine.start inputs).after deeds).resume = ((machine.start inputs).stepped count).resume ∧
        ((machine.start inputs).after deeds).stepsTaken = count ∧
        ∀ total value, (machine.start inputs).FinishesAfter total value → count ≤ total ∧
          (((machine.start inputs).after deeds).result.isSome →
            count = total ∧ ((machine.start inputs).after deeds).result = .some value) := by
  have live := IsLive.start some inputs
  have fresh : (machine.start inputs).stepsTaken = 0 := rfl
  have going : (machine.start inputs).result = none := rfl
  refine ⟨fun total value finishes quiet => ⟨fun limit enough => ?_, fun limit few => ?_⟩,
    fun deeds goOn thrifty => ?_⟩
  · obtain ⟨ran, taken⟩ := finishes.run_of_le live quiet going enough
    exact ⟨_, ran, by omega⟩
  · obtain ⟨last, ran, taken, empty⟩ := finishes.run_of_lt live quiet going few
    exact ⟨last, ran, by omega, empty⟩
  · have come :
        HasCome machine.program machine.natives machine.limits (machine.start inputs) 0 (machine.start inputs) :=
      ⟨rfl, live, rfl, fun _ few => absurd few (Nat.not_lt_zero _)⟩
    obtain ⟨count, accepted, come, passed⟩ := come.after free goOn thrifty
    rw [Nat.zero_add] at come
    refine ⟨accepted, count, passed, come.same, ?_, fun total value finishes => ?_⟩
    · rw [come.taken, fresh, Nat.zero_add]
    · obtain ⟨before, final⟩ := finishes.results going
      have within : count ≤ total := by
        by_contra beyond
        have none := come.going total (by omega)
        simp [final] at none
      refine ⟨within, fun finished => ?_⟩
      have equal : count = total := by
        by_contra differ
        have none := before count (by omega)
        rw [come.same.result, none] at finished
        simp at finished
      subst equal
      exact ⟨rfl, come.same.result.trans final⟩

/-- A machine for two numbers, which it reads in four steps. -/
def reader : Machine :=
  create (.ofTree twoNumbers) .standard ⟨1000, 10⟩ .empty

/-- One step by itself, one in a run that is asked to pause, and two in a run that may take no more. -/
def slices : List Deed :=
  [.step, .run 5 fun turn => if turn = 1 then some true else none, .resume, .run 2 fun _ => none]

theorem stepping_running_pausing_agree_on_two_numbers :
    let value := Value.sequence #[.number (.ofNat 1), .number (.ofNat 2)]
    reader.tree.code reader.tree.root ≠ [] ∧ (reader.start {}).StepsFreely ∧ (reader.start {}).FinishesAfter 4 value ∧
      (reader.start {}).IsQuiet ∧ (reader.start {}).IsThrifty slices ∧
      (∃ last, (reader.start {}).run 4 = (last, .ok (.finished value)) ∧ last.stepsTaken = 4) ∧
      (∃ last, (reader.start {}).run 3 = (last, .ok (.finished (.failed .stepLimit reader.tree.root))) ∧
        last.stepsTaken = 3 ∧ last.frames = []) ∧
      ((reader.start {}).after slices).result = some value ∧ ((reader.start {}).after slices).stepsTaken = 4 := by
  intro value
  have compiled : reader.tree.code reader.tree.root ≠ [] :=
    code_ne_nil_of_acyclic (Tree.wellFormed_of_isOrderly (by decide)).acyclic _
  have finishes : (reader.start {}).FinishesAfter 4 value := .later rfl (.later rfl (.later rfl (.last rfl)))
  have quiet : (reader.start {}).IsQuiet := ⟨rfl, fun _ among => absurd among List.not_mem_nil⟩
  have thrifty : (reader.start {}).IsThrifty slices := ⟨rfl, rfl, rfl, rfl, trivial⟩
  have goOn : ∀ deed ∈ slices, deed.goesOn := by simp [slices, Deed.goesOn]
  obtain ⟨runs, cut⟩ := stepping_running_pausing_agree reader compiled {} finishes.stepsFreely
  obtain ⟨enough, few⟩ := runs 4 value finishes quiet
  obtain ⟨-, count, -, -, taken, ends⟩ := cut slices goOn thrifty
  obtain ⟨all, result⟩ := (ends 4 value finishes).2 rfl
  exact ⟨compiled, finishes.stepsFreely, finishes, quiet, thrifty, enough 4 (by decide), few 3 (by decide), result,
    taken.trans all⟩

end Machine

end Rivulet
