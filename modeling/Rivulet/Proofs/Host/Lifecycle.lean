import Rivulet.Proofs.Host.Abiding
import Rivulet.Proofs.Tree.Shape

/-!
The life of an evaluation. Whatever a host does with a machine that it has started, as long as nothing returns a
fault: the evaluation is either over, with a result and no frames, or it goes on in some frames, all of which have a
current step and of which there are no more than may be active at once.
-/

namespace Rivulet

namespace Machine

/-! ### Phases -/

/-- An evaluation that is over. -/
structure IsOver (machine : Machine) : Prop where
  frames : machine.frames = []
  result : machine.result.isSome

/-- An evaluation that goes on: every frame has a step to run. -/
structure IsGoing (machine : Machine) : Prop where
  frames : machine.frames ≠ []
  result : machine.result = none
  current : ∀ frame ∈ machine.frames, frame.current?.isSome
  depth : machine.frames.length ≤ max 1 machine.limits.maxDepth

/-- An evaluation between two deeds of its host. -/
structure IsLive (program : Program) (natives : Natives) (limits : Limits) (machine : Machine) : Prop where
  satisfies : machine.Satisfies program natives limits (sequences (.free program.tree natives) limits)
  phase : machine.IsOver ∨ machine.IsGoing

section

variable {frame : Frame} {active frames : List Frame}

theorem current?_isSome_iff : frame.current?.isSome ↔ frame.isExhausted = false := by
  simp [Frame.current?, Frame.isExhausted]

/-- Frames that had a step left before some were completed have one left afterwards, and so has the topmost one. -/
theorem Settles.current (settles : Settles active frames) (below : ∀ frame ∈ active.tail, frame.current?.isSome) :
    ∀ frame ∈ frames, frame.current?.isSome := by
  cases settles with
  | going left =>
    intro frame among
    rcases List.mem_cons.mp among with rfl | there
    · exact current?_isSome_iff.mpr left
    · exact below frame there
  | @handed top caller dropped rest value exhausted holds left =>
    intro frame among
    rcases List.mem_cons.mp among with rfl | there
    · exact below caller (by simp)
    · exact below frame (by simp [there])

theorem Settles.length (settles : Settles active frames) : frames.length ≤ active.length := by
  cases settles with
  | going left => exact Nat.le_refl _
  | handed exhausted holds left =>
    simp only [List.length_cons, List.length_append]
    omega

theorem Settles.ne_nil (settles : Settles active frames) : frames ≠ [] := by
  cases settles <;> exact List.cons_ne_nil _ _

end

section

variable {program : Program} {natives : Natives} {limits : Limits} {machine : Machine}

/-- Completing frames of which all but the topmost one have a step left. -/
theorem phase_completeFrames {frame : Frame} {rest : List Frame} (active : machine.frames = frame :: rest)
    (result : machine.result = none) (below : ∀ frame ∈ rest, frame.current?.isSome)
    (depth : rest.length + 1 ≤ max 1 machine.limits.maxDepth) :
    machine.completeFrames.IsOver ∨ machine.completeFrames.IsGoing := by
  rcases completeFrames_cases active with ⟨frames, settles, is⟩ | ⟨value, is, -⟩
  · rw [is]
    exact .inr ⟨settles.ne_nil, result, settles.current below, Nat.le_trans settles.length depth⟩
  · rw [is]
    exact .inl ⟨rfl, rfl⟩

/-- A step that is no fault leads from phase to phase. -/
theorem IsLive.step (live : machine.IsLive program natives limits) {second : Machine} {outcome : StepOutcome}
    (stepped : machine.step = (second, .ok outcome)) : second.IsLive program natives limits := by
  refine ⟨step_satisfies live.satisfies stepped, ?_⟩
  obtain ⟨⟨abides, -, frames⟩, phase⟩ := live
  obtain ⟨rfl, rfl, rfl, -⟩ := id abides
  have comes := step_comesTo abides
  rw [stepped] at comes
  cases comes with
  | finished result => exact phase
  | completed result active current concludes =>
    rcases phase with finished | going
    · simp [finished.frames] at active
    · have some := going.current _ (active ▸ List.mem_cons_self)
      simp [current] at some
  | @moved frame frame' rest step store' flow _ result active current move concludes =>
    rcases phase with finished | going
    · simp [finished.frames] at active
    · have sequence := frames frame (by simp [active])
      have earlier := going.current
      have depth := going.depth
      rw [active] at earlier depth
      -- All frames below the topmost one have a step left: the caller because something follows a call.
      have below : ∀ other ∈ (flow.frames frame' rest).tail, other.current?.isSome := by
        cases flow with
        | start above =>
          intro other among
          rcases List.mem_cons.mp among with rfl | among
          · have follows := sequence.followed frame.cursor step current move.yields.1
            have stays := move.stays above rfl
            have steps := move.steps
            simp [Frame.current?, Frame.advance, stays, steps, follows]
          · exact earlier other (by simp [among])
        | _ => exact fun other among => earlier other (List.mem_cons_of_mem _ among)
      have length : (flow.frames frame' rest).length ≤ max 1 machine.limits.maxDepth := by
        cases flow with
        | start above =>
          have within := move.yields.2.1.within
          simp only [Flow.frames, List.length_cons]
          omega
        | _ => exact depth
      rcases concludes with ⟨value, log, paused, observers, is, -⟩ | ⟨frames', log, paused, observers, settles, is⟩
      · cases is
        exact .inl ⟨rfl, rfl⟩
      · cases is
        exact .inr ⟨settles.ne_nil, rfl, settles.current below, Nat.le_trans settles.length length⟩

theorem IsLive.heed (live : machine.IsLive program natives limits) (request : Option Bool) :
    (machine.heed request).IsLive program natives limits := by
  cases request with
  | none => exact live
  | some paused =>
    refine ⟨⟨heed_abides live.satisfies.abides (some paused), trivial, live.satisfies.frames⟩, ?_⟩
    exact live.phase.imp (fun finished => ⟨finished.frames, finished.result⟩)
      fun going => ⟨going.frames, going.result, going.current, going.depth⟩

theorem IsLive.finishWith (live : machine.IsLive program natives limits) (value : Value) :
    (machine.finishWith value).IsLive program natives limits :=
  ⟨⟨finishWith_abides live.satisfies.abides value, trivial, fun _ among => absurd among List.not_mem_nil⟩,
    .inl ⟨rfl, rfl⟩⟩

theorem IsLive.runAmid (live : machine.IsLive program natives limits) {requests : Nat → Option Bool} {limit : Nat}
    {last : Machine} {outcome : RunOutcome} (ran : machine.runAmid requests limit = (last, .ok outcome)) :
    last.IsLive program natives limits := by
  have kept : KeptByRuns (IsLive program natives limits) fun _ => True :=
    { heed := fun _ request live => live.heed request
      step := fun machine _ live => by
        cases stepped : machine.step with
        | mk second outcome =>
          cases outcome with
          | ok outcome => exact live.step stepped
          | error fault => trivial
      exhaust := fun _ value _ _ live => live.finishWith value
      idle := fun _ _ _ _ => trivial }
  have ended := runAmid_keeps kept requests limit live
  rwa [ran] at ended

/-- A jump within the sequence of the topmost frame. -/
theorem IsLive.jump (live : machine.IsLive program natives limits) {distance : Int} {last : Machine}
    (jumped : machine.jump distance = (last, .ok ())) : last.IsLive program natives limits := by
  have abides := jump_abides live.satisfies.abides distance
  rw [jumped] at abides
  have frames := live.satisfies.frames
  unfold Machine.jump at jumped
  split at jumped
  · simp at jumped
  · rename_i frame rest active
    unfold Frame.jump at jumped
    dsimp only at jumped
    split at jumped
    · rename_i moved is
      split at is
      · rename_i within
        cases is
        cases jumped
        rw [active] at frames
        rcases live.phase with finished | going
        · simp [finished.frames] at active
        · have current := going.current
          have depth := going.depth
          rw [active] at current depth
          simp only [Bool.and_eq_true, decide_eq_true_eq] at within
          have landed : (frame.cursor + distance).toNat < frame.steps.size := by omega
          refine ⟨⟨abides, trivial, ?_⟩, .inr ⟨by simp, going.result, ?_, ?_⟩⟩
          · intro other among
            rw [frames_setTop, active] at among
            rcases List.mem_cons.mp among with rfl | below
            · exact frames frame (by simp)
            · exact frames other (List.mem_cons_of_mem _ below)
          · intro other among
            rw [frames_setTop, active] at among
            rcases List.mem_cons.mp among with rfl | below
            · simp [Frame.current?, landed]
            · exact current other (List.mem_cons_of_mem _ below)
          · rw [frames_setTop, active]
            exact depth
      · simp at is
    · simp at jumped

/-- A call starts a frame at most, and what is below it has steps left. -/
theorem IsLive.call (live : machine.IsLive program natives limits) {function : Function} {arguments : List Value}
    {origin : NodeId} {last : Machine} (called : machine.call function arguments origin = (last, .ok ())) :
    last.IsLive program natives limits := by
  have abides : (machine.call function arguments origin).1.Abides program natives limits (.free program.tree natives) :=
    call_abides live.satisfies.abides trivial (fun _ _ => Law.free_admits _ _ _ _) origin
  rw [called] at abides
  have reset := dropResult_abides live.satisfies.abides
  have frames : ∀ frame ∈ machine.dropResult.frames, program.tree.IsSequence natives frame.steps :=
    fun frame among => live.satisfies.frames frame (by simpa using among)
  have current : ∀ frame ∈ machine.dropResult.frames, frame.current?.isSome := by
    rcases live.phase with finished | going
    · simp [finished.frames]
    · simpa using going.current
  have result : machine.dropResult.result = none := by
    rcases live.phase with finished | going
    · simp [dropResult, finished.frames]
    · simp [dropResult, going.frames, going.result]
  rw [call_eq] at called
  generalize machine.dropResult = before at reset frames current result called
  obtain ⟨rfl, rfl, rfl, -⟩ := id reset
  obtain ⟨store', outcome, started, calls⟩ := @startCall_calls _ _ reset.store reset.root function trivial
    arguments (fun _ _ => Law.free_admits _ _ _ _) origin
  unfold enterCall at called
  rw [started] at called
  rcases calls.opens with ⟨fault, rfl⟩ | ⟨exception, rfl, -⟩ | ⟨above, rfl, opened, -⟩
  · simp at called
  · cases called
    exact ⟨⟨abides, trivial, fun _ among => absurd among List.not_mem_nil⟩, .inl ⟨rfl, rfl⟩⟩
  · cases called
    refine ⟨⟨abides, trivial, ?_⟩, phase_completeFrames rfl result current ?_⟩
    · refine completeFrames_keeps (fun _ _ sequence => sequence) fun frame among => ?_
      rcases List.mem_cons.mp among with rfl | below
      · exact opened.sequence
      · exact frames frame below
    · have depth : before.depth = before.frames.length := before.stack.depth_eq
      have within : before.depth < before.limits.maxDepth := opened.within
      have deep : before.frames.length + 1 ≤ before.limits.maxDepth := by omega
      exact Nat.le_trans deep (Nat.le_max_right 1 _)

end

/-! ### Starting -/

/-- In a tree without cycles every node compiles to some steps. -/
theorem code_ne_nil_of_acyclic {tree : Tree} (acyclic : tree.Acyclic) (id : NodeId) : tree.code id ≠ [] := by
  obtain ⟨rank, lower, bounded⟩ := Tree.exists_rank acyclic
  have compiled (depth : Nat) (id : NodeId) (deep : rank id < depth) : tree.codeTo depth id ≠ [] := by
    induction depth generalizing id with
    | zero => exact absurd deep (Nat.not_lt_zero _)
    | succ depth hypothesis =>
      show tree.codeWith (tree.codeTo depth) id ≠ []
      unfold Tree.codeWith
      cases is : tree.form? id with
      | none => simp
      | some form =>
        cases form with
        | pair key value =>
          have below := lower key id ⟨_, is, by simp [Form.links]⟩
          have some : tree.childCode (tree.codeTo depth) id key ≠ [] := by
            unfold Tree.childCode
            split
            · exact hypothesis key (by omega)
            · simp
          simp [some]
        | binary op left right =>
          dsimp only
          split <;> simp
        | _ => simp
  rw [Tree.code]
  exact compiled _ id (bounded id)

/-- A machine that has been started is live if there is a step to begin with. -/
theorem IsLive.start {machine : Machine} (some : machine.tree.code machine.tree.root ≠ []) (inputs : Inputs) :
    (machine.start inputs).IsLive machine.program machine.natives machine.limits := by
  have abides : (machine.start inputs).Abides machine.program machine.natives machine.limits
      (.free machine.program.tree machine.natives) := start_abides
    (Store.abides_free _ _ _) (Nat.zero_le _) (fun _ _ => Law.free_admits _ _ _ _) (fun _ _ => Law.free_admits _ _ _ _)
  have first := start_frames machine inputs
  refine ⟨⟨abides, trivial, ?_⟩, .inr ⟨by simp [first], rfl, ?_, ?_⟩⟩
  · intro frame among
    rw [first] at among
    rw [List.mem_singleton.mp among]
    exact isSequence_code machine.program.tree machine.natives machine.program.tree.root
  · intro frame among
    rw [first] at among
    rw [List.mem_singleton.mp among]
    have length : 0 < (machine.tree.code machine.tree.root).length := List.length_pos_iff.mpr some
    simp [Frame.current?, Frame.start, length]
  · rw [first]
    exact Nat.le_max_left 1 _

section

variable {program : Program} {natives : Natives} {limits : Limits} {machine : Machine}

/-- Whatever a host does with a live machine, the machine is live afterwards unless there is a fault. -/
theorem IsLive.perform (acyclic : program.tree.Acyclic) (live : machine.IsLive program natives limits) {deed : Deed}
    (accepted : (machine.perform deed).2 = .ok ()) : (machine.perform deed).1.IsLive program natives limits := by
  cases deed with
  | start inputs =>
    obtain ⟨rfl, rfl, rfl, -⟩ := id live.satisfies.abides
    exact .start (code_ne_nil_of_acyclic acyclic _) inputs
  | step =>
    unfold Machine.perform at accepted ⊢
    dsimp only at accepted ⊢
    cases stepped : machine.step with
    | mk second outcome =>
      rw [stepped] at accepted
      cases outcome with
      | ok outcome => exact live.step stepped
      | error fault => simp [Except.map] at accepted
  | run limit requests =>
    unfold Machine.perform at accepted ⊢
    dsimp only at accepted ⊢
    cases ran : machine.runAmid requests limit with
    | mk last outcome =>
      rw [ran] at accepted
      cases outcome with
      | ok outcome => exact live.runAmid ran
      | error fault => simp [Except.map] at accepted
  | call function arguments origin => exact live.call (Prod.ext rfl accepted)
  | jump distance => exact live.jump (Prod.ext rfl accepted)
  | pause => exact live.heed (some true)
  | resume => exact live.heed (some false)
  | observe pauseAfter =>
    obtain ⟨⟨abides, -, frames⟩, phase⟩ := live
    exact ⟨⟨⟨abides.program, abides.natives, abides.limits, abides.root, abides.borrowed, abides.store, abides.frames⟩,
      trivial, frames⟩, phase.imp (fun finished => ⟨finished.frames, finished.result⟩)
        fun going => ⟨going.frames, going.result, going.current, going.depth⟩⟩
  | ignore id =>
    obtain ⟨⟨abides, -, frames⟩, phase⟩ := live
    exact ⟨⟨⟨abides.program, abides.natives, abides.limits, abides.root, abides.borrowed, abides.store, abides.frames⟩,
      trivial, frames⟩, phase.imp (fun finished => ⟨finished.frames, finished.result⟩)
        fun going => ⟨going.frames, going.result, going.current, going.depth⟩⟩

end

/-- A machine that has been started on a tree without cycles is over or goes on, whatever has been done with it since
and as long as none of that returned a fault. -/
theorem over_or_going_after_deeds (machine : Machine) (acyclic : machine.tree.Acyclic) (inputs : Inputs)
    (deeds : List Deed) (accepted : machine.Accepts (.start inputs :: deeds)) :
    (machine.after (.start inputs :: deeds)).IsOver ∨ (machine.after (.start inputs :: deeds)).IsGoing := by
  have live : ((machine.start inputs).after deeds).IsLive machine.program machine.natives machine.limits :=
    after_keeps (fun machine live deed _ accepted => live.perform acyclic accepted)
      (.start (code_ne_nil_of_acyclic acyclic _) inputs) accepted.2
  exact live.phase

/-- Two numbers, the first of which is also asked for by a call in between. -/
def twoNumbers : Tree where
  nodes := #[
    ⟨.number "1" .unitless, .none⟩,
    ⟨.number "2" .unitless, .none⟩,
    ⟨.sequence ⟨0, 2⟩, .none⟩,
    ⟨.program (.node 2), .none⟩]
  lists := #[.node 0, .node 1]
  root := .node 3

theorem over_or_going_after_call :
    let deeds : List Deed := [.start {}, .step, .call ⟨.native 0, none, ""⟩ [.sequence #[]] (.node 2), .step, .jump 0]
    let last := (create (.ofTree twoNumbers) .standard ⟨1000, 10⟩ .empty).after deeds
    last.IsOver ∨ last.IsGoing :=
  over_or_going_after_deeds (create (.ofTree twoNumbers) .standard ⟨1000, 10⟩ .empty)
    (Tree.wellFormed_of_isOrderly (by decide)).acyclic {}
    [.step, .call ⟨.native 0, none, ""⟩ [.sequence #[]] (.node 2), .step, .jump 0]
    ⟨rfl, rfl, rfl, rfl, rfl, trivial⟩

end Machine

end Rivulet
