import Rivulet.Proofs.Host.Deeds
import Rivulet.Proofs.Machine.Stepping
import Rivulet.Proofs.Meaning.Opening

/-!
Hosts and laws. A machine that abides by a law still does when its host has done something with it, as long as the
host supplies no values but those that the law admits, and whatever the deed returned (`perform_abides`).
-/

namespace Rivulet

/-- The values that a host supplies are admitted when there are so many scopes. -/
def Deed.Supplies {tree : Tree} {natives : Natives} (law : Law tree natives) (count : Nat) : Deed → Prop
  | .start inputs => (∀ stream ∈ inputs.streams, law.Admits count stream.2) ∧
    ∀ borrow ∈ inputs.borrowed, law.Admits count borrow.2
  | .call function arguments _ => law.allows count function ∧ ∀ argument ∈ arguments, law.Admits count argument
  | _ => True

/-- The values that a host supplies for some deeds, done one after the other, are admitted. -/
def Machine.IsSupplied {tree : Tree} {natives : Natives} (law : Law tree natives) (machine : Machine) : List Deed → Prop
  | [] => True
  | deed :: deeds => deed.Supplies law machine.store.scopes.size ∧ (machine.perform deed).1.IsSupplied law deeds

namespace Machine

open Meaning

/-! ### Starting -/

section

variable (machine : Machine) (inputs : Inputs)

theorem start_store : (machine.start inputs).store =
    ((outermostStore machine.natives inputs machine.store).add ⟨[], some machine.store.scopes.size⟩).2 :=
  rfl

theorem size_start : (machine.start inputs).store.scopes.size = machine.store.scopes.size + 2 := by
  rw [start_store, Store.size_add, size_outermostStore]

theorem start_frames : (machine.start inputs).frames =
    [.start .program machine.tree.root (machine.tree.code machine.tree.root).toArray (machine.store.scopes.size + 1)] := by
  rw [start_eq, ← size_outermostStore machine.natives inputs machine.store]
  rfl

end

variable {machine : Machine}

/-- What an evaluation starts with abides by a law if the scopes before it and the inputs do. -/
theorem start_abides {law : Law machine.program.tree machine.natives} (stored : machine.store.Abides law)
    (inside : law.base ≤ machine.store.scopes.size) {inputs : Inputs}
    (streams : ∀ stream ∈ inputs.streams, law.Admits machine.store.scopes.size stream.2)
    (borrowed : ∀ borrow ∈ inputs.borrowed, law.Admits machine.store.scopes.size borrow.2) :
    (machine.start inputs).Abides machine.program machine.natives machine.limits law := by
  have rooted : machine.store.root.2.Abides law := stored.add (by simp) (by simp)
  have grows : machine.store.scopes.size ≤ machine.store.root.2.scopes.size := by simp [Store.root]
  have natives : ∀ binding ∈ machine.natives.values, law.Admits machine.store.root.2.scopes.size binding.2 :=
    Value.every_values fun index known _ is => by cases is; exact law.native _ index known
  have bound : (outermostStore machine.natives inputs machine.store).Abides law :=
    rooted.rebinds _ fun binding among => (List.mem_append.mp among).elim (natives binding)
      fun among => (streams binding among).later grows
  have size := size_outermostStore machine.natives inputs machine.store
  refine
    { program := by rw [start_eq]
      natives := rfl
      limits := rfl
      root := ⟨inside, ?_⟩
      borrowed := fun borrow among => ?_
      store := bound.nest (by simp) ⟨inside, fun _ => by rw [size]; exact Nat.lt_succ_self _⟩
      frames := fun frame among => ?_ }
  · rw [size_start]
    exact Nat.lt_add_of_pos_right Nat.two_pos
  · rw [size_start]
    exact (borrowed borrow (List.mem_reverse.mp among)).later (Nat.le_add_right _ 2)
  · rw [start_frames] at among
    rw [List.mem_singleton.mp among, size_start]
    exact ⟨⟨Nat.le_succ_of_le inside, fun _ => Nat.lt_succ_self _⟩, by simp [Frame.start]⟩

/-! ### Other deeds -/

@[simp]
theorem frames_setTop (machine : Machine) (frame : Frame) :
    (machine.setTop frame).frames = frame :: machine.frames.tail := by
  simp [setTop, Machine.frames]

section

variable {program : Program} {natives : Natives} {limits : Limits} {law : Law program.tree natives}
  (abides : machine.Abides program natives limits law)

include abides

theorem finishWith_abides (value : Value) : (machine.finishWith value).Abides program natives limits law :=
  ⟨abides.program, abides.natives, abides.limits, abides.root, abides.borrowed, abides.store,
    fun _ among => absurd among List.not_mem_nil⟩

theorem heed_abides (request : Option Bool) : (machine.heed request).Abides program natives limits law := by
  cases request with
  | none => exact abides
  | some paused =>
    exact ⟨abides.program, abides.natives, abides.limits, abides.root, abides.borrowed, abides.store, abides.frames⟩

theorem completeFrames_abides : machine.completeFrames.Abides program natives limits law := by
  cases active : machine.frames with
  | nil =>
    have same : machine.completeFrames = machine := by
      unfold completeFrames
      rw [active]
    rwa [same]
  | cons frame rest =>
    have frames := abides.frames
    rw [active] at frames
    rcases completeFrames_cases active with ⟨left, settles, is⟩ | ⟨value, is, -⟩
    · rw [is]
      exact ⟨abides.program, abides.natives, abides.limits, abides.root, abides.borrowed, abides.store,
        settles.keeps (fun frame other value here there holds => here.push (there.values value holds)) frames⟩
    · rw [is]
      exact finishWith_abides abides value

omit abides in
/-- What pushing a value keeps, completing frames keeps. -/
theorem completeFrames_keeps {property : Frame → Prop} {machine : Machine}
    (pushed : ∀ frame value, property frame → property (frame.push value))
    (each : ∀ frame ∈ machine.frames, property frame) : ∀ frame ∈ machine.completeFrames.frames, property frame := by
  cases active : machine.frames with
  | nil =>
    have same : machine.completeFrames = machine := by
      unfold completeFrames
      rw [active]
    rwa [same]
  | cons frame rest =>
    rw [active] at each
    rcases completeFrames_cases active with ⟨left, settles, is⟩ | ⟨value, is, -⟩
    · rw [is]
      exact settles.keeps (fun frame _ value here _ _ => pushed frame value here) each
    · rw [is]
      exact fun _ among => absurd among List.not_mem_nil

theorem jump_abides (distance : Int) : (machine.jump distance).1.Abides program natives limits law := by
  unfold jump
  split
  · exact abides
  · rename_i frame rest active
    split
    · rename_i moved jumped
      have there := abides.frames frame (by simp [active])
      have frames := abides.frames
      rw [active] at frames
      have here : AbidesIn law machine.store.scopes.size moved := by
        unfold Frame.jump at jumped
        dsimp only at jumped
        split at jumped
        · cases jumped
          exact ⟨there.inside, there.values⟩
        · simp at jumped
      refine ⟨abides.program, abides.natives, abides.limits, abides.root, abides.borrowed, abides.store, ?_⟩
      intro other among
      rw [frames_setTop, active] at among
      rcases List.mem_cons.mp among with rfl | below
      · exact here
      · exact frames other (List.mem_cons_of_mem _ below)
    · exact abides

theorem runAmid_abides (requests : Nat → Option Bool) (limit : Nat) :
    (machine.runAmid requests limit).1.Abides program natives limits law := by
  have kept : KeptByRuns (Abides program natives limits law) (Abides program natives limits law) :=
    { heed := fun _ request abides => heed_abides abides request
      step := fun machine _ abides => by
        have after := step_abides abides
        generalize machine.step = ended at after
        obtain ⟨second, outcome⟩ := ended
        cases outcome <;> exact after
      exhaust := fun _ value _ _ abides => finishWith_abides abides value
      idle := fun _ _ _ abides => abides }
  have after := runAmid_keeps kept requests limit abides
  generalize machine.runAmid requests limit = ended at after
  obtain ⟨last, outcome⟩ := ended
  cases outcome <;> exact after

/-- What a run comes to is admitted. -/
theorem run_admits (admits : machine.AdmitsResult law) (limit : Nat) : (machine.run limit).1.AdmitsResult law := by
  have kept : KeptByRuns (fun machine => machine.Abides program natives limits law ∧ machine.AdmitsResult law)
      (AdmitsResult law) :=
    { heed := fun machine request ⟨abides, admits⟩ => ⟨heed_abides abides request, by cases request <;> exact admits⟩
      step := fun machine _ ⟨abides, admits⟩ => by
        have after := step_abides abides
        have admits := step_admits abides admits
        generalize machine.step = ended at after admits
        obtain ⟨second, outcome⟩ := ended
        cases outcome with
        | error fault => exact admits
        | ok outcome => exact ⟨after, admits⟩
      exhaust := fun _ value exception _ ⟨abides, _⟩ =>
        ⟨finishWith_abides abides value, by rintro _ ⟨⟩; exact Law.admits_exception exception⟩
      idle := fun _ _ _ holds => holds.2 }
  have after := runAmid_keeps kept (fun _ => none) limit ⟨abides, admits⟩
  rw [runAmid_nothing] at after
  generalize machine.run limit = ended at after
  obtain ⟨last, outcome⟩ := ended
  cases outcome with
  | error fault => exact after
  | ok outcome => exact after.2

omit abides in
/-- A run that ends with a value has it for its result. -/
theorem result_of_run {limit : Nat} {last : Machine} {value : Value}
    (ran : machine.run limit = (last, .ok (.finished value))) : last.result = some value := by
  have stopped {machine : Machine} (stops : machine.stop? = some (.finished value)) : machine.result = some value := by
    unfold stop? at stops
    split at stops
    · rename_i found is
      cases stops
      exact is
    · split at stops <;> cases stops
  induction limit generalizing machine with
  | zero =>
    unfold run at ran
    split at ran
    · rename_i outcome stops
      cases ran
      exact stopped stops
    · unfold exhaust at ran
      split at ran
      · cases ran
      · cases ran
        rfl
  | succ limit hypothesis =>
    unfold run at ran
    split at ran
    · rename_i outcome stops
      cases ran
      exact stopped stops
    · split at ran
      · cases ran
      · exact hypothesis ran

/-- A machine whose last result, if it has no frames, is dropped for a call. -/
def dropResult {N : Type} [DecidableEq N] [Naming N] (machine : Machine N) : Machine N :=
  if machine.frames.isEmpty then { machine with result := none } else machine

/-- The call of a function, once the last result has been dropped. -/
def enterCall {N : Type} [DecidableEq N] [Naming N] (machine : Machine N) (function : Function N)
    (arguments : List (Value N)) (origin : NodeId) : Machine N × Except Fault Unit :=
  match machine.startCall function arguments origin with
  | (machine, .error fault) => (machine, .error fault)
  | (machine, .ok (.throw exception)) => ((machine.finishWith exception).completeFrames, .ok ())
  | (machine, .ok (.start frame)) => ({ machine with stack := machine.stack.push frame }.completeFrames, .ok ())
  | (machine, .ok _) => (machine.completeFrames, .ok ())

omit abides in
theorem call_eq {N : Type} [DecidableEq N] [Naming N] (machine : Machine N) (function : Function N)
    (arguments : List (Value N)) (origin : NodeId) :
    machine.call function arguments origin = machine.dropResult.enterCall function arguments origin :=
  rfl

theorem enterCall_abides {function : Function} (allowed : law.allows machine.store.scopes.size function)
    {arguments : List Value} (admits : ∀ argument ∈ arguments, law.Admits machine.store.scopes.size argument)
    (origin : NodeId) : (machine.enterCall function arguments origin).1.Abides program natives limits law := by
  obtain ⟨rfl, rfl, rfl, -⟩ := id abides
  have inside := Nat.le_of_lt (Nat.lt_of_le_of_lt abides.root.1 abides.root.2)
  obtain ⟨store', outcome, started, calls⟩ := startCall_calls abides.store abides.root allowed admits origin
  have grows := (calls.evolves machine.root).size
  have after : Abides machine.program machine.natives machine.limits law { machine with store := store' } :=
    ⟨rfl, rfl, rfl, ⟨abides.root.1, Nat.lt_of_lt_of_le abides.root.2 grows⟩,
      fun borrow among => (abides.borrowed borrow among).later grows, calls.abides,
      fun frame among => (abides.frames frame among).grown grows⟩
  unfold enterCall
  rw [started]
  rcases calls.opens with ⟨fault, rfl⟩ | ⟨exception, rfl, -⟩ | ⟨above, rfl, opened, grows'⟩
  · exact after
  · exact completeFrames_abides (finishWith_abides after exception)
  · have pushed : Abides machine.program machine.natives machine.limits law
        { machine with store := store', stack := machine.stack.push above } := by
      refine ⟨after.program, after.natives, after.limits, after.root, after.borrowed, after.store, ?_⟩
      intro frame among
      rcases List.mem_cons.mp among with rfl | below
      · refine ⟨?_, by simp [opened.values]⟩
        rw [opened.scope]
        exact ⟨inside, fun _ => grows'⟩
      · exact after.frames frame below
    exact completeFrames_abides pushed

theorem dropResult_abides : machine.dropResult.Abides program natives limits law := by
  unfold dropResult
  split
  · exact ⟨abides.program, abides.natives, abides.limits, abides.root, abides.borrowed, abides.store, abides.frames⟩
  · exact abides

omit abides in
@[simp]
theorem store_dropResult (machine : Machine) : machine.dropResult.store = machine.store := by
  unfold dropResult
  split <;> rfl

omit abides in
@[simp]
theorem frames_dropResult (machine : Machine) : machine.dropResult.frames = machine.frames := by
  unfold dropResult
  split <;> rfl

theorem call_abides {function : Function} (allowed : law.allows machine.store.scopes.size function)
    {arguments : List Value} (admits : ∀ argument ∈ arguments, law.Admits machine.store.scopes.size argument)
    (origin : NodeId) : (machine.call function arguments origin).1.Abides program natives limits law := by
  rw [call_eq]
  exact enterCall_abides (dropResult_abides abides) (by simpa using allowed) (by simpa using admits) origin

/-- Whatever a host does with a machine, the machine abides by the law afterwards. -/
theorem perform_abides {deed : Deed} (supplies : deed.Supplies law machine.store.scopes.size) :
    (machine.perform deed).1.Abides program natives limits law := by
  obtain ⟨rfl, rfl, rfl, -⟩ := id abides
  cases deed with
  | start inputs =>
    have inside := Nat.le_of_lt (Nat.lt_of_le_of_lt abides.root.1 abides.root.2)
    exact start_abides abides.store inside supplies.1 supplies.2
  | step => exact step_abides abides
  | run limit requests => exact runAmid_abides abides requests limit
  | call function arguments origin => exact call_abides abides supplies.1 supplies.2 origin
  | jump distance => exact jump_abides abides distance
  | pause => exact heed_abides abides (some true)
  | resume => exact heed_abides abides (some false)
  | observe pauseAfter =>
    exact ⟨abides.program, abides.natives, abides.limits, abides.root, abides.borrowed, abides.store, abides.frames⟩
  | ignore id =>
    exact ⟨abides.program, abides.natives, abides.limits, abides.root, abides.borrowed, abides.store, abides.frames⟩

/-- Whatever a host does with a machine, one thing after the other. -/
theorem after_abides {deeds : List Deed} (supplied : machine.IsSupplied law deeds) :
    (machine.after deeds).Abides program natives limits law := by
  induction deeds generalizing machine with
  | nil => exact abides
  | cons deed deeds hypothesis => exact hypothesis (perform_abides abides supplied.1) supplied.2

end

/-- A new machine abides by a law if the scopes from before it do. -/
theorem create_abides {program : Program} {natives : Natives} {law : Law program.tree natives} {store : Store}
    (stored : store.Abides law) (inside : law.base ≤ store.scopes.size) (limits : Limits) :
    (create program natives limits store).Abides program natives limits law where
  program := rfl
  natives := rfl
  limits := rfl
  root := ⟨inside, by simp [create, Store.root]⟩
  borrowed _ among := absurd among List.not_mem_nil
  store := stored.add (by simp) (by simp)
  frames _ among := absurd among List.not_mem_nil

theorem isSupplied_free {tree : Tree} {natives : Natives} (machine : Machine) (deeds : List Deed) :
    machine.IsSupplied (.free tree natives) deeds := by
  induction deeds generalizing machine with
  | nil => trivial
  | cons deed deeds hypothesis =>
    refine ⟨?_, hypothesis _⟩
    cases deed with
    | start inputs => exact ⟨fun _ _ => Law.free_admits _ _ _ _, fun _ _ => Law.free_admits _ _ _ _⟩
    | call function arguments origin => exact ⟨trivial, fun _ _ => Law.free_admits _ _ _ _⟩
    | _ => trivial

end Machine

end Rivulet
