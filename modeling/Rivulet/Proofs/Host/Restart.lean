import Rivulet.Proofs.Host.Faultless
import Rivulet.Proofs.Host.Slices
import Rivulet.Proofs.Machine.Insertion
import Rivulet.Proofs.Machine.Older

/-!
Starting again. An evaluation depends on the tree, the limits and its inputs, and not on what the machine did before:
it makes its own scopes behind all that are there, it reaches older ones only through its inputs, and nothing else is
left. So a machine with a past and a new one come to the same (`start_again_forgets`), up to where the scopes are
kept that functions captured (`Corresponds`).
-/

namespace Rivulet

open Meaning

/-! ### Closed stores -/

/-- Inputs whose functions captured none but the first so many scopes. -/
def Inputs.AreWithin (count : Nat) (inputs : Inputs) : Prop :=
  ∀ binding ∈ inputs.streams ++ inputs.borrowed, binding.2.IsWithin count

/-- A store whose scopes lie inside older ones, and in which functions captured scopes of the store. -/
structure Store.IsClosed (store : Store) : Prop where
  captured : store.Holds 0 (Value.IsWithin store.scopes.size)
  nested : store.Nested

/-- The law that captured scopes exist. -/
def Law.existing (tree : Tree) {natives : Natives} (makeNone : natives.MakeNoFunctions) : Law tree natives where
  base := 0
  strict := True
  allows count function := ∀ scope, function.context = some scope → scope < count
  later grows allowed scope is := Nat.lt_of_lt_of_le (allowed scope is) grows
  context allowed is := ⟨Nat.zero_le _, fun _ => allowed _ is⟩
  renamed _ allowed := allowed
  native _ _ _ := nofun
  closure _ _ _ within := by rintro _ ⟨⟩; exact within
  applied := makeNone.only

theorem Store.isClosed_iff_abides {store : Store} (tree : Tree) {natives : Natives}
    (makeNone : natives.MakeNoFunctions) : store.IsClosed ↔ store.Abides (Law.existing tree makeNone) :=
  ⟨fun closed => ⟨closed.captured, fun _ => closed.nested⟩, fun abides => ⟨abides.holds, abides.nested trivial⟩⟩

theorem Store.isClosed_empty : Store.empty.IsClosed :=
  ⟨holds_of_size_le (Nat.le_refl 0), by simp [Nested, Store.parent?, Store.empty]⟩

/-- The scopes of a store that follow those of another one are inserted behind these. -/
def Insertion.behind (first store : Store) : Insertion where
  toRenaming := .refl
  base := first.scopes.size
  host := first.scopes.toList ++ store.scopes.toList.drop first.scopes.size
  spot id := id
  inside id before := by
    rw [List.length_append, Array.length_toList]
    exact Nat.lt_add_right _ before
  apart _ _ _ _ same := same

section

variable {first store : Store} {value : Value}

theorem place_behind {id : Nat} (older : id < first.scopes.size) : (Insertion.behind first store).place id = id :=
  Insertion.place_of_lt older

/-- The scopes of a closed store stay as they are. -/
theorem relocatedScope_behind (closed : first.IsClosed) {scope : Scope} (among : scope ∈ first.scopes.toList) :
    scope.relocated (Insertion.behind first store).relocation = scope := by
  obtain ⟨id, there⟩ := List.mem_iff_getElem?.mp among
  rw [Array.getElem?_toList] at there
  have bindings := Value.relocatedBindings_of_isWithin (closed.captured id scope (Nat.zero_le _) there).bindings
    fun _ => @place_behind first store _
  have parent : scope.parent.map (Insertion.behind first store).place = scope.parent := by
    cases around : scope.parent with
    | none => rfl
    | some outer =>
      have older : outer < id := closed.nested id outer (by simp [Store.parent?, there, around])
      exact congrArg some (place_behind (Nat.lt_trans older (Store.lt_size_of_getElem? there)))
  exact (Scope.mk.injEq ..).mpr ⟨bindings, parent⟩

/-- A closed store with the scopes behind it. -/
theorem store_behind (closed : first.IsClosed) (continues : first.Continues store) :
    (Insertion.behind first store).store first = store := by
  have host : (Insertion.behind first store).host = store.scopes.toList := by
    unfold Insertion.behind
    dsimp only
    rw [← continues.take_eq, List.take_append_drop]
  refine (Insertion.eq_store (Nat.le_refl _) ?_ (fun id => ?_) fun index _ _ => by rw [host, Array.getElem?_toList]).symm
  · rw [host, Array.length_toList, Insertion.behind, Nat.sub_self, Nat.add_zero]
  · by_cases older : id < first.scopes.size
    · have there := Array.getElem?_eq_getElem older
      rw [place_behind older, continues.kept id older, there, Option.map_some,
        relocatedScope_behind closed (Array.getElem_mem_toList older)]
    · have later := Nat.not_lt.mp older
      rw [Insertion.place_of_le later, host, Array.getElem?_eq_none (by simp), Array.getElem?_eq_none later]
      rfl

end

/-! ### Runs among other scopes -/

/-- What a run came to, with all scopes at other places, and all names others. -/
def Machine.RunOutcome.relocated {M : Type} [Naming M] (relocation : Relocation M) :
    Machine.RunOutcome → Machine.RunOutcome M
  | .finished value => .finished (value.relocated relocation)
  | .suspended => .suspended

/-- None of the first single steps from a machine on returns a fault. -/
def Machine.StepsFreelyFor (machine : Machine) (count : Nat) : Prop :=
  ∀ earlier < count, ∃ outcome, (machine.stepped earlier).step.2 = .ok outcome

namespace Insertion

open Machine

variable {M : Type} [DecidableEq M] [Naming M] {insertion : Insertion M} {machine : Machine}

theorem stop?_machine (machine : Machine) :
    (insertion.machine machine).stop? = machine.stop?.map (RunOutcome.relocated insertion.relocation) := by
  unfold stop?
  rw [show (insertion.machine machine).result = machine.result.map (Value.relocated insertion.relocation) from rfl,
    show (insertion.machine machine).paused = machine.paused from rfl]
  cases machine.result with
  | some value => rfl
  | none => cases machine.paused <;> rfl

theorem exhaust_machine (unobserved : machine.observers = []) :
    (insertion.machine machine).exhaust =
      (insertion.machine machine.exhaust.1, machine.exhaust.2.map (RunOutcome.relocated insertion.relocation)) := by
  have finished := @finishWith_machine _ _ _ insertion machine unobserved (.failed .stepLimit machine.tree.root)
  unfold exhaust
  rw [show (insertion.machine machine).frames = machine.frames.map (Frame.relocated insertion.relocation) from rfl,
    tree_machine]
  cases machine.frames with
  | nil => rfl
  | cons frame rest =>
    exact Prod.ext finished rfl

/-- What it takes for all steps of an evaluation to do the same among other scopes: none of them writes to those in
front of the inserted ones. -/
structure Fits (insertion : Insertion M) {program : Program} {natives : Natives} (law : Law program.tree natives)
    (limits : Limits) (first : Store) (machine : Machine) : Prop where
  quiet : natives.BindNothing
  satisfies : machine.Satisfies program natives limits (older law limits first quiet)
  base : insertion.base ≤ first.scopes.size
  ascends : insertion.Ascends first
  reads : program.tree.Reads insertion.name
  strict : law.strict
  standard : natives = .standard
  unobserved : machine.observers = []

section

variable {program : Program} {natives : Natives} {law : Law program.tree natives} {limits : Limits} {first : Store}

omit [DecidableEq M] in
theorem Fits.suits (fits : insertion.Fits law limits first machine) : insertion.Suits machine where
  within := Nat.le_trans fits.base fits.satisfies.scopes.size
  ascends := by
    refine ⟨fits.satisfies.abides.store.nested fits.strict, fun id before outer around => ?_⟩
    have kept := fits.satisfies.scopes.kept id (Nat.lt_of_lt_of_le before fits.base)
    refine fits.ascends.ascends id before outer ?_
    rw [← around]
    unfold Store.parent?
    rw [kept]
  reads := by
    show machine.program.tree.Reads insertion.name
    rw [fits.satisfies.abides.program]
    exact fits.reads
  standard := fits.satisfies.abides.natives.trans fits.standard
  unobserved := fits.unobserved

omit [DecidableEq M] in
theorem Fits.step (fits : insertion.Fits law limits first machine) {second : Machine} {outcome : StepOutcome}
    (stepped : machine.step = (second, .ok outcome)) : insertion.Fits law limits first second where
  quiet := fits.quiet
  satisfies := step_satisfies fits.satisfies stepped
  base := fits.base
  ascends := fits.ascends
  reads := fits.reads
  strict := fits.strict
  standard := fits.standard
  unobserved := by
    have kept := keptBeside_unobserved.step fits.unobserved
    rwa [stepped] at kept

/-- A run does the same among other scopes. -/
theorem run_machine (fits : insertion.Fits law limits first machine) (limit : Nat) :
    (insertion.machine machine).run limit =
      (insertion.machine (machine.run limit).1,
        (machine.run limit).2.map (RunOutcome.relocated insertion.relocation)) := by
  induction limit generalizing machine with
  | zero =>
    unfold run
    rw [stop?_machine]
    cases machine.stop? with
    | some outcome => rfl
    | none => exact exhaust_machine fits.unobserved
  | succ limit hypothesis =>
    unfold run
    rw [stop?_machine, step_machine fits.suits]
    cases machine.stop? with
    | some outcome => rfl
    | none =>
      cases stepped : machine.step with
      | mk second outcome =>
        cases outcome with
        | error fault => rfl
        | ok outcome => exact hypothesis (fits.step stepped)

end

section

variable {insertion : Insertion} {program : Program} {natives : Natives} {law : Law program.tree natives}
  {limits : Limits}
  {first : Store}

/-- Single steps do the same among other scopes, up to the first one that returns a fault. -/
theorem stepped_machine (fits : insertion.Fits law limits first machine) {count : Nat}
    (free : machine.StepsFreelyFor count) :
    (insertion.machine machine).stepped count = insertion.machine (machine.stepped count) ∧
      insertion.Fits law limits first (machine.stepped count) := by
  induction count with
  | zero => exact ⟨rfl, fits⟩
  | succ count hypothesis =>
    obtain ⟨same, fits⟩ := hypothesis fun earlier few => free earlier (Nat.lt_succ_of_lt few)
    obtain ⟨outcome, regular⟩ := free count (Nat.lt_succ_self count)
    unfold stepped
    rw [same, step_machine fits.suits]
    exact ⟨rfl, fits.step (Prod.ext rfl regular)⟩

theorem stepsFreelyFor_machine (fits : insertion.Fits law limits first machine) {count : Nat}
    (free : (insertion.machine machine).StepsFreelyFor count) : machine.StepsFreelyFor count := by
  intro earlier few
  induction earlier using Nat.strongRecOn with
  | ind earlier hypothesis =>
    obtain ⟨same, fits⟩ := stepped_machine fits fun before fewer => hypothesis before fewer (Nat.lt_trans fewer few)
    obtain ⟨outcome, regular⟩ := free earlier few
    rw [same, step_machine fits.suits] at regular
    cases ended : (machine.stepped earlier).step.2 with
    | error fault =>
      rw [ended] at regular
      cases regular
    | ok outcome => exact ⟨outcome, rfl⟩

end

end Insertion

namespace Machine

/-! ### Runs behind a veil -/

namespace Veil

variable {veil : Veil} {first second : Machine}

theorem Same.stepped (same : veil.Same first second) (count : Nat) :
    veil.Same (first.stepped count) (second.stepped count) := by
  induction count with
  | zero => exact same
  | succ count hypothesis => exact hypothesis.step.1

/-- If one of two machines that look the same is quiet, they do the same in a run, unless the other one is asked to
pause: then it has come as far as some steps of the quiet one. -/
theorem Same.run (same : veil.Same first second) (quiet : second.IsQuiet) (limit : Nat) :
    (veil.Same (first.run limit).1 (second.run limit).1 ∧ (first.run limit).2 = (second.run limit).2) ∨
      ((first.run limit).2 = .ok .suspended ∧
        ∃ count, second.StepsFreelyFor count ∧ veil.Same (first.run limit).1 (second.stepped count)) := by
  induction limit generalizing first second with
  | zero =>
    unfold Machine.run stop?
    rw [same.result, quiet.calm]
    cases second.result with
    | some value => exact .inl ⟨same, rfl⟩
    | none =>
      cases first.paused with
      | true => exact .inr ⟨rfl, 0, fun _ few => absurd few (Nat.not_lt_zero _), same⟩
      | false =>
        simp only [Bool.false_eq_true, if_false]
        exact .inl same.exhaust
  | succ limit hypothesis =>
    obtain ⟨looks, equal⟩ := same.step
    have quiet' := quiet.step
    unfold Machine.run stop?
    rw [same.result, quiet.calm]
    cases second.result with
    | some value => exact .inl ⟨same, rfl⟩
    | none =>
      cases first.paused with
      | true => exact .inr ⟨rfl, 0, fun _ few => absurd few (Nat.not_lt_zero _), same⟩
      | false =>
        simp only [Bool.false_eq_true, if_false]
        cases stepped : first.step with
        | mk first' outcome =>
          cases stepped' : second.step with
          | mk second' outcome' =>
            rw [stepped, stepped'] at looks equal
            rw [stepped'] at quiet'
            cases equal
            cases outcome with
            | error fault => exact .inl ⟨looks, rfl⟩
            | ok outcome =>
              rcases hypothesis looks quiet' with ran | ⟨suspended, count, free, ran⟩
              · exact .inl ran
              · refine .inr ⟨suspended, count + 1, fun earlier few => ?_, ?_⟩
                · cases earlier with
                  | zero => exact ⟨outcome, congrArg Prod.snd stepped'⟩
                  | succ earlier =>
                    rw [stepped_succ, stepped']
                    exact free earlier (Nat.lt_of_succ_lt_succ few)
                · rwa [stepped_succ, stepped']

end Veil

/-! ### Starts -/

/-- What starts an evaluation leaves all scopes alone that are there. -/
theorem start_continues (machine : Machine) (inputs : Inputs) :
    machine.store.Continues (machine.start inputs).store := by
  have rooted : machine.store.Continues machine.store.root.2 :=
    (Store.Continues.refl _).written (by simp [Store.root]) (Store.keeps_add machine.store ⟨[], none⟩).others
      (Nat.le_refl _)
  have bound := @Store.evolves_rebinds True machine.store.root.2 machine.store.scopes.size
    (machine.natives.values ++ inputs.streams)
  have whole := bound.trans (Store.evolves_add machine.store.scopes.size _ [] machine.store.scopes.size)
  exact rooted.written whole.size (whole.others trivial) (Nat.le_refl _)

/-- An evaluation that has just been started leaves the scopes from before it alone. -/
theorem start_older {machine : Machine} {inputs : Inputs} {law : Law machine.program.tree machine.natives}
    (quiet : machine.natives.BindNothing)
    (abides : (machine.start inputs).Abides machine.program machine.natives machine.limits law) :
    (machine.start inputs).Satisfies machine.program machine.natives machine.limits
      (older law machine.limits machine.store quiet) := by
  refine ⟨abides, start_continues machine inputs, fun frame among => ?_⟩
  rw [start_frames] at among
  rw [List.mem_singleton.mp among]
  exact ⟨isSequence_code machine.tree machine.natives machine.tree.root, 0, rfl, Nat.not_lt.mpr (Nat.le_succ _)⟩

/-- What an evaluation keeps about the scopes, a run of it keeps, whatever comes of it. -/
theorem run_scopes {program : Program} {natives : Natives} {limits : Limits} {law : Law program.tree natives}
    {invariant : Invariant law limits} {machine : Machine}
    (satisfies : machine.Satisfies program natives limits invariant) (limit : Nat) :
    invariant.scopes (machine.run limit).1.store := by
  have kept : KeptByRuns (Satisfies program natives limits invariant) fun machine => invariant.scopes machine.store :=
    { heed := fun machine request satisfies => by
        have abides := heed_abides satisfies.abides request
        cases request <;> exact ⟨abides, satisfies.scopes, satisfies.frames⟩
      step := fun machine _ satisfies => by
        have after := step_scopes satisfies
        cases stepped : machine.step with
        | mk second outcome =>
          rw [stepped] at after
          cases outcome with
          | error fault => exact after
          | ok outcome => exact step_satisfies satisfies stepped
      exhaust := fun _ value _ _ satisfies =>
        ⟨finishWith_abides satisfies.abides value, satisfies.scopes, fun _ among => absurd among List.not_mem_nil⟩
      idle := fun _ _ _ satisfies => satisfies.scopes }
  have ended := runAmid_keeps kept (fun _ => none) limit satisfies
  rw [runAmid_nothing] at ended
  generalize machine.run limit = last at ended
  obtain ⟨machine, outcome⟩ := last
  cases outcome with
  | error fault => exact ended
  | ok outcome => exact ended.scopes

/-- An evaluation whose natives bind no names leaves all scopes alone that were there when it was started. -/
theorem run_continues (machine : Machine) (quiet : machine.natives.BindNothing) (inputs : Inputs) (limit : Nat) :
    machine.store.Continues ((machine.start inputs).run limit).1.store :=
  run_scopes (start_older quiet (start_abides (Store.abides_free _ machine.program.tree machine.natives) (Nat.zero_le _)
    (fun _ _ => Law.free_admits _ _ _ _) (fun _ _ => Law.free_admits _ _ _ _))) limit

/-- The beginning of an evaluation that nobody observes, with some scopes and no others. -/
def beginning (program : Program) (natives : Natives) (limits : Limits) (store : Store) (inputs : Inputs) : Machine :=
  Veil.alone.on ({ create program natives limits store with store }.start inputs)

section

variable {common : Store} {inputs : Inputs} (closed : common.IsClosed) (within : inputs.AreWithin common.scopes.size)

include closed within

theorem beginning_older {program : Program} {natives : Natives} {limits : Limits} (quiet : natives.BindNothing)
    (makeNone : natives.MakeNoFunctions) :
    (beginning program natives limits common inputs).Satisfies program natives limits
      (older (.existing program.tree makeNone) limits common quiet) := by
  let machine : Machine := { create program natives limits common with store := common }
  have abides : (machine.start inputs).Abides program natives limits (.existing program.tree makeNone) :=
    @start_abides machine (.existing program.tree makeNone) ((Store.isClosed_iff_abides _ _).mp closed) (Nat.zero_le _)
      inputs (fun stream among => within stream (List.mem_append_left _ among))
      (fun borrow among => within borrow (List.mem_append_right _ among))
  obtain ⟨abides, scopes, frames⟩ := @start_older machine inputs _ quiet abides
  exact ⟨⟨abides.program, abides.natives, abides.limits, abides.root, abides.borrowed, abides.store, abides.frames⟩,
    scopes, frames⟩

/-- Every start is such a beginning, among the scopes that are there already. -/
theorem start_same {machine : Machine} (standard : machine.natives = .standard)
    (continues : common.Continues machine.store) :
    Veil.alone.Same (machine.start inputs) ((Insertion.behind common machine.store).machine
      (beginning machine.program machine.natives machine.limits common inputs)) := by
  have still : inputs.relocated (Insertion.behind common machine.store).relocation = inputs := by
    have streams := Value.relocatedBindings_of_isWithin
      (fun binding among => within binding (List.mem_append_left inputs.borrowed among))
      fun _ => @place_behind common machine.store _
    have borrowed := Value.relocatedBindings_of_isWithin
      (fun binding among => within binding (List.mem_append_right inputs.streams among))
      fun _ => @place_behind common machine.store _
    exact (Inputs.mk.injEq ..).mpr ⟨streams, borrowed, Option.map_id'⟩
  have started := @Insertion.start_machine _ _ _ (.behind common machine.store)
    { create machine.program machine.natives machine.limits common with store := common } (Nat.le_refl _) standard
    inputs
  have there : (Insertion.behind common machine.store).store common = machine.store := store_behind closed continues
  have program : Program.ofTree (machine.program.tree.renamed id) = machine.program :=
    Program.eq_of_tree_eq (Tree.renamed_id _)
  have twin : (Insertion.behind common machine.store).machine
      { create machine.program machine.natives machine.limits common with store := common } =
        { create machine.program machine.natives machine.limits common with
          store := machine.store
          root := (Insertion.behind common machine.store).place
            (create machine.program machine.natives machine.limits common).root } := by
    show ({ create (.ofTree (machine.program.tree.renamed id)) .standard machine.limits common with
      store := (Insertion.behind common machine.store).store common
      root := _ } : Machine) = _
    rw [program, there, standard]
  rw [still] at started
  show Veil.alone.on (machine.start inputs) = Veil.alone.on ((Insertion.behind common machine.store).machine
    (Machine.start { create machine.program machine.natives machine.limits common with store := common } inputs))
  rw [← started, twin]
  rfl

end

/-! ### Starting again -/

/-- What a run came to, and with which machine, if all scopes of another one are kept at other places. -/
structure Moved (relocation : Relocation) (ended ended' : Machine × Except Fault RunOutcome) : Prop where
  outcome : ended'.2 = ended.2.map (RunOutcome.relocated relocation)
  taken : ended'.1.stepsTaken = ended.1.stepsTaken
  result : ended'.1.result = ended.1.result.map (Value.relocated relocation)
  frames : ended'.1.frames = ended.1.frames.map (Frame.relocated relocation)
  scopes : ∀ id, ended'.1.store.scopes[relocation.place id]? =
    (ended.1.store.scopes[id]?).map (Scope.relocated relocation)

/-- Whether two runs came to the same, up to where scopes behind some are kept. -/
def Corresponds (base : Nat) (first second : Machine × Except Fault RunOutcome) : Prop :=
  ∃ (ended : Machine × Except Fault RunOutcome) (place place' : Nat → Nat),
    place.Injective ∧ place'.Injective ∧ (∀ id < base, place id = id ∧ place' id = id) ∧
      Moved (.places place) ended first ∧ Moved (.places place') ended second

theorem moved_of_same {insertion : Insertion} {ended ended' : Machine × Except Fault RunOutcome}
    (within : insertion.base ≤ ended.1.store.scopes.size)
    (same : Veil.alone.Same ended'.1 (insertion.machine ended.1))
    (equal : ended'.2 = ended.2.map (RunOutcome.relocated insertion.relocation)) :
    Moved insertion.relocation ended ended' where
  outcome := equal
  taken := same.stepsTaken
  result := same.result
  frames := same.frames
  scopes id := by
    rw [same.store]
    exact Insertion.getElem?_place within id

theorem corresponds_of_moved {common store store' : Store} {ended first second : Machine × Except Fault RunOutcome}
    (moved : Moved (Insertion.behind common store).relocation ended first)
    (moved' : Moved (Insertion.behind common store').relocation ended second) :
    Corresponds common.scopes.size first second :=
  ⟨ended, _, _, Insertion.place_injective _, Insertion.place_injective _,
    fun _ older => ⟨place_behind older, place_behind older⟩, moved, moved'⟩

section

variable {machine first : Machine} {common : Store} {inputs : Inputs} (standard : machine.natives = .standard)
  (closed : common.IsClosed) (within : inputs.AreWithin common.scopes.size)
  (continues : common.Continues machine.store)
  (begins : first = beginning machine.program machine.natives machine.limits common inputs)

include standard closed within begins

theorem beginning_fits :
    (Insertion.behind common machine.store).Fits
      (.existing machine.program.tree (standard ▸ Natives.standard_makeNoFunctions)) machine.limits common first := by
  subst begins
  have quiet : machine.natives.BindNothing := standard ▸ Natives.standard_bindNothing
  exact ⟨quiet, beginning_older closed within quiet _, Nat.le_refl _, ⟨closed.nested, fun id _ outer => closed.nested id outer⟩,
    Tree.reads_id _, trivial, standard, rfl⟩

include continues

/-- A run from a start on does what one from the beginning does, unless it is suspended: then it has come as far as
some single steps. -/
theorem run_moved (limit : Nat) :
    (((machine.start inputs).run limit).2 ≠ .ok .suspended →
      Moved (Insertion.behind common machine.store).relocation (first.run limit) ((machine.start inputs).run limit)) ∧
    (((machine.start inputs).run limit).2 = .ok .suspended → ∃ count, first.StepsFreelyFor count ∧
      Moved (Insertion.behind common machine.store).relocation (first.stepped count, .ok .suspended)
        ((machine.start inputs).run limit)) := by
  have fits := beginning_fits standard closed within begins
  have same := start_same closed within standard continues
  rw [← begins] at same
  have quiet : ((Insertion.behind common machine.store).machine first).IsQuiet := by
    subst begins
    exact isQuiet_of_unobserved rfl rfl
  rcases same.run quiet limit with ⟨same, equal⟩ | ⟨suspended, count, free, same⟩
  · have ran := Insertion.run_machine fits limit
    rw [ran] at same equal
    have inside : common.Continues (first.run limit).1.store := run_scopes fits.satisfies limit
    have moved := moved_of_same inside.size same equal
    refine ⟨fun _ => moved, fun suspended => ?_⟩
    -- Nothing suspends the run of a machine that is not observed.
    have never := (quiet.run limit).2
    rw [ran] at never
    exact absurd (equal.symm.trans suspended) never
  · refine ⟨fun regular => absurd suspended regular, fun _ => ?_⟩
    have free := Insertion.stepsFreelyFor_machine fits free
    obtain ⟨stepped, fits⟩ := Insertion.stepped_machine fits free
    rw [stepped] at same
    exact ⟨count, free, moved_of_same fits.satisfies.scopes.size same suspended⟩

theorem stepped_moved {count : Nat} (free : first.StepsFreelyFor count) :
    Moved (Insertion.behind common machine.store).relocation (first.stepped count, .ok .suspended)
      ((machine.start inputs).stepped count, .ok .suspended) := by
  obtain ⟨stepped, fits⟩ := Insertion.stepped_machine (beginning_fits standard closed within begins) free
  have same := start_same closed within standard continues
  rw [← begins] at same
  have same := same.stepped count
  rw [stepped] at same
  exact moved_of_same fits.satisfies.scopes.size same rfl

end

section

variable {program : Program} {limits : Limits} {machine other : Machine} {common : Store} {inputs : Inputs}
  (abides : machine.Abides program .standard limits (.free _ _))
  (abides' : other.Abides program .standard limits (.free _ _)) (closed : common.IsClosed)
  (within : inputs.AreWithin common.scopes.size) (continues : common.Continues machine.store)
  (continues' : common.Continues other.store) {limit : Nat}

include abides abides' closed within continues continues'

omit abides' closed within continues continues' in
theorem beginning_of_abides :
    beginning program .standard limits common inputs =
      beginning machine.program machine.natives machine.limits common inputs := by
  rw [abides.program, abides.natives, abides.limits]

/-- Two machines for the same program, whatever was done with them. -/
theorem runs_correspond (regular : ((machine.start inputs).run limit).2 ≠ .ok .suspended)
    (regular' : ((other.start inputs).run limit).2 ≠ .ok .suspended) :
    Corresponds common.scopes.size ((machine.start inputs).run limit) ((other.start inputs).run limit) := by
  have begins := @beginning_of_abides _ _ _ common inputs abides
  have begins' := @beginning_of_abides _ _ _ common inputs abides'
  exact corresponds_of_moved ((run_moved abides.natives closed within continues begins limit).1 regular)
    ((run_moved abides'.natives closed within continues' begins' limit).1 regular')

/-- One of them is asked to pause. -/
theorem suspended_corresponds (suspended : ((machine.start inputs).run limit).2 = .ok .suspended) :
    ∃ count, Corresponds common.scopes.size ((machine.start inputs).run limit)
      ((other.start inputs).stepped count, .ok .suspended) := by
  have begins := @beginning_of_abides _ _ _ common inputs abides
  have begins' := @beginning_of_abides _ _ _ common inputs abides'
  obtain ⟨count, free, moved⟩ := (run_moved abides.natives closed within continues begins limit).2 suspended
  exact ⟨count, corresponds_of_moved moved (stepped_moved abides'.natives closed within continues' begins' free)⟩

end

/-- Whatever was done with a machine of a closed store, its store is closed, if captured scopes existed that it was
given. -/
theorem isClosed_after {tree : Tree} {limits : Limits} {before : Store} (closed : before.IsClosed) {deeds : List Deed}
    (supplied : (create (.ofTree tree) .standard limits before).IsSupplied
      (.existing tree Natives.standard_makeNoFunctions) deeds) :
    ((create (.ofTree tree) .standard limits before).after deeds).store.IsClosed := by
  have stored := (Store.isClosed_iff_abides tree Natives.standard_makeNoFunctions).mp closed
  have created := @create_abides (.ofTree tree) _ _ _ stored (Nat.zero_le _) limits
  exact (Store.isClosed_iff_abides _ _).mpr (after_abides created supplied).store

/-- Starting again forgets everything. Whatever was done with a machine, an evaluation comes to what it comes to on a
new machine for the same tree, if both keep the scopes that the inputs captured. A run that an observer suspends has
come as far as some single steps of the new machine. And evaluating with the same inputs once more, even if the
evaluation before was cut short, gives the same again. -/
theorem start_again_forgets (tree : Tree) (limits : Limits) (before : Store) (deeds : List Deed) (other common : Store)
    (inputs : Inputs) (closed : common.IsClosed) (within : inputs.AreWithin common.scopes.size)
    (continues : common.Continues ((create (.ofTree tree) .standard limits before).after deeds).store)
    (continues' : common.Continues other) (limit : Nat) :
    let machine := (create (.ofTree tree) .standard limits before).after deeds
    let fresh := create (.ofTree tree) .standard limits other
    (((machine.start inputs).run limit).2 ≠ .ok .suspended →
      Corresponds common.scopes.size ((machine.start inputs).run limit) ((fresh.start inputs).run limit)) ∧
    (((machine.start inputs).run limit).2 = .ok .suspended → ∃ count,
      Corresponds common.scopes.size ((machine.start inputs).run limit)
        ((fresh.start inputs).stepped count, .ok .suspended)) ∧
    ((machine.start inputs).IsQuiet → ((machine.start inputs).run limit).2 ≠ .ok .suspended ∧
      ∀ earlier, Corresponds common.scopes.size ((((machine.start inputs).run earlier).1.start inputs).run limit)
        ((machine.start inputs).run limit)) := by
  have created (store : Store) :
      (create (.ofTree tree) .standard limits store).Abides (.ofTree tree) .standard limits (.free _ _) :=
    create_abides (Store.abides_free _ _ _) (Nat.zero_le _) limits
  have abides := after_abides (created before) (isSupplied_free _ deeds)
  intro machine fresh
  have abides : machine.Abides (.ofTree tree) .standard limits (.free _ _) := abides
  have continues : common.Continues machine.store := continues
  have anew : common.Continues fresh.store :=
    continues'.trans ((Store.Continues.refl other).written (by simp [fresh, create, Store.root])
      (Store.keeps_add other ⟨[], none⟩).others (Nat.le_refl _))
  have silent : (fresh.start inputs).IsQuiet := isQuiet_of_unobserved rfl rfl
  refine ⟨fun regular => ?_, fun suspended => ?_, fun quiet => ⟨(quiet.run limit).2, fun earlier => ?_⟩⟩
  · exact runs_correspond abides (created other) closed within continues anew regular (silent.run limit).2
  · exact suspended_corresponds abides (created other) closed within continues anew suspended
  · have begun := @perform_abides _ _ _ _ _ abides (.start inputs) (isSupplied_free machine [.start inputs]).1
    have again := runAmid_abides begun (fun _ => none) earlier
    rw [runAmid_nothing] at again
    have calm : machine.natives.BindNothing := abides.natives ▸ Natives.standard_bindNothing
    have later := continues.trans (run_continues machine calm inputs earlier)
    have quiet' : (((machine.start inputs).run earlier).1.start inputs).IsQuiet :=
      ⟨rfl, (quiet.run earlier).1.observers⟩
    exact runs_correspond again abides closed within later continues (quiet'.run limit).2 (quiet.run limit).2

/-- A function that returns its input. -/
def echo : Tree where
  nodes := #[
    ⟨.bind "n" .missing none false, .none⟩,
    ⟨.reference "n", .none⟩,
    ⟨.function "echo" ⟨0, 1⟩ (.node 1) none, .none⟩,
    ⟨.program (.node 2), .none⟩]
  lists := #[.node 0]
  root := .node 3

/-- What observers ask for is not forgotten: one from before an evaluation suspends it where a new machine would come
to the end. -/
theorem observer_outlives_start :
    let fresh := create (.ofTree echo) .standard ⟨1000, 10⟩ .empty
    let machine := fresh.after [.observe (some 1)]
    ((machine.start {}).run 100).2 = .ok .suspended ∧
      ((fresh.start {}).run 100).2 = .ok (.finished (.function ⟨.definition (.node 2), some 3, "echo"⟩)) ∧
      ∀ base, ¬ Corresponds base ((machine.start {}).run 100) ((fresh.start {}).run 100) := by
  intro fresh machine
  have suspended : ((machine.start {}).run 100).2 = .ok .suspended := by
    have watched : machine = { create (.ofTree echo) .standard ⟨1000, 10⟩ .empty with
        observers := [⟨0, some 1, 0⟩], nextObserver := 1 } := rfl
    rw [watched, start_eq]
    rfl
  have finished : ((fresh.start {}).run 100).2 =
      .ok (.finished (.function ⟨.definition (.node 2), some 3, "echo"⟩)) := by
    show (((create (.ofTree echo) .standard ⟨1000, 10⟩ .empty).start {}).run 100).2 = _
    rw [start_eq]
    rfl
  refine ⟨suspended, finished, fun base same => ?_⟩
  obtain ⟨ended, place, place', -, -, -, first, second⟩ := same
  have one := first.outcome.symm.trans suspended
  have other := second.outcome.symm.trans finished
  cases is : ended.2 with
  | error fault => simp [is, Except.map] at one
  | ok outcome =>
    cases outcome with
    | finished value => simp [is, Except.map, RunOutcome.relocated] at one
    | suspended => simp [is, Except.map, RunOutcome.relocated] at other

/-- A machine that has made the function, and then was interrupted in another evaluation. -/
def veteran : Machine :=
  (create (.ofTree echo) .standard ⟨1000, 10⟩ .empty).after
    [.start {}, .run 100 fun _ => none, .observe none, .start { streams := [("key", .boolean true)] }, .step, .pause,
      .jump 0]

/-- The function as the machine made it at first, for a stream. -/
def earlierEcho : Inputs where
  streams := [("earlier", .function ⟨.definition (.node 2), some 3, "echo"⟩)]

theorem start_veteran_forgets :
    let fresh := create (.ofTree echo) .standard ⟨1000, 10⟩ veteran.store
    veteran.store.IsClosed ∧ earlierEcho.AreWithin veteran.store.scopes.size ∧
      Corresponds veteran.store.scopes.size ((veteran.start earlierEcho).run 100) ((fresh.start earlierEcho).run 100) ∧
      Corresponds veteran.store.scopes.size ((((veteran.start earlierEcho).run 1).1.start earlierEcho).run 100)
        ((veteran.start earlierEcho).run 100) := by
  have closed : veteran.store.IsClosed := by
    refine isClosed_after Store.isClosed_empty ⟨⟨by simp, by simp⟩, trivial, trivial, ⟨?_, by simp⟩, trivial, trivial,
      trivial, trivial⟩
    intro stream among
    rw [List.mem_singleton.mp among]
    exact Law.admits_boolean true
  have within : earlierEcho.AreWithin veteran.store.scopes.size := by
    intro binding among
    rw [List.mem_singleton.mp among]
    exact Value.every_of_no_parts (by rintro _ ⟨⟩ scope ⟨⟩; decide) rfl
  have quiet : (veteran.start earlierEcho).IsQuiet :=
    ⟨rfl, fun observer among count asks => by
      rw [List.mem_singleton.mp among] at asks
      cases asks⟩
  obtain ⟨regular, -, again⟩ := start_again_forgets echo ⟨1000, 10⟩ .empty _ veteran.store veteran.store earlierEcho
    closed within (.refl _) (.refl _) 100
  exact ⟨closed, within, regular (again quiet).1, (again quiet).2 1⟩

end Machine

end Rivulet
