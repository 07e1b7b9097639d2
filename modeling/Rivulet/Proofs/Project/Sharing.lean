import Rivulet.Proofs.Host.Meeting
import Rivulet.Proofs.Project.Course
import Rivulet.Proofs.Project.Renaming
import Rivulet.Proofs.Project.Success

/-!
One source in several runs. An evaluation gives the same among other scopes (`evaluateAlone_store`), so a source that is
evaluated with like values in two runs has like values in both, and fails in both or in none (`evaluateAlone_agrees`).
-/

namespace Rivulet

open Machine (start_abides create_abides runAmid_abides runAmid_nothing run_admits result_of_run run_continues start_older)

/-- A new machine among other scopes and under other names. -/
theorem Insertion.machine_create {M : Type} [DecidableEq M] [Naming M] {insertion : Insertion M} {store : Store}
    (within : insertion.base ≤ store.scopes.size) (tree : Tree) (limits : Limits) :
    insertion.machine (.create (.ofTree tree) .standard limits store) =
      .create (.ofTree (tree.renamed insertion.name)) .standard limits (insertion.store store) := by
  have added := add_store within ⟨[], none⟩
  have root : _ = insertion.place _ := congrArg Prod.fst added
  have store : _ = insertion.store _ := congrArg Prod.snd added
  unfold Machine.create Insertion.machine
  dsimp only
  rw [show (insertion.store _).root = _ from added]
  rfl

namespace Project

/-- The machine that evaluates a source behind some scopes. -/
def evaluator (project : Project) (occasion : Occasion) (source : Source) (store : Store) : Machine :=
  .create (.ofTree source.tree) project.natives occasion.limits store

variable {project : Project} {occasion : Occasion} {source : Source} {store store' : Store}
  {borrowed borrowed' : List (String × Value)} {value value' : Value} {error : ProjectError}

theorem continues_evaluator : store.Continues (project.evaluator occasion source store).store :=
  (Store.Continues.refl store).written (by simp [evaluator, Machine.create, Store.root])
    (Store.keeps_add store ⟨[], none⟩).others (Nat.le_refl _)

section

variable (standard : project.natives = .standard) (streams : ∀ stream ∈ occasion.streams, stream.2.IsWithin 0)
  (closed : store.IsClosed) (within : ∀ borrow ∈ borrowed, borrow.2.IsWithin store.scopes.size)

include standard streams closed within

/-- When a source starts, functions have captured existing scopes. -/
theorem start_existing (source : Source) :
    ((project.evaluator occasion source store).start ⟨occasion.streams, borrowed, occasion.trigger⟩).Abides
      (.ofTree source.tree) project.natives occasion.limits
      (.existing source.tree (standard ▸ Natives.standard_makeNoFunctions)) := by
  have stored := (Store.isClosed_iff_abides source.tree (standard ▸ Natives.standard_makeNoFunctions)).mp closed
  have created := @create_abides (.ofTree source.tree) _ _ _ stored (Nat.zero_le _) occasion.limits
  exact @start_abides (project.evaluator occasion source store) _ created.store (Nat.zero_le _)
    ⟨occasion.streams, borrowed, occasion.trigger⟩ (fun stream among => (streams stream among).more (Nat.zero_le _))
    fun borrow among => (within borrow among).more continues_evaluator.size

/-- What a source leaves is closed again, and its value has captured scopes of it. -/
theorem closed_of_evaluateAlone (found : project.evaluateAlone occasion source borrowed store = .ok (value, store')) :
    store'.IsClosed ∧ value.IsWithin store'.scopes.size ∧ store.Continues store' := by
  have abides := start_existing standard streams closed within source
  obtain ⟨last, ran, rfl⟩ := evaluateAlone_eq_ok_iff.mp found
  have ran : Machine.run ((project.evaluator occasion source store).start ⟨occasion.streams, borrowed, occasion.trigger⟩)
      occasion.limits.stepLimit = (last, .ok (.finished value)) := ran
  have after := runAmid_abides abides (fun _ => none) occasion.limits.stepLimit
  have admits := run_admits abides (fun value is => by cases is) occasion.limits.stepLimit
  have quiet : project.natives.BindNothing := standard ▸ Natives.standard_bindNothing
  have continues := run_continues (project.evaluator occasion source store) quiet
    ⟨occasion.streams, borrowed, occasion.trigger⟩ occasion.limits.stepLimit
  rw [runAmid_nothing, ran] at after
  rw [ran] at admits continues
  exact ⟨(Store.isClosed_iff_abides _ _).mpr after.store, admits value (result_of_run ran),
    continues_evaluator.trans continues⟩

variable {M : Type} [DecidableEq M] [Naming M] {insertion : Insertion M} (before : insertion.base ≤ store.scopes.size)
  (ascends : insertion.Ascends store) (reads : source.tree.Reads insertion.name)

include before ascends reads

omit [DecidableEq M] in
/-- An evaluation of a source can go on among other scopes and under other names. -/
theorem fits_start :
    @Insertion.Fits M _ insertion (.ofTree source.tree) project.natives
      (.existing source.tree (standard ▸ Natives.standard_makeNoFunctions)) occasion.limits
      (project.evaluator occasion source store).store
      ((project.evaluator occasion source store).start ⟨occasion.streams, borrowed, occasion.trigger⟩) := by
  have abides := start_existing standard streams closed within source
  have grows : insertion.base ≤ (project.evaluator occasion source store).store.scopes.size :=
    Nat.le_trans before continues_evaluator.size
  have ascends' : insertion.Ascends (project.evaluator occasion source store).store := by
    refine ⟨closed.nested.add (by simp), fun id first outer around => ascends.ascends id first outer ?_⟩
    have kept : Store.Extends id store _ := (Store.keeps_add store ⟨[], none⟩).extends
    exact (kept.parent? (Nat.lt_of_lt_of_le first before)).symm.trans around
  have quiet : project.natives.BindNothing := standard ▸ Natives.standard_bindNothing
  exact ⟨quiet, @start_older (project.evaluator occasion source store) _ _ quiet abides, grows, ascends', reads,
    trivial, standard, rfl⟩

/-- A source that is evaluated among other scopes and under other names gives the same. -/
theorem evaluateAlone_store :
    (project.renamed insertion.name).evaluateAlone (occasion.relocated insertion.relocation)
        (source.renamed insertion.name) (borrowed.map (Value.relocatedBinding insertion.relocation))
        (insertion.store store) =
      (project.evaluateAlone occasion source borrowed store).map
        (Prod.map (Value.relocated insertion.relocation) insertion.store) := by
  have fits := fits_start standard streams closed within before ascends reads
  have started := @Insertion.start_machine _ _ _ insertion (project.evaluator occasion source store) fits.base standard
    ⟨occasion.streams, borrowed, occasion.trigger⟩
  have ran := Insertion.run_machine fits occasion.limits.stepLimit
  unfold evaluator at started ran
  rw [← started, standard, Insertion.machine_create before] at ran
  have limit {N : Type} [DecidableEq N] [Naming N] (tree : Tree N) (store : Store N) (inputs : Inputs N) :
      ((Machine.create (.ofTree tree) .standard occasion.limits store).start inputs).limits.stepLimit =
        occasion.limits.stepLimit := rfl
  unfold evaluateAlone Machine.evaluate Project.renamed Occasion.relocated Source.renamed
  unfold Inputs.relocated at ran
  dsimp only at ran ⊢
  rw [limit, standard, limit, ran]
  generalize ((Machine.create (.ofTree source.tree) .standard occasion.limits store).start
    ⟨occasion.streams, borrowed, occasion.trigger⟩).run occasion.limits.stepLimit = outcome
  obtain ⟨last, fault | paused | finished⟩ := outcome <;> rfl

omit before ascends reads

/-- A source that is evaluated among other scopes gives the same. -/
theorem evaluateAlone_places {insertion : Insertion} (plain : insertion.toRenaming = .refl)
    (before : insertion.base ≤ store.scopes.size) (ascends : insertion.Ascends store) (source : Source) :
    project.evaluateAlone occasion source (borrowed.map (Value.relocatedBinding (.places insertion.place)))
        (insertion.store store) =
      (project.evaluateAlone occasion source borrowed store).map
        (Prod.map (Value.relocated (.places insertion.place)) insertion.store) := by
  have named : insertion.name = fun name => name := congrArg Renaming.name plain
  have moved : insertion.relocation = .places insertion.place := by
    unfold Insertion.relocation Relocation.places
    rw [plain]
  have same := evaluateAlone_store standard streams closed within before ascends (named ▸ source.tree.reads_id)
  rwa [named, moved, renamed_id standard, Source.renamed_id, Occasion.relocated_places streams] at same

end

/-- No function stands in the first values of the standard streams, let alone one that captured a scope. -/
theorem isWithin_standard : ∀ stream ∈ Streams.standard.bindings, stream.2.IsWithin 0 := by
  intro stream among
  refine (portable_of_standard stream among).mono fun _ portable function is scope captured => ?_
  simp [(portable function is).free] at captured

theorem cases_of_map_eq_map {ε α β γ : Type} {make : α → γ} {make' : β → γ} {outcome : Except ε α}
    {outcome' : Except ε β} (same : outcome.map make = outcome'.map make') :
    (∃ error, outcome = .error error ∧ outcome' = .error error) ∨
      ∃ result result', outcome = .ok result ∧ outcome' = .ok result' ∧ make result = make' result' := by
  cases outcome with
  | error error =>
    cases outcome' with
    | error error' =>
      cases same
      exact .inl ⟨error, rfl, rfl⟩
    | ok result' => cases same
  | ok result =>
    cases outcome' with
    | error error' => cases same
    | ok result' => exact .inr ⟨result, result', rfl, rfl, Except.ok.inj same⟩

/-- A source that is evaluated with like values in two stores that agree comes to the same in both, up to labels. -/
theorem evaluateAlone_agrees (standard : project.natives = .standard)
    (streams : ∀ stream ∈ occasion.streams, stream.2.IsWithin 0) {label label' : Nat → Nat}
    (injective : label.Injective) (injective' : label'.Injective) (closed : store.IsClosed) (closed' : store'.IsClosed)
    (agrees : store.Agrees label label' store') (within : ∀ borrow ∈ borrowed, borrow.2.IsWithin store.scopes.size)
    (within' : ∀ borrow ∈ borrowed', borrow.2.IsWithin store'.scopes.size)
    (same : borrowed.map (Value.relocatedBinding (.places label)) =
      borrowed'.map (Value.relocatedBinding (.places label'))) {name : Nat}
    (fresh : ∀ id < store.scopes.size, ∀ index, label id ≠ Nat.pair name index)
    (fresh' : ∀ id < store'.scopes.size, ∀ index, label' id ≠ Nat.pair name index) (source : Source) :
    (∃ error, project.evaluateAlone occasion source borrowed store = .error error ∧
      project.evaluateAlone occasion source borrowed' store' = .error error) ∨
    ∃ value last value' last', project.evaluateAlone occasion source borrowed store = .ok (value, last) ∧
      project.evaluateAlone occasion source borrowed' store' = .ok (value', last') ∧
      value.relocated (.places (relabelled store.scopes.size name label)) =
        value'.relocated (.places (relabelled store'.scopes.size name label')) ∧
      last.Agrees (relabelled store.scopes.size name label) (relabelled store'.scopes.size name label') last' := by
  have moved : borrowed.map (Value.relocatedBinding
        (Relocation.places (Insertion.behind store (store.meeting store' injective injective')).place)) =
      borrowed'.map (Value.relocatedBinding
        (Relocation.places (Insertion.beside store store' injective injective').place)) :=
    Value.relocatedBindings_eq within within' same fun _ before _ before' same =>
      place_behind_eq_place_beside injective injective' before before' same
  have first := @evaluateAlone_places project occasion store borrowed standard streams closed within
    (.behind store (store.meeting store' injective injective')) rfl (Nat.le_refl _)
    ⟨closed.nested, fun id _ outer => closed.nested id outer⟩ source
  have second := @evaluateAlone_places project occasion store' borrowed' standard streams closed' within'
    (.beside store store' injective injective') rfl (Nat.le_refl _)
    (ascends_beside injective injective' closed closed' agrees) source
  rw [moved, store_meeting injective injective' closed closed' agrees, second] at first
  rcases cases_of_map_eq_map first.symm with failed | ⟨⟨value, last⟩, ⟨value', last'⟩, found, found', alike⟩
  · exact .inl failed
  · obtain ⟨values, stores⟩ := Prod.mk.inj alike
    obtain ⟨closed, inside, continues⟩ := closed_of_evaluateAlone standard streams closed within found
    obtain ⟨closed', inside', continues'⟩ := closed_of_evaluateAlone standard streams closed' within' found'
    have apart := fun id (_ : id < last.scopes.size) id' (_ : id' < last'.scopes.size) =>
      @relabelled_of_place store store' label label' id id' injective injective' name
    refine .inr ⟨value, last, value', last', found, found', Value.relocated_eq_relocated inside inside' values apart, ?_⟩
    intro id scope there id' scope' there' same
    have place := place_of_relabelled injective injective' fresh fresh' same
    have kept := @Insertion.getElem?_place _ _ (.behind store (store.meeting store' injective injective')) last
      continues.size id
    have kept' := @Insertion.getElem?_place _ _ (.beside store store' injective injective') last' continues'.size id'
    rw [place, stores, kept', there', there] at kept
    exact Scope.relocated_eq_relocated (closed.isWithin there) (closed'.isWithin there') (Option.some.inj kept).symm apart

end Project

end Rivulet
