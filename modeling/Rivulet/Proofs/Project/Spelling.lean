import Rivulet.Proofs.Project.Sharing
import Rivulet.Proofs.Project.Values

/-!
The values of the sources of a project do not depend on how names are kept: with other names in all trees, natives and
streams, the sources have the same values but for the names in them, or fail with the same error
(`evaluateSource_renamed`). What is read of a name is its text, so the names must stand for the texts as before.
-/

namespace Rivulet

variable {M : Type} [Naming M]

namespace Renaming

/-- Other names, and all scopes where they are. -/
def relocation (naming : Renaming M) : Relocation M :=
  { naming with place := fun scope => scope }

/-- Other names, and no scopes between those that are there. -/
def insertion (naming : Renaming M) : Insertion M :=
  { naming with
    base := 0
    host := []
    spot := fun scope => scope
    inside := fun _ before => absurd before (Nat.not_lt_zero _)
    apart := fun _ before => absurd before (Nat.not_lt_zero _) }

theorem relocation_insertion (naming : Renaming M) : naming.insertion.relocation = naming.relocation := by
  have place : naming.insertion.place = fun scope => scope := by
    funext scope
    simp [insertion, Insertion.place]
  unfold Insertion.relocation relocation
  rw [place]
  rfl

theorem store_empty (naming : Renaming M) : naming.insertion.store .empty = .empty :=
  rfl

theorem ascends {store : Store} (naming : Renaming M) (nested : store.Nested) : naming.insertion.Ascends store :=
  ⟨nested, fun _ before => absurd before (Nat.not_lt_zero _)⟩

end Renaming

/-- Values that were found, with other names. -/
def Values.renamed (naming : Renaming M) (values : Values) : Values M :=
  ⟨values.values.map (Option.map (Value.relocated naming.relocation)), naming.insertion.store values.store⟩

/-- Functions in the values that were found captured scopes that exist, and so did those in scopes. -/
structure Values.AreClosed (values : Values) : Prop where
  store : values.store.IsClosed
  within : ∀ value, some value ∈ values.values → value.IsWithin values.store.scopes.size

namespace Project

/-- The names in the trees of a project stand for the texts as before. -/
def Reads (rename : String → M) (project : Project) : Prop :=
  ∀ source ∈ project.sources, ∀ text ∈ source.tree.names, Naming.text (rename text) = text

variable {project : Project} {occasion : Occasion} {visiting : List Nat} {index depth : Nat}
  {values values' : Values} {value : Value} {borrowed : List (String × Value)} {source : Source}

/-! ### What is read of names -/

theorem mem_names_of_form? {tree : Tree} {node : NodeId} {form : Form} {text : String}
    (there : tree.form? node = some form) (is : form.name? = some text) : text ∈ tree.names := by
  cases node with
  | missing => cases there
  | node index =>
    obtain ⟨node, found, rfl⟩ := Option.map_eq_some_iff.mp there
    exact List.mem_filterMap.mpr ⟨node, Array.mem_toList_iff.mpr (Array.mem_of_getElem? found), is⟩

theorem Reads.tree {rename : String → M} (reads : project.Reads rename) (among : source ∈ project.sources) :
    source.tree.Reads rename := by
  intro node form there literal is
  refine reads source among literal (mem_names_of_form? there ?_)
  cases form with
  | number literal measure => exact is
  | text literal => exact is
  | _ => cases is

theorem Reads.borrows {rename : String → M} (reads : project.Reads rename) (among : source ∈ project.sources) :
    ∀ name ∈ source.borrows, Naming.text (rename name) = name := by
  intro name borrowed
  obtain ⟨node, -, found⟩ := List.mem_filterMap.mp borrowed
  cases there : source.tree.form? node with
  | none => simp [there] at found
  | some form =>
    cases form with
    | borrow name' =>
      obtain rfl : name' = name := by simpa [there] using found
      exact reads source among name' (mem_names_of_form? there rfl)
    | _ => simp [there] at found

/-! ### Closed values -/

/-- What finding a value leaves: scopes are closed, and the value is among them. -/
structure Stays (values : Values) (value : Value) (values' : Values) : Prop where
  closed : values'.AreClosed
  within : value.IsWithin values'.store.scopes.size
  grows : values.store.scopes.size ≤ values'.store.scopes.size

/-- Following borrows leaves closed scopes if finding each value does. -/
theorem borrowedWith_areClosed {valueOf : Nat → Values → Except ProjectError (Value × Values)}
    (each : ∀ index values value values', values.AreClosed → valueOf index values = .ok (value, values') →
      Stays values value values') {names : List String} (closed : values.AreClosed)
    (found : project.borrowedWith valueOf names values = .ok (borrowed, values')) :
    values'.AreClosed ∧ (∀ borrow ∈ borrowed, borrow.2.IsWithin values'.store.scopes.size) ∧
      values.store.scopes.size ≤ values'.store.scopes.size := by
  refine borrowedWith_induction (fun borrowed values values' => values.AreClosed →
    values'.AreClosed ∧ (∀ borrow ∈ borrowed, borrow.2.IsWithin values'.store.scopes.size) ∧
      values.store.scopes.size ≤ values'.store.scopes.size) ?_ ?_ found closed
  · exact fun values closed => ⟨closed, by simp, Nat.le_refl _⟩
  · intro index values value values' name borrowed values'' found rest closed
    have stays := each index values value values' closed found
    obtain ⟨last, others, grows⟩ := rest stays.closed
    exact ⟨last, List.forall_mem_cons.mpr ⟨stays.within.more grows, others⟩, Nat.le_trans stays.grows grows⟩

section

variable (standard : project.natives = .standard) (streams : ∀ stream ∈ occasion.streams, stream.2.IsWithin 0)

include standard streams

theorem valueTo_stays (closed : values.AreClosed)
    (found : project.valueTo occasion depth visiting index values = .ok (value, values')) :
    Stays values value values' := by
  induction depth generalizing visiting index values value values' with
  | zero => simp [valueTo] at found
  | succ depth hypothesis =>
    rcases valueTo_cases found with ⟨known, rfl⟩ | ⟨source, borrowed, between, store, -, -, -, follow, alone, rfl⟩
    · exact ⟨closed, closed.within value (List.mem_of_getElem? (Option.join_eq_some_iff.mp known)), Nat.le_refl _⟩
    · obtain ⟨closed, within, grows⟩ := borrowedWith_areClosed (fun _ _ _ _ => hypothesis) closed follow
      obtain ⟨stored, own, continues⟩ := closed_of_evaluateAlone standard streams closed.store within alone
      refine ⟨⟨stored, fun other among => ?_⟩, own, Nat.le_trans grows continues.size⟩
      rcases List.mem_or_eq_of_mem_set among with before | same
      · exact (closed.within other before).more continues.size
      · exact Option.some.inj same ▸ own

end

/-! ### Other names -/

section

variable [DecidableEq M] (naming : Renaming M)

/-- Following borrows under other names comes to the same, if finding each value does. -/
theorem borrowedWith_renamed {valueOf : Nat → Values → Except ProjectError (Value × Values)}
    {valueOf' : Nat → Values M → Except ProjectError (Value M × Values M)}
    (each : ∀ index values, values.AreClosed → valueOf' index (values.renamed naming) =
      (valueOf index values).map (Prod.map (Value.relocated naming.relocation) (Values.renamed naming)))
    (stays : ∀ index values value values', values.AreClosed → valueOf index values = .ok (value, values') →
      Stays values value values') {names : List String} (reads : ∀ name ∈ names, Naming.text (naming.name name) = name)
    (closed : values.AreClosed) :
    (project.renamed naming.name).borrowedWith valueOf' (names.map naming.name) (values.renamed naming) =
      (project.borrowedWith valueOf names values).map
        (Prod.map (List.map (Value.relocatedBinding naming.relocation)) (Values.renamed naming)) := by
  induction names generalizing values with
  | nil => rfl
  | cons name names hypothesis =>
    obtain ⟨here, others⟩ := List.forall_mem_cons.mp reads
    rw [List.map_cons]
    unfold borrowedWith
    rw [here, indexOf?_renamed]
    cases project.indexOf? name with
    | none => exact hypothesis others closed
    | some index =>
      dsimp only
      rw [each index values closed]
      cases found : valueOf index values with
      | error error => rfl
      | ok pair =>
        obtain ⟨value, between⟩ := pair
        have rest := hypothesis others (stays index values value between closed found).closed
        simp only [Except.map, Prod.map, bind, Except.bind, rest]
        cases project.borrowedWith valueOf names between <;> rfl

variable (standard : project.natives = .standard) (streams : ∀ stream ∈ occasion.streams, stream.2.IsWithin 0)

include standard streams

/-- A source that is evaluated under other names gives the same. -/
theorem evaluateAlone_renamed {store : Store} (closed : store.IsClosed)
    (within : ∀ borrow ∈ borrowed, borrow.2.IsWithin store.scopes.size) (reads : source.tree.Reads naming.name) :
    (project.renamed naming.name).evaluateAlone (occasion.relocated naming.relocation) (source.renamed naming.name)
        (borrowed.map (Value.relocatedBinding naming.relocation)) (naming.insertion.store store) =
      (project.evaluateAlone occasion source borrowed store).map
        (Prod.map (Value.relocated naming.relocation) naming.insertion.store) := by
  have same := @evaluateAlone_store project occasion source store borrowed standard streams closed within M _ _
    naming.insertion (Nat.zero_le _) (naming.ascends closed.nested) reads
  rwa [naming.relocation_insertion] at same

theorem valueTo_renamed (reads : project.Reads naming.name) (closed : values.AreClosed) :
    (project.renamed naming.name).valueTo (occasion.relocated naming.relocation) depth visiting index
        (values.renamed naming) =
      (project.valueTo occasion depth visiting index values).map
        (Prod.map (Value.relocated naming.relocation) (Values.renamed naming)) := by
  induction depth generalizing visiting index values with
  | zero => rfl
  | succ depth hypothesis =>
    have known : (values.renamed naming).values[index]?.join =
        values.values[index]?.join.map (Value.relocated naming.relocation) := by
      unfold Values.renamed
      rw [List.getElem?_map]
      cases values.values[index]? <;> rfl
    have there : (project.renamed naming.name).sources[index]? =
        project.sources[index]?.map (Source.renamed naming.name) :=
      List.getElem?_map
    unfold valueTo
    rw [known, there]
    cases values.values[index]?.join with
    | some value => rfl
    | none =>
      cases found : project.sources[index]? with
      | none => rfl
      | some source =>
        have among := List.mem_of_getElem? found
        dsimp only [Option.map]
        split
        · rfl
        · have stays (index' : Nat) (values value values') :=
            @valueTo_stays project occasion (index :: visiting) index' depth values values' value standard streams
          have borrows := @borrowedWith_renamed M _ project values _ naming
            (project.valueTo occasion depth (index :: visiting)) _ (fun index' values => hypothesis) stays
            source.borrows (reads.borrows among) closed
          rw [Source.borrows_renamed, borrows]
          cases follow : project.borrowedWith (project.valueTo occasion depth (index :: visiting)) source.borrows
            values with
          | error error => rfl
          | ok pair =>
            obtain ⟨borrowed, between⟩ := pair
            obtain ⟨closed, within, -⟩ := borrowedWith_areClosed stays closed follow
            have alone := evaluateAlone_renamed naming standard streams closed.store within (reads.tree among)
            simp only [Except.map, Prod.map, bind, Except.bind]
            rw [show (between.renamed naming).store = naming.insertion.store between.store from rfl, alone]
            cases project.evaluateAlone occasion source borrowed between.store with
            | error error => rfl
            | ok pair =>
              have set := @List.map_set _ _ (Option.map (Value.relocated naming.relocation)) between.values index
                (some pair.1)
              exact congrArg (fun values => Except.ok (_, Values.mk values _)) set.symm

/-- Under other names a source has the same value, or fails with the same error. -/
theorem evaluateSource_renamed (reads : project.Reads naming.name) (name : String) :
    (project.renamed naming.name).evaluateSource name (occasion.relocated naming.relocation) =
      (project.evaluateSource name occasion).map (Value.relocated naming.relocation) := by
  have place : (project.renamed naming.name).indexOf name = project.indexOf name := by
    unfold indexOf
    rw [indexOf?_renamed]
  have unknown : (Values.mk ((project.renamed naming.name).sources.map fun _ => none) Store.empty) =
      (Values.mk (project.sources.map fun _ => none) Store.empty).renamed naming := by
    unfold Values.renamed renamed
    rw [naming.store_empty]
    simp [Function.comp_def]
  have closed : (Values.mk (project.sources.map fun _ => none) Store.empty).AreClosed :=
    ⟨Store.isClosed_empty, by simp⟩
  have size : (project.renamed naming.name).sources.length = project.sources.length := List.length_map _
  unfold evaluateSource
  rw [place]
  cases project.indexOf name with
  | error error => rfl
  | ok index =>
    simp only [bind, Except.bind]
    rw [unknown, size, valueTo_renamed naming standard streams reads closed]
    cases project.valueTo occasion (project.sources.length + 1) [] index
      (Values.mk (project.sources.map fun _ => none) Store.empty) <;> rfl

end

end Project

end Rivulet
