import Rivulet.Project.Evaluation
import Rivulet.Proofs.Meaning.Regularity

/-!
The values of the sources of a project. A value that was found stays, and while the borrows of a source
are followed its own value is not found (`valueTo_keeps`). As long as no source that is borrowed has failed,
no exception gets into a value (`valueTo_regular`); a source that borrows a failure may hold it in its value
(`borrowed_failure_is_data`).
-/

namespace Rivulet

/-- The value that was found for the source at a place. -/
def Values.known? (values : Values) (index : Nat) : Option Value :=
  values.values[index]?.join

/-- Values that were found stay, and none are found for the sources that are being visited. -/
structure Values.Keeps (visiting : List Nat) (values values' : Values) : Prop where
  length : values'.values.length = values.values.length
  known : ∀ index value, values.known? index = some value → values'.known? index = some value
  visited : ∀ index ∈ visiting, values'.known? index = values.known? index

theorem Values.Keeps.refl {visiting : List Nat} (values : Values) : values.Keeps visiting values :=
  ⟨rfl, fun _ _ same => same, fun _ _ => rfl⟩

theorem Values.Keeps.trans {visiting : List Nat} {values values' values'' : Values}
    (first : values.Keeps visiting values') (second : values'.Keeps visiting values'') :
    values.Keeps visiting values'' where
  length := second.length.trans first.length
  known index value is := second.known index value (first.known index value is)
  visited index among := (second.visited index among).trans (first.visited index among)

theorem Values.Keeps.fewer {visiting visiting' : List Nat} {values values' : Values}
    (keeps : values.Keeps visiting values') (fewer : visiting' ⊆ visiting) : values.Keeps visiting' values' :=
  { keeps with visited := fun index among => keeps.visited index (fewer among) }

theorem Values.known?_set {values : Values} {index : Nat} (bound : index < values.values.length)
    (value : Value) (store : Store) (other : Nat) :
    (Values.mk (values.values.set index (some value)) store).known? other =
      if other = index then some value else values.known? other := by
  unfold known?
  by_cases same : other = index
  · subst same
    simp [bound]
  · simp [Ne.symm same, same]

/-- At first no value is known. -/
theorem Values.known?_of_none (sources : List Source) (store : Store) (index : Nat) :
    (Values.mk (sources.map fun _ => none) store).known? index = none := by
  unfold known?
  rw [List.getElem?_map]
  cases sources[index]? <;> rfl

/-- No value that was found holds an exception, and no scope does. -/
structure Values.IsRegular (values : Values) : Prop where
  store : values.store.IsRegular
  known : ∀ index value, values.known? index = some value → value.IsRegular

namespace Project

variable {project : Project} {occasion : Occasion} {visiting : List Nat} {index depth : Nat}
  {values values' : Values} {value : Value} {names : List String} {borrowed : List (String × Value)}

/-! ### Finding values -/

section

variable {valueOf : Nat → Values → Except ProjectError (Value × Values)}

/-- Following borrows is finding the values of some sources in order. -/
theorem borrowedWith_induction (relation : List (String × Value) → Values → Values → Prop)
    (none : ∀ values, relation [] values values)
    (some : ∀ index values value values' name borrowed values'',
      valueOf index values = .ok (value, values') → relation borrowed values' values'' →
      relation ((name, value) :: borrowed) values values'')
    (found : project.borrowedWith valueOf names values = .ok (borrowed, values')) :
    relation borrowed values values' := by
  induction names generalizing values borrowed with
  | nil =>
    cases found
    exact none _
  | cons name names hypothesis =>
    unfold borrowedWith at found
    split at found
    · exact hypothesis found
    · rename_i index _
      cases first : valueOf index values with
      | error error => simp [first, bind, Except.bind] at found
      | ok pair =>
        obtain ⟨value, between⟩ := pair
        simp only [first, bind, Except.bind] at found
        cases rest : project.borrowedWith valueOf names between with
        | error error => simp [rest] at found
        | ok pair =>
          obtain ⟨others, last⟩ := pair
          simp only [rest] at found
          cases found
          exact some _ _ _ _ _ _ _ first (hypothesis rest)

end

/-- A source has a value because it was found before, or because the source was evaluated with the values
that it borrows. -/
theorem valueTo_cases
    (found : project.valueTo occasion (depth + 1) visiting index values = .ok (value, values')) :
    values.known? index = some value ∧ values' = values ∨
      ∃ source borrowed between store, values.known? index = none ∧ project.sources[index]? = some source ∧
        index ∉ visiting ∧
        project.borrowedWith (project.valueTo occasion depth (index :: visiting)) source.borrows values =
          .ok (borrowed, between) ∧
        project.evaluateAlone occasion source borrowed between.store = .ok (value, store) ∧
        values' = ⟨between.values.set index (some value), store⟩ := by
  unfold valueTo at found
  split at found
  · rename_i known
    cases found
    exact .inl ⟨known, rfl⟩
  · simp at found
  · rename_i source unknown there
    split at found
    · simp at found
    · rename_i unvisited
      right
      cases first : project.borrowedWith (project.valueTo occasion depth (index :: visiting)) source.borrows values with
      | error error => simp [first, bind, Except.bind] at found
      | ok pair =>
        obtain ⟨borrowed, between⟩ := pair
        simp only [first, bind, Except.bind] at found
        cases alone : project.evaluateAlone occasion source borrowed between.store with
        | error error => simp [alone] at found
        | ok pair =>
          obtain ⟨result, store⟩ := pair
          simp only [alone] at found
          cases found
          exact ⟨source, borrowed, between, store, unknown, there, by simpa using unvisited, first, alone, rfl⟩

/-- What finding a value does to the others. -/
theorem valueTo_keeps (sized : values.values.length = project.sources.length)
    (found : project.valueTo occasion depth visiting index values = .ok (value, values')) :
    values.Keeps visiting values' ∧ values'.known? index = some value := by
  induction depth generalizing visiting index values value values' with
  | zero => simp [valueTo] at found
  | succ depth hypothesis =>
    rcases valueTo_cases found with ⟨known, rfl⟩ | ⟨source, borrowed, between, store, unknown, there, unvisited, follow, -, rfl⟩
    · exact ⟨.refl _, known⟩
    · have kept : values.values.length = project.sources.length → values.Keeps (index :: visiting) between := by
        refine borrowedWith_induction (fun _ values values' =>
          values.values.length = project.sources.length → values.Keeps (index :: visiting) values') ?_ ?_ follow
        · exact fun values _ => .refl values
        · intro other values value values' name borrowed values'' found rest sized
          have first := (hypothesis sized found).1
          exact first.trans (rest (first.length.trans sized))
      have kept := kept sized
      have bound : index < between.values.length := by
        rw [kept.length, sized]
        exact (List.getElem?_eq_some_iff.mp there).1
      refine ⟨⟨by simp [kept.length], fun other old is => ?_, fun other among => ?_⟩, ?_⟩
      · rw [Values.known?_set bound, if_neg]
        · exact kept.known other old is
        · rintro rfl
          simp [unknown] at is
      · rw [Values.known?_set bound, if_neg]
        · exact kept.visited other (by simp [among])
        · rintro rfl
          exact unvisited among
      · rw [Values.known?_set bound, if_pos rfl]

/-! ### Values without exceptions -/

section

variable (standard : project.natives = .standard)
  (formed : ∀ source ∈ project.sources, source.tree.WellFormed)
  (streams : ∀ stream ∈ occasion.streams, stream.2.IsRegular)

include standard formed streams

/-- A source that borrows no exceptions fails, or has a value without exceptions. -/
theorem evaluateAlone_regular {source : Source} (among : source ∈ project.sources) {store store' : Store}
    (before : store.IsRegular) (regular : ∀ borrow ∈ borrowed, borrow.2.IsRegular)
    (found : project.evaluateAlone occasion source borrowed store = .ok (value, store')) :
    value.isException = true ∨ value.IsRegular ∧ store'.IsRegular := by
  unfold evaluateAlone at found
  rw [standard] at found
  dsimp only at found
  split at found
  · simp at found
  · simp at found
  · rename_i last result ran
    cases found
    exact Machine.run_start_regular (formed source among) before streams regular ran

/-- As long as no source that is borrowed has failed, a source fails, or no value holds an exception. -/
theorem valueTo_regular (sized : values.values.length = project.sources.length) (before : values.IsRegular)
    (found : project.valueTo occasion depth visiting index values = .ok (value, values'))
    (others : ∀ other value, other ≠ index → values'.known? other = some value → value.isException = false) :
    value.isException = true ∨ value.IsRegular ∧ values'.IsRegular := by
  induction depth generalizing visiting index values value values' with
  | zero => simp [valueTo] at found
  | succ depth hypothesis =>
    rcases valueTo_cases found with
      ⟨known, rfl⟩ | ⟨source, borrowed, between, store, unknown, there, unvisited, follow, alone, rfl⟩
    · exact .inr ⟨before.known index value known, before⟩
    · -- What is borrowed is kept, so it is not an exception, and is regular for this reason.
      have follows := borrowedWith_induction (fun borrowed values values' =>
        values.values.length = project.sources.length → values.Keeps (index :: visiting) values' ∧
          (values.IsRegular → (∀ other value, values'.known? other = some value → value.isException = false) →
            (∀ borrow ∈ borrowed, borrow.2.IsRegular) ∧ values'.IsRegular)) ?_ ?_ follow
      · obtain ⟨kept, regular⟩ := follows sized
        have bound : index < between.values.length := by
          rw [kept.length, sized]
          exact (List.getElem?_eq_some_iff.mp there).1
        have fine (other : Nat) (old : Value) (is : between.known? other = some old) : old.isException = false := by
          have apart : other ≠ index := by
            rintro rfl
            rw [kept.visited other (by simp), unknown] at is
            simp at is
          exact others other old apart (by rw [Values.known?_set bound, if_neg apart, is])
        obtain ⟨borrowedRegular, betweenRegular⟩ := regular before fine
        rcases evaluateAlone_regular standard formed streams (List.mem_of_getElem? there) betweenRegular.store
          borrowedRegular alone with failed | ⟨own, store⟩
        · exact .inl failed
        · refine .inr ⟨own, store, fun other old is => ?_⟩
          rw [Values.known?_set bound] at is
          split at is
          · cases is
            exact own
          · exact betweenRegular.known other old is
      · exact fun values _ => ⟨.refl values, fun before _ => ⟨by simp, before⟩⟩
      · intro other values value values' name borrowed values'' found rest sized
        obtain ⟨first, is⟩ := valueTo_keeps sized found
        obtain ⟨second, later⟩ := rest (first.length.trans sized)
        refine ⟨first.trans second, fun before fine => ?_⟩
        have outcome := hypothesis sized before found fun _ _ _ is => fine _ _ (second.known _ _ is)
        have failed := fine other value (second.known other value is)
        obtain ⟨own, between⟩ := outcome.resolve_left (by simp [failed])
        obtain ⟨all, last⟩ := later between fine
        refine ⟨fun borrow among => ?_, last⟩
        rcases List.mem_cons.mp among with rfl | inRest
        · exact own
        · exact all borrow inRest

/-- As long as no other source has failed, the value of a source is an exception or holds none. -/
theorem evaluateSource_regular {name : String} (place : project.indexOf name = .ok index)
    (found : project.valueTo occasion (project.sources.length + 1) [] index
      ⟨project.sources.map fun _ => none, .empty⟩ = .ok (value, values))
    (others : ∀ other value, other ≠ index → values.known? other = some value → value.isException = false) :
    project.evaluateSource name occasion = .ok value ∧ (value.isException = true ∨ value.IsRegular) := by
  have before : (Values.mk (project.sources.map fun _ => none) .empty).IsRegular :=
    ⟨Store.isRegular_empty, fun other value is => by simp only [Values.known?_of_none, reduceCtorEq] at is⟩
  refine ⟨by simp only [evaluateSource, place, found, bind, Except.bind], ?_⟩
  exact (valueTo_regular standard formed streams (by simp) before found others).imp_right And.left

end

/-- A project in which a source collects the value of another, and that is a quotient. -/
def collecting (lender divisor : String) : Project where
  id := ⟨0⟩
  name := "collecting"
  sources := [
    ⟨"main", "borrow " ++ lender ++ "\n[" ++ lender ++ "]", {
      nodes := #[
        ⟨.borrow lender, ⟨0, 1⟩⟩,
        ⟨.reference lender, ⟨1, 2⟩⟩,
        ⟨.sequence ⟨0, 1⟩, ⟨1, 3⟩⟩,
        ⟨.block ⟨1, 2⟩, ⟨0, 4⟩⟩,
        ⟨.program (.node 3), ⟨0, 5⟩⟩]
      lists := #[.node 1, .node 0, .node 2]
      root := .node 4 }, 0⟩,
    ⟨lender, "1 / " ++ divisor, {
      nodes := #[
        ⟨.number "1" .unitless, ⟨0, 1⟩⟩,
        ⟨.number divisor .unitless, ⟨1, 2⟩⟩,
        ⟨.binary .divide (.node 0) (.node 1), ⟨0, 3⟩⟩,
        ⟨.block ⟨0, 1⟩, ⟨0, 4⟩⟩,
        ⟨.program (.node 3), ⟨0, 5⟩⟩]
      lists := #[.node 2]
      root := .node 4 }, 0⟩]
  natives := .standard
  streams := Streams.standard.signatures

theorem collecting_half_regular :
    let occasion : Occasion := ⟨⟨1000, 10⟩, [("key", .text "a")], none⟩
    let project := collecting "half" "2"
    match project.valueTo occasion 3 [] 0 ⟨[none, none], .empty⟩ with
    | .ok (value, values) =>
      (∀ other value, other ≠ 0 → values.known? other = some value → value.isException = false) ∧
        project.evaluateSource "main" occasion = .ok value ∧ (value.isException = true ∨ value.IsRegular)
    | .error _ => False := by
  intro occasion project
  have fine : (match project.valueTo occasion 3 [] 0 ⟨[none, none], .empty⟩ with
      | .ok (_, values) => values.values.all fun known => known.all fun value => !value.isException
      | .error _ => false) = true := by decide +kernel
  split
  · rename_i value values found
    simp only [found, List.all_eq_true] at fine
    have others (other : Nat) (value : Value) (_ : other ≠ 0) (is : values.known? other = some value) :
        value.isException = false := by
      simpa using fine _ (List.mem_of_getElem? (Option.join_eq_some_iff.mp is))
    refine ⟨others, evaluateSource_regular rfl (fun source among => ?_) (fun stream among => ?_) rfl found others⟩
    · refine Tree.wellFormed_of_isOrderly ?_
      have orderly : project.sources.all (fun source => source.tree.isOrderly) = true := by decide +kernel
      exact List.all_eq_true.mp orderly source among
    · obtain rfl := List.mem_singleton.mp among
      exact Value.every_of_no_parts rfl rfl
  · rename_i failed
    simp [failed] at fine

/-- The failure of a source that is borrowed becomes an item of the value of the source that borrows it. -/
theorem borrowed_failure_is_data :
    let occasion : Occasion := ⟨⟨1000, 10⟩, Streams.standard.bindings, none⟩
    let project := collecting "broken" "0"
    (∀ source ∈ project.sources, Line.parse false source.text = .ok source.tree) ∧
    (match project.evaluateSource "broken" occasion with
      | .ok value => value.isException
      | .error _ => false) = true ∧
    (match project.evaluateSource "main" occasion with
      | .ok (.sequence items) => items.toList.map Value.isException
      | _ => []) = [true] := by
  refine ⟨?_, ?_, ?_⟩ <;> decide +kernel

end Project

end Rivulet
