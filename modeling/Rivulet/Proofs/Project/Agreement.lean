import Rivulet.Proofs.Project.Sharing

/-!
Runs that agree. Each scope of a run is labelled with the source that made it (`Project.Labels`). Whatever sources two
runs evaluate, and in whatever order, those that both evaluate have like values and made like scopes (`agree_of_labels`).
-/

namespace Rivulet

/-- Whether two values are the same but for the identity of the scopes that functions in them captured. -/
def Value.IsAlike (value value' : Value) : Prop :=
  ∃ place place' : Nat → Nat, place.Injective ∧ place'.Injective ∧
    value.relocated (.places place) = value'.relocated (.places place')

namespace Project

/-- Sources are evaluated one after the other, and the scopes of each are labelled with it. -/
inductive Labels (project : Project) (occasion : Occasion) : List Nat → Values → (Nat → Nat) → Prop where
  | nil : project.Labels occasion [] project.unknown fun place => place
  | snoc {order : List Nat} {values : Values} {label : Nat → Nat} {index : Nat} {source : Source} {value : Value}
    {store : Store} (before : project.Labels occasion order values label) (there : project.sources[index]? = some source)
    (fresh : values.known? index = none)
    (known : ∀ lender, project.Borrows lender index → (values.known? lender).isSome)
    (alone : project.evaluateAlone occasion source (project.lent values source.borrows) values.store = .ok (value, store)) :
    project.Labels occasion (order ++ [index]) ⟨values.values.set index (some value), store⟩
      (relabelled values.store.scopes.size index label)

/-- What there is to labels: every scope has its own, and it tells which source made the scope. -/
structure Labelled (order : List Nat) (values : Values) (label : Nat → Nat) : Prop where
  closed : values.store.IsClosed
  within : ∀ index value, values.known? index = some value → value.IsWithin values.store.scopes.size
  injective : label.Injective
  named : ∀ id < values.store.scopes.size, ∃ source ∈ order, ∃ place, label id = Nat.pair source place

/-- Whether two runs agree: scopes with the same label are alike, and so are the values of a source. -/
structure Agree (values values' : Values) (label label' : Nat → Nat) : Prop where
  scopes : values.store.Agrees label label' values'.store
  known : ∀ index value value', values.known? index = some value → values'.known? index = some value' →
    value.relocated (.places label) = value'.relocated (.places label')

variable {project : Project} {occasion : Occasion} {order order' : List Nat} {values values' : Values}
  {label label' : Nat → Nat} {index index' : Nat} {source : Source} {value value' : Value} {store store' : Store}
  {names : List String}

theorem exists_labels (evaluates : project.Evaluates occasion project.unknown order values) :
    ∃ label, project.Labels occasion order values label := by
  induction evaluates with
  | nil => exact ⟨_, .nil⟩
  | snoc before there fresh known alone hypothesis =>
    obtain ⟨label, labels⟩ := hypothesis
    exact ⟨_, labels.snoc there fresh known alone⟩

theorem Labels.evaluates (labels : project.Labels occasion order values label) :
    project.Evaluates occasion project.unknown order values := by
  induction labels with
  | nil => exact .nil
  | snoc before there fresh known alone hypothesis => exact hypothesis.snoc there fresh known alone

theorem Labels.bound (labels : project.Labels occasion order values label) (there : project.sources[index]? = some source) :
    index < values.values.length := by
  rw [labels.evaluates.length project.length_unknown]
  exact (List.getElem?_eq_some_iff.mp there).1

/-! ### One run -/

/-- The names and values that a source borrows. -/
theorem known_of_mem_lent {borrow : String × Value} (among : borrow ∈ project.lent values names) :
    ∃ lender, project.indexOf? borrow.1 = some lender ∧ values.known? lender = some borrow.2 := by
  obtain ⟨name, -, found⟩ := List.mem_filterMap.mp among
  obtain ⟨lender, place, known⟩ := Option.bind_eq_some_iff.mp found
  obtain ⟨value, is, rfl⟩ := Option.map_eq_some_iff.mp known
  exact ⟨lender, place, is⟩

/-- A source that was not evaluated made no scope. -/
theorem Labelled.fresh (labelled : Labelled order values label) (unevaluated : index ∉ order) :
    ∀ id < values.store.scopes.size, ∀ place, label id ≠ Nat.pair index place := by
  intro id before place is
  obtain ⟨source, among, place', named⟩ := labelled.named id before
  obtain ⟨rfl, -⟩ := Nat.pair_eq_pair.mp (is.symm.trans named)
  exact unevaluated among

/-- What is known already keeps its labels. -/
theorem Labelled.relocated_relabelled (labelled : Labelled order values label) (index : Nat) {other : Nat}
    (is : values.known? other = some value) :
    value.relocated (.places (relabelled values.store.scopes.size index label)) = value.relocated (.places label) :=
  Value.relocated_congr (labelled.within other value is) fun _ => relabelled_of_lt

theorem Labelled.scope_relabelled (labelled : Labelled order values label) (index : Nat) {id : Nat} {scope : Scope}
    (there : values.store.scopes[id]? = some scope) :
    scope.relocated (.places (relabelled values.store.scopes.size index label)) = scope.relocated (.places label) :=
  Scope.relocated_congr (labelled.closed.isWithin there) fun _ => relabelled_of_lt

section

variable (standard : project.natives = .standard) (streams : ∀ stream ∈ occasion.streams, stream.2.IsWithin 0)

include standard streams

/-- Sources are lent captured scopes that exist, and so are their values. -/
theorem Labelled.closed_after (labelled : Labelled order values label)
    (alone : project.evaluateAlone occasion source (project.lent values names) values.store = .ok (value, store)) :
    store.IsClosed ∧ value.IsWithin store.scopes.size ∧ values.store.Continues store := by
  refine closed_of_evaluateAlone standard streams labelled.closed (fun borrow among => ?_) alone
  obtain ⟨lender, -, is⟩ := known_of_mem_lent among
  exact labelled.within lender _ is

theorem Labels.labelled (labels : project.Labels occasion order values label) : Labelled order values label := by
  induction labels with
  | nil =>
    refine ⟨Store.isClosed_empty, fun index value is => ?_, Function.injective_id, fun id before => ?_⟩
    · rw [known?_unknown] at is
      cases is
    · exact absurd before (Nat.not_lt_zero id)
  | @snoc order values label index source value store before there fresh known alone hypothesis =>
    obtain ⟨closed, inside, continues⟩ := hypothesis.closed_after standard streams alone
    have unevaluated : index ∉ order := by
      rw [← isSome_known_iff_mem before.evaluates, fresh]
      exact Bool.false_ne_true
    refine ⟨closed, fun other value' is => ?_,
      relabelled_injective hypothesis.injective (hypothesis.fresh unevaluated), fun id before' => ?_⟩
    · rw [Values.known?_set (before.bound there)] at is
      split at is
      · cases is
        exact inside
      · exact (hypothesis.within other value' is).more continues.size
    · by_cases older : id < values.store.scopes.size
      · obtain ⟨source, among, place, named⟩ := hypothesis.named id older
        exact ⟨source, List.mem_append_left _ among, place, (relabelled_of_lt older).trans named⟩
      · exact ⟨index, by simp, _, relabelled_of_le (Nat.not_lt.mp older)⟩

end

/-! ### Two runs -/

/-- What two runs that agree lend to a source is alike, if both know the sources that it borrows. -/
theorem Agree.lent (agree : Agree values values' label label')
    (known : ∀ name ∈ names, ∀ lender, project.indexOf? name = some lender → (values.known? lender).isSome)
    (known' : ∀ name ∈ names, ∀ lender, project.indexOf? name = some lender → (values'.known? lender).isSome) :
    (project.lent values names).map (Value.relocatedBinding (.places label)) =
      (project.lent values' names).map (Value.relocatedBinding (.places label')) := by
  unfold Project.lent
  rw [List.map_filterMap, List.map_filterMap]
  refine List.filterMap_congr fun name among => ?_
  cases place : project.indexOf? name with
  | none => rfl
  | some lender =>
    obtain ⟨value, is⟩ := Option.isSome_iff_exists.mp (known name among lender place)
    obtain ⟨value', is'⟩ := Option.isSome_iff_exists.mp (known' name among lender place)
    simp [is, is', Value.relocatedBinding, agree.known lender value value' is is']

section

variable (standard : project.natives = .standard) (streams : ∀ stream ∈ occasion.streams, stream.2.IsWithin 0)

include standard streams

/-- A source that is evaluated in two runs that agree comes to the same in both, up to labels. -/
theorem evaluateAlone_of_agree (labels : project.Labels occasion order values label)
    (labels' : project.Labels occasion order' values' label') (agree : Agree values values' label label')
    (there : project.sources[index]? = some source) (fresh : values.known? index = none)
    (fresh' : values'.known? index = none)
    (known : ∀ lender, project.Borrows lender index → (values.known? lender).isSome)
    (known' : ∀ lender, project.Borrows lender index → (values'.known? lender).isSome) :
    (∃ error, project.evaluateAlone occasion source (project.lent values source.borrows) values.store = .error error ∧
      project.evaluateAlone occasion source (project.lent values' source.borrows) values'.store = .error error) ∨
    ∃ value last value' last',
      project.evaluateAlone occasion source (project.lent values source.borrows) values.store = .ok (value, last) ∧
      project.evaluateAlone occasion source (project.lent values' source.borrows) values'.store = .ok (value', last') ∧
      value.relocated (.places (relabelled values.store.scopes.size index label)) =
        value'.relocated (.places (relabelled values'.store.scopes.size index label')) ∧
      last.Agrees (relabelled values.store.scopes.size index label) (relabelled values'.store.scopes.size index label')
        last' := by
  have labelled := labels.labelled standard streams
  have labelled' := labels'.labelled standard streams
  have unevaluated : index ∉ order := by
    rw [← isSome_known_iff_mem labels.evaluates, fresh]
    exact Bool.false_ne_true
  have unevaluated' : index ∉ order' := by
    rw [← isSome_known_iff_mem labels'.evaluates, fresh']
    exact Bool.false_ne_true
  have inside (borrow : String × Value) (among : borrow ∈ project.lent values source.borrows) :
      borrow.2.IsWithin values.store.scopes.size := by
    obtain ⟨lender, -, is⟩ := known_of_mem_lent among
    exact labelled.within lender _ is
  have inside' (borrow : String × Value) (among : borrow ∈ project.lent values' source.borrows) :
      borrow.2.IsWithin values'.store.scopes.size := by
    obtain ⟨lender, -, is⟩ := known_of_mem_lent among
    exact labelled'.within lender _ is
  have lent := agree.lent (fun name among lender place => known lender ⟨source, name, there, among, place⟩)
    fun name among lender place => known' lender ⟨source, name, there, among, place⟩
  exact evaluateAlone_agrees standard streams labelled.injective labelled'.injective labelled.closed labelled'.closed
    agree.scopes inside inside' lent (labelled.fresh unevaluated) (labelled'.fresh unevaluated') source

/-- Runs that agree do so too after they have both evaluated the same source. -/
theorem Agree.evaluated (agree : Agree values values' label label') (labels : project.Labels occasion order values label)
    (labels' : project.Labels occasion order' values' label') (there : project.sources[index]? = some source)
    (fresh : values.known? index = none) (fresh' : values'.known? index = none)
    (known : ∀ lender, project.Borrows lender index → (values.known? lender).isSome)
    (known' : ∀ lender, project.Borrows lender index → (values'.known? lender).isSome)
    (alone : project.evaluateAlone occasion source (project.lent values source.borrows) values.store = .ok (value, store))
    (alone' : project.evaluateAlone occasion source (project.lent values' source.borrows) values'.store =
      .ok (value', store')) :
    Agree ⟨values.values.set index (some value), store⟩ ⟨values'.values.set index (some value'), store'⟩
      (relabelled values.store.scopes.size index label) (relabelled values'.store.scopes.size index label') := by
  rcases evaluateAlone_of_agree standard streams labels labels' agree there fresh fresh' known known' with
    ⟨error, failed, -⟩ | ⟨_, _, _, _, ran, ran', alike, agrees⟩
  · rw [alone] at failed
    cases failed
  · rw [alone] at ran
    rw [alone'] at ran'
    cases ran
    cases ran'
    refine ⟨agrees, fun other first second is is' => ?_⟩
    rw [Values.known?_set (labels.bound there)] at is
    rw [Values.known?_set (labels'.bound there)] at is'
    split at is
    · rename_i last
      rw [if_pos last] at is'
      cases is
      cases is'
      exact alike
    · rename_i earlier
      rw [if_neg earlier] at is'
      rw [(labels.labelled standard streams).relocated_relabelled index is,
        (labels'.labelled standard streams).relocated_relabelled index is']
      exact agree.known other first second is is'

omit standard streams in
/-- Runs that evaluate different sources last agree, if each of them agrees with the other before its last source. -/
theorem Agree.apart (apart : index ≠ index') (labelled : Labelled order values label)
    (labelled' : Labelled order' values' label') (bound : index < values.values.length)
    (bound' : index' < values'.values.length) (continues : values.store.Continues store)
    (continues' : values'.store.Continues store')
    (agree : Agree values ⟨values'.values.set index' (some value'), store'⟩ label
      (relabelled values'.store.scopes.size index' label'))
    (agree' : Agree ⟨values.values.set index (some value), store⟩ values' (relabelled values.store.scopes.size index label)
      label') :
    Agree ⟨values.values.set index (some value), store⟩ ⟨values'.values.set index' (some value'), store'⟩
      (relabelled values.store.scopes.size index label) (relabelled values'.store.scopes.size index' label') := by
  refine ⟨fun id scope there id' scope' there' named => ?_, fun other first second is is' => ?_⟩
  · by_cases older : id < values.store.scopes.size
    · have earlier : values.store.scopes[id]? = some scope := (continues.kept id older).symm.trans there
      rw [relabelled_of_lt older] at named
      rw [labelled.scope_relabelled index earlier]
      exact agree.scopes id scope earlier id' scope' there' named
    · by_cases older' : id' < values'.store.scopes.size
      · have earlier' : values'.store.scopes[id']? = some scope' := (continues'.kept id' older').symm.trans there'
        rw [relabelled_of_lt older'] at named
        rw [labelled'.scope_relabelled index' earlier']
        exact agree'.scopes id scope there id' scope' earlier' named
      · -- Both are new, and different sources made them.
        rw [relabelled_of_le (Nat.not_lt.mp older), relabelled_of_le (Nat.not_lt.mp older'), Nat.pair_eq_pair] at named
        exact absurd named.1 apart
  · by_cases last : other = index
    · rw [Values.known?_set bound', if_neg fun last' => apart (last.symm.trans last')] at is'
      rw [labelled'.relocated_relabelled index' is']
      exact agree'.known other first second is is'
    · rw [Values.known?_set bound, if_neg last] at is
      rw [labelled.relocated_relabelled index is]
      exact agree.known other first second is is'

/-- Any two runs agree. -/
theorem agree_of_labels (labels : project.Labels occasion order values label)
    (labels' : project.Labels occasion order' values' label') : Agree values values' label label' := by
  induction labels generalizing order' values' label' with
  | nil =>
    refine ⟨fun id scope there => absurd (Store.lt_size_of_getElem? there) (Nat.not_lt_zero id), ?_⟩
    intro index value value' is
    rw [known?_unknown] at is
    cases is
  | @snoc order values label index source value store before there fresh known alone hypothesis =>
    induction labels' with
    | nil =>
      refine ⟨fun _ _ _ id' _ there' => absurd (Store.lt_size_of_getElem? there') (Nat.not_lt_zero id'), ?_⟩
      intro index value value' _ is'
      rw [known?_unknown] at is'
      cases is'
    | @snoc order' values' label' index' source' value' store' before' there' fresh' known' alone' hypothesis' =>
      by_cases same : index = index'
      · subst same
        rw [there, Option.some.injEq] at there'
        subst there'
        exact (hypothesis before').evaluated standard streams before before' there fresh fresh' known known' alone alone'
      · have labelled := before.labelled standard streams
        have labelled' := before'.labelled standard streams
        obtain ⟨-, -, continues⟩ := labelled.closed_after standard streams alone
        obtain ⟨-, -, continues'⟩ := labelled'.closed_after standard streams alone'
        exact .apart same labelled labelled' (before.bound there) (before'.bound there') continues continues'
          (hypothesis (before'.snoc there' fresh' known' alone')) hypothesis'

/-- What does not fail in one run does not in another. -/
theorem not_fails_of_mem (evaluates : project.Evaluates occasion project.unknown order values) (among : index ∈ order)
    (error : ProjectError) : ¬ project.Fails occasion index project.unknown error := by
  rintro (@⟨order', values', other, source, cause, before', leads, there', fresh', known', failed⟩ | ⟨-, leads⟩)
  · obtain ⟨earlier, between, source', value, store, before, there, fresh, known, alone⟩ :=
      evaluates.exists_before (mem_of_path evaluates leads among)
    rw [there, Option.some.injEq] at there'
    subst there'
    obtain ⟨label, labels⟩ := exists_labels before
    obtain ⟨label', labels'⟩ := exists_labels before'
    rcases evaluateAlone_of_agree standard streams labels labels' (agree_of_labels standard streams labels labels') there
        fresh fresh' known known' with ⟨error, failed', -⟩ | ⟨_, _, value', last', -, ran', -⟩
    · rw [alone] at failed'
      cases failed'
    · rw [failed] at ran'
      cases ran'
  · exact not_leadsToCycle evaluates among leads

/-- A source has like values in any two runs that evaluate it. -/
theorem alike_of_evaluates (evaluates : project.Evaluates occasion project.unknown order values)
    (evaluates' : project.Evaluates occasion project.unknown order' values')
    (is : values.known? index = some value) (is' : values'.known? index = some value') : value.IsAlike value' := by
  obtain ⟨label, labels⟩ := exists_labels evaluates
  obtain ⟨label', labels'⟩ := exists_labels evaluates'
  exact ⟨label, label', (labels.labelled standard streams).injective, (labels'.labelled standard streams).injective,
    (agree_of_labels standard streams labels labels').known index value value' is is'⟩

end

end Project

end Rivulet
