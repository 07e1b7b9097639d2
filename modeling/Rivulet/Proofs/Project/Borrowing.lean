import Rivulet.Proofs.Project.Agreement

/-!
Evaluating what is borrowed. The evaluation of a source fails because of a cycle of borrows just when its borrows lead
to one; otherwise all that they lead to is evaluated once, what is borrowed before what borrows it, and to values that
are like those of separate evaluations (`evaluateSource_follows_borrows`). Like they are, and not the same: a function
that two sources pass on is one function in a run, and others in separate evaluations (`passed_on_function_is_shared`).
-/

namespace Rivulet

namespace Project

open Relation

variable {project : Project} {occasion : Occasion} {order : List Nat} {start values values' : Values}
  {index other depth depth' : Nat} {name : String}

/-! ### What sources are evaluated with -/

/-- A source is given the same values later on. -/
theorem lent_of_keeps (keeps : values.Keeps [] values') {names : List String}
    (known : ∀ name ∈ names, ∀ lender, project.indexOf? name = some lender → (values.known? lender).isSome) :
    project.lent values' names = project.lent values names := by
  refine List.filterMap_congr fun name among => ?_
  cases place : project.indexOf? name with
  | none => rfl
  | some lender =>
    obtain ⟨value, is⟩ := Option.isSome_iff_exists.mp (known name among lender place)
    simp [is, keeps.known lender value is]

/-- A source that is evaluated has the value that it gets when it is evaluated alone, with the values that the sources
it borrows have in the end. -/
theorem alone_of_mem (evaluates : project.Evaluates occasion start order values)
    (sized : start.values.length = project.sources.length) (among : other ∈ order) :
    ∃ source value store store', project.sources[other]? = some source ∧ values.known? other = some value ∧
      project.evaluateAlone occasion source (project.lent values source.borrows) store = .ok (value, store') := by
  induction evaluates with
  | nil => simp at among
  | @snoc order values index source value store before there fresh known alone hypothesis =>
    have bound : index < values.values.length := by
      rw [before.length sized]
      exact (List.getElem?_eq_some_iff.mp there).1
    have last := Evaluates.nil.snoc there fresh known alone
    have keeps : values.Keeps [] ⟨values.values.set index (some value), store⟩ :=
      last.keeps (before.length sized) (by simp)
    by_cases same : other = index
    · subst same
      refine ⟨source, value, values.store, store, there, by rw [Values.known?_set bound, if_pos rfl], ?_⟩
      rw [lent_of_keeps keeps fun name among lender place => known lender ⟨source, name, there, among, place⟩]
      exact alone
    · have earlier : other ∈ order := by simpa [same] using among
      obtain ⟨source', value', store', store'', there', is, alone'⟩ := hypothesis earlier
      refine ⟨source', value', store', store'', there', keeps.known other value' is, ?_⟩
      rw [lent_of_keeps keeps fun name among lender place => ?_]
      · exact alone'
      · obtain ⟨before', after, split⟩ := List.append_of_mem earlier
        refine (before.isSome_known_iff sized).mpr ?_
        rw [split]
        exact (before.lender_before sized split ⟨source', name, there', among, place⟩).imp_right
          (List.mem_append_left _)

/-! ### Evaluating on record -/

theorem evaluateOnRecord_deep (deep : project.sources.length < depth) (deep' : project.sources.length < depth') :
    project.evaluateOnRecord depth name occasion = project.evaluateOnRecord depth' name occasion := by
  unfold evaluateOnRecord
  cases project.indexOf name with
  | error error => rfl
  | ok index =>
    have same := @valueOnRecord_deep project occasion depth depth' index [] .nil (by simp) (by simpa using deep)
      (by simpa using deep') ⟨project.unknown, []⟩
    simp only [bind, Except.bind, same]

/-- A source is evaluated after what its borrows lead to, or it cannot be. -/
theorem evaluateOnRecord_cases (place : project.indexOf? name = some index) (deep : project.sources.length < depth) :
    (∃ value order values, project.evaluateOnRecord depth name occasion = .ok (value, order) ∧
      project.Evaluates occasion project.unknown order values ∧ values.known? index = some value ∧
      ∀ other ∈ order, ReflTransGen project.Borrows other index) ∨
    ∃ error, project.evaluateOnRecord depth name occasion = .error error ∧
      project.Fails occasion index project.unknown error := by
  have bound : index < project.sources.length := (List.findIdx?_eq_some_iff_getElem.mp place).1
  have place' : project.indexOf name = .ok index := by simp only [indexOf, place]
  unfold evaluateOnRecord
  rcases @accounts_valueOnRecord project occasion index depth [] ⟨project.unknown, []⟩ bound .nil (by simp)
      (by simpa using deep) project.length_unknown with ⟨value, ledger, ran, ⟨more, recorded, evaluates, reached⟩, is⟩ |
    ⟨error, ran, fails⟩
  · refine .inl ⟨value, more, ledger.values, ?_, evaluates, is, fun other among => (reached other among).1⟩
    simp only [place', bind, Except.bind, ran, recorded, List.nil_append]
  · exact .inr ⟨error, by simp only [place', bind, Except.bind, ran], fails⟩

/-- A source that is evaluated in a run can be evaluated separately, and has a like value then. -/
theorem evaluateSource_alike (standard : project.natives = .standard)
    (streams : ∀ stream ∈ occasion.streams, stream.2.IsWithin 0)
    (evaluates : project.Evaluates occasion project.unknown order values) (among : index ∈ order)
    (place : project.indexOf? name = some index) :
    ∃ own value, project.evaluateSource name occasion = .ok own ∧ values.known? index = some value ∧
      own.IsAlike value := by
  obtain ⟨value, is⟩ := Option.isSome_iff_exists.mp ((isSome_known_iff_mem evaluates).mpr among)
  have deep := Nat.lt_succ_self project.sources.length
  rcases @evaluateOnRecord_cases project occasion index _ name place deep with
    ⟨own, order', values', ran, evaluates', is', -⟩ | ⟨error, -, fails⟩
  · refine ⟨own, value, ?_, is, alike_of_evaluates standard streams evaluates' evaluates is' is⟩
    rw [← evaluateOnRecord_eq deep, ran]
    rfl
  · exact absurd fails (not_fails_of_mem standard streams evaluates among error)

/-- Unless the evaluation of a source misuses the host: evaluating a source ends by itself. It fails because of a cycle
just when its borrows lead to one. Otherwise it evaluates all that they lead to once, each source after those that it
borrows and with the values that these have in the run, and comes to the value of the source; and the values in the run
are like those of separate evaluations. -/
theorem evaluateSource_follows_borrows (project : Project) (occasion : Occasion) (name : String) {index : Nat}
    (place : project.indexOf? name = some index)
    (faultless : ∀ cause, project.evaluateSource name occasion ≠ .error (.fault cause)) :
    (∀ depth, project.sources.length < depth →
      (project.evaluateOnRecord depth name occasion).map Prod.fst = project.evaluateSource name occasion) ∧
    ((∃ blamed, project.evaluateSource name occasion = .error (.borrowCycle blamed)) ↔ project.LeadsToCycle index) ∧
    (¬ project.LeadsToCycle index → ∃ value order values,
      project.evaluateSource name occasion = .ok value ∧
      (∀ depth, project.sources.length < depth → project.evaluateOnRecord depth name occasion = .ok (value, order)) ∧
      project.Evaluates occasion project.unknown order values ∧ values.known? index = some value ∧
      order.Nodup ∧ (∀ other, other ∈ order ↔ ReflTransGen project.Borrows other index) ∧
      (∀ before borrower after, order = before ++ borrower :: after →
        ∀ lender, project.Borrows lender borrower → lender ∈ before) ∧
      (∀ other ∈ order, ∃ source value store store',
        project.sources[other]? = some source ∧ values.known? other = some value ∧
        project.evaluateAlone occasion source (project.lent values source.borrows) store = .ok (value, store')) ∧
      (project.natives = .standard → (∀ stream ∈ occasion.streams, stream.2.IsWithin 0) →
        ∀ other ∈ order, ∀ name, project.indexOf? name = some other → ∃ own value,
          project.evaluateSource name occasion = .ok own ∧ values.known? other = some value ∧ own.IsAlike value)) := by
  have same (depth : Nat) (deep : project.sources.length < depth) := @evaluateOnRecord_eq project occasion depth deep name
  refine ⟨same, ?_⟩
  have deep := Nat.lt_succ_self project.sources.length
  rcases @evaluateOnRecord_cases project occasion index _ name place deep with
    ⟨value, order, values, ran, evaluates, is, reached⟩ | ⟨error, ran, fails⟩
  · have found : project.evaluateSource name occasion = .ok value := by rw [← same _ deep, ran]; rfl
    have mem : index ∈ order := (isSome_known_iff_mem evaluates).mp (by simp [is])
    have acyclic := not_leadsToCycle evaluates mem
    refine ⟨⟨fun ⟨blamed, failed⟩ => ?_, fun leads => absurd leads acyclic⟩, fun _ => ⟨value, order, values, found,
      fun depth deep' => ?_, evaluates, is, (evaluates.once project.length_unknown).1,
      fun other => ⟨reached other, fun path => mem_of_path evaluates path mem⟩,
      fun before borrower after split lender borrows => lender_before_borrower evaluates split borrows,
      fun other among => alone_of_mem evaluates project.length_unknown among,
      fun standard streams other among name place => evaluateSource_alike standard streams evaluates among place⟩⟩
    · rw [found] at failed
      cases failed
    · rw [evaluateOnRecord_deep deep' deep, ran]
  · have failed : project.evaluateSource name occasion = .error error := by rw [← same _ deep, ran]; rfl
    cases fails with
    | fault cause => exact absurd failed (faultless cause)
    | cycle blamed leads => exact ⟨⟨fun _ => leads, fun _ => ⟨blamed, failed⟩⟩, fun acyclic => absurd leads acyclic⟩

/-- The texts of a source that compares a function with what another source passes on, which is the same function. -/
def passing : List (String × String) :=
  [("main", "borrow c\nborrow a\na = c"), ("a", "borrow c\nc"), ("c", "ƒ(x) x")]

/-- The standard streams, and limits that nothing here comes near to. -/
def ordinarily : Occasion :=
  ⟨⟨1000, 10⟩, Streams.standard.bindings, none⟩

/-- The truth value that something has, if that is found. -/
def truth? (outcome : Except ProjectError Value) : Option Bool :=
  outcome.toOption.bind Value.boolean?

theorem eq_ok_of_truth? {outcome : Except ProjectError Value} {truth : Bool} (is : truth? outcome = some truth) :
    outcome = .ok (.boolean truth) := by
  match outcome with
  | .error error => cases is
  | .ok value => cases value <;> cases is; rfl

theorem passing_follows_borrows :
    ∃ project, parse ⟨0⟩ "demo" passing (Line.parse false) = .ok project ∧ project.indexOf? "main" = some 0 ∧
      (∀ cause, project.evaluateSource "main" ordinarily ≠ .error (.fault cause)) ∧
      ¬ project.LeadsToCycle 0 ∧
      ∃ order, ∃ values : Values,
        project.evaluateOnRecord (project.sources.length + 1) "main" ordinarily = .ok (.boolean true, order) ∧
        order.Nodup ∧ (∀ other, other ∈ order ↔ ReflTransGen project.Borrows other 0) ∧
        ∀ other ∈ order, ∀ name, project.indexOf? name = some other → ∃ own value,
          project.evaluateSource name ordinarily = .ok own ∧ values.known? other = some value ∧ own.IsAlike value := by
  have checked :
      (match parse ⟨0⟩ "demo" passing (Line.parse false) with
        | .ok project => project.indexOf? "main" == some 0 &&
          truth? (project.evaluateSource "main" ordinarily) == some true
        | .error _ => false) = true := by decide +kernel
  split at checked
  · rename_i project made
    rw [Bool.and_eq_true, beq_iff_eq, beq_iff_eq] at checked
    have found := eq_ok_of_truth? checked.2
    have faultless (cause : Fault) : project.evaluateSource "main" ordinarily ≠ .error (.fault cause) := by simp [found]
    obtain ⟨-, cyclic, course⟩ := evaluateSource_follows_borrows project ordinarily "main" checked.1 faultless
    have acyclic : ¬ project.LeadsToCycle 0 := fun leads => by simpa [found] using cyclic.mpr leads
    obtain ⟨value, order, values, found', recorded, -, -, once, reached, -, -, alike⟩ := course acyclic
    rw [found] at found'
    cases found'
    exact ⟨project, made, checked.1, faultless, acyclic, order, values, recorded _ (Nat.lt_succ_self _), once, reached,
      alike (sources_of_parse made).1 isWithin_standard⟩
  · simp at checked

/-- The values of the sources of some names, each from an evaluation of its own, and the scopes that all functions in
them captured. -/
def lentApart (project : Project) (occasion : Occasion) :
    List String → Store → Except ProjectError (List (String × Value) × Store)
  | [], store => .ok ([], store)
  | name :: names, store =>
    match project.indexOf? name with
    | none => lentApart project occasion names store
    | some index => do
      let (value, values) ←
        project.valueTo occasion (project.sources.length + 1) [] index ⟨project.unknown.values, store⟩
      let (borrowed, store) ← lentApart project occasion names values.store
      .ok ((name, value) :: borrowed, store)

/-- Evaluates a source alone, with values from evaluations of their own for the sources that it borrows. -/
def evaluateApart (project : Project) (name : String) (occasion : Occasion) : Except ProjectError Value :=
  match project.source? name with
  | none => .error (.unknownSource name)
  | some source => do
    let (borrowed, store) ← project.lentApart occasion source.borrows .empty
    let (value, _) ← project.evaluateAlone occasion source borrowed store
    .ok value

/-- In a run the function is one and the same; from separate evaluations come different ones. -/
theorem passed_on_function_is_shared :
    ∃ project, parse ⟨0⟩ "demo" passing (Line.parse false) = .ok project ∧
      (∀ source ∈ project.sources, ∃ value, project.evaluateSource source.name ordinarily = .ok value) ∧
      project.evaluateSource "main" ordinarily = .ok (.boolean true) ∧
      project.evaluateApart "main" ordinarily = .ok (.boolean false) := by
  have checked :
      (match parse ⟨0⟩ "demo" passing (Line.parse false) with
        | .ok project =>
          (project.sources.all fun source => (project.evaluateSource source.name ordinarily).toOption.isSome) &&
            truth? (project.evaluateSource "main" ordinarily) == some true &&
            truth? (project.evaluateApart "main" ordinarily) == some false
        | .error _ => false) = true := by decide +kernel
  split at checked
  · rename_i project made
    rw [Bool.and_eq_true, Bool.and_eq_true, beq_iff_eq, beq_iff_eq] at checked
    obtain ⟨⟨all, shared⟩, apart⟩ := checked
    refine ⟨project, made, fun source among => ?_, eq_ok_of_truth? shared, eq_ok_of_truth? apart⟩
    have some := List.all_eq_true.mp all source among
    cases found : project.evaluateSource source.name ordinarily with
    | error error => simp [found, Except.toOption] at some
    | ok value => exact ⟨value, rfl⟩
  · simp at checked

end Project

end Rivulet
