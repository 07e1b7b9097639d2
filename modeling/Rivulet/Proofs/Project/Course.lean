import Rivulet.Proofs.Machine.Bystanders
import Rivulet.Proofs.Project.Cycles
import Rivulet.Proofs.Project.Ledger
import Rivulet.Proofs.Project.Values

/-!
In which order sources are evaluated. A source is evaluated once all that it borrows have been, and with their values
(`Project.Evaluates`). Finding the value of a source evaluates what its borrows lead to, each source once, or fails:
because the evaluation of some source does, or because borrows that it leads to make a cycle (`accounts_valueOnRecord`).
-/

namespace Rivulet

namespace Project

open Relation

/-- The values of the sources of some names, as far as there are such sources and their values are known. -/
def lent (project : Project) (values : Values) (names : List String) : List (String × Value) :=
  names.filterMap fun name => (project.indexOf? name).bind fun lender => (values.known? lender).map (name, ·)

/-- Sources are evaluated one after the other, none whose value is known, and each with the values of the sources that
it borrows, which are all known by then. -/
inductive Evaluates (project : Project) (occasion : Occasion) (start : Values) : List Nat → Values → Prop where
  | nil : project.Evaluates occasion start [] start
  | snoc {order : List Nat} {values : Values} {index : Nat} {source : Source} {value : Value} {store : Store}
    (before : project.Evaluates occasion start order values) (there : project.sources[index]? = some source)
    (fresh : values.known? index = none)
    (known : ∀ lender, project.Borrows lender index → (values.known? lender).isSome)
    (alone : project.evaluateAlone occasion source (project.lent values source.borrows) values.store = .ok (value, store)) :
    project.Evaluates occasion start (order ++ [index]) ⟨values.values.set index (some value), store⟩

variable {project : Project} {occasion : Occasion} {start values values' : Values} {order later : List Nat}
  {index lender borrower other depth : Nat} {visiting : List Nat} {names : List String}

/-! ### Courses of evaluations -/

namespace Evaluates

theorem length (evaluates : project.Evaluates occasion start order values)
    (sized : start.values.length = project.sources.length) : values.values.length = project.sources.length := by
  induction evaluates with
  | nil => exact sized
  | snoc before there fresh known alone hypothesis => simpa using hypothesis

theorem trans (first : project.Evaluates occasion start order values)
    (second : project.Evaluates occasion values later values') : project.Evaluates occasion start (order ++ later) values' := by
  induction second with
  | nil => simpa using first
  | snoc before there fresh known alone hypothesis =>
    rw [← List.append_assoc]
    exact hypothesis.snoc there fresh known alone

variable (evaluates : project.Evaluates occasion start order values) (sized : start.values.length = project.sources.length)

include evaluates sized

/-- A value is known if it was known before or its source is evaluated. -/
theorem isSome_known_iff : (values.known? other).isSome ↔ (start.known? other).isSome ∨ other ∈ order := by
  induction evaluates with
  | nil => simp
  | @snoc order values index source value store before there fresh known alone hypothesis =>
    have bound : index < values.values.length := by
      rw [before.length sized]
      exact (List.getElem?_eq_some_iff.mp there).1
    rw [Values.known?_set bound, List.mem_append, List.mem_singleton, ← or_assoc, ← hypothesis]
    split
    · rename_i same
      simp [same]
    · rename_i apart
      simp [apart]

/-- Values that are known stay, and no others are found but those of the sources that are evaluated. -/
theorem keeps (apart : ∀ other ∈ visiting, other ∉ order) : start.Keeps visiting values := by
  induction evaluates with
  | nil => exact .refl start
  | @snoc order values index source value store before there fresh known alone hypothesis =>
    have bound : index < values.values.length := by
      rw [before.length sized]
      exact (List.getElem?_eq_some_iff.mp there).1
    have earlier := hypothesis fun other among inside => apart other among (by simp [inside])
    refine ⟨by simp [earlier.length], fun other old is => ?_, fun other among => ?_⟩
    · rw [Values.known?_set bound, if_neg]
      · exact earlier.known other old is
      · rintro rfl
        simp [earlier.known _ old is] at fresh
    · rw [Values.known?_set bound, if_neg]
      · exact earlier.visited other among
      · rintro rfl
        exact apart _ among (by simp)

/-- No source is evaluated twice, nor one whose value was known before. -/
theorem once : order.Nodup ∧ ∀ other ∈ order, start.known? other = none := by
  induction evaluates with
  | nil => exact ⟨.nil, by simp⟩
  | @snoc order values index source value store before there fresh known alone hypothesis =>
    obtain ⟨distinct, unknown⟩ := hypothesis
    have never : ¬ ((start.known? index).isSome ∨ index ∈ order) := by
      rw [← before.isSome_known_iff sized, fresh]
      simp
    obtain ⟨unknown', outside⟩ := not_or.mp never
    refine ⟨List.concat_eq_append ▸ distinct.concat outside, fun other among => ?_⟩
    rcases List.mem_append.mp among with earlier | last
    · exact unknown other earlier
    · rw [List.mem_singleton.mp last]
      simpa using unknown'

omit sized in
/-- How a source was evaluated. -/
theorem exists_before (among : other ∈ order) : ∃ earlier between source value store,
    project.Evaluates occasion start earlier between ∧ project.sources[other]? = some source ∧
      between.known? other = none ∧ (∀ lender, project.Borrows lender other → (between.known? lender).isSome) ∧
      project.evaluateAlone occasion source (project.lent between source.borrows) between.store = .ok (value, store) := by
  induction evaluates with
  | nil => simp at among
  | @snoc order values index source value store before there fresh known alone hypothesis =>
    rcases List.mem_append.mp among with earlier | last
    · exact hypothesis earlier
    · rw [List.mem_singleton.mp last]
      exact ⟨order, values, source, value, store, before, there, fresh, known, alone⟩

/-- A source is evaluated after those that it borrows. -/
theorem lender_before {before after : List Nat} (split : order = before ++ borrower :: after)
    (borrows : project.Borrows lender borrower) : (start.known? lender).isSome ∨ lender ∈ before := by
  induction evaluates generalizing after with
  | nil => simp at split
  | @snoc order values index source value store earlier there fresh known alone hypothesis =>
    rcases List.eq_nil_or_concat after with rfl | ⟨middle, last, rfl⟩
    · obtain ⟨rfl, same⟩ := List.append_inj' split rfl
      cases same
      exact (earlier.isSome_known_iff sized).mp (known lender borrows)
    · rw [List.concat_eq_append, ← List.cons_append, ← List.append_assoc] at split
      exact hypothesis (List.append_inj' split rfl).1

end Evaluates

/-! ### Finding values -/

/-- A source borrows, directly or through others, a source that borrows itself through others. -/
def LeadsToCycle (project : Project) (index : Nat) : Prop :=
  ∃ other, ReflTransGen project.Borrows other index ∧ TransGen project.Borrows other other

/-- Why the value of a source cannot be found: the evaluation of a source fails that it leads to, or it leads to a
cycle. -/
inductive Fails (project : Project) (occasion : Occasion) (index : Nat) (start : Values) : ProjectError → Prop where
  | fault {order : List Nat} {values : Values} {other : Nat} {source : Source} (cause : Fault)
      (before : project.Evaluates occasion start order values) (leads : ReflTransGen project.Borrows other index)
      (there : project.sources[other]? = some source) (fresh : values.known? other = none)
      (known : ∀ lender, project.Borrows lender other → (values.known? lender).isSome)
      (failed : project.evaluateAlone occasion source (project.lent values source.borrows) values.store =
        .error (.fault cause)) :
      project.Fails occasion index start (.fault cause)
  | cycle (name : String) (leads : project.LeadsToCycle index) : project.Fails occasion index start (.borrowCycle name)

theorem Fails.above {error : ProjectError} (fails : project.Fails occasion lender start error)
    (borrows : project.Borrows lender borrower) : project.Fails occasion borrower start error := by
  cases fails with
  | fault cause before leads there fresh known failed =>
    exact .fault cause before (leads.tail borrows) there fresh known failed
  | cycle name leads =>
    obtain ⟨other, path, cycle⟩ := leads
    exact .cycle name ⟨other, path.tail borrows, cycle⟩

theorem Fails.after {error : ProjectError} (evaluates : project.Evaluates occasion start order values)
    (fails : project.Fails occasion index values error) : project.Fails occasion index start error := by
  cases fails with
  | fault cause before leads there fresh known failed =>
    exact .fault cause (evaluates.trans before) leads there fresh known failed
  | cycle name leads => exact .cycle name leads

/-- Some sources have been evaluated for which a condition holds, and this is on record. -/
def Proceeds (project : Project) (occasion : Occasion) (reach : Nat → Prop) (ledger ledger' : Ledger) : Prop :=
  ∃ more, ledger'.evaluated = ledger.evaluated ++ more ∧ project.Evaluates occasion ledger.values more ledger'.values ∧
    ∀ other ∈ more, reach other

/-- The value of a source is found, after sources have been evaluated for which a condition holds, or it cannot be. -/
def Accounts (project : Project) (occasion : Occasion) (reach : Nat → Prop) (index : Nat) (ledger : Ledger)
    (result : Except ProjectError (Value × Ledger)) : Prop :=
  (∃ value ledger', result = .ok (value, ledger') ∧ project.Proceeds occasion reach ledger ledger' ∧
    ledger'.values.known? index = some value) ∨
  ∃ error, result = .error error ∧ project.Fails occasion index ledger.values error

variable {reach reach' : Nat → Prop} {ledger ledger' ledger'' : Ledger}

theorem Proceeds.refl (ledger : Ledger) : project.Proceeds occasion reach ledger ledger :=
  ⟨[], by simp, .nil, by simp⟩

theorem Proceeds.trans (first : project.Proceeds occasion reach ledger ledger')
    (second : project.Proceeds occasion reach ledger' ledger'') : project.Proceeds occasion reach ledger ledger'' := by
  obtain ⟨more, recorded, evaluates, reached⟩ := first
  obtain ⟨more', recorded', evaluates', reached'⟩ := second
  refine ⟨more ++ more', by rw [recorded', recorded, List.append_assoc], evaluates.trans evaluates', fun other among => ?_⟩
  rcases List.mem_append.mp among with earlier | later
  · exact reached other earlier
  · exact reached' other later

theorem Proceeds.mono (proceeds : project.Proceeds occasion reach ledger ledger')
    (wider : ∀ other, reach other → reach' other) : project.Proceeds occasion reach' ledger ledger' := by
  obtain ⟨more, recorded, evaluates, reached⟩ := proceeds
  exact ⟨more, recorded, evaluates, fun other among => wider other (reached other among)⟩

theorem Proceeds.length (proceeds : project.Proceeds occasion reach ledger ledger')
    (sized : ledger.values.values.length = project.sources.length) :
    ledger'.values.values.length = project.sources.length := by
  obtain ⟨more, -, evaluates, -⟩ := proceeds
  exact evaluates.length sized

theorem Proceeds.keeps (proceeds : project.Proceeds occasion reach ledger ledger')
    (sized : ledger.values.values.length = project.sources.length) (apart : ∀ other ∈ visiting, ¬ reach other) :
    ledger.values.Keeps visiting ledger'.values := by
  obtain ⟨more, -, evaluates, reached⟩ := proceeds
  exact evaluates.keeps sized fun other among inside => apart other among (reached other inside)

theorem Proceeds.fails {error : ProjectError} (proceeds : project.Proceeds occasion reach ledger ledger')
    (fails : project.Fails occasion index ledger'.values error) : project.Fails occasion index ledger.values error := by
  obtain ⟨more, -, evaluates, -⟩ := proceeds
  exact fails.after evaluates

/-- The values of the sources that a source borrows are found one after the other, unless one of them cannot be. -/
theorem accounts_borrowedOnRecord {valueOf : Nat → Ledger → Except ProjectError (Value × Ledger)}
    (each : ∀ name ∈ names, ∀ lender, project.indexOf? name = some lender → project.Borrows lender index ∧
      ∀ ledger : Ledger, ledger.values.values.length = project.sources.length →
        project.Accounts occasion reach lender ledger (valueOf lender ledger))
    (sized : ledger.values.values.length = project.sources.length) :
    (∃ ledger', project.borrowedOnRecord valueOf names ledger = .ok (project.lent ledger'.values names, ledger') ∧
      project.Proceeds occasion reach ledger ledger' ∧
      ∀ name ∈ names, ∀ lender, project.indexOf? name = some lender → (ledger'.values.known? lender).isSome) ∨
    ∃ error, project.borrowedOnRecord valueOf names ledger = .error error ∧
      project.Fails occasion index ledger.values error := by
  induction names generalizing ledger with
  | nil => exact .inl ⟨ledger, rfl, .refl ledger, by simp⟩
  | cons name names hypothesis =>
    have rest := fun ledger => @hypothesis ledger fun other among => each other (by simp [among])
    unfold borrowedOnRecord
    cases found : project.indexOf? name with
    | none =>
      rcases rest ledger sized with ⟨ledger', ran, proceeds, known⟩ | failed
      · refine .inl ⟨ledger', ?_, proceeds, ?_⟩
        · simpa [lent, found] using ran
        · exact List.forall_mem_cons.mpr ⟨fun lender is => by simp [found] at is, known⟩
      · exact .inr failed
    | some lender =>
      obtain ⟨borrows, accounts⟩ := each name (by simp) lender found
      rcases accounts ledger sized with ⟨value, between, ran, proceeds, is⟩ | ⟨error, ran, fails⟩
      · have sized' := proceeds.length sized
        rcases rest between sized' with ⟨ledger', ran', proceeds', known⟩ | ⟨error, ran', fails⟩
        · have keeps : between.values.Keeps [] ledger'.values := proceeds'.keeps sized' (by simp)
          have kept := keeps.known lender value is
          refine .inl ⟨ledger', ?_, proceeds.trans proceeds', ?_⟩
          · simp [ran, ran', bind, Except.bind, lent, found, kept]
          · refine List.forall_mem_cons.mpr ⟨fun other same => ?_, known⟩
            rw [found, Option.some.injEq] at same
            simp [← same, kept]
        · exact .inr ⟨error, by simp [ran, ran', bind, Except.bind], proceeds.fails fails⟩
      · exact .inr ⟨error, by simp [ran, bind, Except.bind], fails.above borrows⟩

/-- If the evaluation of a source fails, it misused the host. -/
theorem fault_of_evaluateAlone {source : Source} {borrowed : List (String × Value)} {store : Store} {error : ProjectError}
    (failed : project.evaluateAlone occasion source borrowed store = .error error) : ∃ cause, error = .fault cause := by
  unfold evaluateAlone Machine.evaluate at failed
  dsimp only at failed
  split at failed
  · cases failed
    exact ⟨_, rfl⟩
  · rename_i machine suspended
    have quiet : ((Machine.create (.ofTree source.tree) project.natives occasion.limits store).start
      ⟨occasion.streams, borrowed, occasion.trigger⟩).IsQuiet := Machine.isQuiet_of_unobserved rfl rfl
    exact absurd (congrArg Prod.snd suspended) (quiet.run _).2
  · cases failed

/-- A source is evaluated once what it borrows has been. -/
theorem Proceeds.evaluated {source : Source} {value : Value} {store : Store}
    (proceeds : project.Proceeds occasion (fun other => TransGen project.Borrows other index ∧ other ∉ index :: visiting)
      ledger ledger')
    (sized : ledger.values.values.length = project.sources.length) (fresh : ledger'.values.known? index = none)
    (unvisited : index ∉ visiting) (there : project.sources[index]? = some source)
    (known : ∀ lender, project.Borrows lender index → (ledger'.values.known? lender).isSome)
    (alone : project.evaluateAlone occasion source (project.lent ledger'.values source.borrows) ledger'.values.store =
      .ok (value, store)) :
    let last : Ledger := ⟨⟨ledger'.values.values.set index (some value), store⟩, ledger'.evaluated ++ [index]⟩
    project.Proceeds occasion (fun other => ReflTransGen project.Borrows other index ∧ other ∉ visiting) ledger last ∧
      last.values.known? index = some value := by
  have bound : index < ledger'.values.values.length := by
    rw [proceeds.length sized]
    exact (List.getElem?_eq_some_iff.mp there).1
  obtain ⟨more, recorded, evaluates, reached⟩ := proceeds
  refine ⟨⟨more ++ [index], by rw [recorded, List.append_assoc], evaluates.snoc there fresh known alone,
    fun other among => ?_⟩, by rw [Values.known?_set bound, if_pos rfl]⟩
  rcases List.mem_append.mp among with earlier | last
  · obtain ⟨path, apart⟩ := reached other earlier
    exact ⟨path.to_reflTransGen, fun among => apart (by simp [among])⟩
  · rw [List.mem_singleton.mp last]
    exact ⟨.refl, unvisited⟩

/-- A source whose value is not known is evaluated once those that it borrows have been, or one of them fails. -/
theorem accounts_unvisited {source : Source} {valueOf : Nat → Ledger → Except ProjectError (Value × Ledger)}
    (there : project.sources[index]? = some source) (fresh : ledger.values.known? index = none)
    (unvisited : index ∉ visiting) (sized : ledger.values.values.length = project.sources.length)
    (each : ∀ lender, project.Borrows lender index → ∀ ledger : Ledger,
      ledger.values.values.length = project.sources.length →
        project.Accounts occasion (fun other => TransGen project.Borrows other index ∧ other ∉ index :: visiting) lender
          ledger (valueOf lender ledger)) :
    project.Accounts occasion (fun other => ReflTransGen project.Borrows other index ∧ other ∉ visiting) index ledger (do
      let (borrowed, ledger) ← project.borrowedOnRecord valueOf source.borrows ledger
      let (value, store) ← project.evaluateAlone occasion source borrowed ledger.values.store
      .ok (value, ⟨⟨ledger.values.values.set index (some value), store⟩, ledger.evaluated ++ [index]⟩)) := by
  have each' (name : String) (among : name ∈ source.borrows) (lender : Nat) (found : project.indexOf? name = some lender) :=
    have borrows : project.Borrows lender index := ⟨source, name, there, among, found⟩
    And.intro borrows (each lender borrows)
  rcases accounts_borrowedOnRecord each' sized with ⟨between, ran, proceeds, found⟩ | ⟨error, ran, failed⟩
  · have known (lender : Nat) (borrows : project.Borrows lender index) : (between.values.known? lender).isSome := by
      obtain ⟨source, name, is, among, place⟩ := borrows
      rw [there, Option.some.injEq] at is
      exact found name (is ▸ among) lender place
    have unknown : between.values.known? index = none := by
      have keeps : ledger.values.Keeps [index] between.values := proceeds.keeps sized (by simp)
      rw [keeps.visited index (by simp)]
      exact fresh
    cases alone : project.evaluateAlone occasion source (project.lent between.values source.borrows)
        between.values.store with
    | error error =>
      obtain ⟨cause, rfl⟩ := fault_of_evaluateAlone alone
      refine .inr ⟨.fault cause, by simp [ran, alone, bind, Except.bind], ?_⟩
      exact proceeds.fails (.fault cause .nil .refl there unknown known alone)
    | ok outcome =>
      obtain ⟨proceeds, is⟩ := proceeds.evaluated sized unknown unvisited there known alone
      exact .inl ⟨outcome.1, _, by simp [ran, alone, bind, Except.bind], proceeds, is⟩
  · exact .inr ⟨error, by simp [ran, bind, Except.bind], failed⟩

/-- Finding the value of a source evaluates what its borrows lead to, or fails because of what they lead to. -/
theorem accounts_valueOnRecord (bound : index < project.sources.length) (distinct : visiting.Nodup)
    (above : ∀ other ∈ visiting, TransGen project.Borrows index other)
    (enough : project.sources.length < depth + visiting.length)
    (sized : ledger.values.values.length = project.sources.length) :
    project.Accounts occasion (fun other => ReflTransGen project.Borrows other index ∧ other ∉ visiting) index ledger
      (project.valueOnRecord occasion depth visiting index ledger) := by
  have few := length_le_of_inside distinct fun other among => lt_length_of_transGen (above other among)
  induction depth generalizing visiting index ledger with
  | zero => omega
  | succ depth hypothesis =>
    unfold valueOnRecord
    have there := List.getElem?_eq_getElem bound
    cases fresh : ledger.values.values[index]?.join with
    | some value => exact .inl ⟨value, ledger, rfl, .refl ledger, fresh⟩
    | none =>
      rw [there]
      dsimp only
      by_cases visited : index ∈ visiting
      · rw [if_pos (by simpa using visited)]
        exact .inr ⟨_, rfl, .cycle _ ⟨index, .refl, above index visited⟩⟩
      · rw [if_neg (by simpa using visited)]
        refine accounts_unvisited there fresh visited sized fun lender borrows ledger sized => ?_
        have distinct' : (index :: visiting).Nodup := List.nodup_cons.mpr ⟨visited, distinct⟩
        have above' : ∀ other ∈ index :: visiting, TransGen project.Borrows lender other :=
          List.forall_mem_cons.mpr ⟨.single borrows, fun other among => .head borrows (above other among)⟩
        have few' := length_le_of_inside distinct' fun other among => lt_length_of_transGen (above' other among)
        have enough' : project.sources.length < depth + (index :: visiting).length := by
          rw [List.length_cons]
          omega
        have bound' : lender < project.sources.length := by
          obtain ⟨_, _, -, -, found⟩ := borrows
          exact (List.findIdx?_eq_some_iff_getElem.mp found).1
        rcases hypothesis bound' distinct' above' enough' sized few' with ⟨value, ledger', ran, proceeds, is⟩ | failed
        · exact .inl ⟨value, ledger', ran, proceeds.mono fun other reach => ⟨.tail' reach.1 borrows, reach.2⟩, is⟩
        · exact .inr failed

/-! ### From the beginning -/

theorem known?_unknown (project : Project) (index : Nat) : project.unknown.known? index = none :=
  Values.known?_of_none project.sources .empty index

theorem length_unknown (project : Project) : project.unknown.values.length = project.sources.length := by
  simp [unknown]

section

variable (evaluates : project.Evaluates occasion project.unknown order values)

include evaluates

theorem isSome_known_iff_mem : (values.known? other).isSome ↔ other ∈ order := by
  rw [evaluates.isSome_known_iff project.length_unknown, known?_unknown]
  simp

theorem lender_before_borrower {before after : List Nat} (split : order = before ++ borrower :: after)
    (borrows : project.Borrows lender borrower) : lender ∈ before := by
  have known := evaluates.lender_before project.length_unknown split borrows
  simpa [known?_unknown] using known

/-- What is evaluated does not lead to a cycle. -/
theorem acc_of_mem (among : other ∈ order) : Acc project.Borrows other := by
  induction evaluates generalizing other with
  | nil => simp at among
  | @snoc order values index source value store before there fresh known alone hypothesis =>
    rcases List.mem_append.mp among with earlier | last
    · exact hypothesis earlier
    · rw [List.mem_singleton.mp last]
      exact .intro index fun lender borrows => hypothesis ((isSome_known_iff_mem before).mp (known lender borrows))

/-- With a source all are evaluated that it leads to. -/
theorem mem_of_path (path : ReflTransGen project.Borrows other index) (among : index ∈ order) : other ∈ order := by
  induction path using ReflTransGen.head_induction_on with
  | refl => exact among
  | @head lender borrower borrows path hypothesis =>
    obtain ⟨before, after, split⟩ := List.append_of_mem hypothesis
    rw [split]
    exact List.mem_append_left _ (lender_before_borrower evaluates split borrows)

theorem not_leadsToCycle (among : index ∈ order) : ¬ project.LeadsToCycle index := by
  rintro ⟨other, path, cycle⟩
  exact not_rel_self_of_acc (acc_of_mem evaluates (mem_of_path evaluates path among)).transGen cycle

end

end Project

end Rivulet
