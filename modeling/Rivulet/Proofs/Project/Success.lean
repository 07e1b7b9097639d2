import Rivulet.Proofs.Line.Layout
import Rivulet.Proofs.Meaning.Portability
import Rivulet.Proofs.Project.Cycles
import Rivulet.Proofs.Project.Values

/-!
Projects that can be evaluated. Without blocking conflicts no source borrows itself through others, so the values of
the sources are found one after the other; and as long as the functions that sources borrow are natives, no evaluation
misuses the host (`evaluateSource_succeeds`). A function that a source defines cannot be called by another one
(`borrowed_function_is_not_callable`).
-/

namespace Rivulet

namespace Project

variable {project : Project} {occasion : Occasion} {visiting : List Nat} {index lender borrower depth : Nat}
  {values : Values} {names : List String}

/-- Whatever portable values a source is given, its own value is portable. -/
def Lends (project : Project) (occasion : Occasion) (source : Source) : Prop :=
  ∀ borrowed store value store', (∀ borrow ∈ borrowed, borrow.2.IsPortable) →
    project.evaluateAlone occasion source borrowed store = .ok (value, store') → value.IsPortable

/-- The values of the sources that are borrowed are portable, as far as they are known. -/
structure Supports (project : Project) (values : Values) : Prop where
  length : values.values.length = project.sources.length
  portable : ∀ lender borrower value, project.Borrows lender borrower → values.known? lender = some value →
    value.IsPortable

/-! ### One source -/

/-- A source is evaluated alone by running its program to a value. -/
theorem evaluateAlone_eq_ok_iff {source : Source} {borrowed : List (String × Value)} {store store' : Store} {value : Value} :
    project.evaluateAlone occasion source borrowed store = .ok (value, store') ↔
      ∃ last, ((Machine.create (.ofTree source.tree) project.natives occasion.limits store).start
          ⟨occasion.streams, borrowed, occasion.trigger⟩).run occasion.limits.stepLimit = (last, .ok (.finished value)) ∧
        last.store = store' := by
  have limit : ((Machine.create (.ofTree source.tree) project.natives occasion.limits store).start
      ⟨occasion.streams, borrowed, occasion.trigger⟩).limits.stepLimit = occasion.limits.stepLimit := rfl
  unfold evaluateAlone Machine.evaluate
  dsimp only
  rw [limit]
  generalize ((Machine.create (.ofTree source.tree) project.natives occasion.limits store).start
    ⟨occasion.streams, borrowed, occasion.trigger⟩).run occasion.limits.stepLimit = outcome
  obtain ⟨last, fault | paused | finished⟩ := outcome <;> simp [and_comm]

section

variable (standard : project.natives = .standard) (streams : ∀ stream ∈ occasion.streams, stream.2.IsPortable)
  {source : Source} (formed : source.tree.WellFormed)

include standard streams formed

theorem evaluateAlone_succeeds {borrowed : List (String × Value)} (store : Store)
    (portable : ∀ borrow ∈ borrowed, borrow.2.IsPortable) :
    ∃ value store', project.evaluateAlone occasion source borrowed store = .ok (value, store') := by
  obtain ⟨value, ended⟩ := @Machine.run_start_finishes_portable source.tree formed occasion.limits store
    ⟨occasion.streams, borrowed, occasion.trigger⟩ streams portable occasion.limits.stepLimit
  rw [← standard] at ended
  exact ⟨value, _, evaluateAlone_eq_ok_iff.mpr ⟨_, Prod.ext rfl ended, rfl⟩⟩

/-- A source without definitions lends portable values. -/
theorem lends_of_plain (plain : source.tree.IsPlain) : project.Lends occasion source := by
  intro borrowed store value store' portable found
  obtain ⟨last, ran, -⟩ := evaluateAlone_eq_ok_iff.mp found
  rw [standard] at ran
  exact Machine.run_start_portable formed _ _ streams portable _ plain (congrArg Prod.snd ran)

end

/-! ### Sources that borrow -/

theorem exists_borrower_of_borrows (borrows : project.Borrows lender borrower) :
    ∃ source ∈ project.sources, ∃ other ∈ project.sources, project.sources[lender]? = some source ∧
      source.name ∈ other.borrows := by
  obtain ⟨other, name, there, among, found⟩ := borrows
  obtain ⟨bound, named, -⟩ := List.findIdx?_eq_some_iff_getElem.mp found
  refine ⟨_, List.getElem_mem bound, other, List.mem_of_getElem? there, List.getElem?_eq_getElem bound, ?_⟩
  rwa [beq_iff_eq.mp named]

/-- Sources are found a value one after the other, as long as each of them is. -/
theorem borrowedWith_succeeds {valueOf : Nat → Values → Except ProjectError (Value × Values)}
    (each : ∀ name ∈ names, ∀ lender, project.indexOf? name = some lender → ∀ values, project.Supports values →
      ∃ value values', valueOf lender values = .ok (value, values') ∧ project.Supports values' ∧ value.IsPortable)
    (supports : project.Supports values) :
    ∃ borrowed values', project.borrowedWith valueOf names values = .ok (borrowed, values') ∧
      project.Supports values' ∧ ∀ borrow ∈ borrowed, borrow.2.IsPortable := by
  induction names generalizing values with
  | nil => exact ⟨[], values, rfl, supports, by simp⟩
  | cons name names hypothesis =>
    have rest := fun values => @hypothesis values fun other among => each other (by simp [among])
    unfold borrowedWith
    split
    · exact rest values supports
    · rename_i lender found
      obtain ⟨value, between, made, supports, portable⟩ := each name (by simp) lender found values supports
      obtain ⟨borrowed, last, follow, supports, all⟩ := rest between supports
      refine ⟨(name, value) :: borrowed, last, ?_, supports, ?_⟩
      · simp only [made, follow, bind, Except.bind]
      · exact List.forall_mem_cons.mpr ⟨portable, all⟩

section

variable (standard : project.natives = .standard) (formed : ∀ source ∈ project.sources, source.tree.WellFormed)
  (streams : ∀ stream ∈ occasion.streams, stream.2.IsPortable)
  (lends : ∀ source ∈ project.sources, ∀ other ∈ project.sources, source.name ∈ other.borrows →
    project.Lends occasion source)

include standard formed streams lends

/-- A source whose borrows lead no way back is found a value, and a portable one if it is borrowed. -/
theorem valueTo_succeeds (acc : Acc project.Borrows index) (bound : index < project.sources.length)
    (distinct : visiting.Nodup) (above : ∀ other ∈ visiting, Relation.TransGen project.Borrows index other)
    (enough : project.sources.length < depth + visiting.length) (supports : project.Supports values) :
    ∃ value values', project.valueTo occasion depth visiting index values = .ok (value, values') ∧
      project.Supports values' ∧ ∀ borrower, project.Borrows index borrower → value.IsPortable := by
  induction acc generalizing visiting depth values with
  | intro index before hypothesis =>
    have acc : Acc project.Borrows index := .intro index before
    have unvisited : index ∉ visiting := fun among => not_rel_self_of_acc acc.transGen (above index among)
    have distinct' : (index :: visiting).Nodup := List.nodup_cons.mpr ⟨unvisited, distinct⟩
    have inside : ∀ other ∈ index :: visiting, other < project.sources.length :=
      List.forall_mem_cons.mpr ⟨bound, fun other among => lt_length_of_transGen (above other among)⟩
    have few := length_le_of_inside distinct' inside
    rw [List.length_cons] at few
    obtain ⟨depth, rfl⟩ : ∃ less, depth = less + 1 := ⟨depth - 1, by omega⟩
    cases known : values.known? index with
    | some value =>
      refine ⟨value, values, ?_, supports, fun borrower borrows => supports.portable index borrower value borrows known⟩
      unfold Values.known? at known
      simp only [valueTo, known]
    | none =>
      have there := List.getElem?_eq_getElem bound
      have each (name : String) (among : name ∈ project.sources[index].borrows) (lender : Nat)
          (found : project.indexOf? name = some lender) (values : Values) (supports : project.Supports values) :
          ∃ value values', project.valueTo occasion depth (index :: visiting) lender values = .ok (value, values') ∧
            project.Supports values' ∧ value.IsPortable := by
        have borrows : project.Borrows lender index := ⟨_, name, there, among, found⟩
        have inside' : lender < project.sources.length := (List.findIdx?_eq_some_iff_getElem.mp found).1
        have above' : ∀ other ∈ index :: visiting, Relation.TransGen project.Borrows lender other :=
          List.forall_mem_cons.mpr ⟨.single borrows, fun other among => .head borrows (above other among)⟩
        have enough' : project.sources.length < depth + (index :: visiting).length := by
          rw [List.length_cons]
          omega
        obtain ⟨value, values', made, supports', portable⟩ :=
          hypothesis lender borrows inside' distinct' above' enough' supports
        exact ⟨value, values', made, supports', portable index borrows⟩
      obtain ⟨borrowed, between, follow, supports', portable⟩ := borrowedWith_succeeds each supports
      have among := List.getElem_mem bound
      obtain ⟨value, store, alone⟩ := evaluateAlone_succeeds standard streams (formed _ among) between.store portable
      have bound' : index < between.values.length := supports'.length ▸ bound
      have own (borrower : Nat) (borrows : project.Borrows index borrower) : value.IsPortable := by
        obtain ⟨source, inSources, other, inSources', is, lent⟩ := exists_borrower_of_borrows borrows
        rw [there, Option.some.injEq] at is
        exact lends _ among other inSources' (is ▸ lent) borrowed between.store value store portable alone
      refine ⟨value, ⟨between.values.set index (some value), store⟩, ?_, ⟨?_, fun lender borrower found borrows is => ?_⟩, own⟩
      · have unvisited' : visiting.contains index = false := by simpa using unvisited
        unfold Values.known? at known
        simp only [valueTo, known, there, unvisited', Bool.false_eq_true, if_false, bind, Except.bind, follow, alone]
      · simpa using supports'.length
      · rw [Values.known?_set bound'] at is
        split at is
        · rename_i same
          cases is
          exact own borrower (same ▸ borrows)
        · exact supports'.portable lender borrower found borrows is

end

/-! ### Projects that have been read -/

/-- A project that has been read has the standard natives, and sources with the trees that their texts were read
into. -/
theorem sources_of_parse {id : Uuid} {name : String} {texts : List (String × String)} {parser : SourceParser}
    (made : parse id name texts parser = .ok project) :
    project.natives = .standard ∧ ∀ source ∈ project.sources, parser source.text = .ok source.tree := by
  have read (texts : List (String × String)) (sources : List Source)
      (made : (texts.mapM fun text => readSource text.1 text.2 parser) = .ok sources) :
      ∀ source ∈ sources, parser source.text = .ok source.tree := by
    induction texts generalizing sources with
    | nil =>
      cases made
      simp
    | cons text texts hypothesis =>
      rw [List.mapM_cons] at made
      simp only [bind, Except.bind, pure, Except.pure] at made
      unfold readSource Source.parse at made hypothesis
      cases parsed : parser text.2 with
      | error error => simp [parsed] at made
      | ok tree =>
        simp only [parsed] at made
        split at made
        · simp at made
        · rename_i rest found
          cases made
          exact List.forall_mem_cons.mpr ⟨parsed, hypothesis rest found⟩
  unfold parse at made
  simp only [bind, Except.bind] at made
  split at made
  · simp at made
  · rename_i sources found
    unfold create withSources at made
    split at made
    · simp at made
    · split at made
      · simp at made
      · cases made
        exact ⟨rfl, read texts sources found⟩

/-- In a project that has been read, without a blocking conflict in any source, every source can be evaluated, as long
as the sources that are borrowed lend no functions but natives. -/
theorem evaluateSource_succeeds {id : Uuid} {name : String} {texts : List (String × String)}
    (made : parse id name texts (Line.parse false) = .ok project)
    (unblocked : (project.isBlocked.run project.noAnalyses).1 = false)
    (streams : ∀ stream ∈ occasion.streams, stream.2.IsPortable)
    (lends : ∀ source ∈ project.sources, ∀ other ∈ project.sources, source.name ∈ other.borrows →
      project.Lends occasion source) {source : Source} (among : source ∈ project.sources) :
    ∃ value, project.evaluateSource source.name occasion = .ok value := by
  obtain ⟨standard, read⟩ := sources_of_parse made
  have formed (source : Source) (among : source ∈ project.sources) : source.tree.WellFormed :=
    (Line.written_of_parse (read source among)).wellFormed
  have supports : project.Supports ⟨project.sources.map fun _ => none, .empty⟩ := by
    refine ⟨by simp, fun lender borrower value _ known => ?_⟩
    simp only [Values.known?_of_none, reduceCtorEq] at known
  obtain ⟨index, place⟩ : ∃ index, project.indexOf? source.name = some index := by
    refine Option.isSome_iff_exists.mp (List.findIdx?_isSome.trans ?_)
    exact List.any_eq_true.mpr ⟨source, among, by simp⟩
  have bound : index < project.sources.length := (List.findIdx?_eq_some_iff_getElem.mp place).1
  obtain ⟨value, values, found, -⟩ := @valueTo_succeeds project occasion [] index (project.sources.length + 1) _ standard
    formed streams lends (acc_of_unblocked unblocked bound) bound .nil (by simp) (Nat.lt_succ_self _) supports
  refine ⟨value, ?_⟩
  have place' : project.indexOf source.name = .ok index := by simp only [indexOf, place]
  simp only [evaluateSource, place', bind, Except.bind, found]

theorem portable_of_standard : ∀ stream ∈ Streams.standard.bindings, stream.2.IsPortable := by
  have simple : Streams.standard.bindings.all (fun stream => stream.2.isPlain && stream.2.parts.isEmpty) = true := by
    decide +kernel
  intro stream among
  have here := List.all_eq_true.mp simple stream among
  rw [Bool.and_eq_true, List.isEmpty_iff] at here
  exact Value.isPortable_of_isData (Value.every_of_no_parts here.1 here.2)

theorem lending_succeeds :
    ∃ project, parse ⟨0⟩ "lending" [("main", "borrow half\nhalf + 1"), ("half", "1 / 2")] (Line.parse false) =
        .ok project ∧
      (project.isBlocked.run project.noAnalyses).1 = false ∧
      (∀ source ∈ project.sources, source.tree.IsPlain) ∧
      ∀ source ∈ project.sources, ∃ value,
        project.evaluateSource source.name ⟨⟨1000, 10⟩, Streams.standard.bindings, none⟩ = .ok value := by
  have checked :
      (match parse ⟨0⟩ "lending" [("main", "borrow half\nhalf + 1"), ("half", "1 / 2")] (Line.parse false) with
        | .ok project => !(project.isBlocked.run project.noAnalyses).1 &&
          project.sources.all fun source => decide source.tree.IsPlain
        | .error _ => false) = true := by decide +kernel
  split at checked
  · rename_i project made
    rw [Bool.and_eq_true, Bool.not_eq_true'] at checked
    have plain (source : Source) (among : source ∈ project.sources) : source.tree.IsPlain :=
      of_decide_eq_true (List.all_eq_true.mp checked.2 source among)
    obtain ⟨standard, read⟩ := sources_of_parse made
    refine ⟨project, made, checked.1, plain, fun source among => ?_⟩
    refine evaluateSource_succeeds made checked.1 portable_of_standard (fun source among _ _ _ => ?_) among
    exact lends_of_plain standard portable_of_standard (Line.written_of_parse (read source among)).wellFormed
      (plain source among)
  · simp at checked

/-- What succeeds after something else, succeeds after that has. -/
theorem exists_of_bind_eq_ok {ε α β : Type} {outcome : Except ε α} {next : α → Except ε β} {result : β}
    (done : outcome >>= next = .ok result) : ∃ value, outcome = .ok value ∧ next value = .ok result := by
  cases outcome with
  | ok value => exact ⟨value, rfl, done⟩
  | error error => contradiction

/-- Whether something fails with a certain error. -/
def failsWith {ε α : Type} [BEq ε] (error : ε) : Except ε α → Bool
  | .ok _ => false
  | .error found => found == error

theorem eq_error_of_failsWith {ε α : Type} [BEq ε] [LawfulBEq ε] {error : ε} {outcome : Except ε α}
    (fails : failsWith error outcome = true) : outcome = .error error := by
  cases outcome with
  | ok result => simp [failsWith] at fails
  | error found => rw [beq_iff_eq.mp fails]

/-- A source cannot call a function that another one defines. -/
theorem borrowed_function_is_not_callable :
    ∃ project, parse ⟨0⟩ "doubling" [("main", "borrow double\ndouble(3)"), ("double", "ƒ(x) x * 2")] (Line.parse false) =
        .ok project ∧
      (project.isBlocked.run project.noAnalyses).1 = false ∧
      project.evaluateSource "main" ⟨⟨1000, 10⟩, Streams.standard.bindings, none⟩ =
        .error (.fault (.notCallable (.node 4))) := by
  have checked :
      (match parse ⟨0⟩ "doubling" [("main", "borrow double\ndouble(3)"), ("double", "ƒ(x) x * 2")] (Line.parse false) with
        | .ok project => !(project.isBlocked.run project.noAnalyses).1 &&
          failsWith (.fault (.notCallable (.node 4)))
            (project.evaluateSource "main" ⟨⟨1000, 10⟩, Streams.standard.bindings, none⟩)
        | .error _ => false) = true := by decide +kernel
  split at checked
  · rename_i project made
    rw [Bool.and_eq_true, Bool.not_eq_true'] at checked
    exact ⟨project, made, checked.1, eq_error_of_failsWith checked.2⟩
  · simp at checked

end Project

end Rivulet
