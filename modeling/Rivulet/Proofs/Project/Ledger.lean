import Rivulet.Project.Evaluation
import Rivulet.Proofs.Project.Cycles

/-!
Values on record. With a record of the sources that were evaluated, the values of a project come out as without one
(`valueOnRecord_eq`), and at whatever depth beyond the number of sources borrows may be followed to
(`valueOnRecord_deep`); so the recursion ends by itself (`evaluateOnRecord_eq`).
-/

namespace Rivulet

/-- The values found so far, and which sources were evaluated for them, in order. -/
structure Ledger where
  values : Values
  evaluated : List Nat

/-- What was found, without the record. -/
def Ledger.forget {α : Type} (found : α × Ledger) : α × Values :=
  (found.1, found.2.values)

namespace Project

/-- No value is known. -/
def unknown (project : Project) : Values :=
  ⟨project.sources.map fun _ => none, .empty⟩

/-- Finds the values of borrowed sources in order, on record. -/
def borrowedOnRecord (project : Project) (valueOf : Nat → Ledger → Except ProjectError (Value × Ledger)) :
    List String → Ledger → Except ProjectError (List (String × Value) × Ledger)
  | [], ledger => .ok ([], ledger)
  | name :: names, ledger =>
    match project.indexOf? name with
    | none => borrowedOnRecord project valueOf names ledger
    | some index => do
      let (value, ledger) ← valueOf index ledger
      let (borrowed, ledger) ← borrowedOnRecord project valueOf names ledger
      .ok ((name, value) :: borrowed, ledger)

/-- Finds the value of the source at a place, following borrows down to a depth, and notes the source if it is
evaluated. -/
def valueOnRecord (project : Project) (occasion : Occasion) :
    Nat → List Nat → Nat → Ledger → Except ProjectError (Value × Ledger)
  | 0, _, _, _ => .error .empty
  | depth + 1, visiting, index, ledger =>
    match ledger.values.values[index]?.join, project.sources[index]? with
    | some value, _ => .ok (value, ledger)
    | none, none => .error .empty
    | none, some source =>
      if visiting.contains index then .error (.borrowCycle source.name)
      else do
        let (borrowed, ledger) ←
          project.borrowedOnRecord (project.valueOnRecord occasion depth (index :: visiting)) source.borrows ledger
        let (value, store) ← project.evaluateAlone occasion source borrowed ledger.values.store
        .ok (value, ⟨⟨ledger.values.values.set index (some value), store⟩, ledger.evaluated ++ [index]⟩)

/-- Evaluates a source, following borrows down to a depth, and tells which sources were evaluated for it. -/
def evaluateOnRecord (project : Project) (depth : Nat) (name : String) (occasion : Occasion) :
    Except ProjectError (Value × List Nat) := do
  let index ← project.indexOf name
  let (value, ledger) ← project.valueOnRecord occasion depth [] index ⟨project.unknown, []⟩
  .ok (value, ledger.evaluated)

variable {project : Project} {occasion : Occasion} {depth depth' index : Nat} {visiting : List Nat}

/-! ### Forgetting the record -/

theorem borrowedOnRecord_eq {valueOf : Nat → Ledger → Except ProjectError (Value × Ledger)}
    {valueOf' : Nat → Values → Except ProjectError (Value × Values)}
    (same : ∀ index ledger, (valueOf index ledger).map Ledger.forget = valueOf' index ledger.values)
    (names : List String) (ledger : Ledger) :
    (project.borrowedOnRecord valueOf names ledger).map Ledger.forget =
      project.borrowedWith valueOf' names ledger.values := by
  induction names generalizing ledger with
  | nil => rfl
  | cons name names hypothesis =>
    unfold borrowedOnRecord borrowedWith
    cases project.indexOf? name with
    | none => exact hypothesis ledger
    | some index =>
      dsimp only
      rw [← same]
      cases valueOf index ledger with
      | error error => rfl
      | ok found =>
        have rest := hypothesis found.2
        simp only [bind, Except.bind, Except.map, Ledger.forget]
        rw [← rest]
        cases project.borrowedOnRecord valueOf names found.2 <;> rfl

/-- Values are found on record as they are without one. -/
theorem valueOnRecord_eq (visiting : List Nat) (index : Nat) (ledger : Ledger) :
    (project.valueOnRecord occasion depth visiting index ledger).map Ledger.forget =
      project.valueTo occasion depth visiting index ledger.values := by
  induction depth generalizing visiting index ledger with
  | zero => rfl
  | succ depth hypothesis =>
    unfold valueOnRecord valueTo
    cases ledger.values.values[index]?.join with
    | some value => rfl
    | none =>
      cases project.sources[index]? with
      | none => rfl
      | some source =>
        dsimp only
        split
        · rfl
        · rw [← borrowedOnRecord_eq (hypothesis (index :: visiting)) source.borrows ledger]
          cases project.borrowedOnRecord (project.valueOnRecord occasion depth (index :: visiting)) source.borrows ledger with
          | error error => rfl
          | ok found =>
            simp only [bind, Except.bind, Except.map, Ledger.forget]
            cases project.evaluateAlone occasion source found.1 found.2.values.store <;> rfl

/-! ### Going deeper -/

theorem borrowedOnRecord_congr {valueOf valueOf' : Nat → Ledger → Except ProjectError (Value × Ledger)}
    (same : ∀ index ledger, valueOf index ledger = valueOf' index ledger) :
    project.borrowedOnRecord valueOf = project.borrowedOnRecord valueOf' := by
  rw [show valueOf = valueOf' from funext fun index => funext (same index)]

/-- Sources that are being visited leave the others for deeper borrows, so going deeper makes no difference. -/
theorem valueOnRecord_deep (distinct : visiting.Nodup) (inside : ∀ other ∈ visiting, other < project.sources.length)
    (enough : project.sources.length < depth + visiting.length)
    (enough' : project.sources.length < depth' + visiting.length) (ledger : Ledger) :
    project.valueOnRecord occasion depth visiting index ledger = project.valueOnRecord occasion depth' visiting index ledger := by
  have few := length_le_of_inside distinct inside
  induction depth generalizing visiting index depth' ledger with
  | zero => omega
  | succ depth hypothesis =>
    obtain ⟨depth', rfl⟩ : ∃ less, depth' = less + 1 := ⟨depth' - 1, by omega⟩
    unfold valueOnRecord
    cases ledger.values.values[index]?.join with
    | some value => rfl
    | none =>
      cases there : project.sources[index]? with
      | none => rfl
      | some source =>
        dsimp only
        split
        · rfl
        · rename_i unvisited
          have distinct' : (index :: visiting).Nodup := List.nodup_cons.mpr ⟨by simpa using unvisited, distinct⟩
          have inside' : ∀ other ∈ index :: visiting, other < project.sources.length :=
            List.forall_mem_cons.mpr ⟨(List.getElem?_eq_some_iff.mp there).1, inside⟩
          have same := fun lender ledger => @hypothesis depth' lender (index :: visiting) distinct' inside'
            (by rw [List.length_cons]; omega) (by rw [List.length_cons]; omega) ledger
            (length_le_of_inside distinct' inside')
          rw [borrowedOnRecord_congr same]

/-- To whatever depth beyond the number of sources borrows may be followed, a source has the value that it has. -/
theorem evaluateOnRecord_eq (deep : project.sources.length < depth) (name : String) :
    (project.evaluateOnRecord depth name occasion).map Prod.fst = project.evaluateSource name occasion := by
  unfold evaluateOnRecord evaluateSource
  cases project.indexOf name with
  | error error => rfl
  | ok index =>
    have same := @valueOnRecord_deep project occasion depth (project.sources.length + 1) index [] .nil (by simp)
      (by simpa using deep) (by simp) ⟨project.unknown, []⟩
    have plain := @valueOnRecord_eq project occasion (project.sources.length + 1) [] index ⟨project.unknown, []⟩
    have plain' : _ = project.valueTo occasion (project.sources.length + 1) [] index
        ⟨project.sources.map fun _ => none, .empty⟩ := plain
    simp only [bind, Except.bind]
    rw [same, ← plain']
    cases project.valueOnRecord occasion (project.sources.length + 1) [] index ⟨project.unknown, []⟩ <;> rfl

end Project

end Rivulet
