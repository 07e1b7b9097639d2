import Rivulet.Proofs.Store
import Mathlib.Tactic.Cases

/-!
What the scopes of a store bind. If the scopes from some place on bind values of one kind only, and lie
inside scopes from that place on, then lookups and captures give values of that kind.
-/

namespace Rivulet

theorem Scope.mem_setBinding {bindings : List (String × Value)} {name : String} {value : Value}
    {binding : String × Value} (among : binding ∈ Scope.setBinding name value bindings) :
    binding = (name, value) ∨ binding ∈ bindings := by
  induction bindings with
  | nil => simpa [Scope.setBinding] using among
  | cons first rest hypothesis =>
    obtain ⟨stored, old⟩ := first
    unfold Scope.setBinding at among
    split at among
    · rcases List.mem_cons.mp among with rfl | there
      · exact .inl rfl
      · exact .inr (by simp [there])
    · rcases List.mem_cons.mp among with rfl | there
      · exact .inr (by simp)
      · rcases hypothesis there with rfl | old
        · exact .inl rfl
        · exact .inr (by simp [old])

/-- Binding names one after the other binds no other values than those given. -/
theorem Scope.mem_setBindings {inputs bound : List (String × Value)} {binding : String × Value}
    (among : binding ∈ inputs.foldl (fun bound input => Scope.setBinding input.1 input.2 bound) bound) :
    binding ∈ inputs ∨ binding ∈ bound := by
  induction inputs generalizing bound with
  | nil => exact .inr among
  | cons input inputs hypothesis =>
    rcases hypothesis among with later | before
    · exact .inl (by simp [later])
    · rcases Scope.mem_setBinding before with rfl | old
      · exact .inl (by simp)
      · exact .inr old

theorem mem_of_lookup {bindings : List (String × Value)} {name : String} {value : Value}
    (found : bindings.lookup name = some value) : (name, value) ∈ bindings := by
  obtain ⟨before, after, rfl, _⟩ := List.lookup_eq_some_iff.mp found
  simp

/-- A scope that binds values of a kind only, and lies inside none or inside one from a place on. -/
structure Scope.Holds (base : ScopeId) (kind : Value → Prop) (scope : Scope) : Prop where
  bindings : ∀ binding ∈ scope.bindings, kind binding.2
  parent : ∀ outer, scope.parent = some outer → base ≤ outer

namespace Store

/-- From a place on, all scopes bind values of a kind only, and lie inside scopes from that place on. -/
def Holds (base : ScopeId) (kind : Value → Prop) (store : Store) : Prop :=
  ∀ id found, base ≤ id → store.scopes[id]? = some found → found.Holds base kind

variable {base id : ScopeId} {kind : Value → Prop} {store : Store}

/-- A store without scopes from a place on binds nothing there. -/
theorem holds_of_size_le (past : store.scopes.size ≤ base) : store.Holds base kind := by
  intro id found later there
  exact absurd (Nat.lt_of_le_of_lt (Nat.le_trans past later) (lt_size_of_getElem? there)) (Nat.lt_irrefl _)

theorem Holds.add (holds : store.Holds base kind) {scope : Scope} (addedToo : scope.Holds base kind) :
    (store.add scope).2.Holds base kind := by
  intro id found later there
  by_cases last : id = store.scopes.size
  · subst last
    rw [getElem?_add_self, Option.some.injEq] at there
    rwa [← there]
  · have old : store.scopes[id]? = some found := by
      simpa [Store.add, Array.getElem?_push, last] using there
    exact holds id found later old

theorem Holds.bindNew (holds : store.Holds base kind) {own : ScopeId} {name : String} {value : Value}
    (valueToo : kind value) : (store.bindNew own name value).Holds base kind := by
  intro id found later there
  rw [getElem?_bindNew] at there
  obtain ⟨before, old, rfl⟩ := Option.map_eq_some_iff.mp there
  have held := holds id before later old
  split
  · refine ⟨?_, held.parent⟩
    intro binding among
    rcases List.mem_cons.mp among with rfl | rest
    · exact valueToo
    · exact held.bindings binding rest
  · exact held

theorem Holds.rebind (holds : store.Holds base kind) {own : ScopeId} {name : String} {value : Value}
    (valueToo : kind value) : (store.rebind own name value).Holds base kind := by
  intro id found later there
  rw [getElem?_rebind] at there
  obtain ⟨before, old, rfl⟩ := Option.map_eq_some_iff.mp there
  have held := holds id before later old
  split
  · refine ⟨?_, held.parent⟩
    intro binding among
    rcases Scope.mem_setBinding among with rfl | rest
    · exact valueToo
    · exact held.bindings binding rest
  · exact held

theorem Holds.rebinds (holds : store.Holds base kind) {own : ScopeId} {bindings : List (String × Value)}
    (valuesToo : ∀ binding ∈ bindings, kind binding.2) :
    (bindings.foldl (fun store binding => store.rebind own binding.1 binding.2) store).Holds base kind := by
  induction bindings generalizing store with
  | nil => exact holds
  | cons binding rest hypothesis =>
    exact hypothesis (holds.rebind (valuesToo binding (by simp))) fun other inRest => valuesToo other (by simp [inRest])

theorem Holds.parent? (holds : store.Holds base kind) (later : base ≤ id) {outer : ScopeId}
    (around : store.parent? id = some outer) : base ≤ outer := by
  obtain ⟨found, there, inside⟩ := Option.bind_eq_some_iff.mp around
  exact (holds id found later there).parent outer inside

theorem Holds.local? (holds : store.Holds base kind) (later : base ≤ id) {name : String} {value : Value}
    (bound : store.local? id name = some value) : kind value := by
  obtain ⟨found, there, among⟩ := Option.bind_eq_some_iff.mp bound
  exact (holds id found later there).bindings _ (mem_of_lookup among)

theorem Holds.lookup (holds : store.Holds base kind) (later : base ≤ id) {name : String} {value : Value}
    (found : store.lookup id name = some value) : kind value := by
  have inside : ∀ count id, base ≤ id → store.lookupFrom name count id = some value → kind value := by
    intro count
    induction count with
    | zero => simp [lookupFrom]
    | succ count hypothesis =>
      intro id later found
      unfold lookupFrom at found
      split at found
      · rename_i bound
        cases found
        exact holds.local? later bound
      · split at found
        · simp at found
        · rename_i outer around
          exact hypothesis outer (holds.parent? later around) found
  exact inside _ id later found

theorem Holds.chainFrom (holds : store.Holds base kind) (later : base ≤ id) (count : Nat) :
    ∀ layer ∈ store.chainFrom count id, base ≤ layer := by
  induction count generalizing id with
  | zero => simp [Store.chainFrom]
  | succ count hypothesis =>
    intro layer among
    unfold Store.chainFrom at among
    rcases List.mem_cons.mp among with rfl | rest
    · exact later
    · split at rest
      · simp at rest
      · rename_i outer around
        exact hypothesis (holds.parent? later around) layer rest

theorem Holds.flatten (holds : store.Holds base kind) {layers : List ScopeId}
    (later : ∀ layer ∈ layers, base ≤ layer) : ∀ binding ∈ store.flatten layers, kind binding.2 := by
  induction layers with
  | nil => simp [Store.flatten]
  | cons layer layers hypothesis =>
    intro binding among
    unfold Store.flatten at among
    rcases List.mem_append.mp among with own | outer
    · cases there : store.scopes[layer]? with
      | none => simp [there] at own
      | some found =>
        simp only [there, Option.map_some, Option.getD_some] at own
        exact (holds layer found (later layer (by simp)) there).bindings binding own
    · have rest := (List.mem_filter.mp outer).1
      exact hypothesis (fun other among => later other (by simp [among])) binding rest

theorem Holds.capture (holds : store.Holds base kind) (later : base ≤ id) :
    (store.capture id).2.Holds base kind := by
  have layers : ∀ layer ∈ store.chain id, base ≤ layer := holds.chainFrom later _
  refine holds.add ⟨holds.flatten fun layer among => layers layer (List.dropLast_subset _ among), ?_⟩
  intro outer around
  cases around
  cases last : (store.chain id).getLast? with
  | none => exact later
  | some layer => exact layers layer (List.mem_of_getLast? last)

end Store

end Rivulet
