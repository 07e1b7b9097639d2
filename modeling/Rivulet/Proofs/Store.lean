import Rivulet.Natives
import Mathlib.Order.Defs.Unbundled
import Mathlib.Tactic.Cases

/-!
How stores grow. Scopes are added and never removed; of the scopes that exist, a part of an
evaluation leaves all alone (`Store.Keeps`), or all but one (`Store.KeepsOthers`), or it adds bindings
to one of them at most (`Store.Extends`). All three are preorders. Natives may bind names in
outermost scopes as well, so in general all this only goes for the scopes that lie in others
(`Store.KeepsInner`, `Store.KeepsOthersInner`, `Store.ExtendsInner`).
-/

namespace Rivulet

theorem Scope.lookup_setBinding (bindings : List (String × Value)) (name other : String)
    (value : Value) :
    (Scope.setBinding name value bindings).lookup other =
      if other = name then some value else bindings.lookup other := by
  induction bindings with
  | nil =>
    by_cases same : other = name
    · simp [Scope.setBinding, same]
    · have apart : (other == name) = false := by simpa using same
      simp [Scope.setBinding, List.lookup_cons, same, apart]
  | cons binding rest hypothesis =>
    obtain ⟨stored, old⟩ := binding
    by_cases here : name = stored
    · subst here
      by_cases same : other = name
      · simp [Scope.setBinding, same]
      · have apart : (other == name) = false := by simpa using same
        simp [Scope.setBinding, List.lookup_cons, same, apart]
    · by_cases there : other = stored
      · subst there
        simp [Scope.setBinding, here, Ne.symm here]
      · have apart : (other == stored) = false := by simpa using there
        simp [Scope.setBinding, here, List.lookup_cons, apart, hypothesis]

namespace Store

variable {store store' : Store} {own id : ScopeId} {found : Scope}

/-! ### Writing and reading -/

@[simp]
theorem fst_add (store : Store) (scope : Scope) : (store.add scope).1 = store.scopes.size :=
  rfl

@[simp]
theorem size_add {N : Type} (store : Store N) (scope : Scope N) :
    (store.add scope).2.scopes.size = store.scopes.size + 1 := by
  simp [add]

theorem lt_size_of_getElem? (there : store.scopes[id]? = some found) : id < store.scopes.size := by
  obtain ⟨bound, _⟩ := Array.getElem?_eq_some_iff.mp there
  exact bound

theorem getElem?_add_of_old (scope : Scope) (there : store.scopes[id]? = some found) :
    (store.add scope).2.scopes[id]? = some found := by
  have other : id ≠ store.scopes.size := Nat.ne_of_lt (lt_size_of_getElem? there)
  simpa [add, Array.getElem?_push, other] using there

@[simp]
theorem getElem?_add_self (store : Store) (scope : Scope) :
    (store.add scope).2.scopes[store.scopes.size]? = some scope := by
  simp [add]

@[simp]
theorem parent?_add_self (store : Store) (scope : Scope) :
    (store.add scope).2.parent? store.scopes.size = scope.parent := by
  simp only [parent?, getElem?_add_self, Option.bind_some]

@[simp]
theorem local?_add_self (store : Store) (scope : Scope) (name : String) :
    (store.add scope).2.local? store.scopes.size name = scope.bindings.lookup name := by
  simp only [local?, getElem?_add_self, Option.bind_some, Scope.find?]

theorem getElem?_bindNew (store : Store) (own id : ScopeId) (name : String) (value : Value) :
    (store.bindNew own name value).scopes[id]? =
      (store.scopes[id]?).map fun found => if own = id then found.bind name value else found := by
  simp only [bindNew, Array.getElem?_modify]
  split <;> simp_all

theorem getElem?_rebind (store : Store) (own id : ScopeId) (name : String) (value : Value) :
    (store.rebind own name value).scopes[id]? =
      (store.scopes[id]?).map fun found => if own = id then found.rebind name value else found := by
  simp only [rebind, Array.getElem?_modify]
  split <;> simp_all

@[simp]
theorem size_rebind (store : Store) (own : ScopeId) (name : String) (value : Value) :
    (store.rebind own name value).scopes.size = store.scopes.size := by
  simp [rebind]

theorem size_rebinds (own : ScopeId) (bindings : List (String × Value)) (store : Store) :
    (bindings.foldl (fun store binding => store.rebind own binding.1 binding.2) store).scopes.size =
      store.scopes.size := by
  induction bindings generalizing store with
  | nil => rfl
  | cons binding rest hypothesis => simp [hypothesis]

@[simp]
theorem parent?_rebind (store : Store) (own id : ScopeId) (name : String) (value : Value) :
    (store.rebind own name value).parent? id = store.parent? id := by
  simp only [Store.parent?, getElem?_rebind]
  cases store.scopes[id]? with
  | none => rfl
  | some found =>
    by_cases same : own = id
    · simp [same, Scope.rebind]
    · simp [same]

@[simp]
theorem parent?_bindNew (store : Store) (own id : ScopeId) (name : String) (value : Value) :
    (store.bindNew own name value).parent? id = store.parent? id := by
  simp only [Store.parent?, getElem?_bindNew]
  cases store.scopes[id]? with
  | none => rfl
  | some found =>
    by_cases same : own = id
    · simp [same, Scope.bind]
    · simp [same]

theorem local?_rebind (bound : own < store.scopes.size) (name other : String) (value : Value) :
    (store.rebind own name value).local? own other =
      if other = name then some value else store.local? own other := by
  have there := Array.getElem?_eq_getElem bound
  simp [local?, getElem?_rebind, there, Scope.find?, Scope.rebind, Scope.lookup_setBinding]

theorem local?_bindNew (bound : own < store.scopes.size) (name other : String) (value : Value) :
    (store.bindNew own name value).local? own other =
      if other = name then some value else store.local? own other := by
  have there := Array.getElem?_eq_getElem bound
  by_cases same : other = name
  · simp [local?, getElem?_bindNew, there, Scope.find?, Scope.bind, same]
  · have apart : (other == name) = false := by simpa using same
    simp [local?, getElem?_bindNew, there, Scope.find?, Scope.bind, List.lookup_cons, same, apart]

/-- Of bindings that overwrite one another the last one holds. -/
theorem local?_rebinds (bound : own < store.scopes.size) (bindings : List (String × Value)) (name : String) :
    (bindings.foldl (fun store binding => store.rebind own binding.1 binding.2) store).local? own name =
      (bindings.reverse.lookup name).or (store.local? own name) := by
  induction bindings generalizing store with
  | nil => rfl
  | cons binding rest hypothesis =>
    rw [List.foldl_cons, hypothesis (by simpa using bound), local?_rebind bound, List.reverse_cons,
      List.lookup_append, Option.or_assoc]
    congr 1
    obtain ⟨other, value⟩ := binding
    by_cases same : name = other
    · simp [same]
    · have apart : (name == other) = false := by simpa using same
      simp [List.lookup_cons, same, apart]

/-! ### Keeping scopes -/

/-- Every scope stays as it is. -/
def Keeps (store store' : Store) : Prop :=
  ∀ (id : ScopeId) (found : Scope), store.scopes[id]? = some found → store'.scopes[id]? = some found

/-- Every scope but one stays as it is. -/
def KeepsOthers (own : ScopeId) (store store' : Store) : Prop :=
  ∀ (id : ScopeId) (found : Scope), id ≠ own →
    store.scopes[id]? = some found → store'.scopes[id]? = some found

/-- One scope may gain bindings in front of those that it has, and every other one stays as it is. -/
def Extends (own : ScopeId) (store store' : Store) : Prop :=
  ∀ (id : ScopeId) (found : Scope), store.scopes[id]? = some found → ∃ added,
    store'.scopes[id]? = some { found with bindings := added ++ found.bindings } ∧
      (id ≠ own → added = [])

instance : IsPreorder Store Keeps where
  refl _ _ _ there := there
  trans _ _ _ first second id found there := second id found (first id found there)

instance : IsPreorder Store (KeepsOthers own) where
  refl _ _ _ _ there := there
  trans _ _ _ first second id found other there :=
    second id found other (first id found other there)

instance : IsPreorder Store (Extends own) where
  refl store id found there := ⟨[], there, fun _ => rfl⟩
  trans first second third one two id found there := by
    obtain ⟨added, inSecond, only⟩ := one id found there
    obtain ⟨added', inThird, only'⟩ := two id _ inSecond
    refine ⟨added' ++ added, by simpa using inThird, ?_⟩
    intro other
    simp [only other, only' other]

theorem Keeps.others (kept : store.Keeps store') : store.KeepsOthers own store' :=
  fun id found _ => kept id found

theorem Keeps.extends (kept : store.Keeps store') : Extends own store store' :=
  fun id found there => ⟨[], kept id found there, fun _ => rfl⟩

theorem Extends.others (extended : Extends own store store') : KeepsOthers own store store' := by
  intro id found other there
  obtain ⟨added, inStore', only⟩ := extended id found there
  simpa [only other] using inStore'

theorem keeps_add (store : Store) (scope : Scope) : store.Keeps (store.add scope).2 :=
  fun _ _ there => getElem?_add_of_old scope there

/-- What happens to a scope that was just added leaves the scopes before it alone. -/
theorem keeps_of_fresh {scope : Scope}
    (kept : KeepsOthers store.scopes.size (store.add scope).2 store') : store.Keeps store' := by
  intro id found there
  exact kept id found (Nat.ne_of_lt (lt_size_of_getElem? there)) (getElem?_add_of_old scope there)

theorem keeps_capture (store : Store) (id : ScopeId) : store.Keeps (store.capture id).2 :=
  keeps_add store _

theorem extends_bindNew (store : Store) (own : ScopeId) (name : String) (value : Value) :
    Extends own store (store.bindNew own name value) := by
  intro id found there
  rw [getElem?_bindNew, there]
  by_cases same : own = id
  · exact ⟨[(name, value)], by simp [same, Scope.bind], fun other => absurd same.symm other⟩
  · exact ⟨[], by simp [same], fun _ => rfl⟩

theorem keepsOthers_rebind (store : Store) (own : ScopeId) (name : String) (value : Value) :
    KeepsOthers own store (store.rebind own name value) := by
  intro id found other there
  rw [getElem?_rebind, there]
  simp [Ne.symm other]

/-- The scope around a scope never changes. -/
theorem Extends.parent? (extended : Extends own store store') (bound : id < store.scopes.size) :
    store'.parent? id = store.parent? id := by
  have there := Array.getElem?_eq_getElem bound
  obtain ⟨added, inStore', _⟩ := extended id _ there
  simp [Store.parent?, inStore', there]

theorem KeepsOthers.local? (kept : KeepsOthers own store store') (other : id ≠ own)
    (bound : id < store.scopes.size) (name : String) : store'.local? id name = store.local? id name := by
  have there := Array.getElem?_eq_getElem bound
  simp [Store.local?, kept id _ other there, there]

theorem Keeps.local? (kept : store.Keeps store') (bound : id < store.scopes.size) (name : String) :
    store'.local? id name = store.local? id name := by
  have there := Array.getElem?_eq_getElem bound
  simp [Store.local?, kept id _ there, there]

theorem KeepsOthers.parent? (kept : KeepsOthers own store store') (other : id ≠ own)
    (bound : id < store.scopes.size) : store'.parent? id = store.parent? id := by
  have there := Array.getElem?_eq_getElem bound
  simp [Store.parent?, kept id _ other there, there]

/-! ### Keeping scopes inside others -/

/-- Every scope that lies in another one stays as it is, and an outermost one stays outermost. -/
def KeepsInner (store store' : Store) : Prop :=
  ∀ (id : ScopeId) (found : Scope), store.scopes[id]? = some found → ∃ found',
    store'.scopes[id]? = some found' ∧ found'.parent = found.parent ∧ (found.parent.isSome → found' = found)

/-- Every scope that lies in another one stays as it is, but for one, and none comes to lie in another one. -/
def KeepsOthersInner (own : ScopeId) (store store' : Store) : Prop :=
  ∀ (id : ScopeId) (found : Scope), store.scopes[id]? = some found → ∃ found',
    store'.scopes[id]? = some found' ∧ found'.parent = found.parent ∧
      (found.parent.isSome → id ≠ own → found' = found)

/-- Of the scopes that lie in others one may gain bindings in front of those that it has, and every other one stays as
it is. None comes to lie in another one. -/
def ExtendsInner (own : ScopeId) (store store' : Store) : Prop :=
  ∀ (id : ScopeId) (found : Scope), store.scopes[id]? = some found → ∃ found',
    store'.scopes[id]? = some found' ∧ found'.parent = found.parent ∧ (found.parent.isSome → ∃ added,
      found'.bindings = added ++ found.bindings ∧ (id ≠ own → added = []))

instance : IsPreorder Store KeepsInner where
  refl _ _ found there := ⟨found, there, rfl, fun _ => rfl⟩
  trans _ _ _ first second id found there := by
    obtain ⟨found', there', parent, same⟩ := first id found there
    obtain ⟨found'', there'', parent', same'⟩ := second id found' there'
    exact ⟨found'', there'', parent'.trans parent, fun inner => (same' (parent ▸ inner)).trans (same inner)⟩

instance : IsPreorder Store (KeepsOthersInner own) where
  refl _ _ found there := ⟨found, there, rfl, fun _ _ => rfl⟩
  trans _ _ _ first second id found there := by
    obtain ⟨found', there', parent, same⟩ := first id found there
    obtain ⟨found'', there'', parent', same'⟩ := second id found' there'
    exact ⟨found'', there'', parent'.trans parent,
      fun inner other => (same' (parent ▸ inner) other).trans (same inner other)⟩

instance : IsPreorder Store (ExtendsInner own) where
  refl _ _ found there := ⟨found, there, rfl, fun _ => ⟨[], rfl, fun _ => rfl⟩⟩
  trans _ _ _ first second id found there := by
    obtain ⟨found', there', parent, gains⟩ := first id found there
    obtain ⟨found'', there'', parent', gains'⟩ := second id found' there'
    refine ⟨found'', there'', parent'.trans parent, fun inner => ?_⟩
    obtain ⟨added, is, only⟩ := gains inner
    obtain ⟨added', is', only'⟩ := gains' (parent ▸ inner)
    refine ⟨added' ++ added, by rw [is', is, List.append_assoc], ?_⟩
    intro other
    simp [only other, only' other]

theorem Keeps.inner (kept : store.Keeps store') : store.KeepsInner store' :=
  fun id found there => ⟨found, kept id found there, rfl, fun _ => rfl⟩

theorem Extends.inner (extended : Extends own store store') : store.ExtendsInner own store' := by
  intro id found there
  obtain ⟨added, there', only⟩ := extended id found there
  exact ⟨_, there', rfl, fun _ => ⟨added, rfl, only⟩⟩

theorem KeepsInner.others (kept : store.KeepsInner store') : store.KeepsOthersInner own store' := by
  intro id found there
  obtain ⟨found', there', parent, same⟩ := kept id found there
  exact ⟨found', there', parent, fun inner _ => same inner⟩

theorem KeepsInner.extends (kept : store.KeepsInner store') : store.ExtendsInner own store' := by
  intro id found there
  obtain ⟨found', there', parent, same⟩ := kept id found there
  exact ⟨found', there', parent, fun inner => ⟨[], by rw [same inner, List.nil_append], fun _ => rfl⟩⟩

theorem ExtendsInner.others (extended : store.ExtendsInner own store') : store.KeepsOthersInner own store' := by
  intro id found there
  obtain ⟨found', there', parent, gains⟩ := extended id found there
  refine ⟨found', there', parent, fun inner other => ?_⟩
  obtain ⟨added, is, only⟩ := gains inner
  obtain ⟨bindings, outer⟩ := found
  obtain ⟨bindings', outer'⟩ := found'
  simp_all

/-- What happens to a scope that was just added leaves the inner scopes before it alone. -/
theorem keepsInner_of_fresh {scope : Scope} (kept : (store.add scope).2.KeepsOthersInner store.scopes.size store') :
    store.KeepsInner store' := by
  intro id found there
  obtain ⟨found', there', parent, same⟩ := kept id found (getElem?_add_of_old scope there)
  exact ⟨found', there', parent, fun inner => same inner (Nat.ne_of_lt (lt_size_of_getElem? there))⟩

theorem lt_size_of_inner (inner : (store.parent? id).isSome) : id < store.scopes.size := by
  obtain ⟨outer, around⟩ := Option.isSome_iff_exists.mp inner
  obtain ⟨found, there, -⟩ := Option.bind_eq_some_iff.mp around
  exact lt_size_of_getElem? there

theorem ExtendsInner.parent? (extended : store.ExtendsInner own store') (bound : id < store.scopes.size) :
    store'.parent? id = store.parent? id := by
  have there := Array.getElem?_eq_getElem bound
  obtain ⟨found', there', parent, -⟩ := extended id _ there
  simp [Store.parent?, there', there, parent]

theorem KeepsInner.getElem? (kept : store.KeepsInner store') (inner : (store.parent? id).isSome) :
    store'.scopes[id]? = store.scopes[id]? := by
  have there := Array.getElem?_eq_getElem (lt_size_of_inner inner)
  obtain ⟨found', there', -, same⟩ := kept id _ there
  rw [there, there', same (by simpa [Store.parent?, there] using inner)]

theorem keepsOthersInner_rebind (store : Store) (own : ScopeId) (name : String) (value : Value) :
    store.KeepsOthersInner own (store.rebind own name value) := by
  intro id found there
  rw [getElem?_rebind, there]
  by_cases same : own = id
  · exact ⟨_, rfl, by simp [same, Scope.rebind], fun _ other => absurd same.symm other⟩
  · exact ⟨found, by simp [same], rfl, fun _ _ => rfl⟩

/-- The outermost scope around another one lies in none. -/
theorem parent?_outermost (is : store.outermost? id = some own) : store.parent? own = none := by
  simpa using List.find?_some is

/-- What a native binds, it binds in the scope of its frame or in an outermost one. -/
theorem keepsOthersInner_bindOnce (store : Store) (own : ScopeId) (binding : NativeBinding) :
    store.KeepsOthersInner own (store.bindOnce own binding) := by
  unfold bindOnce
  split
  · rename_i target is
    split at is
    · -- The outermost scope may change, and is no inner one.
      intro id found there
      obtain ⟨found', there', parent, same⟩ :=
        keepsOthersInner_rebind store target binding.name binding.value id found there
      refine ⟨found', there', parent, fun inner _ => same inner ?_⟩
      rintro rfl
      have ends := parent?_outermost is
      rw [Store.parent?, there, Option.bind_some] at ends
      simp [ends] at inner
    · cases is
      exact keepsOthersInner_rebind store own binding.name binding.value
  · exact refl_of (KeepsOthersInner own) store

theorem keepsOthersInner_bindFor (store : Store) (own : ScopeId) (bindings : List NativeBinding) :
    store.KeepsOthersInner own (store.bindFor own bindings) := by
  induction bindings generalizing store with
  | nil => exact refl_of (KeepsOthersInner own) store
  | cons binding rest hypothesis =>
    exact IsTrans.trans _ _ _ (keepsOthersInner_bindOnce store own binding) (hypothesis _)

end Store

end Rivulet
