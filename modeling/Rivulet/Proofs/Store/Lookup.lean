import Rivulet.Proofs.Store

/-!
Lookups in nested scopes. Where scopes lie inside older ones, a lookup goes from scope to scope until it comes to
one that lies in no other (`Descends.lookup_eq`), and a capture sees what was visible when it was made
(`Descends.snapshot_spec`). In a store with one outermost scope that is where all lookups end (`snapshot_spec`).
-/

namespace Rivulet.Store

variable {store store' : Store} {root id outer : ScopeId} {name : String}

/-- From an outermost scope on, every scope lies inside an older one. -/
structure Rooted (root : ScopeId) (store : Store) : Prop where
  inside : root < store.scopes.size
  outermost : store.parent? root = none
  older : ∀ id, root < id → id < store.scopes.size →
    ∃ outer, store.parent? id = some outer ∧ root ≤ outer ∧ outer < id

theorem Rooted.parent? (rooted : store.Rooted root) (later : root ≤ id)
    (around : store.parent? id = some outer) : root ≤ outer ∧ outer < id := by
  have bound : id < store.scopes.size := by
    obtain ⟨found, there, _⟩ := Option.bind_eq_some_iff.mp around
    exact lt_size_of_getElem? there
  rcases Nat.eq_or_lt_of_le later with rfl | after
  · rw [rooted.outermost] at around
    simp at around
  · obtain ⟨outer', around', inside⟩ := rooted.older id after bound
    rw [around', Option.some.injEq] at around
    rwa [← around]

/-- Some scopes that each lie inside an older one of them, or inside none. -/
def Descends (among : ScopeId → Prop) (store : Store) : Prop :=
  ∀ id outer, among id → store.parent? id = some outer → among outer ∧ outer < id

theorem Rooted.descends (rooted : store.Rooted root) : store.Descends (root ≤ ·) :=
  fun _ _ later around => rooted.parent? later around

/-! ### Growing -/

theorem Rooted.add (rooted : store.Rooted root) {scope : Scope} (around : scope.parent = some outer)
    (inside : root ≤ outer) (bound : outer < store.scopes.size) : (store.add scope).2.Rooted root where
  inside := by
    rw [size_add]
    exact Nat.lt_succ_of_lt rooted.inside
  outermost := by
    have extended : Extends root store (store.add scope).2 := (keeps_add store scope).extends
    rw [extended.parent? rooted.inside]
    exact rooted.outermost
  older id later bound' := by
    by_cases last : id = store.scopes.size
    · subst last
      exact ⟨outer, by rw [parent?_add_self, around], inside, bound⟩
    · rw [size_add] at bound'
      have old : id < store.scopes.size := Nat.lt_of_le_of_ne (Nat.le_of_lt_succ bound') last
      have extended : Extends root store (store.add scope).2 := (keeps_add store scope).extends
      rw [extended.parent? old]
      exact rooted.older id later old

theorem Rooted.rebind (rooted : store.Rooted root) (own : ScopeId) (name : String) (value : Value) :
    (store.rebind own name value).Rooted root where
  inside := by simpa using rooted.inside
  outermost := by rw [parent?_rebind, rooted.outermost]
  older id later bound := by
    rw [parent?_rebind]
    exact rooted.older id later (by simpa using bound)

theorem Rooted.rebinds (rooted : store.Rooted root) (own : ScopeId) (bindings : List (String × Value)) :
    (bindings.foldl (fun store binding => store.rebind own binding.1 binding.2) store).Rooted root := by
  induction bindings generalizing store with
  | nil => exact rooted
  | cons binding rest hypothesis => exact hypothesis (rooted.rebind _ _ _)

theorem Rooted.bindNew (rooted : store.Rooted root) (own : ScopeId) (name : String) (value : Value) :
    (store.bindNew own name value).Rooted root where
  inside := by simpa [Store.bindNew] using rooted.inside
  outermost := by rw [parent?_bindNew, rooted.outermost]
  older id later bound := by
    rw [parent?_bindNew]
    exact rooted.older id later (by simpa [Store.bindNew] using bound)

/-! ### Lookups -/

section

variable {among : ScopeId → Prop} (descends : store.Descends among)

include descends

theorem Descends.lookupFrom_eq (here : among id) {count count' : Nat} (enough : id < count) (enough' : id < count') :
    store.lookupFrom name count id = store.lookupFrom name count' id := by
  induction count generalizing id count' with
  | zero => exact absurd enough (Nat.not_lt_zero _)
  | succ count hypothesis =>
    obtain ⟨count', rfl⟩ := Nat.exists_eq_succ_of_ne_zero (Nat.ne_zero_of_lt enough')
    unfold lookupFrom
    cases store.local? id name with
    | some value => rfl
    | none =>
      cases around : store.parent? id with
      | none => rfl
      | some outer =>
        obtain ⟨inside, older⟩ := descends id outer here around
        exact hypothesis inside (Nat.lt_of_lt_of_le older (Nat.le_of_lt_succ enough))
          (Nat.lt_of_lt_of_le older (Nat.le_of_lt_succ enough'))

/-- A name is looked up in a scope, and then in the scope around it. -/
theorem Descends.lookup_eq (here : among id) (name : String) :
    store.lookup id name =
      (store.local? id name).or ((store.parent? id).bind fun outer => store.lookup outer name) := by
  unfold lookup
  rw [lookupFrom]
  cases store.local? id name with
  | some value => rfl
  | none =>
    cases around : store.parent? id with
    | none => rfl
    | some outer =>
      obtain ⟨inside, older⟩ := descends id outer here around
      exact descends.lookupFrom_eq inside older (Nat.lt_succ_self outer)

/-- A scope that lies in no other is where a lookup ends. -/
theorem Descends.lookup_outermost (here : among id) (outermost : store.parent? id = none) (name : String) :
    store.lookup id name = store.local? id name := by
  simp [descends.lookup_eq here, outermost]

theorem Descends.lookup_of_parent (here : among id) (around : store.parent? id = some outer) (name : String) :
    store.lookup id name = (store.local? id name).or (store.lookup outer name) := by
  simp [descends.lookup_eq here, around]

end

/-- In a store with one outermost scope a name is looked up in a scope, and then in the scope around it. -/
theorem lookup_eq (rooted : store.Rooted root) (later : root ≤ id) (name : String) :
    store.lookup id name =
      (store.local? id name).or ((store.parent? id).bind fun outer => store.lookup outer name) :=
  rooted.descends.lookup_eq later name

theorem lookup_root (rooted : store.Rooted root) (name : String) :
    store.lookup root name = store.local? root name :=
  rooted.descends.lookup_outermost (Nat.le_refl root) rooted.outermost name

theorem lookup_of_parent (rooted : store.Rooted root) (later : root ≤ id)
    (around : store.parent? id = some outer) (name : String) :
    store.lookup id name = (store.local? id name).or (store.lookup outer name) :=
  rooted.descends.lookup_of_parent later around name

/-- A lookup depends on the scopes that are no younger than the one where it starts. -/
theorem lookup_congr (rooted : store.Rooted root) (rooted' : store'.Rooted root) (later : root ≤ id)
    (same : ∀ other, other ≤ id → store'.scopes[other]? = store.scopes[other]?) (name : String) :
    store'.lookup id name = store.lookup id name := by
  induction id using Nat.strongRecOn with
  | ind id hypothesis =>
    have here : store'.local? id name = store.local? id name ∧ store'.parent? id = store.parent? id := by
      simp only [Store.local?, Store.parent?, same id (Nat.le_refl _), and_self]
    rw [lookup_eq rooted later, lookup_eq rooted' later, here.1, here.2]
    cases around : store.parent? id with
    | none => rfl
    | some outer =>
      obtain ⟨inside, older⟩ := rooted.parent? later around
      rw [Option.bind_some, Option.bind_some,
        hypothesis outer older inside fun other below => same other (Nat.le_trans below (Nat.le_of_lt older))]

theorem lookup_of_keeps (rooted : store.Rooted root) (rooted' : store'.Rooted root) (kept : store.Keeps store')
    (later : root ≤ id) (bound : id < store.scopes.size) (name : String) :
    store'.lookup id name = store.lookup id name := by
  refine lookup_congr rooted rooted' later (fun other below => ?_) name
  have there := Array.getElem?_eq_getElem (Nat.lt_of_le_of_lt below bound)
  rw [there, kept other _ there]

/-- A new binding is found in its scope, and hides no other name. -/
theorem lookup_bindNew (rooted : store.Rooted root) (later : root ≤ id) (bound : id < store.scopes.size)
    (name other : String) (value : Value) :
    (store.bindNew id name value).lookup id other = if other = name then some value else store.lookup id other := by
  rw [lookup_eq (rooted.bindNew id name value) later, lookup_eq rooted later, local?_bindNew bound, parent?_bindNew]
  split
  · rfl
  · cases around : store.parent? id with
    | none => rfl
    | some outer =>
      obtain ⟨inside, older⟩ := rooted.parent? later around
      rw [Option.bind_some, Option.bind_some, lookup_congr rooted (rooted.bindNew id name value) inside]
      intro before below
      rw [getElem?_bindNew]
      simp [Nat.ne_of_gt (Nat.lt_of_le_of_lt below older)]

/-! ### Chains -/

section

variable {among : ScopeId → Prop} (descends : store.Descends among)

include descends

theorem Descends.chainFrom_eq (here : among id) {count count' : Nat} (enough : id < count) (enough' : id < count') :
    store.chainFrom count id = store.chainFrom count' id := by
  induction count generalizing id count' with
  | zero => exact absurd enough (Nat.not_lt_zero _)
  | succ count hypothesis =>
    obtain ⟨count', rfl⟩ := Nat.exists_eq_succ_of_ne_zero (Nat.ne_zero_of_lt enough')
    unfold chainFrom
    cases around : store.parent? id with
    | none => rfl
    | some outer =>
      obtain ⟨inside, older⟩ := descends id outer here around
      dsimp only
      rw [hypothesis inside (Nat.lt_of_lt_of_le older (Nat.le_of_lt_succ enough))
        (Nat.lt_of_lt_of_le older (Nat.le_of_lt_succ enough'))]

theorem Descends.chain_of_parent (here : among id) (around : store.parent? id = some outer) :
    store.chain id = id :: store.chain outer := by
  obtain ⟨inside, older⟩ := descends id outer here around
  unfold chain
  rw [chainFrom, around]
  dsimp only
  rw [descends.chainFrom_eq inside older (Nat.lt_succ_self outer)]

end

theorem chain_outermost (outermost : store.parent? id = none) : store.chain id = [id] := by
  unfold chain
  rw [chainFrom, outermost]

theorem lookup_flatten_cons (store : Store) (id : ScopeId) (outer : List ScopeId) (name : String) :
    (store.flatten (id :: outer)).lookup name =
      (store.local? id name).or ((store.flatten outer).lookup name) := by
  have filtered (bindings outer : List (String × Value)) (fresh : bindings.lookup name = none) :
      (outer.filter fun binding => (bindings.lookup binding.1).isNone).lookup name =
        outer.lookup name := by
    induction outer with
    | nil => rfl
    | cons binding outer hypothesis =>
      obtain ⟨other, value⟩ := binding
      by_cases same : name = other
      · subst same
        simp [fresh]
      · have apart : (name == other) = false := by simpa using same
        rw [List.filter_cons]
        split
        · simp [List.lookup_cons, apart, hypothesis]
        · simp [List.lookup_cons, apart, hypothesis]
  have own : (((store.scopes[id]?).map Scope.bindings).getD []).lookup name = store.local? id name := by
    unfold local?
    cases store.scopes[id]? <;> rfl
  have flat : store.flatten (id :: outer) = ((store.scopes[id]?).map Scope.bindings).getD [] ++
      (store.flatten outer).filter fun binding =>
        ((((store.scopes[id]?).map Scope.bindings).getD []).lookup binding.1).isNone := rfl
  rw [flat, List.lookup_append, own]
  cases bound : store.local? id name with
  | some value => rfl
  | none => rw [filtered _ _ (own.trans bound)]

/-! ### Captures -/

/-- What a capture of a scope holds. -/
def snapshot {N : Type} [DecidableEq N] (store : Store N) (id : ScopeId) : Scope N :=
  ⟨store.flatten (store.chain id).dropLast, some ((store.chain id).getLast?.getD id)⟩

theorem capture_eq_add {N : Type} [DecidableEq N] (store : Store N) (id : ScopeId) :
    store.capture id = store.add (store.snapshot id) :=
  rfl

/-- A snapshot lies in the scope where lookups end, and its bindings are those of the scopes further inside. -/
theorem Descends.snapshot_spec {among : ScopeId → Prop} (descends : store.Descends among) (here : among id) :
    ∃ outermost, (store.snapshot id).parent = some outermost ∧ among outermost ∧ outermost ≤ id ∧
      store.parent? outermost = none ∧ ∀ name,
        store.lookup id name = ((store.snapshot id).bindings.lookup name).or (store.local? outermost name) := by
  induction id using Nat.strongRecOn with
  | ind id hypothesis =>
    cases around : store.parent? id with
    | none =>
      have chain := chain_outermost around
      refine ⟨id, by simp [snapshot, chain], here, Nat.le_refl _, around, fun name => ?_⟩
      rw [descends.lookup_outermost here around]
      simp [snapshot, chain, flatten]
    | some outer =>
      obtain ⟨inside, older⟩ := descends id outer here around
      obtain ⟨outermost, parent, there, within, ends, visible⟩ := hypothesis outer older inside
      have chain := descends.chain_of_parent here around
      have nonempty : store.chain outer ≠ [] := by simp [Store.chain, chainFrom]
      obtain ⟨first, rest, more⟩ := List.exists_cons_of_ne_nil nonempty
      refine ⟨outermost, ?_, there, Nat.le_trans within (Nat.le_of_lt older), ends, fun name => ?_⟩
      · rw [← parent]
        simp only [snapshot, chain, more, List.getLast?_cons, Option.getD_some]
      · rw [descends.lookup_of_parent here around, visible name]
        simp only [snapshot, chain, more, List.dropLast_cons_cons, lookup_flatten_cons]
        rw [Option.or_assoc]

/-- In a store with one outermost scope a snapshot lies in that scope. -/
theorem snapshot_spec (rooted : store.Rooted root) (later : root ≤ id) (bound : id < store.scopes.size) :
    (store.snapshot id).parent = some root ∧ ∀ name,
      store.lookup id name = ((store.snapshot id).bindings.lookup name).or (store.local? root name) := by
  obtain ⟨outermost, parent, inside, within, ends, visible⟩ := rooted.descends.snapshot_spec later
  rcases Nat.eq_or_lt_of_le inside with rfl | after
  · exact ⟨parent, visible⟩
  · obtain ⟨outer, around, -⟩ := rooted.older outermost after (Nat.lt_of_le_of_lt within bound)
    rw [ends] at around
    cases around

end Rivulet.Store
