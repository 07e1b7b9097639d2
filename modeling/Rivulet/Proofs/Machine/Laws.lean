import Rivulet.Proofs.Store.Lookup
import Rivulet.Proofs.Value.Bindings

/-!
Laws: which functions an evaluation may hold, and which scopes it may use. Data is always allowed; a law only has to
admit the closures and the natives that an evaluation makes, and what natives make of values that it admits.

A store abides by a law if the scopes from a place on bind values that the law admits. It evolves in a scope if
scopes are added to it, and of the old ones only that scope changes, and outermost ones if natives bind names there.
-/

namespace Rivulet

/-! ### Functions in values -/

namespace Value

/-- A value occurs in itself and in whatever is made of values that it occurs in. -/
inductive Occurs (part : Value) : Value → Prop where
  | here : Occurs part part
  | inside {value whole : Value} (occurs : Occurs part value) (among : value ∈ whole.parts) : Occurs part whole

/-- A value with no other functions in it than allowed ones. -/
def Only (allowed : Function → Prop) (value : Value) : Prop :=
  value.Every fun part => ∀ function, part = .function function → allowed function

theorem Every.occurs {property : Value → Prop} {part value : Value} (every : Every property value)
    (occurs : Occurs part value) : property part := by
  induction occurs with
  | here => exact every.own
  | inside _ among hypothesis => exact hypothesis (every.part among)

/-- What holds of all values that occur in a value holds all the way down. -/
theorem every_of_occurs {property : Value → Prop} (value : Value) (each : ∀ part, Occurs part value → property part) :
    Every property value := by
  induction value using parts_induction with
  | step value hypothesis =>
    refine .intro (each value .here) fun part among => ?_
    exact hypothesis part among fun other occurs => each other (.inside occurs among)

theorem only_iff {allowed : Function → Prop} {value : Value} :
    value.Only allowed ↔ ∀ function, Occurs (.function function) value → allowed function :=
  ⟨fun only _ occurs => Every.occurs only occurs _ rfl,
    fun each => every_of_occurs value fun _ occurs function is => each function (is ▸ occurs)⟩

end Value

/-! ### Laws -/

/-- Natives of one step bind no names. -/
def Natives.BindNothing (natives : Natives) : Prop :=
  ∀ native ∈ natives.definitions, ∀ run, native.body = .apply run → ∀ call scope store, (run call scope store).2 = []

theorem Natives.standard_bindNothing : Natives.standard.BindNothing := by
  intro native among run is call scope store
  obtain ⟨value, -, rfl⟩ := Natives.standard_arePure _ among _ is
  rfl

/-- Which functions an evaluation may hold, given how many scopes there are. -/
structure Law (tree : Tree) (natives : Natives) where
  /-- The scope from which on scopes may be used. -/
  base : ScopeId
  /-- Whether only scopes that exist may be used. -/
  strict : Prop
  allows : Nat → Function → Prop
  later : ∀ {count count' function}, count ≤ count' → allows count function → allows count' function
  context : ∀ {count function scope}, allows count function → function.context = some scope →
    base ≤ scope ∧ (strict → scope < count)
  renamed : ∀ {count function} name, allows count function → allows count { function with name }
  native : ∀ count index, (natives.get? index).isSome → allows count ⟨.native index, none, ""⟩
  closure : ∀ {count id scope} name, (Machine.definitionOf? tree id).isSome → base ≤ scope → scope < count →
    allows count ⟨.definition id, some scope, name⟩
  /-- Natives make no functions up, neither in what they return nor in what they bind. -/
  applied : ∀ {count index native run call scope store}, natives.get? index = some native →
    native.body = .apply run → (∀ input ∈ call.inputs, input.Only (allows count)) →
      (run call scope store).1.Only (allows count) ∧
        ∀ binding ∈ (run call scope store).2, binding.value.Only (allows count)

namespace Law

variable {tree : Tree} {natives : Natives} {law : Law tree natives} {count count' : Nat} {scope : ScopeId}
  {value : Value} {function : Function}

/-- Whether a value holds no other functions than those that a law allows. -/
def Admits (law : Law tree natives) (count : Nat) (value : Value) : Prop :=
  value.Only (law.allows count)

/-- Whether a scope may be used. -/
def Inside (law : Law tree natives) (count : Nat) (scope : ScopeId) : Prop :=
  law.base ≤ scope ∧ (law.strict → scope < count)

theorem Admits.later (admits : law.Admits count value) (grows : count ≤ count') : law.Admits count' value :=
  admits.mono fun _ allowed function is => law.later grows (allowed function is)

theorem Inside.later (inside : law.Inside count scope) (grows : count ≤ count') : law.Inside count' scope :=
  ⟨inside.1, fun strict => Nat.lt_of_lt_of_le (inside.2 strict) grows⟩

theorem plain (law : Law tree natives) (count : Nat) (value : Value) (plain : value.isPlain = true)
    (function : Function) (is : value = .function function) : law.allows count function := by
  simp [is, Value.isPlain] at plain

theorem admits_exception (exception : value.isException = true) : law.Admits count value := by
  cases value with
  | exception _ => exact Value.every_of_no_parts (by simp) rfl
  | _ => simp [Value.isException] at exception

theorem admits_none : law.Admits count .none :=
  Value.every_none (law.plain count)

theorem admits_boolean (truth : Bool) : law.Admits count (.boolean truth) :=
  Value.every_boolean (law.plain count) truth

theorem admits_number (number : Quantity) : law.Admits count (.number number) :=
  Value.every_number (law.plain count) number

theorem admits_text (text : String) : law.Admits count (.text text) :=
  Value.every_text (law.plain count) text

theorem admits_function (allowed : law.allows count function) : law.Admits count (.function function) :=
  Value.every_of_no_parts (by rintro _ ⟨⟩; exact allowed) rfl

theorem Admits.allows (admits : law.Admits count (.function function)) : law.allows count function :=
  admits.own function rfl

end Law

/-- The law that allows everything. -/
def Law.free (tree : Tree) (natives : Natives) : Law tree natives where
  base := 0
  strict := False
  allows _ _ := True
  later _ _ := trivial
  context _ _ := ⟨Nat.zero_le _, False.elim⟩
  renamed _ _ := trivial
  native _ _ _ := trivial
  closure _ _ _ _ := trivial
  applied _ _ _ := ⟨Value.only_iff.mpr fun _ _ => trivial, fun _ _ => Value.only_iff.mpr fun _ _ => trivial⟩

theorem Law.free_admits (tree : Tree) (natives : Natives) (count : Nat) (value : Value) :
    (Law.free tree natives).Admits count value :=
  Value.only_iff.mpr fun _ _ => trivial

/-! ### Stores -/

namespace Store

/-- Every scope lies inside an older one, or inside none. -/
def Nested (store : Store) : Prop :=
  ∀ id outer, store.parent? id = some outer → outer < id

/-- A store that evolves: scopes are added inside others, and of the old ones only one changes, or at most outermost
ones besides. If natives are calm, and bind no names, these do not change either. -/
structure Evolves (calm : Prop) (own : ScopeId) (store store' : Store) : Prop where
  size : store.scopes.size ≤ store'.scopes.size
  inner : store.KeepsOthersInner own store'
  others : calm → store.KeepsOthers own store'
  added : ∀ id, store.scopes.size ≤ id → id < store'.scopes.size → (store'.parent? id).isSome

variable {calm : Prop} {store store' store'' : Store} {own id : ScopeId}

theorem Evolves.parent (evolves : store.Evolves calm own store') (id : ScopeId) (bound : id < store.scopes.size) :
    store'.parent? id = store.parent? id := by
  have there := Array.getElem?_eq_getElem bound
  obtain ⟨found', there', parent, -⟩ := evolves.inner id _ there
  simp [Store.parent?, there', there, parent]

theorem Evolves.refl (own : ScopeId) (store : Store) : store.Evolves calm own store where
  size := Nat.le_refl _
  inner := refl_of (KeepsOthersInner own) store
  others _ := refl_of (KeepsOthers own) store
  added _ new bound := absurd bound (Nat.not_lt.mpr new)

theorem Evolves.trans (first : store.Evolves calm own store') (second : store'.Evolves calm own store'') :
    store.Evolves calm own store'' where
  size := Nat.le_trans first.size second.size
  inner := IsTrans.trans _ _ _ first.inner second.inner
  others quiet := IsTrans.trans _ _ _ (first.others quiet) (second.others quiet)
  added id new bound := by
    by_cases earlier : id < store'.scopes.size
    · rw [second.parent id earlier]
      exact first.added id new earlier
    · exact second.added id (Nat.not_lt.mp earlier) bound

theorem evolves_add (own : ScopeId) (store : Store) (bindings : List (String × Value)) (outer : ScopeId) :
    store.Evolves calm own (store.add ⟨bindings, some outer⟩).2 where
  size := by
    rw [size_add]
    exact Nat.le_succ _
  inner := (keeps_add store _).inner.others
  others _ := (keeps_add store _).others
  added id new bound := by
    rw [size_add] at bound
    have last : id = store.scopes.size := Nat.le_antisymm (Nat.le_of_lt_succ bound) new
    rw [last, parent?_add_self]
    rfl

@[simp]
theorem size_bindNew (store : Store) (own : ScopeId) (name : String) (value : Value) :
    (store.bindNew own name value).scopes.size = store.scopes.size := by
  simp [bindNew]

theorem evolves_bindNew (store : Store) (own : ScopeId) (name : String) (value : Value) :
    store.Evolves calm own (store.bindNew own name value) where
  size := by simp
  inner := (extends_bindNew store own name value).inner.others
  others _ := (extends_bindNew store own name value).others
  added id new bound := by
    rw [size_bindNew] at bound
    exact absurd bound (Nat.not_lt.mpr new)

theorem evolves_rebind (store : Store) (own : ScopeId) (name : String) (value : Value) :
    store.Evolves calm own (store.rebind own name value) where
  size := by simp
  inner := keepsOthersInner_rebind store own name value
  others _ := keepsOthers_rebind store own name value
  added id new bound := by
    rw [size_rebind] at bound
    exact absurd bound (Nat.not_lt.mpr new)

theorem evolves_rebinds (store : Store) (own : ScopeId) (bindings : List (String × Value)) :
    store.Evolves calm own (bindings.foldl (fun store binding => store.rebind own binding.1 binding.2) store) := by
  induction bindings generalizing store with
  | nil => exact .refl own store
  | cons binding rest hypothesis => exact (evolves_rebind store own binding.1 binding.2).trans (hypothesis _)

@[simp]
theorem size_bindOnce (store : Store) (own : ScopeId) (binding : NativeBinding) :
    (store.bindOnce own binding).scopes.size = store.scopes.size := by
  unfold bindOnce
  split <;> simp

@[simp]
theorem size_bindFor (store : Store) (own : ScopeId) (bindings : List NativeBinding) :
    (store.bindFor own bindings).scopes.size = store.scopes.size := by
  induction bindings generalizing store with
  | nil => rfl
  | cons binding rest hypothesis => exact (hypothesis _).trans (size_bindOnce store own binding)

theorem evolves_bindFor (store : Store) (own : ScopeId) {bindings : List NativeBinding}
    (quiet : calm → bindings = []) : store.Evolves calm own (store.bindFor own bindings) where
  size := by simp
  inner := keepsOthersInner_bindFor store own bindings
  others is := by
    rw [quiet is]
    exact refl_of (KeepsOthers own) store
  added id new bound := by
    rw [size_bindFor] at bound
    exact absurd bound (Nat.not_lt.mpr new)

theorem Nested.add (nested : store.Nested) {scope : Scope}
    (older : ∀ outer, scope.parent = some outer → outer < store.scopes.size) : (store.add scope).2.Nested := by
  intro id outer around
  by_cases last : id = store.scopes.size
  · subst last
    rw [parent?_add_self] at around
    exact older outer around
  · have bound : id < store.scopes.size := by
      obtain ⟨found, there, _⟩ := Option.bind_eq_some_iff.mp around
      have within := lt_size_of_getElem? there
      rw [size_add] at within
      exact Nat.lt_of_le_of_ne (Nat.le_of_lt_succ within) last
    have kept : Extends id store (store.add scope).2 := (keeps_add store scope).extends
    rw [kept.parent? bound] at around
    exact nested id outer around

theorem Nested.descends (nested : store.Nested) : store.Descends fun _ => True :=
  fun id outer _ around => ⟨trivial, nested id outer around⟩

theorem Nested.mem_chainFrom (nested : store.Nested) (count : Nat) :
    ∀ layer ∈ store.chainFrom count id, layer ≤ id := by
  induction count generalizing id with
  | zero => simp [chainFrom]
  | succ count hypothesis =>
    intro layer among
    unfold chainFrom at among
    rcases List.mem_cons.mp among with rfl | rest
    · exact Nat.le_refl _
    · split at rest
      · simp at rest
      · rename_i outer around
        exact Nat.le_trans (hypothesis layer rest) (Nat.le_of_lt (nested id outer around))

/-- A store that abides by a law. -/
structure Abides {tree : Tree} {natives : Natives} (store : Store) (law : Law tree natives) : Prop where
  holds : store.Holds law.base (law.Admits store.scopes.size)
  nested : law.strict → store.Nested

section

variable {tree : Tree} {natives : Natives} {law : Law tree natives} {name : String} {value : Value}

theorem Holds.mono {base : ScopeId} {kind kind' : Value → Prop} (holds : store.Holds base kind)
    (implied : ∀ value, kind value → kind' value) : store.Holds base kind' :=
  fun id found later there =>
    ⟨fun binding among => implied _ ((holds id found later there).bindings binding among),
      (holds id found later there).parent⟩

theorem Abides.add (abides : store.Abides law) {scope : Scope}
    (admits : ∀ binding ∈ scope.bindings, law.Admits store.scopes.size binding.2)
    (inside : ∀ outer, scope.parent = some outer → law.Inside store.scopes.size outer) :
    (store.add scope).2.Abides law where
  holds := by
    have held : (store.add scope).2.Holds law.base (law.Admits store.scopes.size) :=
      abides.holds.add ⟨admits, fun outer around => (inside outer around).1⟩
    refine held.mono fun value admits => admits.later ?_
    rw [size_add]
    exact Nat.le_succ _
  nested strict := (abides.nested strict).add fun outer around => (inside outer around).2 strict

/-- Adding a scope inside another one. -/
theorem Abides.nest (abides : store.Abides law) {bindings : List (String × Value)} {outer : ScopeId}
    (admits : ∀ binding ∈ bindings, law.Admits store.scopes.size binding.2)
    (inside : law.Inside store.scopes.size outer) :
    (store.add ⟨bindings, some outer⟩).2.Abides law :=
  abides.add admits (by rintro _ ⟨⟩; exact inside)

theorem Abides.bindNew (abides : store.Abides law) (own : ScopeId) (name : String)
    (admits : law.Admits store.scopes.size value) : (store.bindNew own name value).Abides law where
  holds := by
    rw [size_bindNew]
    exact abides.holds.bindNew admits
  nested strict id outer around := abides.nested strict id outer (by rwa [parent?_bindNew] at around)

theorem Abides.rebind (abides : store.Abides law) (own : ScopeId) (name : String)
    (admits : law.Admits store.scopes.size value) : (store.rebind own name value).Abides law where
  holds := by
    rw [size_rebind]
    exact abides.holds.rebind admits
  nested strict id outer around := abides.nested strict id outer (by rwa [parent?_rebind] at around)

theorem Abides.rebinds {bindings : List (String × Value)} (own : ScopeId) (abides : store.Abides law)
    (admits : ∀ binding ∈ bindings, law.Admits store.scopes.size binding.2) :
    (bindings.foldl (fun store binding => store.rebind own binding.1 binding.2) store).Abides law := by
  induction bindings generalizing store with
  | nil => exact abides
  | cons binding rest hypothesis =>
    refine hypothesis (abides.rebind own binding.1 (admits binding (by simp))) fun other among => ?_
    rw [size_rebind]
    exact admits other (by simp [among])

theorem Abides.bindOnce (abides : store.Abides law) (own : ScopeId) {binding : NativeBinding}
    (admits : law.Admits store.scopes.size binding.value) : (store.bindOnce own binding).Abides law := by
  unfold Store.bindOnce
  split
  · exact abides.rebind _ _ admits
  · exact abides

theorem Abides.bindFor (abides : store.Abides law) (own : ScopeId) {bindings : List NativeBinding}
    (admits : ∀ binding ∈ bindings, law.Admits store.scopes.size binding.value) :
    (store.bindFor own bindings).Abides law := by
  induction bindings generalizing store with
  | nil => exact abides
  | cons binding rest hypothesis =>
    refine hypothesis (abides.bindOnce own (admits binding (by simp))) fun other among => ?_
    rw [size_bindOnce]
    exact admits other (by simp [among])

theorem Abides.parent? (abides : store.Abides law) (inside : law.Inside store.scopes.size id) {outer : ScopeId}
    (around : store.parent? id = some outer) : law.Inside store.scopes.size outer :=
  ⟨abides.holds.parent? inside.1 around,
    fun strict => Nat.lt_trans (abides.nested strict id outer around) (inside.2 strict)⟩

theorem Abides.capture (abides : store.Abides law) (inside : law.Inside store.scopes.size id) :
    (store.capture id).2.Abides law := by
  have layers : ∀ layer ∈ store.chain id, law.base ≤ layer := abides.holds.chainFrom inside.1 _
  refine abides.nest (abides.holds.flatten fun layer among => layers layer (List.dropLast_subset _ among)) ?_
  cases last : (store.chain id).getLast? with
  | none => exact inside
  | some layer =>
    have among := List.mem_of_getLast? last
    exact ⟨layers layer among,
      fun strict => Nat.lt_of_le_of_lt ((abides.nested strict).mem_chainFrom _ layer among) (inside.2 strict)⟩

/-- What a scope itself binds, or none. -/
theorem Abides.admits_local (abides : store.Abides law) (inside : law.Inside store.scopes.size id) (name : String) :
    law.Admits store.scopes.size ((store.local? id name).getD .none) := by
  cases bound : store.local? id name with
  | none => exact Law.admits_none
  | some value => exact abides.holds.local? inside.1 bound

theorem abides_free (store : Store) (tree : Tree) (natives : Natives) : store.Abides (.free tree natives) :=
  ⟨fun _ _ _ _ => ⟨fun _ _ => Law.free_admits _ _ _ _, fun _ _ => Nat.zero_le _⟩, False.elim⟩

end

end Store

end Rivulet
