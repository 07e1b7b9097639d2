import Rivulet.Proofs.Machine.Relocation

/-!
Stores with more scopes. Scopes that an evaluation does not know of can stand among those that it uses: the scopes from
before it are put among others, in whatever order, and its own behind all of them (`Insertion`); and names may be others
there. All that an evaluation does with its scopes then gives the same, but for the places of the scopes and for the
names.
-/

namespace Rivulet

/-- A scope whose surrounding scope, and those that functions in it captured, are kept at other places, and whose names
are others. -/
def Scope.relocated {M : Type} [Naming M] (relocation : Relocation M) (scope : Scope) : Scope M :=
  ⟨scope.bindings.map (Value.relocatedBinding relocation), scope.parent.map relocation.place⟩

/-- Which of the first so many scopes is kept at a place. -/
def keptAt? (count : Nat) (place : Nat → Nat) (index : Nat) : Option Nat :=
  (List.range count).find? fun id => place id == index

theorem keptAt?_eq_some_iff {count : Nat} {place : Nat → Nat} {id index : Nat}
    (apart : ∀ id < count, ∀ other < count, place id = place other → id = other) :
    keptAt? count place index = some id ↔ id < count ∧ place id = index := by
  unfold keptAt?
  constructor
  · intro found
    exact ⟨List.mem_range.mp (List.mem_of_find?_eq_some found), beq_iff_eq.mp (List.find?_some found :)⟩
  · rintro ⟨before, rfl⟩
    have exist : ((List.range count).find? fun other => place other == place id).isSome :=
      List.find?_isSome.mpr ⟨id, List.mem_range.mpr before, beq_self_eq_true _⟩
    obtain ⟨other, found⟩ := Option.isSome_iff_exists.mp exist
    have same := beq_iff_eq.mp (List.find?_some found :)
    rw [found, apart other (List.mem_range.mp (List.mem_of_find?_eq_some found)) id before same]

/-- Scopes, and spots among them for the first scopes of a store; those that follow are put behind. Names are changed on
the way. -/
structure Insertion (M : Type := String) [Naming M] extends Renaming M where
  base : Nat
  host : List (Scope M)
  spot : Nat → Nat
  inside : ∀ id < base, spot id < host.length
  apart : ∀ id < base, ∀ other < base, spot id = spot other → id = other

namespace Insertion

variable {M : Type} [Naming M]

/-- Where a scope is kept after the insertion. -/
def place (insertion : Insertion M) (id : Nat) : Nat :=
  if id < insertion.base then insertion.spot id else insertion.host.length + (id - insertion.base)

/-- Where scopes are kept after the insertion, and what names are there. -/
def relocation (insertion : Insertion M) : Relocation M :=
  { insertion.toRenaming with place := insertion.place }

@[simp]
theorem place_relocation (insertion : Insertion M) : insertion.relocation.place = insertion.place :=
  rfl

@[simp]
theorem name_relocation (insertion : Insertion M) : insertion.relocation.name = insertion.name :=
  rfl

/-- Which scope is put at a spot. -/
def origin? (insertion : Insertion M) (index : Nat) : Option Nat :=
  keptAt? insertion.base insertion.spot index

/-- A store with its scopes inserted. -/
def store (insertion : Insertion M) (store : Store) : Store M :=
  ⟨(insertion.host.mapIdx (fun index own =>
      ((insertion.origin? index).bind (store.scopes[·]?)).elim own (Scope.relocated insertion.relocation)) ++
    (store.scopes.toList.drop insertion.base).map (Scope.relocated insertion.relocation)).toArray⟩

/-- Scopes lie inside older ones, before they are inserted and afterwards. -/
structure Ascends (insertion : Insertion M) (store : Store) : Prop where
  nested : store.Nested
  ascends : ∀ id < insertion.base, ∀ outer, store.parent? id = some outer → insertion.spot outer < insertion.spot id

variable {insertion : Insertion M} {store : Store} {store' : Store M} {id other : Nat} {name : String} {value : Value}

/-! ### Places -/

theorem place_of_lt (before : id < insertion.base) : insertion.place id = insertion.spot id :=
  if_pos before

theorem place_of_le (behind : insertion.base ≤ id) :
    insertion.place id = insertion.host.length + (id - insertion.base) :=
  if_neg (Nat.not_lt.mpr behind)

theorem place_lt_length_iff : insertion.place id < insertion.host.length ↔ id < insertion.base := by
  refine ⟨fun before => Nat.not_le.mp fun behind => ?_, fun before => ?_⟩
  · rw [place_of_le behind] at before
    omega
  · rw [place_of_lt before]
    exact insertion.inside id before

theorem place_injective (insertion : Insertion M) : Function.Injective insertion.place := by
  intro id other same
  have both : id < insertion.base ↔ other < insertion.base := by
    rw [← place_lt_length_iff, same, place_lt_length_iff]
  by_cases before : id < insertion.base
  · rw [place_of_lt before, place_of_lt (both.mp before)] at same
    exact insertion.apart id before other (both.mp before) same
  · have behind := Nat.not_lt.mp before
    have behind' := Nat.not_lt.mp (mt both.mpr before)
    rw [place_of_le behind, place_of_le behind'] at same
    omega

theorem origin?_eq_some_iff {index : Nat} :
    insertion.origin? index = some id ↔ id < insertion.base ∧ insertion.spot id = index :=
  keptAt?_eq_some_iff insertion.apart

/-- Every place is one that a scope is kept at, or one of another scope. -/
theorem place_cases (insertion : Insertion M) (index : Nat) :
    (∃ id, index = insertion.place id) ∨ index < insertion.host.length ∧ insertion.origin? index = none := by
  by_cases before : index < insertion.host.length
  · cases found : insertion.origin? index with
    | none => exact .inr ⟨before, rfl⟩
    | some id =>
      obtain ⟨before', rfl⟩ := origin?_eq_some_iff.mp found
      exact .inl ⟨id, (place_of_lt before').symm⟩
  · refine .inl ⟨insertion.base + (index - insertion.host.length), ?_⟩
    rw [place_of_le (Nat.le_add_right _ _)]
    omega

/-- A scope stays behind those that it lies in. -/
theorem Ascends.place_lt_place (ascends : insertion.Ascends store) (around : store.parent? id = some other) :
    insertion.place other < insertion.place id := by
  have older := ascends.nested id other around
  by_cases before : id < insertion.base
  · rw [place_of_lt before, place_of_lt (Nat.lt_trans older before)]
    exact ascends.ascends id before other around
  · have behind := Nat.not_lt.mp before
    rw [place_of_le behind]
    by_cases before' : other < insertion.base
    · exact Nat.lt_of_lt_of_le (place_lt_length_iff.mpr before') (Nat.le_add_right _ _)
    · have behind' := Nat.not_lt.mp before'
      rw [place_of_le behind']
      exact Nat.add_lt_add_left (Nat.sub_lt_sub_right behind' older) _

/-! ### Scopes -/

section

variable (within : insertion.base ≤ store.scopes.size)

omit within in
theorem size_store : (insertion.store store).scopes.size =
    insertion.host.length + (store.scopes.size - insertion.base) := by
  simp [Insertion.store]

include within

theorem place_size : insertion.place store.scopes.size = (insertion.store store).scopes.size := by
  rw [place_of_le within, size_store]

/-- What is kept where a scope was moved to. -/
theorem getElem?_place (id : Nat) :
    (insertion.store store).scopes[insertion.place id]? =
      (store.scopes[id]?).map (Scope.relocated insertion.relocation) := by
  simp only [Insertion.store, List.getElem?_toArray]
  by_cases before : id < insertion.base
  · have there := Array.getElem?_eq_getElem (Nat.lt_of_lt_of_le before within)
    have spot := place_lt_length_iff.mpr before
    have origin : insertion.origin? (insertion.place id) = some id :=
      origin?_eq_some_iff.mpr ⟨before, (place_of_lt before).symm⟩
    rw [List.getElem?_append_left (by simpa using spot), List.getElem?_mapIdx, List.getElem?_eq_getElem spot, origin]
    simp [there]
  · have behind := Nat.not_lt.mp before
    rw [place_of_le behind, List.getElem?_append_right (by simp), List.getElem?_map, List.getElem?_drop,
      Array.getElem?_toList]
    congr 2
    simp
    omega

omit within in
/-- What is kept at the other spots. -/
theorem getElem?_host {index : Nat} (before : index < insertion.host.length) (other : insertion.origin? index = none) :
    (insertion.store store).scopes[index]? = insertion.host[index]? := by
  simp only [Insertion.store, List.getElem?_toArray]
  rw [List.getElem?_append_left (by simpa using before), List.getElem?_mapIdx, other]
  simp

/-- A store that keeps the scopes where they were moved to, and the others, is the store with its scopes inserted. -/
theorem eq_store (size : store'.scopes.size = insertion.host.length + (store.scopes.size - insertion.base))
    (kept : ∀ id, store'.scopes[insertion.place id]? = (store.scopes[id]?).map (Scope.relocated insertion.relocation))
    (others : ∀ index < insertion.host.length, insertion.origin? index = none →
      store'.scopes[index]? = insertion.host[index]?) :
    store' = insertion.store store := by
  have same : store'.scopes = (insertion.store store).scopes := by
    refine Array.ext_getElem? fun index => ?_
    rcases insertion.place_cases index with ⟨id, rfl⟩ | ⟨before, other⟩
    · rw [kept, getElem?_place within]
    · rw [others index before other, getElem?_host before other]
  cases store'
  exact congrArg Store.mk same

/-! ### Reading -/

theorem parent?_store (id : Nat) :
    (insertion.store store).parent? (insertion.place id) = (store.parent? id).map insertion.place := by
  unfold Store.parent?
  rw [getElem?_place within]
  cases store.scopes[id]? <;> rfl

theorem local?_store [DecidableEq M] (id : Nat) (name : String) :
    (insertion.store store).local? (insertion.place id) (insertion.name name) =
      (store.local? id name).map (Value.relocated insertion.relocation) := by
  unfold Store.local?
  rw [getElem?_place within]
  cases store.scopes[id]? with
  | none => rfl
  | some found => exact @lookup_relocated _ _ insertion.relocation _ found.bindings name

theorem bindsLocally_store [DecidableEq M] (id : Nat) (name : String) :
    (insertion.store store).bindsLocally (insertion.place id) (insertion.name name) = store.bindsLocally id name := by
  unfold Store.bindsLocally
  rw [local?_store within, Option.isSome_map]

theorem lookupFrom_store [DecidableEq M] (ascends : insertion.Ascends store) {count count' : Nat} (enough : id < count)
    (enough' : insertion.place id < count') :
    (insertion.store store).lookupFrom (insertion.name name) count' (insertion.place id) =
      (store.lookupFrom name count id).map (Value.relocated insertion.relocation) := by
  induction count generalizing id count' with
  | zero => exact absurd enough (Nat.not_lt_zero _)
  | succ count hypothesis =>
    obtain ⟨count', rfl⟩ := Nat.exists_eq_succ_of_ne_zero (Nat.ne_zero_of_lt enough')
    unfold Store.lookupFrom
    rw [local?_store within, parent?_store within]
    cases store.local? id name with
    | some value => rfl
    | none =>
      cases around : store.parent? id with
      | none => rfl
      | some outer =>
        have older := ascends.nested id outer around
        have older' := ascends.place_lt_place around
        exact hypothesis (Nat.lt_of_lt_of_le older (Nat.le_of_lt_succ enough))
          (Nat.lt_of_lt_of_le older' (Nat.le_of_lt_succ enough'))

theorem lookup_store [DecidableEq M] (ascends : insertion.Ascends store) (id : Nat) (name : String) :
    (insertion.store store).lookup (insertion.place id) (insertion.name name) =
      (store.lookup id name).map (Value.relocated insertion.relocation) :=
  lookupFrom_store within ascends (Nat.lt_succ_self _) (Nat.lt_succ_self _)

theorem chainFrom_store (ascends : insertion.Ascends store) {count count' : Nat} (enough : id < count)
    (enough' : insertion.place id < count') :
    (insertion.store store).chainFrom count' (insertion.place id) = (store.chainFrom count id).map insertion.place := by
  induction count generalizing id count' with
  | zero => exact absurd enough (Nat.not_lt_zero _)
  | succ count hypothesis =>
    obtain ⟨count', rfl⟩ := Nat.exists_eq_succ_of_ne_zero (Nat.ne_zero_of_lt enough')
    unfold Store.chainFrom
    rw [parent?_store within, List.map_cons]
    cases around : store.parent? id with
    | none => rfl
    | some outer =>
      have older := ascends.nested id outer around
      have older' := ascends.place_lt_place around
      exact congrArg (insertion.place id :: ·) (hypothesis (Nat.lt_of_lt_of_le older (Nat.le_of_lt_succ enough))
        (Nat.lt_of_lt_of_le older' (Nat.le_of_lt_succ enough')))

theorem flatten_store [DecidableEq M] (layers : List Nat) :
    (insertion.store store).flatten (layers.map insertion.place) =
      (store.flatten layers).map (Value.relocatedBinding insertion.relocation) := by
  induction layers with
  | nil => rfl
  | cons id outer hypothesis =>
    have own : ((((insertion.store store).scopes[insertion.place id]?).map Scope.bindings).getD []) =
        ((((store.scopes[id]?).map Scope.bindings).getD []).map (Value.relocatedBinding insertion.relocation)) := by
      rw [getElem?_place within]
      cases store.scopes[id]? <;> rfl
    rw [List.map_cons]
    unfold Store.flatten
    dsimp only
    rw [own, hypothesis, List.map_append, List.filter_map]
    congr 2
    refine List.filter_congr fun binding _ => ?_
    have moved :=
      @lookup_relocated _ _ insertion.relocation _ (((store.scopes[id]?).map Scope.bindings).getD []) binding.1
    exact (congrArg Option.isNone moved).trans Option.isNone_map

/-! ### Writing -/

theorem add_store (scope : Scope) :
    (insertion.store store).add (scope.relocated insertion.relocation) =
      (insertion.place store.scopes.size, insertion.store (store.add scope).2) := by
  have later : insertion.base ≤ (store.add scope).2.scopes.size := by
    rw [Store.size_add]
    omega
  refine Prod.ext (place_size within).symm (eq_store later ?_ (fun id => ?_) fun index before other => ?_)
  · rw [Store.size_add, Store.size_add, size_store]
    omega
  · show ((insertion.store store).scopes.push _)[insertion.place id]? =
      ((store.scopes.push scope)[id]?).map (Scope.relocated insertion.relocation)
    have same : insertion.place id = (insertion.store store).scopes.size ↔ id = store.scopes.size := by
      rw [← place_size within, (place_injective insertion).eq_iff]
    rw [Array.getElem?_push, Array.getElem?_push, getElem?_place within]
    by_cases last : id = store.scopes.size
    · rw [if_pos (same.mpr last), if_pos last]
      rfl
    · rw [if_neg (mt same.mp last), if_neg last]
  · show ((insertion.store store).scopes.push _)[index]? = _
    rw [Array.getElem?_push, if_neg (by rw [size_store]; omega), getElem?_host before other]

theorem child_store (id : Nat) :
    (insertion.store store).child (insertion.place id) =
      (insertion.place (store.child id).1, insertion.store (store.child id).2) :=
  add_store within ⟨[], some id⟩

theorem capture_store [DecidableEq M] (ascends : insertion.Ascends store) (id : Nat) :
    (insertion.store store).capture (insertion.place id) =
      (insertion.place (store.capture id).1, insertion.store (store.capture id).2) := by
  have chain : (insertion.store store).chain (insertion.place id) = (store.chain id).map insertion.place :=
    chainFrom_store within ascends (Nat.lt_succ_self _) (Nat.lt_succ_self _)
  have snapshot : (insertion.store store).snapshot (insertion.place id) =
      (store.snapshot id).relocated insertion.relocation := by
    unfold Store.snapshot Scope.relocated
    rw [chain, ← List.map_dropLast, flatten_store within, List.getLast?_map]
    cases (store.chain id).getLast? <;> rfl
  rw [Store.capture_eq_add, Store.capture_eq_add, snapshot]
  exact add_store within _

/-- Changing a scope. -/
theorem modify_store (change : Scope → Scope) {change' : Scope M → Scope M}
    (same : ∀ scope : Scope,
      (change scope).relocated insertion.relocation = change' (scope.relocated insertion.relocation))
    (own : Nat) :
    (⟨(insertion.store store).scopes.modify (insertion.place own) change'⟩ : Store M) =
      insertion.store ⟨store.scopes.modify own change⟩ := by
  have later : insertion.base ≤ (⟨store.scopes.modify own change⟩ : Store).scopes.size := by simpa using within
  refine eq_store later ?_ (fun id => ?_) fun index before other => ?_
  · simp [size_store]
  · simp only [Array.getElem?_modify, getElem?_place within, (place_injective insertion).eq_iff]
    split
    · cases store.scopes[id]? with
      | none => rfl
      | some found => exact congrArg some (same found).symm
    · rfl
  · have elsewhere : insertion.place own ≠ index := by
      rintro rfl
      rw [origin?_eq_some_iff.mpr ⟨place_lt_length_iff.mp before, (place_of_lt (place_lt_length_iff.mp before)).symm⟩]
        at other
      cases other
    simp only [Array.getElem?_modify, elsewhere, if_false]
    exact getElem?_host before other

theorem bindNew_store (own : Nat) (name : String) (value : Value) :
    (insertion.store store).bindNew (insertion.place own) (insertion.name name) (value.relocated insertion.relocation) =
      insertion.store (store.bindNew own name value) :=
  modify_store within (Scope.bind · name value) (fun _ => rfl) own

theorem rebind_store [DecidableEq M] (own : Nat) (name : String) (value : Value) :
    (insertion.store store).rebind (insertion.place own) (insertion.name name) (value.relocated insertion.relocation) =
      insertion.store (store.rebind own name value) := by
  refine modify_store within (Scope.rebind · name value) (fun scope => ?_) own
  exact congrArg (Scope.mk · _) (Scope.setBinding_relocated name value scope.bindings).symm

theorem rebinds_store [DecidableEq M] (own : Nat) (bindings : List (String × Value)) :
    (bindings.map (Value.relocatedBinding insertion.relocation)).foldl
        (fun store binding => store.rebind (insertion.place own) binding.1 binding.2) (insertion.store store) =
      insertion.store (bindings.foldl (fun store binding => store.rebind own binding.1 binding.2) store) := by
  induction bindings generalizing store with
  | nil => rfl
  | cons binding rest hypothesis =>
    rw [List.map_cons, List.foldl_cons, List.foldl_cons, ← hypothesis (by simpa using within),
      ← rebind_store within]
    rfl

end

end Insertion

end Rivulet
