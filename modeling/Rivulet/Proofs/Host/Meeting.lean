import Rivulet.Proofs.Host.Restart
import Mathlib.Data.Nat.Pairing

/-!
Stores that meet. If the scopes of two stores are labelled, and those with the same label are alike, then both stores
can be inserted into one, where they share these scopes and no others (`store_meeting`). The scopes that an
evaluation adds to either of them come to the same place in that one just if their labels are the same
(`relabelled_of_place`, `place_of_relabelled`).
-/

namespace Rivulet

/-! ### Scopes at other places -/

/-- A scope in which functions captured, and which lies inside, none but the first so many scopes. -/
structure Scope.IsWithin (count : Nat) (scope : Scope) : Prop where
  bindings : ∀ binding ∈ scope.bindings, binding.2.IsWithin count
  parent : ∀ outer, scope.parent = some outer → outer < count

section

variable {place place' other other' : Nat → Nat} {count count' : Nat}

theorem Value.relocatedBindings_eq {bindings bindings' : List (String × Value)}
    (within : ∀ binding ∈ bindings, binding.2.IsWithin count) (within' : ∀ binding ∈ bindings', binding.2.IsWithin count')
    (same : bindings.map (relocatedBinding (.places place)) = bindings'.map (relocatedBinding (.places place')))
    (moved : ∀ scope < count, ∀ scope' < count', place scope = place' scope' → other scope = other' scope') :
    bindings.map (relocatedBinding (.places other)) = bindings'.map (relocatedBinding (.places other')) := by
  refine map_eq_map_of_map_eq_map same fun binding among binding' among' same => ?_
  obtain ⟨name, value⟩ := Prod.mk.inj same
  exact Prod.ext name (relocated_eq_relocated (within binding among) (within' binding' among') value moved)

theorem Scope.relocated_eq_relocated {scope scope' : Scope} (within : scope.IsWithin count)
    (within' : scope'.IsWithin count') (same : scope.relocated (.places place) = scope'.relocated (.places place'))
    (moved : ∀ scope < count, ∀ scope' < count', place scope = place' scope' → other scope = other' scope') :
    scope.relocated (.places other) = scope'.relocated (.places other') := by
  obtain ⟨bindings, parent⟩ := scope
  obtain ⟨bindings', parent'⟩ := scope'
  obtain ⟨bindingsSame, parentSame⟩ := Scope.mk.inj same
  refine Scope.mk.injEq .. ▸ ⟨Value.relocatedBindings_eq within.bindings within'.bindings bindingsSame moved, ?_⟩
  cases parent with
  | none =>
    cases parent' with
    | none => rfl
    | some outer' => simp at parentSame
  | some outer =>
    cases parent' with
    | none => simp at parentSame
    | some outer' =>
      exact congrArg some (moved outer (within.parent outer rfl) outer' (within'.parent outer' rfl)
        (Option.some.inj parentSame))

/-- How a scope is relocated depends on the places of the scopes only that it needs. -/
theorem Scope.relocated_congr {scope : Scope} (within : scope.IsWithin count)
    (same : ∀ scope < count, other scope = other' scope) :
    scope.relocated (.places other) = scope.relocated (.places other') := by
  refine @Scope.relocated_eq_relocated id id other other' count count scope scope within within rfl ?_
  intro id inside id' _ (equal : id = id')
  rw [← equal]
  exact same id inside

end

theorem Store.IsClosed.isWithin {store : Store} (closed : store.IsClosed) {id : Nat} {scope : Scope}
    (there : store.scopes[id]? = some scope) : scope.IsWithin store.scopes.size where
  bindings := (closed.captured id scope (Nat.zero_le _) there).bindings
  parent outer around :=
    Nat.lt_trans (closed.nested id outer (by simp [Store.parent?, there, around])) (lt_size_of_getElem? there)

/-! ### Stores that agree -/

/-- Whether scopes of two stores are alike that have the same label. -/
def Store.Agrees (label label' : Nat → Nat) (store store' : Store) : Prop :=
  ∀ id scope, store.scopes[id]? = some scope → ∀ id' scope', store'.scopes[id']? = some scope' →
    label id = label' id' → scope.relocated (.places label) = scope'.relocated (.places label')

namespace Insertion

/-- Scopes with a label that is also used in another store are kept as there, and all others behind that store. -/
def beside (store store' : Store) {label label' : Nat → Nat} (injective : label.Injective)
    (injective' : label'.Injective) : Insertion where
  toRenaming := .refl
  base := store'.scopes.size
  host := store.scopes.toList ++ store'.scopes.toList
  spot id := (keptAt? store.scopes.size label (label' id)).getD (store.scopes.size + id)
  inside id before := by
    rw [List.length_append, Array.length_toList, Array.length_toList]
    cases found : keptAt? store.scopes.size label (label' id) with
    | none => exact Nat.add_lt_add_left before _
    | some twin =>
      have inside := ((keptAt?_eq_some_iff fun _ _ _ _ same => injective same).mp found).1
      exact Nat.lt_add_right _ inside
  apart id _ other _ same := by
    have apart : ∀ id < store.scopes.size, ∀ other < store.scopes.size, label id = label other → id = other :=
      fun _ _ _ _ same => injective same
    cases found : keptAt? store.scopes.size label (label' id) with
    | none =>
      cases found' : keptAt? store.scopes.size label (label' other) with
      | none =>
        rw [found, found'] at same
        exact Nat.add_left_cancel same
      | some twin =>
        have inside := ((keptAt?_eq_some_iff apart).mp found').1
        rw [found, found'] at same
        simp only [Option.getD_none, Option.getD_some] at same
        omega
    | some twin =>
      obtain ⟨inside, is⟩ := (keptAt?_eq_some_iff apart).mp found
      cases found' : keptAt? store.scopes.size label (label' other) with
      | none =>
        rw [found, found'] at same
        simp only [Option.getD_none, Option.getD_some] at same
        omega
      | some twin' =>
        obtain ⟨-, is'⟩ := (keptAt?_eq_some_iff apart).mp found'
        rw [found, found'] at same
        simp only [Option.getD_some] at same
        exact injective' (is.symm.trans ((congrArg label same).trans is'))

end Insertion

section

variable {store store' : Store} {label label' : Nat → Nat} {id id' : Nat} (injective : label.Injective)
  (injective' : label'.Injective)

/-- The store that two stores are inserted into. -/
def Store.meeting (store store' : Store) {label label' : Nat → Nat} (injective : label.Injective)
    (injective' : label'.Injective) : Store :=
  (Insertion.beside store store' injective injective').store store'

include injective injective'

theorem length_host_beside :
    (Insertion.beside store store' injective injective').host.length = store.scopes.size + store'.scopes.size := by
  simp [Insertion.beside]

theorem size_meeting :
    (store.meeting store' injective injective').scopes.size = store.scopes.size + store'.scopes.size := by
  rw [Store.meeting, Insertion.size_store, length_host_beside]
  exact Nat.add_eq_left.mpr (Nat.sub_self _)

/-- A scope of the second store stands where one of the first does just if both have the same label. -/
theorem place_beside_cases (before : id' < store'.scopes.size) :
    (∃ id < store.scopes.size, label id = label' id' ∧ (Insertion.beside store store' injective injective').place id' = id) ∨
      (Insertion.beside store store' injective injective').place id' = store.scopes.size + id' ∧
        ∀ id < store.scopes.size, label id ≠ label' id' := by
  have apart : ∀ id < store.scopes.size, ∀ other < store.scopes.size, label id = label other → id = other :=
    fun _ _ _ _ same => injective same
  rw [Insertion.place_of_lt before]
  show (∃ id < store.scopes.size, label id = label' id' ∧
    (keptAt? store.scopes.size label (label' id')).getD (store.scopes.size + id') = id) ∨ _
  cases found : keptAt? store.scopes.size label (label' id') with
  | some twin =>
    obtain ⟨inside, is⟩ := (keptAt?_eq_some_iff apart).mp found
    exact .inl ⟨twin, inside, is, rfl⟩
  | none =>
    refine .inr ⟨?_, fun id inside is => ?_⟩
    · show (keptAt? store.scopes.size label (label' id')).getD _ = _
      rw [found]
      rfl
    · rw [(keptAt?_eq_some_iff apart).mpr ⟨inside, is⟩] at found
      cases found

theorem place_beside_of_label (before : id < store.scopes.size) (before' : id' < store'.scopes.size)
    (same : label id = label' id') : (Insertion.beside store store' injective injective').place id' = id := by
  rcases place_beside_cases injective injective' before' with ⟨twin, -, is, place⟩ | ⟨-, none⟩
  · rw [place, injective (is.trans same.symm)]
  · exact absurd same (none id before)

variable (closed : store.IsClosed) (closed' : store'.IsClosed) (agrees : store.Agrees label label' store')

include closed closed' agrees

theorem continues_meeting : store.Continues (store.meeting store' injective injective') := by
  have host := @length_host_beside store store' _ _ injective injective'
  have size := @size_meeting store store' _ _ injective injective'
  refine ⟨by omega, fun _ older => older, fun (id : Nat) (older : id < store.scopes.size) => ?_⟩
  have there := Array.getElem?_eq_getElem older
  rcases (Insertion.beside store store' injective injective').place_cases id with ⟨id', place⟩ | ⟨before, none⟩
  · have before' : id' < store'.scopes.size := by
      refine (@Insertion.place_lt_length_iff _ _ (.beside store store' injective injective') id').mp ?_
      omega
    have there' := Array.getElem?_eq_getElem before'
    rcases place_beside_cases injective injective' before' with ⟨twin, -, is, place'⟩ | ⟨place', -⟩
    · have twin_eq : twin = id := place'.symm.trans place.symm
      subst twin_eq
      have alike := agrees twin _ there id' _ there' is
      have still := @relocatedScope_behind store store closed _ (Array.getElem_mem_toList older)
      have moved := Scope.relocated_eq_relocated (closed.isWithin there) (closed'.isWithin there') alike
        fun id before id' before' same =>
          (@place_behind store store id before).trans (place_beside_of_label injective injective' before before' same).symm
      rw [place, Store.meeting, Insertion.getElem?_place (Nat.le_refl _), ← place, there', there]
      exact congrArg some (moved.symm.trans still)
    · omega
  · rw [Store.meeting, Insertion.getElem?_host before none]
    show (store.scopes.toList ++ store'.scopes.toList)[id]? = _
    rw [List.getElem?_append_left (by simpa using older), Array.getElem?_toList]

/-- Both stores are inserted into the same one. -/
theorem store_meeting :
    (Insertion.behind store (store.meeting store' injective injective')).store store =
      (Insertion.beside store store' injective injective').store store' :=
  store_behind closed (continues_meeting injective injective' closed closed' agrees)

theorem ascends_beside : (Insertion.beside store store' injective injective').Ascends store' := by
  refine ⟨closed'.nested, fun id' before' outer' around' => ?_⟩
  have older' := closed'.nested id' outer' around'
  have before'' := Nat.lt_trans older' before'
  rw [← Insertion.place_of_lt before', ← Insertion.place_of_lt before'']
  obtain ⟨scope', there', parent'⟩ := Option.bind_eq_some_iff.mp around'
  rcases place_beside_cases injective injective' before' with ⟨id, before, is, place⟩ | ⟨place, -⟩
  · -- A shared scope lies inside a shared scope.
    have there := Array.getElem?_eq_getElem before
    have alike := congrArg Scope.parent (agrees id _ there id' _ there' is)
    rw [Scope.relocated, Scope.relocated, parent'] at alike
    obtain ⟨outer, around, named⟩ := Option.map_eq_some_iff.mp alike
    have older : outer < id := closed.nested id outer (by simp [Store.parent?, there, around])
    rw [place, place_beside_of_label injective injective' (Nat.lt_trans older before) before'' named]
    exact older
  · rw [place]
    rcases place_beside_cases injective injective' before'' with ⟨outer, before, -, place'⟩ | ⟨place', -⟩
    · rw [place']
      exact Nat.lt_add_right _ before
    · rw [place']
      exact Nat.add_lt_add_left older' _

end

/-! ### Labels for more scopes -/

/-- Labels for some scopes, and for those that follow: the name of what made them, and which of its scopes they are. -/
def relabelled (count name : Nat) (label : Nat → Nat) (id : Nat) : Nat :=
  if id < count then label id else Nat.pair name (id - count)

section

variable {count name id : Nat} {label : Nat → Nat}

theorem relabelled_of_lt (before : id < count) : relabelled count name label id = label id :=
  if_pos before

theorem relabelled_of_le (behind : count ≤ id) : relabelled count name label id = Nat.pair name (id - count) :=
  if_neg (Nat.not_lt.mpr behind)

theorem relabelled_injective (injective : label.Injective)
    (fresh : ∀ id < count, ∀ index, label id ≠ Nat.pair name index) : (relabelled count name label).Injective := by
  intro id other same
  by_cases before : id < count <;> by_cases before' : other < count
  · rw [relabelled_of_lt before, relabelled_of_lt before'] at same
    exact injective same
  · rw [relabelled_of_lt before, relabelled_of_le (Nat.not_lt.mp before')] at same
    exact absurd same (fresh id before _)
  · rw [relabelled_of_le (Nat.not_lt.mp before), relabelled_of_lt before'] at same
    exact absurd same.symm (fresh other before' _)
  · rw [relabelled_of_le (Nat.not_lt.mp before), relabelled_of_le (Nat.not_lt.mp before'), Nat.pair_eq_pair] at same
    omega

end

section

variable {store store' : Store} {label label' : Nat → Nat} {id id' : Nat} (injective : label.Injective)
  (injective' : label'.Injective)

/-- Scopes with the same label are kept at the same place in the store that both stores are inserted into. -/
theorem place_behind_eq_place_beside (before : id < store.scopes.size) (before' : id' < store'.scopes.size)
    (same : label id = label' id') :
    (Insertion.behind store (store.meeting store' injective injective')).place id =
      (Insertion.beside store store' injective injective').place id' := by
  rw [place_behind before, place_beside_of_label injective injective' before before' same]

theorem length_host_behind :
    (Insertion.behind store (store.meeting store' injective injective')).host.length =
      (Insertion.beside store store' injective injective').host.length := by
  rw [length_host_beside]
  simp only [Insertion.behind, List.length_append, List.length_drop, Array.length_toList, size_meeting,
    Nat.add_sub_cancel_left]

theorem place_behind_lt_iff (same : (Insertion.behind store (store.meeting store' injective injective')).place id =
    (Insertion.beside store store' injective injective').place id') :
    id < store.scopes.size ↔ id' < store'.scopes.size := by
  have first := @Insertion.place_lt_length_iff _ _ (.behind store (store.meeting store' injective injective')) id
  have second := @Insertion.place_lt_length_iff _ _ (.beside store store' injective injective') id'
  rw [same, length_host_behind] at first
  exact first.symm.trans second

/-- New scopes follow one another in the store that both stores are inserted into. -/
theorem place_behind_eq_iff (behind : store.scopes.size ≤ id) (behind' : store'.scopes.size ≤ id') :
    (Insertion.behind store (store.meeting store' injective injective')).place id =
        (Insertion.beside store store' injective injective').place id' ↔
      id - store.scopes.size = id' - store'.scopes.size := by
  have place : (Insertion.behind store (store.meeting store' injective injective')).place id = _ :=
    Insertion.place_of_le behind
  have place' : (Insertion.beside store store' injective injective').place id' = _ := Insertion.place_of_le behind'
  rw [place, place', length_host_behind]
  exact Nat.add_left_cancel_iff

/-- Scopes that are kept at the same place have the same label, and so have those that are made there. -/
theorem relabelled_of_place (name : Nat)
    (same : (Insertion.behind store (store.meeting store' injective injective')).place id =
      (Insertion.beside store store' injective injective').place id') :
    relabelled store.scopes.size name label id = relabelled store'.scopes.size name label' id' := by
  have both := place_behind_lt_iff injective injective' same
  by_cases before : id < store.scopes.size
  · have before' := both.mp before
    rw [place_behind before] at same
    rw [relabelled_of_lt before, relabelled_of_lt before']
    rcases place_beside_cases injective injective' before' with ⟨twin, -, is, place⟩ | ⟨place, -⟩
    · rw [same, place, is]
    · omega
  · have behind := Nat.not_lt.mp before
    have behind' := Nat.not_lt.mp (mt both.mpr before)
    rw [relabelled_of_le behind, relabelled_of_le behind']
    exact congrArg (Nat.pair name) ((place_behind_eq_iff injective injective' behind behind').mp same)

/-- Scopes with the same label are kept at the same place, and so are those that are made under the same name. -/
theorem place_of_relabelled {name : Nat} (fresh : ∀ id < store.scopes.size, ∀ index, label id ≠ Nat.pair name index)
    (fresh' : ∀ id < store'.scopes.size, ∀ index, label' id ≠ Nat.pair name index)
    (same : relabelled store.scopes.size name label id = relabelled store'.scopes.size name label' id') :
    (Insertion.behind store (store.meeting store' injective injective')).place id =
      (Insertion.beside store store' injective injective').place id' := by
  by_cases before : id < store.scopes.size <;> by_cases before' : id' < store'.scopes.size
  · rw [relabelled_of_lt before, relabelled_of_lt before'] at same
    exact place_behind_eq_place_beside injective injective' before before' same
  · rw [relabelled_of_lt before, relabelled_of_le (Nat.not_lt.mp before')] at same
    exact absurd same (fresh id before _)
  · rw [relabelled_of_le (Nat.not_lt.mp before), relabelled_of_lt before'] at same
    exact absurd same.symm (fresh' id' before' _)
  · have behind := Nat.not_lt.mp before
    have behind' := Nat.not_lt.mp before'
    rw [relabelled_of_le behind, relabelled_of_le behind', Nat.pair_eq_pair] at same
    exact (place_behind_eq_iff injective injective' behind behind').mpr same.2

end

end Rivulet
