import Rivulet.Proofs.Machine.Retaining

/-!
Scopes from before an evaluation. The frames of an evaluation are in scopes that it made itself, so it leaves all
scopes alone that were there before it.
-/

namespace Rivulet

namespace Store

/-- A store that keeps the scopes of another one as they are, and may have more. -/
abbrev Continues (first store : Store) : Prop :=
  first.Retains (· < first.scopes.size) store

variable {store store' : Store} {own : ScopeId}

theorem Continues.refl (store : Store) : store.Continues store :=
  ⟨Nat.le_refl _, fun _ older => older, fun _ _ => rfl⟩

theorem Continues.trans {first second : Store} (continues : first.Continues second)
    (continues' : second.Continues store) : first.Continues store where
  size := Nat.le_trans continues.size continues'.size
  older _ older := older
  kept id older := (continues'.kept id (Nat.lt_of_lt_of_le older continues.size)).trans (continues.kept id older)

theorem Continues.take_eq {first : Store} (continues : first.Continues store) :
    store.scopes.toList.take first.scopes.size = first.scopes.toList := by
  refine List.ext_getElem? fun id => ?_
  by_cases older : id < first.scopes.size
  · rw [List.getElem?_take_of_lt older, Array.getElem?_toList, Array.getElem?_toList, continues.kept id older]
  · rw [List.getElem?_eq_none (by simp; omega), List.getElem?_eq_none (by simp; omega)]

/-- New scopes, and what is written to them, leave the scopes of a store as they are. -/
theorem Continues.written {first : Store} (continues : first.Continues store)
    (size : store.scopes.size ≤ store'.scopes.size) (others : store.KeepsOthers own store')
    (later : first.scopes.size ≤ own) : first.Continues store' :=
  Retains.written continues size others (Nat.not_lt.mpr later)

end Store

namespace Machine

/-- An evaluation whose natives bind no names leaves the scopes from before it alone. -/
def older {tree : Tree} {natives : Natives} (law : Law tree natives) (limits : Limits) (first : Store)
    (quiet : natives.BindNothing) : Invariant law limits :=
  retaining law limits (· < first.scopes.size) first (.inl quiet)

end Machine

end Rivulet
