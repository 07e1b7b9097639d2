import Rivulet.Proofs.Meaning
import Rivulet.Proofs.Store.Contents
import Rivulet.Proofs.Store.Lookup

/-!
The scopes that an evaluation starts with. The outermost one binds natives and streams, and the scope of
the program lies inside it.
-/

namespace Rivulet.Meaning

open Store

theorem lastOfName_eq_some {name : String} {definitions : List Native} {start index : Nat}
    (found : Natives.lastOfName name definitions start = some index) :
    start ≤ index ∧ ∃ native, definitions[index - start]? = some native ∧ native.name = name := by
  induction definitions generalizing start with
  | nil => simp [Natives.lastOfName] at found
  | cons native rest hypothesis =>
    unfold Natives.lastOfName at found
    split at found
    · rename_i later is
      cases found
      obtain ⟨after, other, there, named⟩ := hypothesis is
      refine ⟨by omega, other, ?_, named⟩
      have : index - start = (index - (start + 1)) + 1 := by omega
      rw [this, List.getElem?_cons_succ, there]
    · split at found
      · rename_i named
        cases found
        exact ⟨Nat.le_refl _, native, by simp, named⟩
      · simp at found

/-- A name that stands for a native is bound to the function of that native. -/
theorem mem_values_of_find? {natives : Natives} {name : String} {index : Nat}
    (found : natives.find? name = some index) : (name, Natives.valueOf index) ∈ natives.values := by
  obtain ⟨-, native, there, named⟩ := lastOfName_eq_some found
  have bound : index < natives.size := (List.getElem?_eq_some_iff.mp there).1
  refine List.mem_filterMap.mpr ⟨index, List.mem_range.mpr bound, ?_⟩
  have known : natives.get? index = some native := there
  simp [known, named, found]

/-- What the outermost scope binds when an evaluation starts. -/
def outermostBinding (natives : Natives) (inputs : Inputs) (name : String) : Option Value :=
  (natives.values ++ inputs.streams).reverse.lookup name

/-- The scope of natives and streams as an evaluation starts with it. -/
def outermostStore {N : Type} [DecidableEq N] [Naming N] (natives : Natives N) (inputs : Inputs N) (store : Store N) :
    Store N :=
  (natives.values ++ inputs.streams).foldl
    (fun store' binding => store'.rebind store.scopes.size binding.1 binding.2) store.root.2

section

variable (natives : Natives) (inputs : Inputs) (store : Store)

theorem outerScopes_eq :
    outerScopes natives inputs.streams store =
      (store.scopes.size, (outermostStore natives inputs store).scopes.size,
        ((outermostStore natives inputs store).add ⟨[], some store.scopes.size⟩).2) :=
  rfl

theorem size_outermostStore : (outermostStore natives inputs store).scopes.size = store.scopes.size + 1 := by
  rw [outermostStore, size_rebinds, Store.root, size_add]

theorem rooted_outermostStore : (outermostStore natives inputs store).Rooted store.scopes.size := by
  refine Rooted.rebinds ⟨by simp [Store.root], by simp [Store.root], fun id after bound => ?_⟩ _ _
  simp only [Store.root, size_add] at bound
  exact absurd (Nat.lt_of_lt_of_le after (Nat.le_of_lt_succ bound)) (Nat.lt_irrefl _)

theorem local?_outermostStore (name : String) :
    (outermostStore natives inputs store).local? store.scopes.size name =
      outermostBinding natives inputs name := by
  rw [outermostStore, local?_rebinds (by simp [Store.root])]
  simp [Store.root, outermostBinding]

theorem holds_outermostStore {base : ScopeId} {kind : Value → Prop} (before : store.Holds base kind)
    (bindings : ∀ binding ∈ natives.values ++ inputs.streams, kind binding.2) :
    (outermostStore natives inputs store).Holds base kind :=
  (before.add ⟨by simp, by simp⟩).rebinds bindings

end

end Rivulet.Meaning
