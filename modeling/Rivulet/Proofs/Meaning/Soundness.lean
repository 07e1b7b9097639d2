import Rivulet.Proofs.Meaning.Discipline

/-!
No evaluation misuses the host. As long as all functions that values hold can be called, whatever is
evaluated comes to a value of which the same is true, or to an exception, and never to a fault.

Main statement: `program_ne_fault`.
-/

namespace Rivulet.Meaning

/-- All functions that values hold can be called, and see nothing outside of the program. -/
def soundness (setting : Setting) : Discipline setting where
  kind value := ∀ function, value = .function function → Callable setting function ∧
    ∀ scope, function.context = some scope → setting.root ≤ scope
  base := setting.root
  lax := False
  inside := Nat.le_refl _
  plain value plain := by
    rintro function rfl
    simp [Value.isPlain] at plain
  native index registered := by
    rintro _ ⟨⟩
    refine ⟨⟨by simp, ?_⟩, by simp⟩
    rintro _ ⟨⟩
    exact registered
  closure id context name defined within := by
    rintro _ ⟨⟩
    refine ⟨⟨?_, by simp⟩, ?_⟩
    · rintro _ ⟨⟩
      exact defined
    · rintro _ ⟨⟩
      exact within
  renamed function name kind := by
    rintro _ ⟨⟩
    obtain ⟨callable, within⟩ := kind function rfl
    exact ⟨⟨callable.definition, callable.native⟩, within⟩
  context function scope kind := (kind function rfl).2 scope
  callable function kind := .inr (kind function rfl).1

theorem sound_of_data {setting : Setting} {value : Value} (data : value.IsData) :
    Sound (soundness setting) value :=
  data.mono (soundness setting).plain

/-- A program with data for inputs never misuses the host. -/
theorem program_ne_fault {tree : Tree} (formed : tree.WellFormed) (maxDepth : Nat) (store : Store)
    {inputs : Inputs} (streams : ∀ stream ∈ inputs.streams, stream.2.IsData)
    (borrowed : ∀ borrow ∈ inputs.borrowed, borrow.2.IsData) (fault : Fault) (world : World) :
    program tree .standard maxDepth store inputs ≠ .error (.fault fault) world := by
  intro is
  have safe := program_safe maxDepth store (soundness _) formed (Store.holds_of_size_le (Nat.le_refl _))
    (fun stream among => sound_of_data (streams stream among))
    fun borrow among => sound_of_data (borrowed borrow among)
  rw [is] at safe
  exact safe

end Rivulet.Meaning
