import Rivulet.Project.Evaluation
import Rivulet.Project.Saved
import Rivulet.Proofs.Value.Relocation
import Mathlib.Data.List.Nodup

/-!
Projects under other names. The trees of the sources, the standard natives and the streams get other names, and so do
the values that an evaluation is given; the names of the sources themselves are texts and stay.
-/

namespace Rivulet

variable {M : Type}

/-- A project under other names. -/
def Project.renamed [DecidableEq M] [Naming M] (rename : String → M) (project : Project) : Project M where
  id := project.id
  name := project.name
  sources := project.sources.map (Source.renamed rename)
  natives := .standard
  streams := project.streams.map fun stream => ⟨rename stream.name, stream.valueType⟩

/-- An occasion under other names. -/
def Occasion.relocated [Naming M] (relocation : Relocation M) (occasion : Occasion) : Occasion M where
  limits := occasion.limits
  streams := occasion.streams.map (Value.relocatedBinding relocation)
  trigger := occasion.trigger.map relocation.name

/-! ### Natives and streams -/

/-- The standard natives are the same for all ways of naming that agree on what they are called. -/
theorem Natives.standard_congr {N : Type} [DecidableEq N] {first second : Naming N}
    (same : ∀ text ∈ texts, first.ofText text = second.ofText text) : @standard N _ first = @standard N _ second := by
  unfold standard collectionName functionName initialName
  simp (disch := decide) only [same]

namespace Streams

variable [DecidableEq M] [Naming M]

theorem streams_standard : (standard : Streams M).streams =
    [⟨⟨Naming.ofText "time", .number milliseconds⟩, [.number (.ofInt 0 milliseconds)], true⟩,
      ⟨⟨Naming.ofText "choice", .text⟩, [.text ""], true⟩, ⟨⟨Naming.ofText "key", .text⟩, [.text ""], true⟩] :=
  rfl

/-- Each of the standard streams is the one that its name stands for. -/
theorem current_standard (apart : (texts.map (Naming.ofText : String → M)).Nodup) :
    (standard : Streams M).current = [0, 1, 2] := by
  have apart : ([Naming.ofText "time", Naming.ofText "choice", Naming.ofText "key"] : List M).Nodup := apart
  simp only [List.nodup_cons, List.mem_cons, List.not_mem_nil, or_false, not_or] at apart
  obtain ⟨⟨first, second⟩, third, -⟩ := apart
  have range : List.range (standard : Streams M).streams.length = [0, 1, 2] := rfl
  unfold current
  rw [range]
  simp [name?, find?_eq_lastOfName, streams_standard, lastOfName, Ne.symm first, Ne.symm second, Ne.symm third]

variable {relocation : Relocation M} (named : ∀ text ∈ texts, relocation.name text = Naming.ofText text)

include named

omit [DecidableEq M] in
theorem nodup_texts : (texts.map (Naming.ofText : String → M)).Nodup := by
  rw [← List.map_congr_left named]
  exact List.Nodup.map relocation.injective (by decide)

/-- The standard streams begin with the same values under other names. -/
theorem bindings_standard : (standard : Streams M).bindings =
    (standard : Streams).bindings.map (Value.relocatedBinding relocation) := by
  have own : (standard : Streams).bindings =
      [("time", .number (.ofInt 0 milliseconds)), ("choice", .text ""), ("key", .text "")] := by
    unfold bindings
    rw [current_standard (by decide)]
    rfl
  rw [own]
  simp only [List.map_cons, List.map_nil, Value.relocatedBinding, named "time" (by decide), named "choice" (by decide),
    named "key" (by decide)]
  unfold bindings
  rw [current_standard (nodup_texts named)]
  rfl

theorem signatures_standard : (standard : Streams M).signatures =
    (standard : Streams).signatures.map fun stream => ⟨relocation.name stream.name, stream.valueType⟩ := by
  have own : (standard : Streams).signatures =
      [⟨"time", .number milliseconds⟩, ⟨"choice", .text⟩, ⟨"key", .text⟩] := by
    unfold signatures
    rw [current_standard (by decide)]
    rfl
  rw [own]
  simp only [List.map_cons, List.map_nil, named "time" (by decide), named "choice" (by decide), named "key" (by decide)]
  unfold signatures
  rw [current_standard (nodup_texts named)]
  rfl

theorem name?_standard (id : Nat) :
    (standard : Streams M).name? id = ((standard : Streams).name? id).map relocation.name := by
  unfold name?
  rw [streams_standard, streams_standard, Option.map_map, ← List.getElem?_map, ← List.getElem?_map]
  simp [named "time" (by decide), named "choice" (by decide), named "key" (by decide)]

end Streams

/-! ### Projects -/

theorem Source.renamed_id (source : Source) : source.renamed (fun name : String => name) = source :=
  congrArg (Source.mk _ _ · _) source.tree.renamed_id

theorem Project.renamed_id {project : Project} (standard : project.natives = .standard) :
    project.renamed (fun name : String => name) = project := by
  have same : Source.renamed (fun name : String => name) = fun source => source := funext Source.renamed_id
  unfold renamed
  rw [same, List.map_id', ← standard]
  exact congrArg (Project.mk _ _ _ _) (List.map_id' _)

/-- The values of streams hold no scopes, so an occasion stays as it is when scopes are moved. -/
theorem Occasion.relocated_places {occasion : Occasion} (streams : ∀ stream ∈ occasion.streams, stream.2.IsWithin 0)
    (place : Nat → Nat) : occasion.relocated (.places place) = occasion := by
  have still := @Value.relocatedBindings_of_isWithin place 0 occasion.streams streams
    fun scope before => absurd before (Nat.not_lt_zero scope)
  unfold relocated
  rw [still]
  exact congrArg (Occasion.mk _ _) Option.map_id'

/-- The names that a source borrows. -/
theorem Source.borrows_renamed (rename : String → M) (source : Source) :
    (source.renamed rename).borrows = source.borrows.map rename := by
  unfold borrows renamed
  dsimp only
  rw [Tree.descendants_renamed, Tree.root_renamed, List.map_filterMap]
  congr 1
  funext node
  rw [Tree.form?_renamed]
  cases source.tree.form? node with
  | none => rfl
  | some form => cases form <;> rfl

namespace Project

variable [DecidableEq M] [Naming M] (rename : String → M) (project : Project)

theorem indexOf?_renamed (name : String) : (project.renamed rename).indexOf? name = project.indexOf? name := by
  unfold indexOf? renamed
  rw [List.findIdx?_map]
  rfl

theorem indexOf_renamed (name : String) : (project.renamed rename).indexOf name = project.indexOf name := by
  unfold indexOf
  rw [indexOf?_renamed]

theorem isSome_source?_renamed (name : String) :
    ((project.renamed rename).source? name).isSome = (project.source? name).isSome := by
  unfold source? renamed
  rw [List.find?_map, Option.isSome_map]
  rfl

theorem save_renamed : (project.renamed rename).save = project.save := by
  unfold save renamed
  rw [List.map_map]
  rfl

/-- What is asked of sources does not depend on how their names are kept. -/
theorem withSources_renamed (sources : List Source) :
    (project.renamed rename).withSources (sources.map (Source.renamed rename)) =
      (project.withSources sources).map (renamed rename) := by
  have names : (sources.map (Source.renamed rename)).map Source.name = sources.map Source.name := List.map_map
  unfold withSources
  rw [List.isEmpty_map, names]
  cases sources.isEmpty with
  | true => rfl
  | false => cases firstRepeated? [] (sources.map Source.name) <;> rfl

end Project

end Rivulet
