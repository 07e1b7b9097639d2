import Rivulet.Proofs.Line.Layout
import Rivulet.Proofs.Machine.Compilation
import Rivulet.Proofs.Typing.Soundness

/-!
Programs of the first-order language. If an analysis reports nothing that blocks and leaves no type open, and the
streams are bound to values of their types, then every evaluation of the program ends with a value of its type, or
with a division by zero, or because it has run out of steps.

Main statement: `run_conforms`.
-/

namespace Rivulet

/-- Inputs bind the streams of some signatures to values of their types. Of several signatures of one name the last
one counts, and so does the last of several bindings. -/
def Inputs.Conform (inputs : Inputs) (signatures : List StreamSignature) : Prop :=
  ∀ name signature, (signatures.reverse.find? fun signature => signature.name == name) = some signature →
    ∃ value, inputs.streams.reverse.lookup name = some value ∧ value.Conforms signature.valueType

/-- A name that stands for a stream stands for the last one of that name. -/
theorem Context.find?_of_outermost? {context : Context} {name : String} {index : Nat} {signature : StreamSignature}
    (outermost : context.outermost? name = some (.stream index)) (there : context.streams[index]? = some signature) :
    (context.streams.reverse.find? fun signature => signature.name == name) = some signature := by
  unfold outermost? lastIndex? at outermost
  rw [List.find?_eq_bind_findIdx?_getElem?]
  cases found : context.streams.reverse.findIdx? fun signature => signature.name == name with
  | none => simp [found] at outermost
  | some position =>
    have last : context.streams.length - 1 - position = index := by simpa [found] using outermost
    have inside : position < context.streams.length := by
      simpa using (List.findIdx?_eq_some_iff_getElem.mp found).1
    rw [Option.bind_some, List.getElem?_reverse inside, last, there]

namespace Meaning

/-- The outermost scope of a program supplies its streams. -/
theorem exists_outermostBinding {context : Context} {natives : Natives} {inputs : Inputs}
    (conform : inputs.Conform context.streams) {name : String} {index : Nat} {signature : StreamSignature}
    (outermost : context.outermost? name = some (.stream index)) (there : context.streams[index]? = some signature) :
    ∃ value, outermostBinding natives inputs name = some value ∧ value.Conforms signature.valueType := by
  obtain ⟨value, bound, conforms⟩ := conform name signature (Context.find?_of_outermost? outermost there)
  refine ⟨value, ?_, conforms⟩
  rw [outermostBinding, List.reverse_append, List.lookup_append, bound, Option.some_or]

/-- A typed program comes to a value of its type, unless it divides by zero. -/
theorem attains_program {tree : Tree} {natives : Natives} {maxDepth : Nat} {store : Store} {inputs : Inputs}
    {context : Context} {type : NodeId → Ty}
    (welltyped : Welltyped ⟨tree, natives, store.scopes.size, inputs.trigger, inputs.borrowed.reverse⟩ context type
      (outermostBinding natives inputs)) :
    match program tree natives maxDepth store inputs with
    | .ok value _ => value.Conforms (type tree.root)
    | .error halt _ => ∃ origin, halt = .exception (.failed .divisionByZero origin) := by
  obtain rfl : tree = context.tree := welltyped.tree
  have proper := welltyped.program.proper
  have rooted := rooted_outermostStore natives inputs store
  have provides : Provides type (outermostBinding natives inputs) store.scopes.size store.scopes.size
      (outermostStore natives inputs store) (context.visible? context.tree.root) := by
    refine ⟨rooted, Nat.le_refl _, rooted.inside, fun name => ?_⟩
    rw [Context.visible?_root proper welltyped.program.indexed, Store.lookup_root rooted]
    exact local?_outermostStore natives inputs store name
  have opened := (@reaches_added _ _ _ _ _ ⟨outermostStore natives inputs store, []⟩ _ provides).provides
  have attains := @Welltyped.attains_node _ _ _ _ store.scopes.size (maxDepth - 1) welltyped _ proper.reached_root
    welltyped.program.plain.root _ ⟨_, []⟩ opened
  have same : node ⟨context.tree, natives, store.scopes.size, inputs.trigger, inputs.borrowed.reverse⟩ (maxDepth - 1)
      (outermostStore natives inputs store).scopes.size context.tree.root
      ⟨((outermostStore natives inputs store).add ⟨[], some store.scopes.size⟩).2, []⟩ =
    program context.tree natives maxDepth store inputs := rfl
  rw [Attains, same] at attains
  cases computed : program context.tree natives maxDepth store inputs with
  | ok value world =>
    rw [computed] at attains
    exact attains.2
  | error halt world =>
    rw [computed] at attains
    exact attains

end Meaning

namespace Machine

/-- The sequence of a first-order program computes what the program means. -/
theorem computesProgram_of_firstOrder {machine : Machine} (unobserved : machine.observers = [])
    (proper : machine.tree.Proper) (plain : machine.tree.FirstOrder) (complete : machine.tree.Complete) :
    machine.ComputesProgram := by
  refine computes_in_region unobserved machine.tree.Reached ?_ (fun id => plain.formedAt proper) ?_
    (Meaning.callTo_keeps machine.setting _) proper.acyclic machine.tree.root proper.reached_root plain.isPair_root
  · rintro child parent ⟨form, is, link⟩ reached
    exact proper.reached_child reached (complete.mem_children reached is link)
  · -- There are no calls.
    intro id callee arguments reached is
    simpa [Form.isFirstOrder, Form.isBind] using plain.kind_of_reached proper reached is

/-- Every evaluation of a first-order program that its analysis accepts ends with a value of its type, or because it
divides by zero or runs out of steps. -/
theorem run_conforms {tree : Tree} (proper : tree.Proper) (plain : tree.FirstOrder)
    {signatures : List StreamSignature} {σ : Type} (lookup : SourceLookup σ) (host : σ)
    (unblocked : (Analysis.analyze tree .standard signatures lookup host).1.isBlocked = false)
    (known : ∀ id, tree.Reached id →
      ((Analysis.analyze tree .standard signatures lookup host).1.typeOf id).mentionsAny = false)
    {inputs : Inputs} (conform : inputs.Conform signatures) (limits : Limits) (before : Store) (budget : Nat) :
    ∃ value, (((create (.ofTree tree) .standard limits before).start inputs).run budget).2 = .ok (.finished value) ∧
      (value.Conforms ((Analysis.analyze tree .standard signatures lookup host).1.typeOf tree.root) ∨
        (∃ id, value = .failed .divisionByZero id) ∨ value = stepLimitReached tree) := by
  have complete := Context.complete_of_analyze proper plain unblocked
  let context := Context.ofTree tree .standard signatures
  have program : context.FirstOrder := ⟨proper, plain, complete, rfl⟩
  have welltyped : Meaning.Welltyped
      ⟨tree, .standard, before.root.2.scopes.size, inputs.trigger, inputs.borrowed.reverse⟩ context context.staticType
      (Meaning.outermostBinding .standard inputs) := by
    refine ⟨rfl, program, fun id form reached is => ?_, fun name index signature => ?_⟩
    · exact Context.typed_of_analyze program rfl lookup host unblocked known reached is
    · exact Meaning.exists_outermostBinding conform
  let machine := create (.ofTree tree) .standard limits before
  have attains : match machine.meaning inputs with
      | .ok value _ => value.Conforms (context.staticType tree.root)
      | .error halt _ => ∃ origin, halt = .exception (.failed .divisionByZero origin) :=
    Meaning.attains_program welltyped
  obtain ⟨cost, ran⟩ := @run_start_of_computes machine inputs
    (@computesProgram_of_firstOrder (machine.prepared inputs) rfl proper plain complete)
  rw [ran, Context.typeOf_analyze program rfl lookup host proper.reached_root]
  split
  · cases computed : machine.meaning inputs with
    | ok value world =>
      rw [computed] at attains
      exact ⟨value, rfl, .inl attains⟩
    | error halt world =>
      rw [computed] at attains
      obtain ⟨origin, rfl⟩ := attains
      exact ⟨_, rfl, .inr (.inl ⟨origin, rfl⟩)⟩
  · exact ⟨_, rfl, .inr (.inr rfl)⟩

/-- A text that halves a stream and adds it to the half. -/
def halves : Tree where
  nodes := #[
    ⟨.reference "time", ⟨0, 1⟩⟩,
    ⟨.number "2" .unitless, ⟨1, 2⟩⟩,
    ⟨.binary .divide (.node 0) (.node 1), ⟨0, 3⟩⟩,
    ⟨.bind "half" (.node 2) none false, ⟨0, 4⟩⟩,
    ⟨.reference "half", ⟨4, 5⟩⟩,
    ⟨.reference "time", ⟨5, 6⟩⟩,
    ⟨.binary .add (.node 4) (.node 5), ⟨4, 7⟩⟩,
    ⟨.block ⟨0, 2⟩, ⟨0, 8⟩⟩,
    ⟨.program (.node 7), ⟨0, 9⟩⟩]
  lists := #[.node 3, .node 6]
  root := .node 8

theorem run_halves_conforms :
    let signatures : List StreamSignature := [⟨"time", .number (.dimension "ms")⟩]
    let inputs : Inputs := { streams := [("time", .number (.ofInt 3 (.dimension "ms")))] }
    halves.FirstOrder ∧ (Analysis.analyze halves .standard signatures .none ()).1.isBlocked = false ∧
      ∃ value, (((create (.ofTree halves) .standard ⟨100, 10⟩ .empty).start inputs).run 100).2 = .ok (.finished value) ∧
        (value.Conforms (.number (.dimension "ms")) ∨ (∃ id, value = .failed .divisionByZero id) ∨
          value = stepLimitReached halves) := by
  intro signatures inputs
  have read : Line.parse false "half: time / 2\nhalf + time" = .ok halves := by decide +kernel
  have proper := (Line.written_of_parse read).proper
  have plain : halves.FirstOrder := by decide +kernel
  have unblocked : (Analysis.analyze halves .standard signatures .none ()).1.isBlocked = false := by decide +kernel
  have known : ∀ id, halves.Reached id →
      ((Analysis.analyze halves .standard signatures .none ()).1.typeOf id).mentionsAny = false := by
    unfold Tree.Reached
    decide +kernel
  have conform : inputs.Conform signatures := by
    intro name signature found
    simp only [signatures, List.reverse_singleton, List.find?_singleton, Option.ite_none_right_eq_some, beq_iff_eq] at found
    obtain ⟨rfl, found⟩ := found
    cases found
    exact ⟨_, rfl, .number _ rfl⟩
  have is : (Analysis.analyze halves .standard signatures .none ()).1.typeOf halves.root =
      .number (.dimension "ms") := by decide +kernel
  refine ⟨plain, unblocked, ?_⟩
  rw [← is]
  exact run_conforms proper plain .none () unblocked known conform ⟨100, 10⟩ .empty 100

end Machine

end Rivulet
