import Rivulet.Proofs.Interference.Evaluation
import Rivulet.Proofs.Line.Layout
import Rivulet.Proofs.Machine.Calls
import Rivulet.Proofs.Machine.Reached

/-!
Noninterference of streams. Two evaluations of a text without functions and borrows that bind the same streams, all
but one of them to the same values, leave the same values in all nodes that this stream does not affect. Nothing else
needs to be the same: the trigger, the limits and the scopes made before may differ, and either evaluation may end
early with an exception.

Main statement: `unaffected_nodes_agree`.
-/

namespace Rivulet

/-- The place of a stream of some name among the signatures. -/
theorem Context.exists_stream {context : Context} {name : String}
    (among : name ∈ context.streams.map StreamSignature.name) :
    ∃ index signature, context.outermost? name = some (.stream index) ∧ context.streams[index]? = some signature ∧
      signature.name = name := by
  cases found : context.streams.reverse.findIdx? fun stream => stream.name == name with
  | none =>
    obtain ⟨signature, declared, named⟩ := List.mem_map.mp among
    simpa [named] using List.findIdx?_eq_none_iff.mp found signature (List.mem_reverse.mpr declared)
  | some position =>
    obtain ⟨inside, named, -⟩ := List.findIdx?_eq_some_iff_getElem.mp found
    rw [List.length_reverse] at inside
    rw [List.getElem_reverse] at named
    refine ⟨context.streams.length - 1 - position, _, ?_, List.getElem?_eq_getElem (by omega), by simpa using named⟩
    simp [outermost?, lastIndex?, found]

theorem lookup_filter_of_ne {bindings : List (String × Value)} {name stream : String} (other : name ≠ stream) :
    (bindings.filter fun binding => binding.1 != stream).lookup name = bindings.lookup name := by
  induction bindings with
  | nil => rfl
  | cons binding rest hypothesis =>
    obtain ⟨bound, value⟩ := binding
    by_cases same : bound = stream
    · have apart : (name == bound) = false := by simpa [same] using other
      rw [List.filter_cons_of_neg (by simp [same]), List.lookup_cons, apart]
      exact hypothesis
    · rw [List.filter_cons_of_pos (by simpa using same), List.lookup_cons, List.lookup_cons, hypothesis]

/-- Inputs without the value of a stream. -/
def Inputs.without (inputs : Inputs) (stream : String) : Inputs :=
  { inputs with streams := inputs.streams.filter fun binding => binding.1 != stream }

/-- Inputs bind the streams of some signatures and no others. -/
def Inputs.Bind (inputs : Inputs) (signatures : List StreamSignature) : Prop :=
  ∀ name, name ∈ inputs.streams.map Prod.fst ↔ name ∈ signatures.map StreamSignature.name

namespace Machine

/-- In an evaluation some step completes a node and leaves a value of it. -/
def Completes (machine : Machine) (inputs : Inputs) (id : NodeId) (value : Value) : Prop :=
  ∃ count visits state, Course (machine.prepared inputs) count visits (machine.start inputs) state ∧
    state.left? = some (id, value)

section

variable {σ : Type} {tree : Tree} {signatures : List StreamSignature} {stream : String} (lookup : SourceLookup σ) (host : σ)
  {inputs : Inputs} (limits : Limits) (before : Store) {id : NodeId} {value : Value}

/-- What a stream does not affect refers to names that the other inputs bind. -/
theorem watched_of_written (written : tree.Written) (plain : tree.IsPlain) (binds : inputs.Bind signatures) :
    Watched ((create (.ofTree tree) .standard limits before).prepared inputs) (.ofTree tree .standard signatures) stream
      (· ∈ (Analysis.analyze tree .standard signatures lookup host).1.affectedByStream stream)
      (Meaning.outermostBinding .standard inputs) (Meaning.outermostBinding .standard (inputs.without stream)) := by
  have shields := shields_of_analyze .standard signatures lookup host written.reached stream
  refine ⟨rfl, rfl, rfl, written.wellFormed, plain, Natives.standard_arePure, shields,
    fun id name value is visible unaffected bound => ?_⟩
  rw [← bound]
  simp only [Meaning.outermostBinding, Inputs.without, List.reverse_append, List.lookup_append, ← List.filter_reverse]
  by_cases other : name = stream
  · -- A stream that is bound has a signature, so it would affect the reference.
    subst other
    have unbound : name ∉ inputs.streams.map Prod.fst := by
      intro among
      obtain ⟨index, signature, outermost, there, named⟩ :=
        @Context.exists_stream (.ofTree tree .standard signatures) name ((binds name).mp among)
      refine unaffected (shields.streams id name index signature is ?_ there named)
      rw [Context.resolve?_eq, visible, Option.none_or]
      exact outermost
    rw [List.filter_eq_self.mpr]
    intro binding among
    have different : binding.1 ≠ name := by
      rintro rfl
      exact unbound (List.mem_map_of_mem (List.mem_reverse.mp among))
    simpa using different
  · rw [lookup_filter_of_ne other]

/-- The value of a completed node follows from the other inputs, unless the stream affects it. -/
theorem settled_of_completes (written : tree.Written) (plain : tree.IsPlain)
    (borrowless : ∀ id source, tree.form? id ≠ some (.borrow source)) (binds : inputs.Bind signatures)
    (completes : (create (.ofTree tree) .standard limits before).Completes inputs id value) :
    (Context.ofTree tree .standard signatures).Settled
      (Meaning.outermostBinding .standard (inputs.without stream))
      (· ∈ (Analysis.analyze tree .standard signatures lookup host).1.affectedByStream stream) id value := by
  obtain ⟨count, visits, state, course, left⟩ := completes
  obtain ⟨block, root⟩ := written.root
  obtain ⟨statements, is⟩ := written.fits _ _ root
  have regular : tree.isPair tree.root = false := by simp [Tree.isPair, root]
  have started := Surroundings.start (.ofTree tree .standard signatures)
    ((Context.ofTree tree .standard signatures).Settled
      (Meaning.outermostBinding .standard (inputs.without stream))
      (· ∈ (Analysis.analyze tree .standard signatures lookup host).1.affectedByStream stream))
    .standard inputs (create (.ofTree tree) .standard limits before).store
  refine settled_of_course (watched_of_written lookup host limits before written plain binds) course
    (.inr ⟨_, _, _, start_eq_inState _ inputs, .own ?_ rfl (code_ne_nil ?_) .nil started⟩) left
  · exact Context.plan_program written rfl plain borrowless root is
  · exact regular

end

/-- Nodes that a stream does not affect are left with the same values whatever the stream and the trigger are. -/
theorem unaffected_nodes_agree {text : String} {tree : Tree} (read : Line.parse false text = .ok tree)
    (plain : ∀ id name inputs body output, tree.form? id ≠ some (.function name inputs body output))
    (borrowless : ∀ id source, tree.form? id ≠ some (.borrow source)) {signatures : List StreamSignature}
    {inputs inputs' : Inputs} (binds : inputs.Bind signatures) (binds' : inputs'.Bind signatures) {stream : String}
    (same : (inputs.without stream).streams = (inputs'.without stream).streams) {σ : Type} (lookup : SourceLookup σ)
    (host : σ) (limits limits' : Limits) (before before' : Store) {id : NodeId} {value value' : Value}
    (unaffected : id ∉ (Analysis.analyze tree .standard signatures lookup host).1.affectedByStream stream)
    (completes : (create (.ofTree tree) .standard limits before).Completes inputs id value)
    (completes' : (create (.ofTree tree) .standard limits' before').Completes inputs' id value') : value = value' := by
  have written := Line.written_of_parse read
  have undefined : tree.IsPlain := by
    intro id
    unfold definitionOf?
    split
    · rename_i is
      exact absurd is (plain _ _ _ _ _)
    · rename_i is
      simpa [Tree.Fits, Form.isTerm] using written.fits _ _ is
    · rfl
  have settled := @settled_of_completes σ tree signatures stream lookup host inputs limits before id value written
    undefined borrowless binds completes
  have settled' := @settled_of_completes σ tree signatures stream lookup host inputs' limits' before' id value' written
    undefined borrowless binds' completes'
  have outer : Meaning.outermostBinding .standard (inputs.without stream) =
      Meaning.outermostBinding .standard (inputs'.without stream) := by
    funext name
    simp only [Meaning.outermostBinding, same]
  rw [outer] at settled
  exact Context.determined_unique (settled.2 unaffected) (settled'.2 unaffected)

/-- A text that reads two streams, each on a line of its own. -/
def twoStreams : Tree where
  nodes := #[⟨.reference "key", ⟨0, 1⟩⟩, ⟨.reference "time", ⟨1, 2⟩⟩, ⟨.block ⟨0, 2⟩, ⟨0, 3⟩⟩, ⟨.program (.node 2), ⟨0, 4⟩⟩]
  lists := #[.node 0, .node 1]
  root := .node 3

/-- The second line is completed after the first one. -/
theorem completes_twoStreams (key time : Value) :
    (create (.ofTree twoStreams) .standard ⟨100, 10⟩ .empty).Completes { streams := [("key", key), ("time", time)] }
      (.node 1) time := by
  have begins := start_eq_inState (create (.ofTree twoStreams) .standard ⟨100, 10⟩ .empty)
    { streams := [("key", key), ("time", time)] }
  rw [Completes, begins]
  exact ⟨1, _, _, @Course.single _ _ _ _ _ .pending rfl, rfl⟩

theorem second_line_ignores_key :
    let machine := create (.ofTree twoStreams) .standard ⟨100, 10⟩ .empty
    let inputs : Inputs := { streams := [("key", .text "up"), ("time", .boolean true)] }
    let inputs' : Inputs := { streams := [("key", .text "down"), ("time", .boolean true)], trigger := some "key" }
    machine.Completes inputs (.node 1) (.boolean true) ∧
      ∀ value, machine.Completes inputs' (.node 1) value → value = .boolean true := by
  intro machine inputs inputs'
  have read : Line.parse false "key\ntime" = .ok twoStreams := by decide +kernel
  have completes : machine.Completes inputs (.node 1) (.boolean true) := completes_twoStreams _ _
  have binds : inputs.Bind [⟨"key", .text⟩, ⟨"time", .boolean⟩] := fun name => by simp [inputs]
  have binds' : inputs'.Bind [⟨"key", .text⟩, ⟨"time", .boolean⟩] := fun name => by simp [inputs']
  have forms (id : NodeId) (form : Form) (is : twoStreams.form? id = some form) :
      form ∈ [.reference "key", .reference "time", .block ⟨0, 2⟩, .program (.node 2)] := by
    rcases id with _ | _ | _ | _ | _ | index <;> simp_all [twoStreams, Tree.form?, Tree.node?]
  have unaffected : NodeId.node 1 ∉ (Analysis.analyze twoStreams .standard [⟨"key", .text⟩, ⟨"time", .boolean⟩]
      .none ()).1.affectedByStream "key" := by decide +kernel
  refine ⟨completes, fun value completes' => ?_⟩
  refine unaffected_nodes_agree read ?_ ?_ binds' binds rfl .none () _ _ _ _ unaffected completes' completes
  · exact fun id name inputs body output is => by simpa using forms id _ is
  · exact fun id source is => by simpa using forms id _ is

end Machine

end Rivulet
