import Rivulet.Proofs.Value.Relocation

/-!
Natives and calls of relocated values. The standard table has the same natives under all names, and each makes of
relocated inputs what it makes of the inputs, relocated (`Natives.standard_corresponds`). So do the rules by which
arguments are bound to the inputs of a definition.
-/

namespace Rivulet

/-! ### Natives -/

open Value (relocatedBinding relocatedEntry relocated_sequence relocated_function equal_relocated toText_relocated
  kind_relocated length?_relocated)

variable {M : Type} [Naming M] {relocation : Relocation M}

/-- A call of a native with all captured scopes at other places, and all names others. -/
def NativeCall.relocated (relocation : Relocation M) (call : NativeCall) : NativeCall M :=
  ⟨call.node, call.inputs.map (Value.relocated relocation)⟩

theorem NativeCall.input_relocated (call : NativeCall) (index : Nat) :
    (call.relocated relocation).input index = (call.input index).relocated relocation := by
  unfold NativeCall.input NativeCall.relocated
  rw [List.getElem?_map]
  cases call.inputs[index]? <;> simp

theorem NativeCall.mismatch_relocated (call : NativeCall) (expected : ValueKind) (found : Value) :
    (call.relocated relocation).mismatch expected (found.relocated relocation) =
      (call.mismatch expected found).relocated relocation := by
  unfold NativeCall.mismatch
  rw [kind_relocated]
  rfl

namespace Natives

theorem length_relocated (call : NativeCall) :
    length (call.relocated relocation) = (length call).relocated relocation := by
  unfold length
  dsimp only
  rw [NativeCall.input_relocated, length?_relocated]
  cases (call.input 0).length? with
  | some count => rfl
  | none => exact call.mismatch_relocated .sequence (call.input 0)

theorem contains_relocated [DecidableEq M] (injective : Function.Injective relocation.place) (call : NativeCall) :
    contains (call.relocated relocation) = (contains call).relocated relocation := by
  have same := equal_relocated injective
  have other := @NativeCall.mismatch_relocated _ _ relocation call .sequence (call.input 0)
  have part := @NativeCall.mismatch_relocated _ _ relocation call .text (call.input 1)
  unfold contains
  simp only [NativeCall.input_relocated]
  cases is : call.input 0 with
  | sequence items => simp [same]
  | set items => simp [List.any_map, Function.comp_def, same]
  | mapping entries => simp [List.any_map, Function.comp_def, relocatedEntry, same]
  | text value =>
    cases is' : call.input 1 with
    | text part => rfl
    | _ =>
      rw [is'] at part
      simpa using part
  | _ =>
    rw [is] at other
    simpa using other

theorem keys_relocated (call : NativeCall) : keys (call.relocated relocation) = (keys call).relocated relocation := by
  have other := @NativeCall.mismatch_relocated _ _ relocation call .mapping (call.input 0)
  unfold keys
  simp only [NativeCall.input_relocated]
  cases is : call.input 0 with
  | mapping entries => simp [relocatedEntry]
  | _ =>
    rw [is] at other
    simpa using other

theorem entryValues_relocated (call : NativeCall) :
    entryValues (call.relocated relocation) = (entryValues call).relocated relocation := by
  have other := @NativeCall.mismatch_relocated _ _ relocation call .mapping (call.input 0)
  unfold entryValues
  simp only [NativeCall.input_relocated]
  cases is : call.input 0 with
  | mapping entries => simp [relocatedEntry]
  | _ =>
    rw [is] at other
    simpa using other

theorem text_relocated (call : NativeCall) : text (call.relocated relocation) = (text call).relocated relocation := by
  have shown := @toText_relocated _ _ relocation (call.input 0)
  unfold text
  simp only [NativeCall.input_relocated]
  cases is : call.input 0 with
  | text value => rfl
  | _ =>
    rw [is] at shown
    simpa using shown

end Natives

/-- A native under other names: its inputs are named alike, and it runs the same loop or makes of relocated inputs what
it makes of the inputs, relocated. -/
structure Native.Corresponds (relocation : Relocation M) (native : Native) (native' : Native M) : Prop where
  name : native'.name = relocation.name native.name
  inputs : native'.inputs = native.inputs.map relocation.name
  body : (∃ op, native.body = .loop op ∧ native'.body = .loop op) ∨
    ∃ value value', native.body = .pure value ∧ native'.body = .pure value' ∧
      ∀ call : NativeCall, value' (call.relocated relocation) = (value call).relocated relocation

namespace Natives

variable [DecidableEq M]

/-- The standard tables under both names. -/
theorem standard_corresponds (injective : Function.Injective relocation.place) :
    List.Forall₂ (Native.Corresponds relocation) (standard : Natives).definitions
      (standard : Natives M).definitions := by
  have known : ["length", "contains", "keys", "values", "text", "map", "filter", "fold", "collection", "value",
      "mapping", "function", "initial"] ⊆ texts := by decide
  have named (text : String) (among : text ∈ texts) : Naming.ofText text = relocation.name text :=
    (relocation.standard text among).symm
  simp only [List.cons_subset] at known
  obtain ⟨length, contains, keys, values, text, map, filter, fold, collection, value, mapping, function, initial, -⟩ :=
    known
  refine .cons ⟨named _ length, by simp [named, collection], .inr ⟨_, _, rfl, rfl, length_relocated⟩⟩ ?_
  refine .cons ⟨named _ contains, by simp [named, collection, value],
    .inr ⟨_, _, rfl, rfl, contains_relocated injective⟩⟩ ?_
  refine .cons ⟨named _ keys, by simp [named, mapping], .inr ⟨_, _, rfl, rfl, keys_relocated⟩⟩ ?_
  refine .cons ⟨named _ values, by simp [named, mapping], .inr ⟨_, _, rfl, rfl, entryValues_relocated⟩⟩ ?_
  refine .cons ⟨named _ text, by simp [named, value], .inr ⟨_, _, rfl, rfl, text_relocated⟩⟩ ?_
  refine .cons ⟨named _ map, ?_, .inl ⟨.map, rfl, rfl⟩⟩ (.cons ⟨named _ filter, ?_, .inl ⟨.filter, rfl, rfl⟩⟩
    (.cons ⟨named _ fold, ?_, .inl ⟨.fold, rfl, rfl⟩⟩ .nil))
  all_goals simp [collectionName, functionName, initialName, named, collection, function, initial]

/-- The natives of a number under both names. -/
theorem get?_standard (injective : Function.Injective relocation.place) (index : Nat) :
    ((standard : Natives).get? index = none ∧ (standard : Natives M).get? index = none) ∨
      ∃ native native', (standard : Natives).get? index = some native ∧
        (standard : Natives M).get? index = some native' ∧
        native.Corresponds relocation native' := by
  unfold get?
  have each {natives : List Native} {natives' : List (Native M)}
      (correspond : List.Forall₂ (Native.Corresponds relocation) natives natives') :
      (natives[index]? = none ∧ natives'[index]? = none) ∨
        ∃ native native', natives[index]? = some native ∧ natives'[index]? = some native' ∧
          native.Corresponds relocation native' := by
    induction correspond generalizing index with
    | nil => exact .inl ⟨rfl, rfl⟩
    | cons corresponds _ hypothesis =>
      cases index with
      | zero => exact .inr ⟨_, _, rfl, rfl, corresponds⟩
      | succ index => exact hypothesis index
  exact each (standard_corresponds injective)

theorem find?_standard (injective : Function.Injective relocation.place) (name : String) :
    (standard : Natives M).find? (relocation.name name) = (standard : Natives).find? name := by
  have each {natives : List Native} {natives' : List (Native M)}
      (correspond : List.Forall₂ (Native.Corresponds relocation) natives natives') (start : Nat) :
      lastOfName (relocation.name name) natives' start = lastOfName name natives start := by
    induction correspond generalizing start with
    | nil => rfl
    | cons corresponds _ hypothesis =>
      unfold lastOfName
      rw [hypothesis, corresponds.name]
      simp only [relocation.injective.eq_iff]
  exact each (standard_corresponds injective) 0

/-- What the names of natives stand for. -/
theorem values_relocated (injective : Function.Injective relocation.place) :
    (standard : Natives M).values = (standard : Natives).values.map (relocatedBinding relocation) := by
  have value (index : Nat) : (valueOf index : Value M) = (valueOf index : Value).relocated relocation := by
    unfold valueOf
    rw [relocated_function, Function.relocated, ← relocation.anonymous]
    rfl
  unfold values
  rw [List.map_filterMap, show (standard : Natives M).size = (standard : Natives).size from rfl]
  congr 1
  funext index
  rcases @get?_standard _ _ relocation _ injective index with ⟨none, none'⟩ | ⟨native, native', is, is', corresponds⟩
  · rw [none, none']
    rfl
  · rw [is, is']
    dsimp only
    rw [corresponds.name, find?_standard injective, value]
    split <;> rfl

theorem steps_standard (injective : Function.Injective relocation.place) (index : Nat) :
    (standard : Natives M).steps index = (standard : Natives).steps index := by
  unfold steps
  rcases @get?_standard _ _ relocation _ injective index with ⟨none, none'⟩ | ⟨native, native', is, is', corresponds⟩
  · rw [none, none']
  · rw [is, is']
    obtain ⟨name, inputs, signature, body⟩ := native
    obtain ⟨name', inputs', signature', body'⟩ := native'
    rcases corresponds.body with ⟨op, loop, loop'⟩ | ⟨value, value', pure, pure', -⟩
    · cases loop
      cases loop'
      rfl
    · cases pure
      cases pure'
      rfl

end Natives

/-! ### Elements -/

/-- An element with all captured scopes at other places, and all names others. -/
def Element.relocated (relocation : Relocation M) : Element → Element M
  | .single value => .single (value.relocated relocation)
  | .entry key value => .entry (key.relocated relocation) (value.relocated relocation)

theorem Value.element?_relocated (value : Value) (index : Nat) :
    (value.relocated relocation).element? index = (value.element? index).map (Element.relocated relocation) := by
  cases value with
  | sequence items =>
    simp only [relocated_sequence, element?, Array.getElem?_map, Option.map_map]
    rfl
  | set items =>
    simp only [relocated_set, element?, List.getElem?_map, Option.map_map]
    rfl
  | mapping entries =>
    simp only [relocated_mapping, element?, List.getElem?_map, Option.map_map]
    rfl
  | _ => simp [element?]

theorem Machine.elementArguments_relocated (element : Element) :
    elementArguments (element.relocated relocation) = (elementArguments element).map (Value.relocated relocation) := by
  cases element <;> rfl

/-! ### Bindings -/

variable [DecidableEq M]

theorem lookup_relocated (bindings : List (String × Value)) (name : String) :
    (bindings.map (relocatedBinding relocation)).lookup (relocation.name name) =
      (bindings.lookup name).map (Value.relocated relocation) := by
  induction bindings with
  | nil => rfl
  | cons binding rest hypothesis =>
    obtain ⟨other, value⟩ := binding
    have same : (relocation.name name == relocation.name other) = (name == other) :=
      Bool.eq_iff_iff.mpr (by simpa using relocation.injective.eq_iff)
    rw [List.map_cons, show relocatedBinding relocation (other, value) =
      (relocation.name other, value.relocated relocation) from rfl, List.lookup_cons, List.lookup_cons, same]
    split
    · rfl
    · exact hypothesis

theorem Scope.setBinding_relocated (name : String) (value : Value) (bindings : List (String × Value)) :
    setBinding (relocation.name name) (value.relocated relocation) (bindings.map (relocatedBinding relocation)) =
      (setBinding name value bindings).map (relocatedBinding relocation) := by
  induction bindings with
  | nil => rfl
  | cons binding rest hypothesis =>
    obtain ⟨other, old⟩ := binding
    rw [List.map_cons, show relocatedBinding relocation (other, old) =
      (relocation.name other, old.relocated relocation) from rfl]
    unfold setBinding
    simp only [relocation.injective.eq_iff]
    split
    · rfl
    · rw [List.map_cons, hypothesis]
      rfl

theorem Scope.setBindings_relocated (inputs bound : List (String × Value)) :
    (inputs.map (relocatedBinding relocation)).foldl (fun bound input => setBinding input.1 input.2 bound)
        (bound.map (relocatedBinding relocation)) =
      (inputs.foldl (fun bound input => setBinding input.1 input.2 bound) bound).map (relocatedBinding relocation) := by
  induction inputs generalizing bound with
  | nil => rfl
  | cons input inputs hypothesis =>
    rw [List.map_cons, List.foldl_cons, List.foldl_cons, ← hypothesis, ← setBinding_relocated]
    rfl

namespace Machine

/-- Bindings that were made, or the exception in place of them, with all scopes at other places, and all names
others. -/
def relocatedBindings (relocation : Relocation M) :
    Except Value (List (String × Value)) → Except (Value M) (List (M × Value M))
  | .ok bound => .ok (bound.map (relocatedBinding relocation))
  | .error exception => .error (exception.relocated relocation)

/-- The bindings that relocated arguments make for inputs. -/
theorem bindInputs_relocated (tree : Tree) (origin : NodeId) (inputs : List NodeId) (arguments : List Value)
    (bound : List (String × Value)) :
    bindInputs (tree.renamed relocation.name) origin inputs (arguments.map (Value.relocated relocation))
        (bound.map (relocatedBinding relocation)) =
      relocatedBindings relocation (bindInputs tree origin inputs arguments bound) := by
  induction inputs generalizing arguments bound with
  | nil => cases arguments <;> rfl
  | cons input inputs hypothesis =>
    have added (name : String) (value : Value) :
        bound.map (relocatedBinding relocation) ++ [(relocation.name name, value.relocated relocation)] =
          (bound ++ [(name, value)]).map (relocatedBinding relocation) := by
      simp [relocatedBinding]
    unfold bindInputs
    rw [Tree.form?_renamed]
    cases is : tree.form? input with
    | none => exact hypothesis arguments bound
    | some form =>
      cases form with
      | bind name value declared variadic =>
        simp only [Option.map_some, Form.renamed, lookup_relocated, Option.isSome_map]
        split
        · split
          · rfl
          · have items := hypothesis [] (bound ++ [(name, .sequence arguments.toArray)])
            rwa [← added, relocated_sequence, List.map_toArray] at items
        · cases arguments with
          | nil =>
            simp only [List.map_nil]
            split
            · rfl
            · exact hypothesis [] bound
          | cons argument rest =>
            simp only [List.map_cons]
            split
            · rfl
            · rw [added]
              exact hypothesis rest _
      | _ => exact hypothesis arguments bound

theorem callBindings_relocated (tree : Tree) (function : Function) (inputs : List NodeId)
    (bound : List (String × Value)) :
    callBindings (tree.renamed relocation.name) (function.relocated relocation) inputs
        (bound.map (relocatedBinding relocation)) =
      (callBindings tree function inputs bound).map (relocatedBinding relocation) := by
  have declared := @declaredByInput_renamed _ _ relocation.toRenaming _ tree inputs function.name
  unfold callBindings
  rw [show (function.relocated relocation).name = relocation.name function.name from rfl, ← relocated_function,
    declared]
  simp only [relocation.eq_anonymous_iff, Naming.anonymous_string]
  split
  · rfl
  · exact Scope.setBinding_relocated _ _ _

end Machine

end Rivulet
