import Rivulet.Proofs.Meaning
import Rivulet.Proofs.Value.Parts
import Mathlib.Data.List.Forall2

/-!
What the parts of an evaluation come to in a world: a value and the world after it, or a halt.
-/

namespace Rivulet.Meaning

variable {α β : Type} {world : World}

theorem bind_eq_ok_iff {computation : Eval α} {next : α → Eval β} {world world'' : World} {value' : β} :
    (computation >>= next) world = .ok value' world'' ↔
      ∃ value world', computation world = .ok value world' ∧ next value world' = .ok value' world'' := by
  cases computed : computation world with
  | error halt world' => simp [bind, EStateM.bind, computed]
  | ok value world' =>
    simp only [bind, EStateM.bind, computed, EStateM.Result.ok.injEq]
    constructor
    · intro goesOn
      exact ⟨value, world', ⟨rfl, rfl⟩, goesOn⟩
    · rintro ⟨value, world', ⟨rfl, rfl⟩, goesOn⟩
      exact goesOn

theorem bind_of_ok {computation : Eval α} {next : α → Eval β} {value : α} {world' : World}
    (computed : computation world = .ok value world') :
    (computation >>= next) world = next value world' := by
  simp [bind, EStateM.bind, computed]

theorem bind_of_error {computation : Eval α} {next : α → Eval β} {halt : Halt} {world' : World}
    (computed : computation world = .error halt world') :
    (computation >>= next) world = .error halt world' := by
  simp [bind, EStateM.bind, computed]

@[simp]
theorem pure_eq (value : α) : (pure value : Eval α) world = .ok value world :=
  rfl

@[simp]
theorem throwValue_eq (exception : Value) :
    (throwValue exception : Eval α) world = .error (.exception exception) world :=
  rfl

@[simp]
theorem misuse_eq (fault : Fault) : (misuse fault : Eval α) world = .error (.fault fault) world :=
  rfl

@[simp]
theorem fail_eq (failure : Failure) (id : NodeId) :
    (fail failure id : Eval α) world = .error (.exception (.failed failure id)) world :=
  rfl

theorem addScope_eq (added : Scope) :
    addScope added world =
      .ok world.store.scopes.size { world with store := (world.store.add added).2 } :=
  rfl

theorem capture_eq (scope : ScopeId) :
    capture scope world =
      .ok (world.store.capture scope).1 { world with store := (world.store.capture scope).2 } :=
  rfl

@[simp]
theorem bindsLocally_eq (scope : ScopeId) (name : String) :
    bindsLocally scope name world = .ok (world.store.bindsLocally scope name) world :=
  rfl

@[simp]
theorem localValue_eq (scope : ScopeId) (name : String) :
    localValue scope name world = .ok ((world.store.local? scope name).getD .none) world :=
  rfl

@[simp]
theorem rebind_eq (scope : ScopeId) (name : String) (value : Value) :
    rebind scope name value world =
      .ok () { world with store := world.store.rebind scope name value } :=
  rfl

/-- What a native yields that looks at nothing but its call. -/
theorem nativeWith_of_pure {native : Native} {value : NativeCall → Value} (is : native.body = .pure value)
    (call : Caller) (inputs : List (String × Value)) (scope : ScopeId) (origin : NodeId) :
    nativeWith call native inputs scope origin =
      pure (value ⟨origin, native.inputs.map fun name => (inputs.lookup name).getD .none⟩) := by
  unfold nativeWith
  rw [is]
  rfl

theorem bindName_eq (scope : ScopeId) (name : String) (value : Value) (id : NodeId) :
    bindName scope name value id world =
      if world.store.bindsLocally scope name then
        .error (.exception (.failed (.alreadyBound name) id)) world
      else .ok () { world with store := world.store.bindNew scope name value } := by
  unfold bindName
  rw [bind_of_ok (bindsLocally_eq scope name)]
  split <;> rfl

theorem define_eq (scope : ScopeId) (id : NodeId) (name : String) :
    define scope id name world =
      let closure := Value.function ⟨.definition id, some (world.store.capture scope).1, name⟩
      (if name = "" then pure closure
        else do
          bindName scope name closure id
          pure closure : Eval Value) { world with store := (world.store.capture scope).2 } :=
  rfl

@[simp]
theorem visit_eq (id : NodeId) (scope : ScopeId) :
    visit id scope world =
      .ok () { world with visits := world.visits ++ [⟨id, scope, world.store⟩] } :=
  rfl

theorem lookUp_eq (reference : NodeId) (scope : ScopeId) (name : String) :
    lookUp reference scope name world =
      match world.store.lookup scope name with
      | some value => .ok value world
      | none => .error (.exception (.failed (.unknownName name) reference)) world := by
  have seen : lookUp reference scope name world =
      (match world.store.lookup scope name with
        | some value => pure value
        | none => fail (.unknownName name) reference : Eval Value) world := rfl
  rw [seen]
  cases world.store.lookup scope name <;> rfl

theorem lookUp_ne_fault (reference : NodeId) (name : String) (scope : ScopeId) (world : World)
    (fault : Fault) (world' : World) :
    lookUp reference scope name world ≠ .error (.fault fault) world' := by
  rw [lookUp_eq]
  cases world.store.lookup scope name <;> simp

theorem define_ne_fault (id : NodeId) (name : String) (scope : ScopeId) (world : World)
    (fault : Fault) (world' : World) : define scope id name world ≠ .error (.fault fault) world' := by
  rw [define_eq]
  dsimp only
  split
  · simp
  · intro halted
    cases bound : bindName scope name (.function ⟨.definition id, some (world.store.capture scope).1, name⟩)
        id { world with store := (world.store.capture scope).2 } with
    | ok value world'' => simp [bind_of_ok bound] at halted
    | error halt world'' =>
      rw [bind_of_error bound] at halted
      rw [bindName_eq] at bound
      split at bound
      · cases bound
        simp at halted
      · simp at bound

/-- The last of some values belongs to the last of the nodes that they are values of. -/
theorem getLast?_of_forall₂ {good : α → β → Prop} {nodes : List α} {values : List β} {last : β}
    (holds : List.Forall₂ good nodes values) (ends : values.getLast? = some last) :
    ∃ node, nodes.getLast? = some node ∧ good node last := by
  rw [List.getLast?_eq_head?_reverse] at ends
  obtain ⟨rest, reversed⟩ := List.head?_eq_some_iff.mp ends
  have reverse := List.forall₂_reverse_iff.mpr holds
  rw [reversed] at reverse
  obtain ⟨node, others, fits, -, same⟩ := List.forall₂_cons_right_iff.mp reverse
  exact ⟨node, by rw [List.getLast?_eq_head?_reverse, same]; rfl, fits⟩

/-- What a loop retains is what its function produced, or part of the element. -/
theorem every_retained {property : Value → Prop} {op : HigherOrder} {element : Element} {produced : Value}
    {more : List Value}
    (elementToo : ∀ argument ∈ Machine.elementArguments element, Value.Every property argument)
    (producedToo : Value.Every property produced) (is : retained op element produced = .ok more) :
    ∀ value ∈ more, Value.Every property value := by
  unfold retained at is
  split at is
  · cases element with
    | single value =>
      cases is
      simpa using producedToo
    | entry key value =>
      cases is
      simpa [producedToo] using elementToo key (by simp [Machine.elementArguments])
  · cases is
    exact elementToo
  · cases is
    simp
  · simp at is
  · cases is
    simp

end Rivulet.Meaning
