import Rivulet.Proofs.Machine.Loops

/-!
Frames of natives. What the next step of a native does depends on its frame and on the bindings of its own scope
only (`exists_response`), and it touches no other frame and no older scope.
-/

namespace Rivulet

/-- A tree without definitions of functions and records. -/
def Tree.IsPlain (tree : Tree) : Prop :=
  ∀ id, Machine.definitionOf? tree id = none

theorem Tree.isPlain_iff {tree : Tree} : (∀ id ∈ tree.ids, Machine.definitionOf? tree id = none) ↔ tree.IsPlain := by
  refine ⟨fun none id => ?_, fun plain id _ => plain id⟩
  cases is : tree.form? id with
  | none => simp [Machine.definitionOf?, is]
  | some form => exact none id (mem_ids_of_form? is)

instance (tree : Tree) : Decidable tree.IsPlain :=
  decidable_of_iff _ Tree.isPlain_iff

/-- A frame runs a native, and has steps left. -/
def Frame.IsNative (frame : Frame) : Prop :=
  (∃ index, frame.steps = #[.apply index] ∧ frame.cursor = 0) ∨
    ∃ op : HigherOrder, frame.steps = op.steps.toArray ∧ frame.cursor < 4

theorem Frame.IsNative.going {frame : Frame} (native : frame.IsNative) : frame.isExhausted = false := by
  rcases native with ⟨index, steps, cursor⟩ | ⟨op, steps, bound⟩
  · simp [Frame.isExhausted, steps, cursor]
  · simpa [Frame.isExhausted, steps, HigherOrder.steps] using bound

namespace Machine

/-- A step that ends the evaluation. -/
def Halts (effect : Effect) : Prop :=
  (∃ fault, effect.2 = .error fault) ∨ ∃ exception, effect.2 = .ok (.throw exception)

theorem halts_fail (machine : Machine) (failure : Failure) (id : NodeId) : Halts (machine.fail failure id) :=
  .inr ⟨_, rfl⟩

/-! ### Calls of natives -/

/-- How the frame of a native starts. -/
structure Opening where
  index : Nat
  steps : Array Step
  bindings : List (String × Value)

/-- The frame at its start. -/
def Opening.frame (opening : Opening) (origin : NodeId) (scope : ScopeId) : Frame :=
  .start (.native opening.index) origin opening.steps scope

/-- How a call of a function starts, if the function is a native and takes that many arguments. -/
def opening? (natives : Natives) (function : Function) (arguments : List Value) : Option Opening :=
  match function.callee with
  | .definition _ => none
  | .native index =>
    match natives.get? index with
    | none => none
    | some native =>
      if native.inputs.length = arguments.length then
        some ⟨index, (natives.steps index).toArray, (native.inputs.zip arguments).foldl
          (fun bound input => Scope.setBinding input.1 input.2 bound) []⟩
      else none

theorem isNative_of_opening? {natives : Natives} {function : Function} {arguments : List Value} {opening : Opening}
    (opens : opening? natives function arguments = some opening) (origin : NodeId) (scope : ScopeId) :
    (opening.frame origin scope).IsNative := by
  unfold opening? at opens
  split at opens
  · simp at opens
  · split at opens
    · simp at opens
    · rename_i native there
      split at opens
      · cases opens
        unfold Frame.IsNative
        simp only [Opening.frame, Frame.start, Natives.steps, there]
        obtain ⟨name, inputs, signature, body⟩ := native
        cases body with
        | apply run => exact .inl ⟨_, rfl, trivial⟩
        | loop op => exact .inr ⟨op, rfl, by simp⟩
      · simp at opens

/-- Where nothing is defined, a call starts the frame of a native, or ends the evaluation. -/
theorem startCall_cases {machine : Machine} (plain : machine.tree.IsPlain) (store : Store) (frames : List Frame)
    (taken : Nat) (function : Function) (arguments : List Value) (origin : NodeId) :
    Halts ((machine.inState store frames taken).startCall function arguments origin) ∨
      ∃ opening, opening? machine.natives function arguments = some opening ∧
        (machine.inState store frames taken).startCall function arguments origin =
          (machine.inState (store.add ⟨opening.bindings, some machine.root⟩).2 frames taken,
            .ok (.start (opening.frame origin store.scopes.size))) := by
  unfold startCall opening?
  split
  · exact .inl (halts_fail _ _ _)
  · cases function.callee with
    | definition definition =>
      refine .inl (.inl ⟨.notCallable definition, ?_⟩)
      simp [startDefinition, plain definition]
    | native index =>
      simp only [startNative, inState_natives]
      cases machine.natives.get? index with
      | none => exact .inl (.inl ⟨_, rfl⟩)
      | some native =>
        dsimp only
        split
        · exact .inl (halts_fail _ _ _)
        · rename_i many
          split
          · exact .inl (halts_fail _ _ _)
          · have fitting : native.inputs.length = arguments.length := by
              have := List.getElem?_eq_none_iff.mp many
              omega
            rw [if_pos fitting]
            exact .inr ⟨_, rfl, rfl⟩

/-! ### Steps of natives -/

/-- What the next step of a native does. -/
inductive Response where
  /-- Hands a value to the caller. -/
  | hand (value : Value)
  /-- Goes on elsewhere, with other values on the stack and more bindings. -/
  | go (cursor : Nat) (values : List Value) (bindings : List (String × Value))
  /-- Calls a native. -/
  | call (opening : Opening)

/-- A response is what a step does in a state. -/
def Response.Describes (machine : Machine) (store : Store) (frame : Frame) (rest : List Frame) (taken : Nat)
    (effect : Effect) : Response → Prop
  | hand value => frame.cursor + 1 = frame.steps.size ∧ ∃ values,
      effect = (machine.inState store ({ frame with values } :: rest) taken, .ok (.push value))
  | go cursor values bindings => cursor + 1 < frame.steps.size ∧
      effect = (machine.inState
        (bindings.foldl (fun store binding => store.rebind frame.scope binding.1 binding.2) store)
        ({ frame with cursor, values } :: rest) taken, .ok .proceed)
  | call opening => frame.cursor + 1 < frame.steps.size ∧
      (∃ function arguments, opening? machine.natives function arguments = some opening) ∧
      effect = (machine.inState (store.add ⟨opening.bindings, some machine.root⟩).2 (frame :: rest) taken,
        .ok (.start (opening.frame frame.origin store.scopes.size)))

/-- The state of a native whose own scope binds some names. -/
structure Shows (natives : Natives) (machine : Machine) (store : Store) (scope : ScopeId)
    (binds : String → Option Value) : Prop where
  natives : machine.natives = natives
  plain : machine.tree.IsPlain
  bound : scope < store.scopes.size
  local? : ∀ name, store.local? scope name = binds name

/-- The position of a loop among its bindings. -/
def positionOf (binds : String → Option Value) : Nat :=
  match (binds Natives.indexName).getD .none with
  | .number number => number.toIndex?.getD 0
  | _ => 0

section

variable {natives : Natives} {machine : Machine} {store : Store} {frame : Frame} {scope : ScopeId}
  {frames : List Frame} {taken : Nat} {binds : String → Option Value}

theorem Shows.loopLocal (shows : Shows natives machine store scope binds) (name : String) :
    (machine.inState store frames taken).loopLocal { frame with scope } name = (binds name).getD .none := by
  simp only [Machine.loopLocal, inState_store, shows.local?]

theorem Shows.loopIndex (shows : Shows natives machine store scope binds) :
    (machine.inState store frames taken).loopIndex { frame with scope } = positionOf binds := by
  rw [Machine.loopIndex, shows.loopLocal, positionOf]
  cases (binds Natives.indexName).getD .none <;> rfl

end

section

variable {natives : Natives} {binds : String → Option Value} {frame : Frame}

/-- In every state that shows the bindings, the next step halts or is the response. -/
def Responds (natives : Natives) (frame : Frame) (binds : String → Option Value) (step : Step)
    (response : Response) : Prop :=
  ∀ (machine : Machine) (store : Store) (scope : ScopeId) (rest : List Frame) (taken : Nat),
    Shows natives machine store scope binds →
    Halts ((machine.inState store ({ frame with scope } :: rest) taken).execute { frame with scope } step) ∨
      response.Describes machine store { frame with scope } rest taken
        ((machine.inState store ({ frame with scope } :: rest) taken).execute { frame with scope } step)

theorem exists_response_apply (pure : natives.ArePure) (index : Nat) (last : frame.cursor + 1 = frame.steps.size) :
    ∃ response, Responds natives frame binds (.apply index) response := by
  cases there : natives.get? index with
  | none =>
    refine ⟨.hand .none, fun machine store scope rest taken shows => .inl (.inl ⟨.unknownNative index, ?_⟩)⟩
    simp only [execute, applyNative, inState_natives, shows.natives, there]
  | some native =>
    obtain ⟨name, inputs, signature, body⟩ := native
    cases body with
    | loop op =>
      refine ⟨.hand .none, fun machine store scope rest taken shows => .inl (.inl ⟨.unknownNative index, ?_⟩)⟩
      simp only [execute, applyNative, inState_natives, shows.natives, there]
    | apply run =>
      obtain ⟨made, -, rfl⟩ := pure _ (List.mem_of_getElem? there) run rfl
      let value := made ⟨frame.origin, inputs.map fun name => (binds name).getD .none⟩
      refine ⟨.hand value, fun machine store scope rest taken shows => ?_⟩
      have executed : (machine.inState store ({ frame with scope } :: rest) taken).execute
          { frame with scope } (.apply index) =
          (machine.inState store ({ frame with scope } :: rest) taken).flow
            (if value.isException then .throw value else .push value) := by
        have known : (machine.inState store ({ frame with scope } :: rest) taken).natives.get? index = some _ :=
          shows.natives ▸ there
        rw [execute, applyNative, known]
        simp only [inState_store, shows.local?]
        rfl
      rw [executed]
      by_cases exception : value.isException = true
      · rw [if_pos exception]
        exact .inl (.inr ⟨value, rfl⟩)
      · rw [if_neg exception]
        exact .inr ⟨last, frame.values, rfl⟩

variable {kind : FrameKind} {origin : NodeId} {op : HigherOrder} {scope : ScopeId} {values : List Value}

theorem exists_response_init :
    ∃ response, Responds natives (loopFrame kind origin op scope 0 values) binds (.loop op .init) response := by
  refine ⟨.go 0 values ((Natives.indexName, .number (.ofNat 0)) ::
    if op == .fold then [(Natives.resultName, (binds Natives.initialName).getD .none)] else []), ?_⟩
  intro machine store scope rest taken shows
  simp only [execute, loopStep, loopInit, loopLocal, inState_store, loopFrame, shows.local?]
  split
  · exact .inl (halts_fail _ _ _)
  · split
    · refine .inr ⟨by simp [HigherOrder.steps], ?_⟩
      by_cases fold : (op == .fold) = true
      · simp only [fold, if_true, setLoopLocal, inState_store, inState_withStore, Store.local?_rebind shows.bound,
          shows.local?]
        rfl
      · simp only [fold, Bool.false_eq_true, if_false, setLoopLocal, inState_store, inState_withStore]
        rfl
    · exact .inl (halts_fail _ _ _)

theorem exists_response_next :
    ∃ response, Responds natives (loopFrame kind origin op scope 1 values) binds (.loop op .next) response := by
  cases there : ((binds Natives.collectionName).getD .none).element? (positionOf binds) with
  | none =>
    refine ⟨.go 2 values [], fun machine store scope rest taken shows => .inr ⟨by simp [loopFrame, HigherOrder.steps], ?_⟩⟩
    simp only [execute, loopStep, loopNext, shows.loopLocal, shows.loopIndex, there]
    rfl
  | some element =>
    let arguments := (if op == .fold then [(binds Natives.resultName).getD .none] else []) ++ elementArguments element
    cases callee : (binds Natives.functionName).getD .none with
    | function function =>
      cases opens : opening? natives function arguments with
      | none =>
        refine ⟨.hand .none, fun machine store scope rest taken shows => .inl ?_⟩
        simp only [execute, loopStep, loopNext, shows.loopLocal, shows.loopIndex, there, callee]
        rcases startCall_cases shows.plain store ({ loopFrame kind origin op scope 1 values with scope } :: rest) taken
          function arguments origin with halts | ⟨opening, opened, -⟩
        · exact halts
        · rw [shows.natives, opens] at opened
          simp at opened
      | some opening =>
        refine ⟨.call opening, fun machine store scope rest taken shows => ?_⟩
        simp only [execute, loopStep, loopNext, shows.loopLocal, shows.loopIndex, there, callee]
        rcases startCall_cases shows.plain store ({ loopFrame kind origin op scope 1 values with scope } :: rest) taken
          function arguments origin with halts | ⟨opening', opened, started⟩
        · exact .inl halts
        · rw [shows.natives, opens] at opened
          cases opened
          exact .inr ⟨by simp [loopFrame, HigherOrder.steps], ⟨function, arguments, by rw [shows.natives, opens]⟩, started⟩
    | _ =>
      refine ⟨.hand .none, fun machine store scope rest taken shows => .inl ?_⟩
      simp only [execute, loopStep, loopNext, shows.loopLocal, shows.loopIndex, there, callee]
      exact halts_fail _ _ _

theorem exists_response_collect :
    ∃ response, Responds natives (loopFrame kind origin op scope 2 values) binds (.loop op .collect) response := by
  cases values with
  | nil =>
    refine ⟨.hand .none, fun machine store scope rest taken shows => .inl ?_⟩
    simp only [execute, loopStep, loopCollect, shows.loopLocal, shows.loopIndex]
    exact halts_fail _ _ _
  | cons produced kept =>
    cases there : ((binds Natives.collectionName).getD .none).element? (positionOf binds) with
    | none =>
      refine ⟨.hand .none, fun machine store scope rest taken shows => .inl ?_⟩
      simp only [execute, loopStep, loopCollect, shows.loopLocal, shows.loopIndex, there]
      exact halts_fail _ _ _
    | some element =>
      cases retains : Meaning.retained op element produced with
      | error other =>
        refine ⟨.hand .none, fun machine store scope rest taken shows => .inl ?_⟩
        simp only [execute, loopStep, loopCollect, shows.loopLocal, shows.loopIndex, there]
        simp only [Frame.pop?, loopFrame, keep_eq, retains]
        exact halts_fail _ _ _
      | ok more =>
        refine ⟨.go 0 (more.reverse ++ kept)
          ((if op == .fold then [(Natives.resultName, produced)] else []) ++
            [(Natives.indexName, .number (.ofNat (positionOf binds + 1)))]), ?_⟩
        intro machine store scope rest taken shows
        refine .inr ⟨by simp [loopFrame, HigherOrder.steps], ?_⟩
        simp only [execute, loopStep, loopCollect, shows.loopLocal, shows.loopIndex, there]
        simp only [Frame.pop?, loopFrame, keep_eq, retains]
        by_cases fold : (op == .fold) = true
        · simp only [fold, if_true]
          rfl
        · simp only [fold]
          rfl

theorem exists_response_done :
    ∃ response, Responds natives (loopFrame kind origin op scope 3 values) binds (.loop op .done) response := by
  refine ⟨.hand (if op == .fold then (binds Natives.resultName).getD .none
    else collectLike ((binds Natives.collectionName).getD .none) values.reverse), ?_⟩
  intro machine store scope rest taken shows
  refine .inr ⟨by simp [loopFrame, HigherOrder.steps], ?_⟩
  simp only [execute, loopStep, loopDone, shows.loopLocal]
  by_cases fold : (op == .fold) = true
  · simp only [fold, if_true]
    exact ⟨values, rfl⟩
  · simp only [fold]
    exact ⟨[], rfl⟩

/-- What the next step of a native does depends on its frame and its bindings only. -/
theorem exists_response (pure : natives.ArePure) (binds : String → Option Value) (native : frame.IsNative) {step : Step}
    (current : frame.current? = some step) : ∃ response, Responds natives frame binds step response := by
  obtain ⟨kind, origin, steps, cursor, scope, values⟩ := frame
  rcases native with ⟨index, rfl, rfl⟩ | ⟨op, rfl, bound⟩
  · cases current
    exact exists_response_apply pure index rfl
  · dsimp only at bound
    obtain rfl | rfl | rfl | rfl : cursor = 0 ∨ cursor = 1 ∨ cursor = 2 ∨ cursor = 3 := by omega
    · cases current
      exact exists_response_init
    · cases current
      exact exists_response_next
    · cases current
      exact exists_response_collect
    · cases current
      exact exists_response_done

end

end Machine

end Rivulet
