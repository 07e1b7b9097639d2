import Rivulet.Machine

/-!
Calls. Arguments are bound to the inputs of a definition in order; an input that is left unbound
has a default, which the entry sequence of the definition evaluates.
-/

namespace Rivulet

namespace Machine

variable {N : Type} [DecidableEq N] [Naming N]

/-- The bindings that arguments make for inputs, added to those made before. A variadic input takes
all arguments that remain, a node that is no bind takes none, and what is left over at the end was
not expected. -/
def bindInputs (tree : Tree N) (origin : NodeId) :
    List NodeId → List (Value N) → List (N × Value N) → Except (Value N) (List (N × Value N))
  | [], [], bound => .ok bound
  | [], _ :: _, _ => .error (.failed .unexpectedInput origin)
  | input :: inputs, arguments, bound =>
    match tree.form? input with
    | some (.bind name value _ variadic) =>
      let bindTo (value : Value N) (rest : List (Value N)) : Except (Value N) (List (N × Value N)) :=
        if (bound.lookup name).isSome then .error (.failed (.alreadyBound name) input)
        else bindInputs tree origin inputs rest (bound ++ [(name, value)])
      if variadic then bindTo (.sequence arguments.toArray) []
      else
        match arguments with
        | argument :: rest => bindTo argument rest
        | [] =>
          if value.isMissing then .error (.failed (.missingInput name) origin)
          else bindInputs tree origin inputs [] bound
    | _ => bindInputs tree origin inputs arguments bound

/-- The frame kind and the inputs of a definition. -/
def definitionOf? (tree : Tree N) (id : NodeId) : Option (FrameKind × List NodeId) :=
  match tree.form? id with
  | some (.function _ inputs _ _) => some (.function id, tree.list inputs)
  | some (.record _ inputs) => some (.record id, tree.list inputs)
  | _ => none

/-- Whether some input of a definition declares a name. -/
def declaredByInput (tree : Tree N) (inputs : List NodeId) (name : N) : Bool :=
  inputs.any fun input => (tree.form? input).bind Form.declaredName? == some name

/-- The bindings of the scope of a call: those of the inputs, and the function itself under its own
name unless an input has that name. -/
def callBindings (tree : Tree N) (function : Function N) (inputs : List NodeId)
    (bound : List (N × Value N)) : List (N × Value N) :=
  if function.name = Naming.anonymous || declaredByInput tree inputs function.name then bound
  else Scope.setBinding function.name (.function function) bound

/-- Starts a frame in a scope with some bindings inside another scope. -/
def startFrame (machine : Machine N) (kind : FrameKind) (origin : NodeId) (steps : Array Step)
    (outer : ScopeId) (bindings : List (N × Value N)) : Effect N :=
  let scope := machine.store.scopes.size
  ({ machine with store := (machine.store.add ⟨bindings, some outer⟩).2 }).flow
    (.start (.start kind origin steps scope))

/-- Starts a frame for a definition in a scope of its own inside the captured one. -/
def startDefinition (machine : Machine N) (function : Function N) (definition : NodeId)
    (arguments : List (Value N)) (origin : NodeId) : Effect N :=
  match definitionOf? machine.tree definition with
  | none => (machine, .error (.notCallable definition))
  | some (kind, inputs) =>
    match bindInputs machine.tree origin inputs arguments [] with
    | .error exception => machine.flow (.throw exception)
    | .ok bound =>
      let (steps, program) := machine.program.entry definition
      { machine with program }.startFrame kind origin steps (function.context.getD machine.root)
        (callBindings machine.tree function inputs bound)

/-- What a call of a definition runs is what the tree compiles to, whatever was compiled before. -/
theorem startDefinition_eq (machine : Machine N) (function : Function N) (definition : NodeId)
    (arguments : List (Value N)) (origin : NodeId) :
    machine.startDefinition function definition arguments origin =
      match definitionOf? machine.tree definition with
      | none => (machine, .error (.notCallable definition))
      | some (kind, inputs) =>
        match bindInputs machine.tree origin inputs arguments [] with
        | .error exception => machine.flow (.throw exception)
        | .ok bound =>
          machine.startFrame kind origin (machine.tree.entryCode definition).toArray
            (function.context.getD machine.root) (callBindings machine.tree function inputs bound) := by
  simp only [startDefinition, Program.entry_eq]
  rfl

/-- Starts a frame for a native in a scope of its own inside the root scope; there must be as many
arguments as inputs. -/
def startNative (machine : Machine N) (index : Nat) (arguments : List (Value N)) (origin : NodeId) :
    Effect N :=
  match machine.natives.get? index with
  | none => (machine, .error (.unknownNative index))
  | some native =>
    match native.inputs[arguments.length]? with
    | some missing => machine.fail (.missingInput missing) origin
    | none =>
      if native.inputs.length < arguments.length then machine.fail .unexpectedInput origin
      else
        let bindings := (native.inputs.zip arguments).foldl
          (fun bound input => Scope.setBinding input.1 input.2 bound) []
        machine.startFrame (.native index) origin (machine.natives.steps index).toArray machine.root
          bindings

/-- Starts a frame for a function, unless too many frames are active. -/
def startCall (machine : Machine N) (function : Function N) (arguments : List (Value N))
    (origin : NodeId) : Effect N :=
  if machine.limits.maxDepth ≤ machine.depth then machine.fail .recursionLimit origin
  else
    match function.callee with
    | .definition definition => machine.startDefinition function definition arguments origin
    | .native index => machine.startNative index arguments origin

end Machine

end Rivulet
