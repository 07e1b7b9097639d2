import Rivulet.Machine.Run

/-!
What programs mean, by recursion over their nodes. Nothing is compiled here: a node asks for the
values of its children, in order, and a call evaluates the body of the function that it calls. The
store of scopes is threaded through, and every visit of a node that reads its scope is written down.

The evaluation of one node is stated over functions that evaluate its children and make its calls
(`Meaning.nodeWith`, `Meaning.callWith`); the recursion itself is over the height of the tree
(`Meaning.nodeTo`) and over the calls that may still nest (`Meaning.callTo`).
-/

namespace Rivulet

/-- Whether a node reads the scope that it is evaluated in: a reference looks its name up there, and a
definition captures it. -/
def Form.readsScope : Form → Bool
  | reference _ | function .. | record .. => true
  | _ => false

/-- The evaluation of a node that reads its scope, and the scopes at that moment. -/
structure Visit where
  node : NodeId
  scope : ScopeId
  store : Store

namespace Meaning

/-! ### Computations -/

/-- What parts of an evaluation hand on besides values: the scopes made so far, and the visits made so
far, the oldest first. -/
structure World where
  store : Store
  visits : List Visit

/-- Why a computation has no value: an exception, which ends the evaluation with itself as the
result, or a misuse by the host. -/
inductive Halt where
  | exception (value : Value)
  | fault (cause : Fault)

/-- A computation that has a value or halts. -/
abbrev Eval := EStateM Halt World

variable {α : Type}

/-- Ends the evaluation with an exception. -/
def throwValue (exception : Value) : Eval α :=
  throw (.exception exception)

/-- Ends the evaluation because of a misuse by the host. -/
def misuse (fault : Fault) : Eval α :=
  throw (.fault fault)

/-- Ends the evaluation with a failure at a node. -/
def fail (failure : Failure) (node : NodeId) : Eval α :=
  throwValue (.failed failure node)

/-- Ends the evaluation because a value has the wrong kind. -/
def mismatch (expected : ValueKind) (found : Value) (node : NodeId) : Eval α :=
  fail (.typeMismatch expected found.kind) node

/-- A result, or its failure at a node. -/
def yield (result : Except Failure Value) (node : NodeId) : Eval Value :=
  match result with
  | .ok value => pure value
  | .error failure => fail failure node

/-- The truth value that a value is. -/
def truth (value : Value) (node : NodeId) : Eval Bool :=
  match value with
  | .boolean value => pure value
  | other => mismatch .boolean other node

/-- The value that a callee hands to its caller; an exception is no such value. -/
def handOver (value : Value) : Eval Value :=
  if value.isException then throwValue value else pure value

/-! ### Scopes -/

/-- Adds a scope. -/
def addScope (scope : Scope) : Eval ScopeId :=
  modifyGet fun world => ((world.store.add scope).1, { world with store := (world.store.add scope).2 })

/-- Adds a copy of everything visible from a scope. -/
def capture (scope : ScopeId) : Eval ScopeId :=
  modifyGet fun world =>
    ((world.store.capture scope).1, { world with store := (world.store.capture scope).2 })

/-- Whether a scope itself binds a name. -/
def bindsLocally (scope : ScopeId) (name : String) : Eval Bool := do
  return (← get).store.bindsLocally scope name

/-- The value that a scope itself binds to a name, or none. -/
def localValue (scope : ScopeId) (name : String) : Eval Value := do
  return ((← get).store.local? scope name).getD .none

/-- Binds a name that a scope does not bind yet; another binding of it is a failure at a node. -/
def bindName (scope : ScopeId) (name : String) (value : Value) (node : NodeId) : Eval Unit := do
  if ← bindsLocally scope name then fail (.alreadyBound name) node
  else modify fun world => { world with store := world.store.bindNew scope name value }

/-- Binds a name in a scope, or overwrites its binding there. -/
def rebind (scope : ScopeId) (name : String) (value : Value) : Eval Unit :=
  modify fun world => { world with store := world.store.rebind scope name value }

/-- Writes down that a node reads a scope. -/
def visit (id : NodeId) (scope : ScopeId) : Eval Unit :=
  modify fun world => { world with visits := world.visits ++ [⟨id, scope, world.store⟩] }

/-- The value of a reference: that of its name in the nearest scope that binds it. -/
def lookUp (reference : NodeId) (scope : ScopeId) (name : String) : Eval Value := do
  match (← get).store.lookup scope name with
  | some value => pure value
  | none => fail (.unknownName name) reference

/-! ### Nodes -/

/-- What all parts of an evaluation have in common. -/
structure Setting where
  tree : Tree
  natives : Natives
  /-- The scope of natives and streams. -/
  root : ScopeId
  trigger : Option String
  borrowed : List (String × Value)

/-- Calls a function with arguments from a node. -/
abbrev Caller := Function → List Value → NodeId → Eval Value

/-- Evaluates a node in a scope. -/
abbrev Evaluator := ScopeId → NodeId → Eval Value

/-- The value of a child; a child that is no node of the tree is a failure at its parent. -/
def childWith (tree : Tree) (node : NodeId → Eval Value) (parent child : NodeId) : Eval Value :=
  if (tree.form? child).isSome then node child else fail .expectedValue parent

/-- The key and the value of an entry. -/
def entryWith (tree : Tree) (node : NodeId → Eval Value) (parent entry : NodeId) :
    Eval (Value × Value) :=
  match tree.form? entry with
  | some (.pair key value) => do
    let key ← childWith tree node entry key
    let value ← childWith tree node entry value
    pure (key, value)
  | _ => fail .expectedValue parent

/-- The value of the last of some statements, all of which are evaluated in order. -/
def statementsWith (tree : Tree) (node : NodeId → Eval Value) (block : NodeId)
    (statements : List NodeId) : Eval Value := do
  let values ← statements.mapM (childWith tree node block)
  match values.getLast? with
  | some last => pure last
  | none => fail .expectedValue block

/-- The value of a block, which has a scope of its own if one of its statements declares a name. -/
def blockWith (tree : Tree) (node : Evaluator) (scope : ScopeId) (block : NodeId)
    (statements : List NodeId) : Eval Value := do
  let inner ← if tree.declaresNames statements then addScope ⟨[], some scope⟩ else pure scope
  statementsWith tree (node inner) block statements

/-- A function takes the name that it is bound to, unless it has one. -/
def named (name : String) (value : Value) : Value :=
  match value with
  | .function function => if function.name = "" then .function { function with name } else value
  | _ => value

/-- The closure of a definition, bound to its name if it has one. -/
def define (scope : ScopeId) (id : NodeId) (name : String) : Eval Value := do
  let context ← capture scope
  let closure := Value.function ⟨.definition id, some context, name⟩
  if name = "" then pure closure
  else do
    bindName scope name closure id
    pure closure

/-- The value of a field of an instance. -/
def field (owner : Value) (name : String) (node : NodeId) : Eval Value :=
  match owner with
  | .record _ fields =>
    match Value.field? fields name with
    | some value => pure value
    | none => fail (.unknownProperty name) node
  | other => mismatch .record other node

/-- Whether a node is a reference to the stream that triggered the evaluation. -/
def triggered (setting : Setting) (stream : NodeId) : Bool :=
  match setting.tree.form? stream with
  | some (.reference name) => setting.trigger == some name
  | _ => false

/-- The value of a node in a scope, given how to evaluate nodes and how to call functions. -/
def nodeWith (setting : Setting) (node : Evaluator) (call : Caller) (scope : ScopeId)
    (id : NodeId) : Eval Value :=
  let tree := setting.tree
  let child := childWith tree (node scope) id
  match tree.form? id with
  | none => fail .expectedValue id
  | some form =>
    match form with
    | .program body => child body
    | .block statements => blockWith tree node scope id (tree.list statements)
    | .bind name value _ _ => do
      let value ← child value
      bindName scope name (named name value) id
      pure value
    | .number literal measure =>
      match Quantity.ofText? literal measure with
      | some number => pure (.number number)
      | none => fail .notANumber id
    | .boolean value => pure (.boolean value)
    | .text value => pure (.text value)
    | .none => pure .none
    | .sequence items => return .sequence (← (tree.list items).mapM child).toArray
    | .set items => return .setOf (← (tree.list items).mapM child)
    | .mapping entries =>
      return .mappingOf (← (tree.list entries).mapM (entryWith tree (node scope) id))
    | .reference name => do
      visit id scope
      lookUp id scope name
    | .property owner name => do field (← child owner) name id
    | .binary op left right =>
      if op.isLogical then do
        let first ← truth (← child left) id
        if first == (op == .or) then pure (.boolean first)
        else return .boolean (← truth (← child right) id)
      else do
        let first ← child left
        let second ← child right
        yield (Operators.binary op first second) id
    | .unary op operand => do yield (Operators.unary op (← child operand)) id
    | .conditional condition yes no => do
      if ← truth (← child condition) id then child yes else child no
    | .function name .. | .record name _ => do
      visit id scope
      define scope id name
    | .call callee arguments => do
      let callee ← child callee
      let arguments ← (tree.list arguments).mapM child
      match callee with
      | .function function => call function arguments id
      | other => mismatch .function other id
    | .changed stream => pure (.boolean (triggered setting stream))
    | .borrow source =>
      match setting.borrowed.lookup source with
      | none => fail (.unknownSource source) id
      | some value => do
        bindName scope source value id
        pure value
    | .placeholder => fail .placeholder id
    | .unparsable _ => fail .unparsable id
    | .pair .. => misuse (.uncompilable id)

/-- The value of a node, evaluated down to a depth. -/
def nodeTo (setting : Setting) (call : Caller) : Nat → Evaluator
  | 0, _, id => misuse (.uncompilable id)
  | depth + 1, scope, id => nodeWith setting (nodeTo setting call depth) call scope id

/-! ### Calls -/

/-- Evaluates and binds the default of an input, unless the caller supplied it. -/
def defaultWith (tree : Tree) (node : Evaluator) (scope : ScopeId) (input : NodeId) : Eval Unit :=
  match tree.form? input with
  | some (.bind name value _ _) =>
    if value.isMissing then pure ()
    else do
      if ← bindsLocally scope name then pure ()
      else do
        let value ← node scope value
        bindName scope name (named name value) input
  | _ => pure ()

/-- The instance of a record in the scope of a call, with a field for each input. -/
def instanceOf (tree : Tree) (scope : ScopeId) (definition : NodeId) (inputs : List NodeId) :
    Eval Value := do
  let names := inputs.filterMap fun input => (tree.form? input).bind Form.declaredName?
  let fields ← names.mapM fun name => return (name, ← localValue scope name)
  pure (.record definition fields)

/-- What a definition yields in the scope of a call whose inputs are bound. -/
def bodyWith (tree : Tree) (node : Evaluator) (scope : ScopeId) (definition : NodeId) :
    Eval Value :=
  match tree.form? definition with
  | some (.function _ _ body _) =>
    if body.isMissing then fail .expectedValue definition else node scope body
  | some (.record _ inputs) => instanceOf tree scope definition (tree.list inputs)
  | _ => fail .expectedValue definition

/-- What a loop keeps for an element, given what the function produced. -/
def retained (op : HigherOrder) (element : Element) (produced : Value) :
    Except Value (List Value) :=
  match op, produced with
  | .map, _ =>
    match element with
    | .single _ => .ok [produced]
    | .entry key _ => .ok [key, produced]
  | .filter, .boolean true => .ok (Machine.elementArguments element)
  | .filter, .boolean false => .ok []
  | .filter, other => .error other
  | .fold, _ => .ok []

/-- Calls a function on the elements of a collection in turn. The scope of the loop shows how far
it is: the position of the next element, and the result of a fold so far. -/
def eachWith (call : List Value → Eval Value) (op : HigherOrder) (collection : Value)
    (scope : ScopeId) (origin : NodeId) :
    Nat → Value → List Value → List Element → Eval Value
  | _, result, kept, [] =>
    pure (if op == .fold then result else Machine.collectLike collection kept)
  | index, result, kept, element :: rest => do
    let produced ←
      call ((if op == .fold then [result] else []) ++ Machine.elementArguments element)
    match retained op element produced with
    | .error other => mismatch .boolean other origin
    | .ok more => do
      if op == .fold then rebind scope Natives.resultName produced
      rebind scope Natives.indexName (.number (.ofNat (index + 1)))
      eachWith call op collection scope origin (index + 1) (if op == .fold then produced else result)
        (kept ++ more) rest

/-- A loop over a collection, with a first result if it is a fold. -/
def loopWith (call : Caller) (op : HigherOrder) (collection function initial : Value)
    (scope : ScopeId) (origin : NodeId) : Eval Value :=
  if !collection.isCollection then mismatch .sequence collection origin
  else
    match function with
    | .function function => do
      rebind scope Natives.indexName (.number (.ofNat 0))
      if op == .fold then rebind scope Natives.resultName initial
      eachWith (fun arguments => call function arguments origin) op collection scope origin 0
        initial [] collection.elements
    | other => mismatch .function other origin

/-- Binds all that a native binds whose frame is in a scope. -/
def bindFor (scope : ScopeId) (bindings : List NativeBinding) : Eval Unit :=
  modify fun world => { world with store := world.store.bindFor scope bindings }

/-- What a native yields for its inputs. -/
def nativeWith (call : Caller) (native : Native) (inputs : List (String × Value)) (scope : ScopeId)
    (origin : NodeId) : Eval Value :=
  let input (name : String) : Value := (inputs.lookup name).getD .none
  match native.body with
  | .apply run => do
    let (value, bindings) := run ⟨origin, native.inputs.map input⟩ scope (← get).store
    bindFor scope bindings
    pure value
  | .loop op =>
    loopWith call op (input Natives.collectionName) (input Natives.functionName)
      (input Natives.initialName) scope origin

/-- Calls a function, given how to evaluate nodes and how to make the calls inside. The inputs that
have arguments are bound first, then the defaults of the others, in order, before the body. -/
def callWith (setting : Setting) (node : Evaluator) (call : Caller) : Caller :=
  fun function arguments origin =>
    let tree := setting.tree
    match function.callee with
    | .definition definition =>
      match Machine.definitionOf? tree definition with
      | none => misuse (.notCallable definition)
      | some (_, inputs) =>
        match Machine.bindInputs tree origin inputs arguments [] with
        | .error exception => throwValue exception
        | .ok bound => do
          let bindings := Machine.callBindings tree function inputs bound
          let scope ← addScope ⟨bindings, some (function.context.getD setting.root)⟩
          inputs.forM (defaultWith tree node scope)
          handOver (← bodyWith tree node scope definition)
    | .native index =>
      match setting.natives.get? index with
      | none => misuse (.unknownNative index)
      | some native =>
        match native.inputs[arguments.length]? with
        | some missing => fail (.missingInput missing) origin
        | none =>
          if native.inputs.length < arguments.length then fail .unexpectedInput origin
          else do
            let bindings := (native.inputs.zip arguments).foldl
              (fun bound input => Scope.setBinding input.1 input.2 bound) []
            let scope ← addScope ⟨bindings, some setting.root⟩
            handOver (← nativeWith call native bindings scope origin)

/-- Calls a function when calls may nest as deep as given. -/
def callTo (setting : Setting) : Nat → Caller
  | 0, _, _, origin => fail .recursionLimit origin
  | depth + 1, function, arguments, origin =>
    callWith setting (nodeTo setting (callTo setting depth) setting.tree.height)
      (callTo setting depth) function arguments origin

/-! ### Programs -/

/-- The value of a node when calls may nest as deep as given. -/
def node (setting : Setting) (calls : Nat) : Evaluator :=
  nodeTo setting (callTo setting calls) setting.tree.height

/-- The scopes of natives and streams and of the program, added to a store. The outer one binds the
natives and then the streams, which hide natives of the same name. -/
def outerScopes (natives : Natives) (streams : List (String × Value)) (store : Store) :
    ScopeId × ScopeId × Store :=
  let (root, store) := store.root
  let store := (natives.values ++ streams).foldl
    (fun store binding => store.rebind root binding.1 binding.2) store
  let (scope, store) := store.child root
  (root, scope, store)

/-- What a program comes to when at most some frames may be active: that of the program itself and
those of calls. -/
def program (tree : Tree) (natives : Natives) (maxDepth : Nat) (store : Store) (inputs : Inputs) :
    EStateM.Result Halt World Value :=
  let (root, scope, store) := outerScopes natives inputs.streams store
  let setting : Setting := ⟨tree, natives, root, inputs.trigger, inputs.borrowed.reverse⟩
  node setting (maxDepth - 1) scope tree.root ⟨store, []⟩

end Meaning

end Rivulet
