import Rivulet.Scope
import Rivulet.Step
import Rivulet.Value.Equality

/-!
Built-in functions. A registry is a plain table handed to the evaluator and to the analysis; a
native is called like any other function, with its inputs bound by name. Most natives compute their
value in one step; `map`, `filter` and `fold` run a loop of steps.
-/

namespace Rivulet

/-- What a native of one step is called with: the call site, and its inputs in order. -/
structure NativeCall (N : Type := String) where
  node : NodeId
  inputs : List (Value N)

/-- An input by position; one that is not there reads as none. -/
def NativeCall.input {N : Type} (call : NativeCall N) (index : Nat) : Value N :=
  call.inputs[index]?.getD .none

/-- The exception of an input that has the wrong kind. -/
def NativeCall.mismatch {N : Type} (call : NativeCall N) (expected : ValueKind) (found : Value N) : Value N :=
  .failed (.typeMismatch expected found.kind) call.node

/-- A name that a native of one step binds, or binds anew: in the scope of its frame, or in the
outermost one around that, where all natives and streams are bound. -/
structure NativeBinding (N : Type := String) where
  outermost : Bool
  name : N
  value : Value N

/-- Binds a name for a native whose frame is in a scope. -/
def Store.bindOnce {N : Type} [DecidableEq N] (store : Store N) (scope : ScopeId) (binding : NativeBinding N) :
    Store N :=
  match if binding.outermost then store.outermost? scope else some scope with
  | some target => store.rebind target binding.name binding.value
  | none => store

/-- Binds all that a native binds whose frame is in a scope. -/
def Store.bindFor {N : Type} [DecidableEq N] (store : Store N) (scope : ScopeId) (bindings : List (NativeBinding N)) :
    Store N :=
  bindings.foldl (Store.bindOnce · scope) store

/-- How a native works. A native of one step is given its call and the scope of its frame, which it
may look at like all other scopes. It returns a value, and it may bind names. -/
inductive NativeBody (N : Type := String) where
  | apply (run : NativeCall N → ScopeId → Store N → Value N × List (NativeBinding N))
  | loop (op : HigherOrder)

/-- A native of one step that looks at no scope and binds no name. -/
def NativeBody.pure {N : Type} (value : NativeCall N → Value N) : NativeBody N :=
  .apply fun call _ _ => (value call, [])

theorem NativeBody.pure_inj {N : Type} {value value' : NativeCall N → Value N} (same : pure value = pure value') :
    value = value' :=
  funext fun call => congrArg Prod.fst (congrFun (congrFun (congrFun (apply.inj same) call) 0) .empty)

/-- A built-in function: its name, the names of its inputs, and its static type. -/
structure Native (N : Type := String) where
  name : N
  inputs : List N
  signature : Ty
  body : NativeBody N

/-- Whether a native calls a function once per element. -/
def Native.isHigherOrder {N : Type} (native : Native N) : Bool :=
  match native.body with
  | .loop _ => true
  | .apply _ => false

/-- All natives by number. -/
structure Natives (N : Type := String) where
  definitions : List (Native N)

namespace Natives

variable {N : Type}

/-! ### The table -/

/-- A table without natives. -/
def empty : Natives N := ⟨[]⟩

/-- Adds a native, which hides earlier ones of the same name. -/
def register (natives : Natives N) (native : Native N) : Natives N :=
  ⟨natives.definitions ++ [native]⟩

/-- How many natives there are. -/
def size (natives : Natives N) : Nat :=
  natives.definitions.length

/-- Whether there are none. -/
def isEmpty (natives : Natives N) : Bool :=
  natives.definitions.isEmpty

/-- A native by number. -/
def get? (natives : Natives N) (index : Nat) : Option (Native N) :=
  natives.definitions[index]?

/-- The number of the last native of a name in a list that starts at a number. -/
def lastOfName [DecidableEq N] (name : N) : List (Native N) → Nat → Option Nat
  | [], _ => none
  | native :: rest, index =>
    match lastOfName name rest (index + 1) with
    | some later => some later
    | none => if native.name = name then some index else none

/-- The number of the native that a name stands for. -/
def find? [DecidableEq N] (natives : Natives N) (name : N) : Option Nat :=
  lastOfName name natives.definitions 0

/-- Whether the native of a number calls a function once per element. -/
def isHigherOrder (natives : Natives N) (index : Nat) : Bool :=
  (natives.get? index).any Native.isHigherOrder

/-- The steps that the native of a number runs. -/
def steps (natives : Natives N) (index : Nat) : List Step :=
  match natives.get? index with
  | some ⟨_, _, _, .loop op⟩ => op.steps
  | _ => [.apply index]

/-- The function value of a native. -/
def valueOf [Naming N] (index : Nat) : Value N :=
  .function ⟨.native index, none, Naming.anonymous⟩

/-- Every name that stands for a native, with the function it stands for. -/
def values [DecidableEq N] [Naming N] (natives : Natives N) : List (N × Value N) :=
  (List.range natives.size).filterMap fun index =>
    match natives.get? index with
    | some native =>
      if natives.find? native.name = some index then some (native.name, valueOf index) else none
    | none => none

/-! ### Names of loop bindings -/

/-- The input that holds the collection of a loop. -/
def collectionName [Naming N] : N := Naming.ofText "collection"

/-- The input that holds the function of a loop. -/
def functionName [Naming N] : N := Naming.ofText "function"

/-- The input that holds the first result of a fold. -/
def initialName [Naming N] : N := Naming.ofText "initial"

/-- The position of a loop; no program can spell the name. -/
def indexName [Naming N] : N := Naming.ofText "·index"

/-- The result of a fold so far; no program can spell the name. -/
def resultName [Naming N] : N := Naming.ofText "·result"

/-! ### The standard table -/

/-- The number of elements of a collection or of characters of a text. -/
def length (call : NativeCall N) : Value N :=
  let collection := call.input 0
  match collection.length? with
  | some count => .number (.ofNat count)
  | none => call.mismatch .sequence collection

/-- Whether a collection holds a value, a mapping has a key, or a text has a part. -/
def contains [DecidableEq N] (call : NativeCall N) : Value N :=
  let sought := call.input 1
  match call.input 0, sought with
  | .sequence items, _ => .boolean (items.any (sought == ·))
  | .set items, _ => .boolean (items.any (sought == ·))
  | .mapping entries, _ => .boolean (entries.any fun entry => sought == entry.1)
  | .text text, .text part => .boolean (text.contains part)
  | .text _, other => call.mismatch .text other
  | other, _ => call.mismatch .sequence other

/-- The keys of a mapping in order. -/
def keys (call : NativeCall N) : Value N :=
  match call.input 0 with
  | .mapping entries => .sequence (entries.map Prod.fst).toArray
  | other => call.mismatch .mapping other

/-- The values of a mapping in order. -/
def entryValues (call : NativeCall N) : Value N :=
  match call.input 0 with
  | .mapping entries => .sequence (entries.map Prod.snd).toArray
  | other => call.mismatch .mapping other

/-- The text of a value; a text stays as it is. -/
def text (call : NativeCall N) : Value N :=
  match call.input 0 with
  | .text value => .text value
  | other => .text other.toText

open Naming (ofText) in
/-- The natives every program can use. The function that a loop calls takes one input per element,
or two for an entry, so the types of loops are left open. -/
def standard [DecidableEq N] [Naming N] : Natives N where
  definitions := [
    ⟨ofText "length", [ofText "collection"], .function [.any] .plainNumber, .pure length⟩,
    ⟨ofText "contains", [ofText "collection", ofText "value"], .function [.any, .any] .boolean,
      .pure contains⟩,
    ⟨ofText "keys", [ofText "mapping"], .function [.mapping .any .any] (.sequence .any), .pure keys⟩,
    ⟨ofText "values", [ofText "mapping"], .function [.mapping .any .any] (.sequence .any),
      .pure entryValues⟩,
    ⟨ofText "text", [ofText "value"], .function [.any] .text, .pure text⟩,
    ⟨ofText "map", [collectionName, functionName], .function [.any, .any] .any, .loop .map⟩,
    ⟨ofText "filter", [collectionName, functionName], .function [.any, .any] .any, .loop .filter⟩,
    ⟨ofText "fold", [collectionName, initialName, functionName], .function [.any, .any, .any] .any,
      .loop .fold⟩]

/-- The texts that the standard table has names for, in the order in which they are given to it. -/
def texts : List String :=
  [collectionName, functionName, initialName, indexName, resultName] ++
    (standard : Natives).definitions.flatMap fun native => native.name :: native.inputs

/-- Natives of one step look at no scope and bind no name. -/
def ArePure (natives : Natives N) : Prop :=
  ∀ native ∈ natives.definitions, ∀ run, native.body = .apply run →
    ∃ value, native.body = .pure value ∧ run = fun call _ _ => (value call, [])

theorem standard_arePure [DecidableEq N] [Naming N] : (standard : Natives N).ArePure := by
  intro native among run is
  simp only [standard, List.mem_cons, List.not_mem_nil, or_false] at among
  rcases among with rfl | rfl | rfl | rfl | rfl | rfl | rfl | rfl
  all_goals first
    | exact ⟨_, rfl, (NativeBody.apply.inj is).symm⟩
    | cases is

end Natives

end Rivulet
