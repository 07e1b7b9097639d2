import Rivulet.Value

/-!
Lexical scopes. All scopes of an evaluation live in one store and are named by their place in it;
a scope is a table of bindings and the scope around it. A closure holds a capture: a flat copy of
what was visible when it was made, so nothing bound later changes what it sees.
-/

namespace Rivulet

/-- The place of a scope in its store. -/
abbrev ScopeId := Nat

/-- A table of bindings, and the scope it is nested in. -/
structure Scope (N : Type := String) where
  bindings : List (N × Value N)
  parent : Option ScopeId
deriving Inhabited

/-- All scopes made so far. -/
structure Store (N : Type := String) where
  scopes : Array (Scope N)
deriving Inhabited

/-! ### Bindings of one scope -/

namespace Scope

variable {N : Type}

/-- The value that this scope itself binds to a name. -/
def find? [DecidableEq N] (scope : Scope N) (name : N) : Option (Value N) :=
  scope.bindings.lookup name

/-- Replaces the value of a name in a table, or adds the name to its end. -/
def setBinding [DecidableEq N] (name : N) (value : Value N) : List (N × Value N) → List (N × Value N)
  | [] => [(name, value)]
  | (stored, old) :: rest =>
    if name = stored then (name, value) :: rest else (stored, old) :: setBinding name value rest

/-- The scope with one more binding, for a name that it does not bind yet. -/
def bind (scope : Scope N) (name : N) (value : Value N) : Scope N :=
  { scope with bindings := (name, value) :: scope.bindings }

/-- The scope with a name bound to a value, whatever it was bound to before. -/
def rebind [DecidableEq N] (scope : Scope N) (name : N) (value : Value N) : Scope N :=
  { scope with bindings := setBinding name value scope.bindings }

end Scope

/-! ### The store -/

namespace Store

variable {N : Type}

/-- A store without scopes. -/
def empty : Store N := ⟨#[]⟩

/-- Adds a scope. -/
def add (store : Store N) (scope : Scope N) : ScopeId × Store N :=
  (store.scopes.size, ⟨store.scopes.push scope⟩)

/-- Adds an outermost scope without bindings. -/
def root (store : Store N) : ScopeId × Store N :=
  store.add ⟨[], none⟩

/-- Adds a scope without bindings inside another. -/
def child (store : Store N) (id : ScopeId) : ScopeId × Store N :=
  store.add ⟨[], some id⟩

/-- The scope around a scope. -/
def parent? (store : Store N) (id : ScopeId) : Option ScopeId :=
  store.scopes[id]?.bind Scope.parent

/-- The value that a scope itself binds to a name. -/
def local? [DecidableEq N] (store : Store N) (id : ScopeId) (name : N) : Option (Value N) :=
  store.scopes[id]?.bind (Scope.find? · name)

/-- Whether a scope itself binds a name. -/
def bindsLocally [DecidableEq N] (store : Store N) (id : ScopeId) (name : N) : Bool :=
  (store.local? id name).isSome

/-- Binds a name that a scope does not bind yet. -/
def bindNew (store : Store N) (id : ScopeId) (name : N) (value : Value N) : Store N :=
  ⟨store.scopes.modify id (Scope.bind · name value)⟩

/-- Binds a name in a scope, or overwrites its binding there. -/
def rebind [DecidableEq N] (store : Store N) (id : ScopeId) (name : N) (value : Value N) : Store N :=
  ⟨store.scopes.modify id (Scope.rebind · name value)⟩

/-- Binds a name in a scope that does not bind it yet; otherwise there is no result. -/
def bind? [DecidableEq N] (store : Store N) (id : ScopeId) (name : N) (value : Value N) : Option (Store N) :=
  if store.bindsLocally id name then none else some (store.bindNew id name value)

/-- The scopes from one outwards, at most as many as given. A scope is older than the scopes
inside it, so its place bounds their number. -/
def chainFrom (store : Store N) : Nat → ScopeId → List ScopeId
  | 0, _ => []
  | count + 1, id =>
    id :: match store.parent? id with
      | none => []
      | some outer => store.chainFrom count outer

/-- A scope and all scopes around it, innermost first. -/
def chain (store : Store N) (id : ScopeId) : List ScopeId :=
  store.chainFrom (id + 1) id

/-- Looks a name up in a scope and the scopes around it, at most as many as given. -/
def lookupFrom [DecidableEq N] (store : Store N) (name : N) : Nat → ScopeId → Option (Value N)
  | 0, _ => none
  | count + 1, id =>
    match store.local? id name with
    | some value => some value
    | none =>
      match store.parent? id with
      | none => none
      | some outer => store.lookupFrom name count outer

/-- The value of a name in the nearest enclosing scope that binds it. -/
def lookup [DecidableEq N] (store : Store N) (id : ScopeId) (name : N) : Option (Value N) :=
  store.lookupFrom name (id + 1) id

/-- The outermost one of a scope and the scopes around it, which lies in no other. -/
def outermost? (store : Store N) (id : ScopeId) : Option ScopeId :=
  (store.chain id).find? fun layer => (store.parent? layer).isNone

/-- How many scopes lie around a scope. -/
def nesting (store : Store N) (id : ScopeId) : Nat :=
  (store.chain id).length - 1

/-- The bindings of some scopes in one table; an earlier scope hides the later ones. -/
def flatten [DecidableEq N] (store : Store N) : List ScopeId → List (N × Value N)
  | [] => []
  | id :: outer =>
    let bindings := ((store.scopes[id]?).map Scope.bindings).getD []
    bindings ++ (store.flatten outer).filter fun binding => (bindings.lookup binding.1).isNone

/-- Adds a copy of everything visible from a scope, nested directly in the outermost scope, whose
own bindings are not copied. -/
def capture [DecidableEq N] (store : Store N) (id : ScopeId) : ScopeId × Store N :=
  let layers := store.chain id
  store.add ⟨store.flatten layers.dropLast, some (layers.getLast?.getD id)⟩

/-- A short account of a scope: how many names it binds, and whether it is nested. -/
def describe (store : Store N) (id : ScopeId) : String :=
  let scope := store.scopes[id]?.getD ⟨[], none⟩
  s!"SharedScope(Scope \x7b bindings: {scope.bindings.length}, nested: {scope.parent.isSome} \x7d)"

end Store

end Rivulet
