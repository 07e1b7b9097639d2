import Rivulet.Proofs.Machine.Nodes

/-!
Loops over collections. Between two elements the scope of a loop holds its inputs, the position of the
next element and, for a fold, the result so far, and the stack holds what the loop has kept
(`LoopHolds`). Going round once leads from one such state to the next (`tracks_round`), and the rest
is induction on the elements that are left.

Main statement: the steps of a loop compute the value of the loop (`tracks_loop`).
-/

namespace Rivulet

namespace Machine

open Meaning

/-! ### States of a loop -/

/-- The frame of a loop. -/
def loopFrame (kind : FrameKind) (origin : NodeId) (op : HigherOrder) (scope : ScopeId) (cursor : Nat)
    (values : List Value) : Frame :=
  ⟨kind, origin, op.steps.toArray, cursor, scope, values⟩

/-- What the scope of a loop holds when it comes to an element. -/
structure LoopHolds (store : Store) (scope : ScopeId) (op : HigherOrder) (collection : Value)
    (function : Function) (index : Nat) (result : Value) : Prop where
  inner : (store.parent? scope).isSome
  collection_eq : (store.local? scope Natives.collectionName).getD .none = collection
  function_eq : (store.local? scope Natives.functionName).getD .none = .function function
  index_eq : (store.local? scope Natives.indexName).getD .none = .number (.ofNat index)
  result_eq : (op == .fold) = true → (store.local? scope Natives.resultName).getD .none = result

section

variable {store store' : Store} {scope : ScopeId} {op : HigherOrder} {collection result : Value}
  {function : Function} {index : Nat}

theorem LoopHolds.bound (holds : LoopHolds store scope op collection function index result) :
    scope < store.scopes.size :=
  Store.lt_size_of_inner holds.inner

/-- A call of the function keeps what the loop holds. -/
theorem LoopHolds.keeps (holds : LoopHolds store scope op collection function index result)
    (kept : store'.scopes[scope]? = store.scopes[scope]?) :
    LoopHolds store' scope op collection function index result := by
  have same (name : String) : store'.local? scope name = store.local? scope name := by
    rw [Store.local?, kept, Store.local?]
  refine ⟨by rw [Store.parent?, kept]; exact holds.inner, ?_, ?_, ?_, ?_⟩
  · rw [same, holds.collection_eq]
  · rw [same, holds.function_eq]
  · rw [same, holds.index_eq]
  · intro fold
    rw [same, holds.result_eq fold]

/-- Taking in what a call of the function produced moves the loop on. -/
theorem LoopHolds.next (holds : LoopHolds store scope op collection function index result)
    (produced : Value) :
    LoopHolds
      ((if op == .fold then store.rebind scope Natives.resultName produced else store).rebind scope
        Natives.indexName (.number (.ofNat (index + 1))))
      scope op collection function (index + 1) (if op == .fold then produced else result) := by
  by_cases fold : (op == .fold) = true
  · simp only [fold, if_true]
    have bound := holds.bound
    refine ⟨by simpa using holds.inner, ?_, ?_, ?_, ?_⟩
    · simpa [Store.local?_rebind, bound, Natives.collectionName, Natives.indexName,
        Natives.resultName] using holds.collection_eq
    · simpa [Store.local?_rebind, bound, Natives.functionName, Natives.indexName,
        Natives.resultName] using holds.function_eq
    · simp [Store.local?_rebind, bound]
    · simp [Store.local?_rebind, bound, Natives.indexName, Natives.resultName]
  · simp only [fold]
    have bound := holds.bound
    refine ⟨by simpa using holds.inner, ?_, ?_, ?_, fun is => absurd is fold⟩
    · simpa [Store.local?_rebind, bound, Natives.collectionName, Natives.indexName] using
        holds.collection_eq
    · simpa [Store.local?_rebind, bound, Natives.functionName, Natives.indexName] using
        holds.function_eq
    · simp [Store.local?_rebind, bound]

/-- A loop starts at the first element. -/
theorem loopHolds_start {initial : Value} (inner : (store.parent? scope).isSome)
    (isCollection : (store.local? scope Natives.collectionName).getD .none = collection)
    (isFunction : (store.local? scope Natives.functionName).getD .none = .function function) :
    LoopHolds
      (if op == .fold then
        (store.rebind scope Natives.indexName (.number (.ofNat 0))).rebind scope Natives.resultName
          initial
      else store.rebind scope Natives.indexName (.number (.ofNat 0)))
      scope op collection function 0 initial := by
  have bound := Store.lt_size_of_inner inner
  by_cases fold : (op == .fold) = true
  · simp only [fold, if_true]
    refine ⟨by simpa using inner, ?_, ?_, ?_, ?_⟩
    · simpa [Store.local?_rebind, bound, Natives.collectionName, Natives.indexName,
        Natives.resultName] using isCollection
    · simpa [Store.local?_rebind, bound, Natives.functionName, Natives.indexName,
        Natives.resultName] using isFunction
    · simp [Store.local?_rebind, bound, Natives.indexName, Natives.resultName]
    · simp [Store.local?_rebind, bound]
  · simp only [fold, Bool.false_eq_true, if_false]
    refine ⟨by simpa using inner, ?_, ?_, ?_, fun is => absurd is fold⟩
    · simpa [Store.local?_rebind, bound, Natives.collectionName, Natives.indexName] using
        isCollection
    · simpa [Store.local?_rebind, bound, Natives.functionName, Natives.indexName] using isFunction
    · simp [Store.local?_rebind, bound]

theorem loopIndex_of_holds {machine : Machine} {frames : List Frame} {taken : Nat} {frame : Frame}
    (inScope : frame.scope = scope)
    (holds : LoopHolds store scope op collection function index result) :
    (machine.inState store frames taken).loopIndex frame = index := by
  have position : (machine.inState store frames taken).loopLocal frame Natives.indexName =
      .number (.ofNat index) := by
    simpa [loopLocal, inScope] using holds.index_eq
  simp [loopIndex, position, Quantity.toIndex?, Quantity.isInteger, Quantity.ofNat]

end

/-- What a loop keeps on the stack is what the evaluation retains. -/
theorem keep_eq (op : HigherOrder) (element : Element) (produced : Value) (frame : Frame) :
    keep op element produced frame =
      match retained op element produced with
      | .error other => .error other
      | .ok more => .ok { frame with values := more.reverse ++ frame.values } := by
  cases op with
  | map => cases element <;> rfl
  | fold => rfl
  | filter =>
    cases produced with
    | boolean holds => cases holds <;> cases element <;> rfl
    | _ => rfl

/-! ### Steps of a loop -/

section

variable {machine : Machine} {store : Store} {kind : FrameKind} {origin : NodeId} {op : HigherOrder} {scope : ScopeId}
  {collection result : Value} {function : Function} {index taken : Nat} {values : List Value} {rest : List Frame}

/-- The first step goes to the first element. -/
theorem execute_init {initial : Value} (bound : scope < store.scopes.size)
    (collects : collection.isCollection = true)
    (isCollection : (store.local? scope Natives.collectionName).getD .none = collection)
    (isFunction : (store.local? scope Natives.functionName).getD .none = .function function)
    (isInitial : (store.local? scope Natives.initialName).getD .none = initial) :
    (machine.inState store (loopFrame kind origin op scope 0 [] :: rest) taken).execute
        (loopFrame kind origin op scope 0 []) (.loop op .init) =
      (machine.inState
        (if op == .fold then
          (store.rebind scope Natives.indexName (.number (.ofNat 0))).rebind scope Natives.resultName initial
        else store.rebind scope Natives.indexName (.number (.ofNat 0)))
        (loopFrame kind origin op scope 0 [] :: rest) taken, .ok .proceed) := by
  have reads (name : String) : (machine.inState store (loopFrame kind origin op scope 0 [] :: rest) taken).loopLocal
      (loopFrame kind origin op scope 0 []) name = (store.local? scope name).getD .none := rfl
  have initially : ((store.rebind scope Natives.indexName (.number (.ofNat 0))).local? scope
      Natives.initialName).getD .none = initial := by
    rw [← isInitial, Store.local?_rebind bound]
    rfl
  simp only [execute, loopStep, loopInit, reads, isCollection, collects, isFunction]
  by_cases fold : (op == .fold) = true
  · simp only [fold, if_true, ← initially]
    rfl
  · simp only [fold]
    rfl

variable (holds : LoopHolds store scope op collection function index result)

include holds

/-- The step that comes to an element calls the function on it. -/
theorem execute_next {element : Element} (there : collection.element? index = some element) :
    (machine.inState store (loopFrame kind origin op scope 1 values :: rest) taken).execute
        (loopFrame kind origin op scope 1 values) (.loop op .next) =
      (machine.inState store (loopFrame kind origin op scope 1 values :: rest) taken).startCall function
        ((if op == .fold then [result] else []) ++ elementArguments element) origin := by
  have position := @loopIndex_of_holds store scope op collection result function index machine
    (loopFrame kind origin op scope 1 values :: rest) taken (loopFrame kind origin op scope 1 values) rfl holds
  have collects : (machine.inState store (loopFrame kind origin op scope 1 values :: rest) taken).loopLocal
      (loopFrame kind origin op scope 1 values) Natives.collectionName = collection := holds.collection_eq
  have calling : (machine.inState store (loopFrame kind origin op scope 1 values :: rest) taken).loopLocal
      (loopFrame kind origin op scope 1 values) Natives.functionName = .function function := holds.function_eq
  simp only [execute, loopStep, loopNext, position, collects, there, calling]
  by_cases fold : (op == .fold) = true
  · rw [← holds.result_eq fold]
    simp only [fold, if_true]
    rfl
  · simp only [fold]
    rfl

/-- Behind the last element it jumps to the end. -/
theorem execute_exhausted (atEnd : collection.element? index = none) :
    (machine.inState store (loopFrame kind origin op scope 1 values :: rest) taken).execute
        (loopFrame kind origin op scope 1 values) (.loop op .next) =
      (machine.inState store (loopFrame kind origin op scope 2 values :: rest) taken, .ok .proceed) := by
  have position := @loopIndex_of_holds store scope op collection result function index machine
    (loopFrame kind origin op scope 1 values :: rest) taken (loopFrame kind origin op scope 1 values) rfl holds
  have collects : (machine.inState store (loopFrame kind origin op scope 1 values :: rest) taken).loopLocal
      (loopFrame kind origin op scope 1 values) Natives.collectionName = collection := holds.collection_eq
  simp only [execute, loopStep, loopNext, position, collects, atEnd]
  rfl

/-- The step after a call takes in what the function produced and goes back to the next element. -/
theorem execute_collect {element : Element} {produced : Value} {kept more : List Value}
    (there : collection.element? index = some element) (retains : retained op element produced = .ok more) :
    (machine.inState store (loopFrame kind origin op scope 2 (produced :: kept.reverse) :: rest) taken).execute
        (loopFrame kind origin op scope 2 (produced :: kept.reverse)) (.loop op .collect) =
      (machine.inState
        ((if op == .fold then store.rebind scope Natives.resultName produced else store).rebind scope
          Natives.indexName (.number (.ofNat (index + 1))))
        (loopFrame kind origin op scope 0 (kept ++ more).reverse :: rest) taken, .ok .proceed) := by
  have position := @loopIndex_of_holds store scope op collection result function index machine
    (loopFrame kind origin op scope 2 (produced :: kept.reverse) :: rest) taken
    (loopFrame kind origin op scope 2 (produced :: kept.reverse)) rfl holds
  have collects : (machine.inState store (loopFrame kind origin op scope 2 (produced :: kept.reverse) :: rest)
      taken).loopLocal (loopFrame kind origin op scope 2 (produced :: kept.reverse)) Natives.collectionName =
      collection := holds.collection_eq
  have popped : (loopFrame kind origin op scope 2 (produced :: kept.reverse)).pop? =
      some (produced, loopFrame kind origin op scope 2 kept.reverse) := rfl
  have keeps : keep op element produced (loopFrame kind origin op scope 2 kept.reverse) =
      .ok (loopFrame kind origin op scope 2 (kept ++ more).reverse) := by
    rw [keep_eq, retains]
    simp [loopFrame]
  simp only [execute, loopStep, loopCollect, popped, position, collects, there, keeps]
  by_cases fold : (op == .fold) = true
  · simp only [fold, if_true]
    rfl
  · simp only [fold]
    rfl

/-- What cannot be taken in ends the evaluation. -/
theorem execute_stop {element : Element} {produced other : Value} {kept : List Value}
    (there : collection.element? index = some element) (stops : retained op element produced = .error other) :
    ((machine.inState store (loopFrame kind origin op scope 2 (produced :: kept.reverse) :: rest) taken).execute
        (loopFrame kind origin op scope 2 (produced :: kept.reverse)) (.loop op .collect)) =
      (machine.inState store (loopFrame kind origin op scope 2 (produced :: kept.reverse) :: rest) taken).mismatch
        .boolean other origin := by
  have position := @loopIndex_of_holds store scope op collection result function index machine
    (loopFrame kind origin op scope 2 (produced :: kept.reverse) :: rest) taken
    (loopFrame kind origin op scope 2 (produced :: kept.reverse)) rfl holds
  have collects : (machine.inState store (loopFrame kind origin op scope 2 (produced :: kept.reverse) :: rest)
      taken).loopLocal (loopFrame kind origin op scope 2 (produced :: kept.reverse)) Natives.collectionName =
      collection := holds.collection_eq
  have popped : (loopFrame kind origin op scope 2 (produced :: kept.reverse)).pop? =
      some (produced, loopFrame kind origin op scope 2 kept.reverse) := rfl
  simp only [execute, loopStep, loopCollect, popped, position, collects, there, keep_eq, stops]
  rfl

/-- The last step yields the result. -/
theorem execute_done {kept : List Value} :
    (machine.inState store (loopFrame kind origin op scope 3 kept.reverse :: rest) taken).execute
        (loopFrame kind origin op scope 3 kept.reverse) (.loop op .done) =
      (machine.inState store
        (loopFrame kind origin op scope 3 (if op == .fold then kept.reverse else []) :: rest) taken,
        .ok (.push (if op == .fold then result else collectLike collection kept))) := by
  by_cases fold : (op == .fold) = true
  · rw [← holds.result_eq fold]
    simp only [execute, loopStep, loopDone, fold, if_true]
    rfl
  · rw [← holds.collection_eq]
    simp only [execute, loopStep, loopDone, fold, loopFrame, List.reverse_reverse]
    rfl

end

/-! ### Going round -/

/-- What is left of a collection starts with the element that a loop has come to. -/
theorem element?_of_drop {collection : Value} {index : Nat} {element : Element} {elements : List Element}
    (left : collection.elements.drop index = element :: elements) :
    collection.element? index = some element ∧ collection.elements.drop (index + 1) = elements := by
  rw [← Value.getElem?_elements, ← List.head?_drop, ← List.tail_drop, left]
  exact ⟨rfl, rfl⟩

theorem element?_of_drop_nil {collection : Value} {index : Nat} (nothing : collection.elements.drop index = []) :
    collection.element? index = none := by
  rw [← Value.getElem?_elements]
  exact List.getElem?_eq_none (List.drop_eq_nil_iff.mp nothing)

section

variable {machine : Machine} {calls : Nat} {call : Caller} {kind : FrameKind} {origin : NodeId}
  {op : HigherOrder} {scope : ScopeId} {collection : Value} {function : Function} {index : Nat}
  {result : Value} {rest : List Frame} {taken : Nat} {world : World} {kept : List Value}
  (unobserved : machine.observers = [])

include unobserved

/-- Once around a loop, after the call for an element has produced a value. -/
theorem course_of_collect {store : Store} {element : Element} {produced : Value} {more : List Value}
    (holds : LoopHolds store scope op collection function index result)
    (there : collection.element? index = some element)
    (retains : retained op element produced = .ok more) :
    Course machine 1 [] (machine.inState store
        (loopFrame kind origin op scope 2 ([produced] ++ kept.reverse) :: rest) taken)
      (machine.inState
        ((if op == .fold then store.rebind scope Natives.resultName produced else store).rebind scope
          Natives.indexName (.number (.ofNat (index + 1))))
        (loopFrame kind origin op scope 1 (kept ++ more).reverse :: rest) (taken + 1)) := by
  have goesOn : (loopFrame kind origin op scope 0 (kept ++ more).reverse).advance.Ahead
      [.loop op .next, .loop op .collect, .loop op .done] := rfl
  have current : (loopFrame kind origin op scope 2 ([produced] ++ kept.reverse)).current? =
      some (.loop op .collect) := rfl
  exact course_of_change unobserved (loopFrame kind origin op scope 0 (kept ++ more).reverse) current
    (silent_of_node (by simp)) (execute_collect holds there retains) goesOn (by simp)

omit unobserved in
/-- What the call for an element produced may stop the loop. -/
theorem tracks_stop {α : Type} {reached : α → Store → Machine → Prop} {element : Element}
    {produced other : Value}
    (holds : LoopHolds world.store scope op collection function index result)
    (there : collection.element? index = some element)
    (stops : retained op element produced = .error other) :
    Tracks machine (machine.inState world.store
        (loopFrame kind origin op scope 2 ([produced] ++ kept.reverse) :: rest) taken) world
      (Meaning.mismatch .boolean other origin) reached := by
  have current : (loopFrame kind origin op scope 2 ([produced] ++ kept.reverse)).current? =
      some (.loop op .collect) := rfl
  exact tracks_of_throw rfl rfl current (silent_of_node (by simp))
    (congrArg Prod.snd (execute_stop holds there stops))

/-- The end of a loop. -/
theorem tracks_done (holds : LoopHolds world.store scope op collection function index result)
    (atEnd : collection.element? index = none) :
    Tracks machine (machine.inState world.store
        (loopFrame kind origin op scope 1 kept.reverse :: rest) taken) world
      (pure (if op == .fold then result else collectLike collection kept))
      fun value store last => ∃ taken' values, last = (machine.inState store
        (loopFrame kind origin op scope 4 (value :: values) :: rest) taken').completeFrames := by
  have goesOn : (loopFrame kind origin op scope 2 kept.reverse).advance.Ahead [.loop op .done] := rfl
  have exhausted : (loopFrame kind origin op scope 1 kept.reverse).current? = some (.loop op .next) := rfl
  have current : (loopFrame kind origin op scope 3 kept.reverse).current? = some (.loop op .done) := rfl
  refine tracks_after (course_of_change unobserved (loopFrame kind origin op scope 2 kept.reverse) exhausted
    (silent_of_node (by simp)) (execute_exhausted holds atEnd) goesOn (by simp)) ?_
  refine tracks_after (course_of_push unobserved current (silent_of_node (by simp)) (execute_done holds)) ?_
  exact tracks_pure ⟨_, _, rfl⟩

omit unobserved in
/-- The call for an element. -/
theorem tracks_element (follows : Follows machine calls call) {element : Element}
    (depth : machine.limits.maxDepth - (rest.length + 1) = calls)
    (holds : LoopHolds world.store scope op collection function index result)
    (there : collection.element? index = some element) :
    Tracks machine (machine.inState world.store
        (loopFrame kind origin op scope 1 kept.reverse :: rest) taken) world
      (call function ((if op == .fold then [result] else []) ++ elementArguments element) origin)
      fun produced store last => ∃ taken', last = machine.inState store
        (loopFrame kind origin op scope 2 ([produced] ++ kept.reverse) :: rest) taken' := by
  have current : (loopFrame kind origin op scope 1 kept.reverse).current? =
      some (.loop op .next) := rfl
  exact follows function _ origin _ (loopFrame kind origin op scope 1 kept.reverse) rest _ world
    taken current (silent_of_node (by simp)) rfl (execute_next holds there) depth

/-- From one element on, a loop comes to the value of the rest of it. -/
theorem tracks_each (follows : Follows machine calls call)
    (keeps : ∀ arguments, Along Store.KeepsInner (call function arguments origin))
    (depth : machine.limits.maxDepth - (rest.length + 1) = calls) {elements : List Element}
    (left : collection.elements.drop index = elements)
    (holds : LoopHolds world.store scope op collection function index result) :
    Tracks machine (machine.inState world.store
        (loopFrame kind origin op scope 1 kept.reverse :: rest) taken) world
      (eachWith (fun arguments => call function arguments origin) op collection scope origin index
        result kept elements)
      fun value store last => ∃ taken' values, last = (machine.inState store
        (loopFrame kind origin op scope 4 (value :: values) :: rest) taken').completeFrames := by
  induction elements generalizing index result kept world taken with
  | nil =>
    exact tracks_done unobserved holds (element?_of_drop_nil left)
  | cons element elements hypothesis =>
    obtain ⟨there, others⟩ := element?_of_drop left
    refine tracks_bind (tracks_element follows depth holds there) ?_
    rintro produced world' second computed ⟨taken', rfl⟩
    have holds' := holds.keeps ((keeps _ _ _ _ computed).getElem? holds.inner)
    cases retains : retained op element produced with
    | error other => exact tracks_stop holds' there retains
    | ok more =>
      refine tracks_after (course_of_collect unobserved holds' there retains) ?_
      let store := if op == .fold then world'.store.rebind scope Natives.resultName produced
        else world'.store
      refine tracks_of_eq ⟨store.rebind scope Natives.indexName (.number (.ofNat (index + 1))),
        world'.visits⟩ ?_ rfl (hypothesis others (holds'.next produced))
      by_cases fold : (op == .fold) = true
      · simp only [store, fold, if_true]
        rfl
      · simp only [store, fold]
        rfl

/-- The steps of a loop compute the value of the loop. -/
theorem tracks_loop (follows : Follows machine calls call)
    (keeps : ∀ function arguments, Along Store.KeepsInner (call function arguments origin))
    (depth : machine.limits.maxDepth - (rest.length + 1) = calls) {callee initial : Value}
    (inner : (world.store.parent? scope).isSome)
    (isCollection : (world.store.local? scope Natives.collectionName).getD .none = collection)
    (isCallee : (world.store.local? scope Natives.functionName).getD .none = callee)
    (isInitial : (world.store.local? scope Natives.initialName).getD .none = initial) :
    Tracks machine (machine.inState world.store (loopFrame kind origin op scope 0 [] :: rest) taken)
      world (loopWith call op collection callee initial scope origin)
      fun value store last => ∃ taken' values, last = (machine.inState store
        (loopFrame kind origin op scope 4 (value :: values) :: rest) taken').completeFrames := by
  have current : (loopFrame kind origin op scope 0 []).current? = some (.loop op .init) := rfl
  have reads (name : String) : (machine.inState world.store
        (loopFrame kind origin op scope 0 [] :: rest) (taken + 1)).loopLocal
      (loopFrame kind origin op scope 0 []) name = (world.store.local? scope name).getD .none := rfl
  unfold loopWith
  by_cases collects : collection.isCollection = true
  · simp only [collects, Bool.not_true, Bool.false_eq_true, if_false]
    cases callee with
    | function function =>
      let store := world.store.rebind scope Natives.indexName (.number (.ofNat 0))
      let started := if op == .fold then store.rebind scope Natives.resultName initial else store
      have holds : LoopHolds started scope op collection function 0 initial :=
        loopHolds_start inner isCollection isCallee
      have executed := @execute_init machine world.store kind origin op scope collection function (taken + 1) rest
        initial (Store.lt_size_of_inner inner) collects isCollection isCallee isInitial
      have goesOn : (loopFrame kind origin op scope 0 []).advance.Ahead
          [.loop op .next, .loop op .collect, .loop op .done] := rfl
      refine tracks_after (course_of_change unobserved _ current (silent_of_node (by simp)) executed
        goesOn (by simp)) ?_
      have each := @tracks_each machine calls call kind origin op scope collection function 0 initial
        rest (taken + 1) ⟨started, world.visits⟩ [] unobserved follows (keeps function) depth
        collection.elements rfl holds
      refine tracks_of_eq ⟨started, world.visits⟩ ?_ rfl each
      by_cases fold : (op == .fold) = true
      · simp only [started, fold, if_true]
        rfl
      · simp only [started, fold]
        rfl
    | _ =>
      refine tracks_of_throw rfl rfl current (silent_of_node (by simp)) ?_
      simp only [execute, loopStep, loopInit, reads, isCollection, collects, isCallee]
      rfl
  · simp only [collects]
    refine tracks_of_throw rfl rfl current (silent_of_node (by simp)) ?_
    simp only [execute, loopStep, loopInit, reads, isCollection, collects]
    rfl

end

end Machine

end Rivulet
