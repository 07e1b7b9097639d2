import Rivulet.Analysis.Resolution

/-!
Which nodes call which definitions, and which nodes read the values of which others. Both follow
from what names refer to; nothing is evaluated. A function depends on its body, so a closure
carries what its body reads wherever the closure goes.

The edges from a node to those that it reads are kept in two tables, one for each end
(`Rivulet.Edges`), which always hold the same edges.
-/

namespace Rivulet

/-- What a call runs. -/
inductive CallTarget where
  | definition (node : NodeId)
  | native (index : Nat)
deriving DecidableEq, Repr

/-- A target in words. -/
def CallTarget.toText : CallTarget → String
  | definition node => s!"definition {node.number}"
  | native index => s!"native {index}"

/-- A node that calls a target. An indirect call is made by a higher-order native to which the
target was passed. -/
structure CallSite where
  node : NodeId
  indirect : Bool
deriving DecidableEq, Repr

/-- What the reachable references of a tree refer to, by position, and where its definitions and
natives are called. -/
structure References where
  resolutions : Array (Option Definition)
  calls : List (CallTarget × CallSite)

namespace References

/-- What a reference refers to. -/
def resolution? (references : References) : NodeId → Option Definition
  | .missing => none
  | .node index => (references.resolutions[index]?).join

/-- Where a target is called, in order. -/
def sites (references : References) (target : CallTarget) : List CallSite :=
  references.calls.filterMap fun call => if call.1 = target then some call.2 else none

/-- Whether some reference refers to a bind. -/
def uses (references : References) (bind : NodeId) : Bool :=
  references.resolutions.contains (some (.bind bind))

end References

namespace Context

/-- What the references among some nodes refer to. -/
def resolutionsOf (context : Context) (reachable : List NodeId) : Array (Option Definition) :=
  reachable.foldl
    (fun resolutions id =>
      match id, context.tree.form? id with
      | .node index, some (.reference name) =>
        resolutions.setIfInBounds index (context.resolve? id name)
      | _, _ => resolutions)
    (Array.replicate context.tree.size none)

/-- The target that calling a node runs, as far as that is known. -/
def target? (context : Context) (references : References) (callee : NodeId) : Option CallTarget :=
  match context.tree.form? callee with
  | some (.function ..) | some (.record ..) => some (.definition callee)
  | some (.reference _) =>
    match references.resolution? callee with
    | some (.native index) => some (.native index)
    | some definition => (context.callable? definition).map .definition
    | none => none
  | _ => none

/-- The targets that a node calls: its callee, and if that is a higher-order native every
definition among its arguments. -/
def callsAt (context : Context) (references : References) (id : NodeId) :
    List (CallTarget × CallSite) :=
  match context.tree.form? id with
  | some (.call callee arguments) =>
    match context.target? references callee with
    | none => []
    | some target =>
      let indirect :=
        match target with
        | .native index =>
          if context.natives.isHigherOrder index then
            (context.tree.list arguments).filterMap fun argument =>
              match context.target? references argument with
              | some (.definition definition) => some (.definition definition, ⟨id, true⟩)
              | _ => none
          else []
        | .definition _ => []
      (target, ⟨id, false⟩) :: indirect
  | _ => []

/-- What some nodes refer to and what they call. -/
def referencesOf (context : Context) (reachable : List NodeId) : References :=
  let references : References := ⟨context.resolutionsOf reachable, []⟩
  { references with calls := reachable.flatMap (context.callsAt references) }

/-- What a call of a target yields besides its arguments: the body of a function, or the definition
of a record with the defaults of its inputs. -/
def bodyOf? (context : Context) : CallTarget → Option NodeId
  | .native _ => none
  | .definition definition =>
    match context.tree.form? definition with
    | some (.function _ _ body _) => if body.isMissing then none else some body
    | some (.record ..) => some definition
    | _ => none

/-- The nodes that an input of a definition may get its value from: its default, and whatever the
calls of the definition pass in its place. What a higher-order native passes on is unknown, so all
its arguments count. -/
def inputDependencies (context : Context) (references : References) (input definition : NodeId) :
    List NodeId :=
  let tree := context.tree
  match tree.form? definition with
  | some (.function _ inputs _ _) | some (.record _ inputs) =>
    match (tree.list inputs).idxOf? input, tree.form? input with
    | some position, some (.bind _ value _ variadic) =>
      value :: (references.sites (.definition definition)).flatMap fun site =>
        match tree.form? site.node with
        | some (.call _ arguments) =>
          let arguments := tree.list arguments
          if site.indirect then arguments
          else if variadic then arguments.drop position
          else arguments[position]?.toList
        | _ => []
    | _, _ => []
  | _ => []

/-- The bodies that a call may run. -/
def callDependencies (context : Context) (references : References) (callee : NodeId)
    (arguments : List NodeId) : List NodeId :=
  match context.target? references callee with
  | none => []
  | some target =>
    let passed :=
      match target with
      | .native index =>
        if context.natives.isHigherOrder index then
          arguments.filterMap fun argument =>
            (context.target? references argument).bind context.bodyOf?
        else []
      | .definition _ => []
    (context.bodyOf? target).toList ++ passed

/-- The nodes that a node reads, missing ones and repetitions included. -/
def readsOf (context : Context) (references : References) (id : NodeId) : List NodeId :=
  let tree := context.tree
  match tree.form? id with
  | none => []
  | some form =>
    match form with
    | .program body => [body]
    | .block statements => (tree.list statements).getLast?.toList
    | .bind _ value _ _ => [value]
    | .sequence _ | .set _ | .mapping _ | .pair .. | .property .. | .binary .. | .unary ..
    | .conditional .. | .changed _ => tree.children id
    | .reference _ =>
      match references.resolution? id with
      | some (.input input definition) => context.inputDependencies references input definition
      | some definition => definition.node?.toList
      | none => []
    | .call callee arguments =>
      tree.children id ++ context.callDependencies references callee (tree.list arguments)
    | .function _ _ body _ => [body]
    | .record _ inputs => (tree.list inputs).filterMap fun input =>
      match tree.form? input with
      | some (.bind _ value _ _) => some value
      | _ => none
    | .number .. | .boolean _ | .text _ | .none | .borrow _ | .placeholder | .unparsable _ => []

/-- The nodes that a node reads, each once and in order. -/
def dependenciesOf (context : Context) (references : References) (id : NodeId) : List NodeId :=
  ((context.readsOf references id).filter NodeId.isPresent).mergeSort
    (fun first second => first.number ≤ second.number) |>.eraseReps

end Context

/-! ### Tables of edges -/

/-- Enters a reader behind the other readers of a node. -/
def enterReader (reader : NodeId) :
    List (NodeId × List NodeId) → NodeId → List (NodeId × List NodeId)
  | [], read => [(read, [reader])]
  | (other, readers) :: rest, read =>
    if read = other then (other, readers ++ [reader]) :: rest
    else (other, readers) :: enterReader reader rest read

theorem getD_lookup_enterReader (reader read id : NodeId) (table : List (NodeId × List NodeId)) :
    ((enterReader reader table read).lookup id).getD [] =
      (table.lookup id).getD [] ++ if read = id then [reader] else [] := by
  induction table with
  | nil =>
    by_cases same : read = id
    · simp [enterReader, same]
    · have apart : (id == read) = false := beq_eq_false_iff_ne.mpr (Ne.symm same)
      simp [enterReader, List.lookup_cons, apart, same]
  | cons entry rest hypothesis =>
    obtain ⟨other, readers⟩ := entry
    rw [enterReader]
    by_cases found : id = other
    · subst found
      by_cases same : read = id <;> simp [same]
    · have apart : (id == other) = false := beq_eq_false_iff_ne.mpr found
      split
      · rename_i same
        have absent : ¬ read = id := fun is => found (is.symm.trans same)
        simp [List.lookup_cons, apart, absent]
      · simp [List.lookup_cons, apart, hypothesis]

theorem getD_lookup_foldl_enterReader (reader id : NodeId) (reads : List NodeId)
    (table : List (NodeId × List NodeId)) :
    ((reads.foldl (enterReader reader) table).lookup id).getD [] =
      (table.lookup id).getD [] ++ List.replicate (reads.count id) reader := by
  induction reads generalizing table with
  | nil => simp
  | cons first rest hypothesis =>
    rw [List.foldl_cons, hypothesis, getD_lookup_enterReader, List.append_assoc]
    by_cases same : first = id
    · simp [same, List.replicate_succ]
    · simp [same]

/-- For each node the nodes that it reads, and for each node the nodes that read it, both in the
order in which the nodes were visited. -/
structure Edges where
  reads : List (NodeId × List NodeId)
  readers : List (NodeId × List NodeId)
  paired : ∀ id, (readers.lookup id).getD [] =
    reads.flatMap fun edge => List.replicate (edge.2.count id) edge.1

namespace Edges

/-- No edges at all. -/
def empty : Edges where
  reads := []
  readers := []
  paired _ := rfl

/-- Enters the edges from one node. -/
def enter (edges : Edges) (node : NodeId) (reads : List NodeId) : Edges where
  reads := edges.reads ++ [(node, reads)]
  readers := reads.foldl (enterReader node) edges.readers
  paired id := by
    rw [getD_lookup_foldl_enterReader, edges.paired, List.flatMap_append]
    simp

end Edges

/-- The edges from some nodes, which are visited in order. -/
def Context.edgesOf (context : Context) (references : References) (reachable : List NodeId) :
    Edges :=
  reachable.foldl (fun edges id => edges.enter id (context.dependenciesOf references id)) .empty

end Rivulet
