import Rivulet.Analysis.Rules

/-!
Everything known about a tree without evaluating it: its conflicts, the types of its nodes, what
its names refer to, who calls whom, and which nodes a change of a stream can affect.
-/

namespace Rivulet

/-- What is known about one tree. -/
structure Analysis where
  /-- The conflicts in the order in which they were found. -/
  conflicts : List Conflict
  references : References
  /-- Which visited nodes read which others. -/
  edges : Edges
  /-- The references to streams with the names of the streams, in walking order. -/
  streamReferences : List (String × NodeId)
  /-- The questions about changes, in walking order. -/
  changed : List NodeId
  /-- The types of the nodes by position. -/
  types : Array Ty

namespace Analysis

/-- An analysis that knows nothing, for a tree that is still being analysed. -/
def empty : Analysis :=
  ⟨[], ⟨#[], []⟩, .empty, [], [], #[]⟩

/-! ### Analysing a tree -/

/-- The references to streams among some nodes. -/
def streamReferencesOf (context : Context) (references : References) (reachable : List NodeId) :
    List (String × NodeId) :=
  reachable.filterMap fun id =>
    match references.resolution? id with
    | some (.stream index) => context.streams[index]?.map fun stream => (stream.name, id)
    | _ => none

/-- The questions about changes among some nodes. -/
def changedOf (tree : Tree) (reachable : List NodeId) : List NodeId :=
  reachable.filter fun id =>
    match tree.form? id with
    | some (.changed _) => true
    | _ => false

/-- The types of some nodes in a table of all nodes; the others count as unknown. -/
def typesOf {σ : Type} (checking : Checking σ) (reachable : List NodeId) :
    TypeM σ (Array Ty) :=
  reachable.foldlM
    (fun types id => do
      match id with
      | .missing => pure types
      | .node index => pure (types.setIfInBounds index (← checking.typeOf id)))
    (Array.replicate checking.context.tree.size .any)

/-- Analyses a tree: checks every reachable node in walking order, then asks for its type. -/
def analyze {σ : Type} (tree : Tree) (natives : Natives) (streams : List StreamSignature)
    (lookup : SourceLookup σ) : StateM σ Analysis :=
  fun host =>
    let context := Context.ofTree tree natives streams
    let reachable := tree.descendants tree.root
    let references := context.referencesOf reachable
    let checking : Checking σ := ⟨context, references, lookup⟩
    let (conflicts, state) := (reachable.mapM checking.check).run (Typing.initial tree host)
    let (types, state) := (typesOf checking reachable).run state
    ({ conflicts := conflicts.flatten
       references
       edges := context.edgesOf references reachable
       streamReferences := streamReferencesOf context references reachable
       changed := changedOf tree reachable
       types },
      state.host)

/-! ### Questions -/

/-- Whether some conflict should keep a host from evaluating. -/
def isBlocked (analysis : Analysis) : Bool :=
  analysis.conflicts.any Conflict.isBlocking

/-- The type of a node, unknown unless the node was reached. -/
def typeOf (analysis : Analysis) : NodeId → Ty
  | .missing => .any
  | .node index => analysis.types[index]?.getD .any

/-- What a reference refers to. -/
def resolution? (analysis : Analysis) (reference : NodeId) : Option Definition :=
  analysis.references.resolution? reference

/-- Where a target is called. -/
def callSites (analysis : Analysis) (target : CallTarget) : List CallSite :=
  analysis.references.sites target

/-- The nodes that a node reads. -/
def dependencies (analysis : Analysis) (id : NodeId) : List NodeId :=
  (analysis.edges.reads.lookup id).getD []

/-- The nodes that read a node, in walking order. -/
def dependents (analysis : Analysis) (id : NodeId) : List NodeId :=
  (analysis.edges.readers.lookup id).getD []

/-- The references to a stream. -/
def referencesTo (analysis : Analysis) (stream : String) : List NodeId :=
  analysis.streamReferences.filterMap fun reference =>
    if reference.1 = stream then some reference.2 else none

/-- The positions of the conflicts at a node. -/
def primaryAt (analysis : Analysis) (id : NodeId) : List Nat :=
  analysis.conflicts.zipIdx.filterMap fun (conflict, index) =>
    if conflict.primary = id then some index else none

/-- The positions of the conflicts that a node is related to. -/
def secondaryAt (analysis : Analysis) (id : NodeId) : List Nat :=
  analysis.conflicts.zipIdx.filterMap fun (conflict, index) =>
    if conflict.secondary = some id then some index else none

/-- Follows the edges backwards from the nodes that wait, at most as many steps as given. -/
def spread (analysis : Analysis) : Nat → List NodeId → List NodeId → List NodeId
  | 0, _, found => found
  | _ + 1, [], found => found
  | steps + 1, id :: waiting, found =>
    if found.contains id then analysis.spread steps waiting found
    else analysis.spread steps (waiting ++ analysis.dependents id) (found ++ [id])

/-- The nodes whose value a change of a stream may change: the references to it, every question
about changes, and all that read one of those, directly or through others. -/
def affectedByStream (analysis : Analysis) (stream : String) : List NodeId :=
  let start := analysis.referencesTo stream ++ analysis.changed
  let edges := (analysis.edges.reads.flatMap Prod.snd).length
  analysis.spread (start.length + edges + 1) start []

end Analysis

end Rivulet
