import Mathlib.Data.List.Find
import Rivulet.Analysis.Rules
import Rivulet.Proofs.Analysis.Exploration
import Rivulet.Proofs.Tree.Shape

/-!
Two contexts side by side. The type of a node and the rules for it are made of questions about the types of other
nodes. Where two trees have the same nodes, and names refer to the same in both (`Context.Concurs`), whatever compares
the questions of two computations also compares the types and the complaints that they come to, as long as it can be
carried from the parts of a computation to the whole (`Comparison`).

Main statements: `Comparison.compute` and `Comparison.check`.
-/

namespace Rivulet

open Checking Typing

/-- The inputs of a record. -/
def Tree.recordInputs? (tree : Tree) (id : NodeId) : Option (List NodeId) :=
  match tree.form? id with
  | some (.record _ inputs) => some (tree.list inputs)
  | _ => none

theorem Tree.form?_of_recordInputs? {tree : Tree} {id : NodeId} {inputs : List NodeId}
    (found : tree.recordInputs? id = some inputs) :
    ∃ name list, tree.form? id = some (.record name list) ∧ tree.list list = inputs := by
  unfold recordInputs? at found
  split at found
  · rename_i name list is
    exact ⟨name, list, is, Option.some.inj found⟩
  · cases found

/-- The inputs of a definition. -/
def Tree.definitionInputs? (tree : Tree) (id : NodeId) : Option (List NodeId) :=
  match tree.form? id with
  | some (.function _ inputs _ _) | some (.record _ inputs) => some (tree.list inputs)
  | _ => none

/-- The definition that a callee is known to call. -/
def Checking.called? (context : Context) (callee : NodeId) : Option NodeId :=
  match context.tree.form? callee with
  | some (.function ..) | some (.record ..) => some callee
  | some (.reference name) => (context.resolve? callee name).bind context.callable?
  | _ => none

/-- The native that a callee refers to. -/
def Checking.calledNative? (context : Context) (callee : NodeId) : Option Native :=
  match context.tree.form? callee with
  | some (.reference name) =>
    match context.resolve? callee name with
    | some (.native index) => context.natives.get? index
    | _ => none
  | _ => none

/-- The inputs that a call is checked against are those of the native or of the definition that it calls. -/
theorem Checking.signature?_of_called? (context : Context) (callee : NodeId) :
    signature? context callee = ((calledNative? context callee).map fun native => .native native.inputs).or
      (((called? context callee).bind context.tree.definitionInputs?).map .inputs) := by
  unfold signature? calledNative? called?
  cases is : context.tree.form? callee with
  | none => rfl
  | some form =>
    cases form with
    | function | record => simp [Tree.definitionInputs?, is]
    | reference name =>
      cases found : context.resolve? callee name with
      | none => simp [found]
      | some definition =>
        cases definition with
        | native index => cases context.natives.get? index <;> simp [found, Context.callable?]
        | _ =>
          simp only [found, Option.bind_eq_bind, Option.bind_some, Option.map_none, Option.none_or]
          cases called : context.callable? _ with
          | none => rfl
          | some node =>
            simp only [Option.bind_some, Tree.definitionInputs?]
            cases context.tree.form? node with
            | none => rfl
            | some form => cases form <;> rfl
    | _ => rfl

/-- The complaint about a property of an instance of a record that does not have it. -/
def Checking.unknownProperty (tree : Tree) (node : NodeId) (name : String) : Ty → List Conflict
  | .record definition =>
    match tree.recordInputs? definition with
    | some inputs =>
      reportIf (!inputs.any fun input => declaredName? tree input == some name)
        (.between (.unknownProperty name) node definition)
    | none => []
  | _ => []

theorem Checking.checkProperty_eq {σ : Type} (checking : Checking σ) (node owner : NodeId) (name : String) :
    checking.checkProperty node owner name =
      checking.typeOf owner >>= fun type => pure (unknownProperty checking.context.tree node name type) := by
  unfold checkProperty
  congr 1
  funext type
  cases type with
  | record definition =>
    simp only [unknownProperty, Tree.recordInputs?]
    cases checking.context.tree.form? definition with
    | none => rfl
    | some form => cases form <;> rfl
  | _ => rfl

theorem findIdx?_congr {α : Type} {condition condition' : α → Bool} {list : List α}
    (same : ∀ element ∈ list, condition' element = condition element) :
    list.findIdx? condition' = list.findIdx? condition := by
  induction list with
  | nil => rfl
  | cons element list hypothesis =>
    obtain ⟨first, rest⟩ := List.forall_mem_cons.mp same
    rw [List.findIdx?_cons, List.findIdx?_cons, first, hypothesis rest]

/-- Two trees share some nodes: these are made of nodes among them, and are the same in both. -/
structure Tree.Shares (inside : NodeId → Prop) (tree tree' : Tree) : Prop where
  form?_eq : ∀ id, inside id → tree'.form? id = tree.form? id
  list_eq : ∀ {id form list}, inside id → tree.form? id = some form → list ∈ form.childLists →
    tree'.list list = tree.list list
  link : ∀ {id form child}, inside id → tree.form? id = some form → child ∈ form.links tree.list → inside child

/-- Two contexts concur about some nodes: their trees share them, and the same is said of them in both. -/
structure Context.Concurs (inside : NodeId → Prop) (context context' : Context) : Prop
    extends Tree.Shares inside context.tree context'.tree where
  resolve?_eq : ∀ {id name}, inside id → context.tree.form? id = some (.reference name) →
    context'.resolve? id name = context.resolve? id name
  definition : ∀ {id name definition node}, inside id → context.tree.form? id = some (.reference name) →
    context.resolve? id name = some definition → definition.node? = some node → inside node
  recordInputs?_eq : ∀ id, context'.tree.recordInputs? id = context.tree.recordInputs? id
  field : ∀ {id inputs input}, context.tree.recordInputs? id = some inputs → input ∈ inputs → inside input
  natives : context'.natives = context.natives
  streams : context'.streams = context.streams

/-- A context concurs with itself about all nodes. -/
theorem Context.concurs_self (context : Context) : context.Concurs (fun _ => True) context where
  form?_eq _ _ := rfl
  list_eq _ _ _ := rfl
  link _ _ _ := trivial
  resolve?_eq _ _ := rfl
  definition _ _ _ _ := trivial
  recordInputs?_eq _ := rfl
  field _ _ := trivial
  natives := rfl
  streams := rfl

/-! ### Names -/

namespace Tree.Shares

theorem children_eq {inside : NodeId → Prop} {tree tree' : Tree} (shares : tree.Shares inside tree') {id : NodeId}
    (here : inside id) : tree'.children id = tree.children id := by
  unfold Tree.children
  rw [shares.form?_eq id here]
  cases is : tree.form? id with
  | none => rfl
  | some form => exact congrArg (List.filter NodeId.isPresent) (Form.links_congr fun list => shares.list_eq here is)

variable {inside : NodeId → Prop} {context context' : Context}
  (shares : context.tree.Shares inside context'.tree) {id child : NodeId} {name : String}

include shares

theorem declares_eq (here : inside id) : context'.declares id name = context.declares id name := by
  unfold Context.declares
  rw [shares.form?_eq id here]

theorem mayRecurse_eq (here : inside id) : context'.mayRecurse id = context.mayRecurse id := by
  unfold Context.mayRecurse
  rw [shares.form?_eq id here]
  cases is : context.tree.form? id with
  | none => rfl
  | some form =>
    cases form with
    | bind name value declared variadic => simp only [shares.form?_eq value (shares.link here is (by simp [Form.links]))]
    | _ => rfl

theorem definitionOf_eq (here : inside id) : context'.definitionOf id = context.definitionOf id := by
  unfold Context.definitionOf
  rw [shares.form?_eq id here]

/-- What a name refers to among some statements, the last of them first. -/
theorem findDefinition_eq {statements : List NodeId} (within : ∀ statement ∈ statements, inside statement) :
    (statements.reverse.find? fun statement => context'.declares statement name).map context'.definitionOf =
      (statements.reverse.find? fun statement => context.declares statement name).map context.definitionOf := by
  have same : (statements.reverse.find? fun statement => context'.declares statement name) =
      statements.reverse.find? fun statement => context.declares statement name :=
    List.find?_congr fun statement among => shares.declares_eq (within statement (List.mem_reverse.mp among))
  rw [same]
  refine Option.map_congr fun statement found => shares.definitionOf_eq (within statement ?_)
  exact List.mem_reverse.mp (List.mem_of_find?_eq_some found)

theorem inDefinition?_eq (here : inside id) {inputs : List NodeId} (within : ∀ input ∈ inputs, inside input)
    (own : String) (child : NodeId) (name : String) :
    context'.inDefinition? id own inputs child name = context.inDefinition? id own inputs child name := by
  have same : (inputs.find? fun input => input != child && context'.declares input name) =
      inputs.find? fun input => input != child && context.declares input name :=
    List.find?_congr fun input among => by rw [shares.declares_eq (within input among)]
  unfold Context.inDefinition?
  rw [same, shares.definitionOf_eq here]

/-- A child looks names up in its parent alike. -/
theorem inParent?_eq (here : inside id) (below : inside child) (name : String) :
    context'.inParent? id child name = context.inParent? id child name := by
  unfold Context.inParent?
  rw [shares.form?_eq id here]
  cases is : context.tree.form? id with
  | none => rfl
  | some form =>
    have within (child : NodeId) (link : child ∈ form.links context.tree.list) : inside child := shares.link here is link
    have same (list : ChildList) (listed : list ∈ form.childLists) : context'.tree.list list = context.tree.list list :=
      shares.list_eq here is listed
    cases form with
    | block statements =>
      dsimp only
      rw [same statements (by simp [Form.childLists])]
      unfold Context.inBlock?
      cases (context.tree.list statements).idxOf? child with
      | none => rfl
      | some position =>
        have before (statement : NodeId) (among : statement ∈ (context.tree.list statements).take position) :
            inside statement :=
          within statement (List.mem_of_mem_take among)
        dsimp only
        rw [shares.declares_eq below, shares.mayRecurse_eq below, shares.definitionOf_eq below,
          shares.findDefinition_eq before]
    | function own inputs body output =>
      dsimp only
      rw [same inputs (by simp [Form.childLists])]
      exact shares.inDefinition?_eq here (fun input among => within input (List.mem_append_left _ among)) own child name
    | record own inputs =>
      dsimp only
      rw [same inputs (by simp [Form.childLists])]
      exact shares.inDefinition?_eq here within own child name
    | _ => rfl

end Tree.Shares

namespace Context.Concurs

variable {inside : NodeId → Prop} {context context' : Context} (concurs : context.Concurs inside context') {id : NodeId}

include concurs

/-- The keys and values of a mapping. -/
theorem pairsOf_eq {entries : ChildList} (here : inside id) (is : context.tree.form? id = some (.mapping entries)) :
    pairsOf context'.tree (context'.tree.list entries) = pairsOf context.tree (context.tree.list entries) := by
  rw [concurs.list_eq here is (by simp [Form.childLists])]
  refine List.filterMap_congr fun entry among => ?_
  rw [concurs.form?_eq entry (concurs.link here is among)]

theorem inside_of_pairsOf {entries : ChildList} (here : inside id)
    (is : context.tree.form? id = some (.mapping entries)) {pair : NodeId × NodeId}
    (among : pair ∈ pairsOf context.tree (context.tree.list entries)) : inside pair.1 ∧ inside pair.2 := by
  obtain ⟨entry, there, found⟩ := exists_entry_of_pairsOf among
  have above : inside entry := concurs.link here is there
  exact ⟨concurs.link above found (by simp [Form.links]), concurs.link above found (by simp [Form.links])⟩

theorem declaredName?_eq (here : inside id) : declaredName? context'.tree id = declaredName? context.tree id := by
  unfold declaredName?
  rw [concurs.form?_eq id here]

/-- The inputs of a record that declare a name. -/
theorem fieldInput?_eq (definition : NodeId) (name : String) :
    fieldInput? context'.tree definition name = fieldInput? context.tree definition name := by
  have found (tree : Tree) : fieldInput? tree definition name =
      (tree.recordInputs? definition).bind fun inputs => inputs.find? fun input => declaredName? tree input == some name := by
    unfold fieldInput? Tree.recordInputs?
    cases tree.form? definition with
    | none => rfl
    | some form => cases form <;> rfl
  rw [found, found, concurs.recordInputs?_eq]
  cases is : context.tree.recordInputs? definition with
  | none => rfl
  | some inputs =>
    have same (input : NodeId) (among : input ∈ inputs) := concurs.declaredName?_eq (concurs.field is among)
    simp only [Option.bind_some]
    exact List.find?_congr fun input among => by rw [same input among]

theorem inside_of_fieldInput? {definition : NodeId} {name : String}
    (found : fieldInput? context.tree definition name = some id) : inside id := by
  unfold fieldInput? at found
  split at found
  · rename_i name inputs is
    have own : context.tree.recordInputs? definition = some (context.tree.list inputs) := by simp [Tree.recordInputs?, is]
    exact concurs.field own (List.mem_of_find?_eq_some found)
  · cases found

/-- The inputs of a definition that a call runs. -/
theorem callable?_eq {definition : Definition} (within : ∀ node, definition.node? = some node → inside node) :
    context'.callable? definition = context.callable? definition := by
  cases definition with
  | bind node =>
    have here := within node rfl
    unfold Context.callable?
    simp only [concurs.form?_eq node here]
    cases is : context.tree.form? node with
    | none => rfl
    | some form =>
      cases form with
      | bind name value declared variadic =>
        simp only [concurs.form?_eq value (concurs.link here is (by simp [Form.links]))]
      | _ => rfl
  | _ => rfl

theorem inside_of_callable? {definition : Definition} {node : NodeId}
    (within : ∀ node, definition.node? = some node → inside node) (found : context.callable? definition = some node) :
    inside node := by
  cases definition with
  | function | record =>
    cases found
    exact within _ rfl
  | bind own =>
    simp only [Context.callable?] at found
    split at found
    · rename_i name value declared variadic is
      have below : inside value := concurs.link (within own rfl) is (by simp [Form.links])
      split at found <;> cases found <;> exact below
    · cases found
  | input | borrow | stream | native => cases found

theorem definitionInputs?_eq (here : inside id) :
    context'.tree.definitionInputs? id = context.tree.definitionInputs? id := by
  unfold Tree.definitionInputs?
  rw [concurs.form?_eq id here]
  cases is : context.tree.form? id with
  | none => rfl
  | some form =>
    cases form with
    | function name list | record name list => exact congrArg some (concurs.list_eq here is (by simp [Form.childLists]))
    | _ => rfl

theorem inside_of_definitionInputs? {inputs : List NodeId} (here : inside id)
    (found : context.tree.definitionInputs? id = some inputs) {input : NodeId} (among : input ∈ inputs) :
    inside input := by
  unfold Tree.definitionInputs? at found
  split at found
  · rename_i name list body output is
    cases found
    exact concurs.link here is (List.mem_append_left _ among)
  · rename_i name list is
    cases found
    exact concurs.link here is among
  · cases found

/-- The definition that a callee is known to call. -/
theorem called?_eq (here : inside id) : called? context' id = called? context id := by
  unfold called?
  rw [concurs.form?_eq id here]
  cases is : context.tree.form? id with
  | none => rfl
  | some form =>
    cases form with
    | reference name =>
      simp only [concurs.resolve?_eq here is]
      cases found : context.resolve? id name with
      | none => rfl
      | some definition =>
        exact concurs.callable?_eq fun node => concurs.definition here is found
    | _ => rfl

theorem inside_of_called? {definition : NodeId} (here : inside id) (found : called? context id = some definition) :
    inside definition := by
  unfold called? at found
  split at found
  · cases found; exact here
  · cases found; exact here
  · rename_i name is
    obtain ⟨seen, resolved, callable⟩ := Option.bind_eq_some_iff.mp found
    exact concurs.inside_of_callable? (fun node => concurs.definition here is resolved) callable
  · cases found

theorem signature?_eq (here : inside id) : signature? context' id = signature? context id := by
  have natives : calledNative? context' id = calledNative? context id := by
    unfold calledNative?
    rw [concurs.form?_eq id here, concurs.natives]
    cases is : context.tree.form? id with
    | none => rfl
    | some form =>
      cases form with
      | reference name => simp only [concurs.resolve?_eq here is]
      | _ => rfl
  have inputs : (called? context id).bind context'.tree.definitionInputs? =
      (called? context id).bind context.tree.definitionInputs? := by
    cases found : called? context id with
    | none => rfl
    | some definition => exact concurs.definitionInputs?_eq (concurs.inside_of_called? here found)
  rw [signature?_of_called?, signature?_of_called?, concurs.called?_eq here, natives, inputs]

theorem inside_of_signature? {inputs : List NodeId} (here : inside id)
    (found : signature? context id = some (.inputs inputs)) {input : NodeId} (among : input ∈ inputs) :
    inside input := by
  rw [signature?_of_called?] at found
  rcases Option.or_eq_some_iff.mp found with native | ⟨-, definition⟩
  · obtain ⟨_, -, is⟩ := Option.map_eq_some_iff.mp native
    cases is
  · obtain ⟨_, called, is⟩ := Option.map_eq_some_iff.mp definition
    cases is
    obtain ⟨node, callee, own⟩ := Option.bind_eq_some_iff.mp called
    exact concurs.inside_of_definitionInputs? (concurs.inside_of_called? here callee) own among

theorem checkArity_eq {inputs : List NodeId} (within : ∀ input ∈ inputs, inside input) (node : NodeId)
    (arguments : List NodeId) :
    checkArity context'.tree node inputs arguments = checkArity context.tree node inputs arguments := by
  have variadic (input : NodeId) (among : input ∈ inputs) :
      isVariadic context'.tree input = isVariadic context.tree input := by
    unfold isVariadic
    rw [concurs.form?_eq input (within input among)]
  have required (input : NodeId) (among : input ∈ inputs) :
      isRequired context'.tree input = isRequired context.tree input := by
    unfold isRequired
    rw [concurs.form?_eq input (within input among)]
  have part (input : NodeId) (fixed : Nat) (among : input ∈ (inputs.take fixed).drop arguments.length) : input ∈ inputs :=
    List.mem_of_mem_take (List.mem_of_mem_drop among)
  have missing (fixed : Nat) : ((inputs.take fixed).drop arguments.length).find? (isRequired context'.tree) =
      ((inputs.take fixed).drop arguments.length).find? (isRequired context.tree) :=
    List.find?_congr fun input among => required input (part input fixed among)
  unfold checkArity
  simp only [findIdx?_congr variadic, missing]
  cases found : List.find? _ _ with
  | none => rfl
  | some input =>
    simp only [concurs.declaredName?_eq (within input (part input _ (List.mem_of_find?_eq_some found)))]

theorem checkInputs_eq {inputs : List NodeId} (within : ∀ input ∈ inputs, inside input) (seen : List (String × NodeId))
    (optional : Option NodeId) :
    checkInputs context'.tree seen optional inputs = checkInputs context.tree seen optional inputs := by
  induction inputs generalizing seen optional with
  | nil => rfl
  | cons input inputs hypothesis =>
    obtain ⟨first, rest⟩ := List.forall_mem_cons.mp within
    unfold checkInputs
    rw [concurs.form?_eq input first]
    simp only [hypothesis rest]

theorem unknownProperty_eq (node : NodeId) (name : String) (type : Ty) :
    unknownProperty context'.tree node name type = unknownProperty context.tree node name type := by
  cases type with
  | record definition =>
    simp only [unknownProperty, concurs.recordInputs?_eq]
    cases found : context.tree.recordInputs? definition with
    | none => rfl
    | some inputs =>
      have same (input : NodeId) (among : input ∈ inputs) := concurs.declaredName?_eq (concurs.field found among)
      have any : (inputs.any fun input => declaredName? context'.tree input == some name) =
          inputs.any fun input => declaredName? context.tree input == some name := by
        rw [Bool.eq_iff_iff, List.any_eq_true, List.any_eq_true]
        exact exists_congr fun input => and_congr_right fun among => by rw [same input among]
      simp only [any]
  | _ => rfl

theorem isStream_eq (here : inside id) : isStream context' id = isStream context id := by
  unfold isStream
  rw [concurs.form?_eq id here]
  cases is : context.tree.form? id with
  | none => rfl
  | some form =>
    cases form with
    | reference name => simp only [concurs.resolve?_eq here is]
    | _ => rfl

end Context.Concurs

/-! ### Comparisons -/

/-- A way to compare computations that is carried from their parts to the whole. -/
structure Comparison (σ σ' : Type) where
  Holds : {α : Type} → TypeM σ α → TypeM σ' α → Prop
  pure : ∀ {α : Type} (value : α), Holds (pure value) (pure value)
  bind : ∀ {α β : Type} {computation : TypeM σ α} {computation' : TypeM σ' α} {next : α → TypeM σ β}
    {next' : α → TypeM σ' β}, Holds computation computation' → (∀ value, Holds (next value) (next' value)) →
    Holds (computation >>= next) (computation' >>= next')

namespace Comparison

variable {σ σ' α β : Type} (comparison : Comparison σ σ')

theorem map {computation : TypeM σ α} {computation' : TypeM σ' α} {answer : α → β}
    (alike : comparison.Holds computation computation') :
    comparison.Holds (computation >>= fun value => Pure.pure (answer value))
      (computation' >>= fun value => Pure.pure (answer value)) :=
  comparison.bind alike fun _ => comparison.pure _

theorem ite {condition : Prop} [Decidable condition] {yes no : TypeM σ α} {yes' no' : TypeM σ' α}
    (first : comparison.Holds yes yes') (second : comparison.Holds no no') :
    comparison.Holds (if condition then yes else no) (if condition then yes' else no') := by
  split
  · exact first
  · exact second

theorem mapM {each : α → TypeM σ β} {each' : α → TypeM σ' β} {elements : List α}
    (alike : ∀ element ∈ elements, comparison.Holds (each element) (each' element)) :
    comparison.Holds (elements.mapM each) (elements.mapM each') := by
  induction elements with
  | nil => exact comparison.pure []
  | cons element elements hypothesis =>
    obtain ⟨first, rest⟩ := List.forall_mem_cons.mp alike
    rw [List.mapM_cons, List.mapM_cons]
    exact comparison.bind first fun _ => comparison.map (hypothesis rest)

/-! ### Types -/

section

variable {inside : NodeId → Prop} {context context' : Context} (concurs : context.Concurs inside context')
  {lookup : SourceLookup σ} {lookup' : SourceLookup σ'} {typeOf : NodeId → TypeM σ Ty} {typeOf' : NodeId → TypeM σ' Ty}
  (asks : ∀ id, inside id → comparison.Holds (typeOf id) (typeOf' id)) {id : NodeId}

include asks

theorem commonOf {nodes : List NodeId} (within : ∀ id ∈ nodes, inside id) :
    comparison.Holds (Typing.commonOf typeOf nodes) (Typing.commonOf typeOf' nodes) :=
  comparison.map (comparison.mapM fun id among => asks id (within id among))

include concurs

theorem inputTypeWith (here : inside id) :
    comparison.Holds (Typing.inputTypeWith context typeOf id) (Typing.inputTypeWith context' typeOf' id) := by
  unfold Typing.inputTypeWith
  rw [concurs.form?_eq id here]
  cases is : context.tree.form? id with
  | none => exact comparison.pure _
  | some form =>
    cases form with
    | bind name value declared variadic =>
      cases declared with
      | some type => exact comparison.map (comparison.pure type)
      | none =>
        have below : inside value := concurs.link here is (by simp [Form.links])
        exact comparison.ite (comparison.map (comparison.pure _)) (comparison.map (asks value below))
    | _ => exact comparison.pure _

theorem definitionTypeWith {definition : Definition}
    (within : ∀ node, definition.node? = some node → inside node) :
    comparison.Holds (Typing.definitionTypeWith context typeOf definition)
      (Typing.definitionTypeWith context' typeOf' definition) := by
  cases definition with
  | bind node | function node | record node | borrow node => exact asks node (within node rfl)
  | input input definition => exact comparison.inputTypeWith concurs asks (within input rfl)
  | stream index | native index =>
    simp only [Typing.definitionTypeWith, concurs.streams, concurs.natives]
    exact comparison.pure _

theorem compute (borrows : ∀ id source, inside id → context.tree.form? id = some (.borrow source) →
      comparison.Holds (askSource lookup source) (askSource lookup' source)) (here : inside id) :
    comparison.Holds (Typing.compute context lookup typeOf id) (Typing.compute context' lookup' typeOf' id) := by
  unfold Typing.compute
  dsimp only
  rw [concurs.form?_eq id here]
  cases is : context.tree.form? id with
  | none => exact comparison.pure _
  | some form =>
    have below {child : NodeId} (link : child ∈ form.links context.tree.list) : inside child := concurs.link here is link
    have asked {child : NodeId} (link : child ∈ form.links context.tree.list) :
        comparison.Holds (typeOf child) (typeOf' child) :=
      asks child (below link)
    have same (list : ChildList) (listed : list ∈ form.childLists) : context'.tree.list list = context.tree.list list :=
      concurs.list_eq here is listed
    cases form with
    | number | boolean | changed | text | none | placeholder | unparsable => exact comparison.pure _
    | program body => exact asked (by simp [Form.links])
    | pair key value => exact asked (by simp [Form.links])
    | sequence items | set items =>
      simp only [same items (by simp [Form.childLists])]
      exact comparison.map (comparison.commonOf asks fun _ => below)
    | mapping entries =>
      have within (pair : NodeId × NodeId) (among : pair ∈ pairsOf context.tree (context.tree.list entries)) :=
        concurs.inside_of_pairsOf here is among
      simp only [concurs.pairsOf_eq here is]
      refine comparison.bind (comparison.commonOf asks fun key among => ?_) fun _ =>
        comparison.map (comparison.commonOf asks fun value among => ?_)
      · obtain ⟨pair, there, rfl⟩ := List.mem_map.mp among
        exact (within pair there).1
      · obtain ⟨pair, there, rfl⟩ := List.mem_map.mp among
        exact (within pair there).2
    | binary op left right =>
      exact comparison.bind (asked (by simp [Form.links])) fun _ => comparison.map (asked (by simp [Form.links]))
    | unary op operand => exact comparison.map (asked (by simp [Form.links]))
    | conditional condition yes no =>
      refine comparison.commonOf asks fun id among => below ?_
      exact List.mem_cons_of_mem _ among
    | record name inputs =>
      simp only [same inputs (by simp [Form.childLists])]
      exact comparison.map (comparison.mapM fun input among => comparison.inputTypeWith concurs asks (below among))
    | block statements =>
      simp only [same statements (by simp [Form.childLists])]
      cases last : (context.tree.list statements).getLast? with
      | none => exact comparison.pure _
      | some statement => exact asked (List.mem_of_getLast? last)
    | bind name value declared variadic =>
      cases declared with
      | some type => exact comparison.pure type
      | none => exact asked (by simp [Form.links])
    | reference name =>
      simp only [concurs.resolve?_eq here is]
      cases found : context.resolve? id name with
      | none => exact comparison.pure _
      | some definition =>
        exact comparison.definitionTypeWith concurs asks fun node => concurs.definition here is found
    | property owner name =>
      refine comparison.bind (asked (by simp [Form.links])) fun type => ?_
      cases type with
      | record definition =>
        simp only [concurs.fieldInput?_eq]
        cases found : fieldInput? context.tree definition name with
        | none => exact comparison.pure _
        | some input => exact comparison.inputTypeWith concurs asks (concurs.inside_of_fieldInput? found)
      | _ => exact comparison.pure _
    | function name inputs body output =>
      simp only [same inputs (by simp [Form.childLists])]
      refine comparison.bind (comparison.mapM fun input among =>
        comparison.inputTypeWith concurs asks (below (by simp [Form.links, among]))) fun types => ?_
      cases output with
      | some type => exact comparison.map (comparison.pure type)
      | none =>
        exact comparison.ite (comparison.map (comparison.pure _)) (comparison.map (asked (by simp [Form.links])))
    | call callee arguments =>
      refine comparison.bind (asked (by simp [Form.links])) fun type => ?_
      cases type <;> exact comparison.pure _
    | borrow source =>
      refine comparison.bind (borrows id source here is) fun answer => ?_
      cases answer <;> exact comparison.pure _

end

/-! ### Rules -/

section

variable {inside : NodeId → Prop} {checking : Checking σ} {checking' : Checking σ'}
  (concurs : checking.context.Concurs inside checking'.context)
  (asks : ∀ id, inside id → comparison.Holds (checking.typeOf id) (checking'.typeOf id)) {id : NodeId}

include asks

theorem expectType (here : inside id) (expected : Ty) (related : NodeId) :
    comparison.Holds (checking.expectType expected id related) (checking'.expectType expected id related) :=
  comparison.map (asks id here)

theorem checkDeclared (here : inside id) (declared : Option Ty) (node : NodeId) :
    comparison.Holds (checking.checkDeclared declared id node) (checking'.checkDeclared declared id node) := by
  cases declared with
  | some type => exact comparison.ite (comparison.pure _) (comparison.expectType asks here type node)
  | none => exact comparison.pure _

theorem checkBinary (node : NodeId) (op : BinaryOp) {left right : NodeId} (leftHere : inside left)
    (rightHere : inside right) :
    comparison.Holds (checking.checkBinary node op left right) (checking'.checkBinary node op left right) := by
  refine comparison.bind (asks left leftHere) fun leftType => ?_
  refine comparison.bind (asks right rightHere) fun rightType => ?_
  refine comparison.ite ?_ (comparison.ite (comparison.pure _) (comparison.pure _))
  exact comparison.bind (comparison.expectType asks leftHere _ _) fun _ =>
    comparison.map (comparison.expectType asks rightHere _ _)

theorem checkUnary (node : NodeId) (op : UnaryOp) (here : inside id) :
    comparison.Holds (checking.checkUnary node op id) (checking'.checkUnary node op id) := by
  refine comparison.bind (asks id here) fun found => ?_
  split
  · exact comparison.pure _
  · exact comparison.expectType asks here _ _
  · exact comparison.expectType asks here _ _

theorem checkArguments (node : NodeId) {arguments : List NodeId} (within : ∀ argument ∈ arguments, inside argument)
    (types : List Ty) :
    comparison.Holds (checking.checkArguments node arguments types) (checking'.checkArguments node arguments types) := by
  induction arguments generalizing types with
  | nil => exact comparison.pure _
  | cons argument arguments hypothesis =>
    obtain ⟨first, rest⟩ := List.forall_mem_cons.mp within
    cases types with
    | nil => exact comparison.pure _
    | cons type types =>
      unfold Checking.checkArguments
      refine comparison.ite ?_ ?_
      · exact comparison.bind (comparison.pure _) fun _ => comparison.map (hypothesis rest types)
      · exact comparison.bind (comparison.expectType asks first _ _) fun _ => comparison.map (hypothesis rest types)

include concurs

theorem checkCall (node : NodeId) {callee : NodeId} {arguments : List NodeId} (here : inside callee)
    (within : ∀ argument ∈ arguments, inside argument) :
    comparison.Holds (checking.checkCall node callee arguments) (checking'.checkCall node callee arguments) := by
  refine comparison.bind (asks callee here) fun type => ?_
  cases type with
  | function types output =>
    have taken (count : Nat) (argument : NodeId) (among : argument ∈ arguments.take count) : inside argument :=
      within argument (List.mem_of_mem_take among)
    simp only [concurs.signature?_eq here]
    cases found : signature? checking.context callee with
    | none => exact comparison.map (comparison.checkArguments asks node (taken _) types)
    | some signature =>
      cases signature with
      | inputs inputs =>
        simp only [concurs.checkArity_eq fun _ => concurs.inside_of_signature? here found]
        exact comparison.map (comparison.checkArguments asks node (taken _) types)
      | native names => exact comparison.map (comparison.checkArguments asks node (taken _) types)
  | _ => exact comparison.pure _

theorem checkProperty (node : NodeId) {owner : NodeId} (here : inside owner) (name : String) :
    comparison.Holds (checking.checkProperty node owner name) (checking'.checkProperty node owner name) := by
  rw [checkProperty_eq, checkProperty_eq]
  simp only [concurs.unknownProperty_eq]
  exact comparison.map (asks owner here)

/-- The rules of a node come to comparable complaints if those of blocks are the same, and if the same binds are
statements. -/
theorem check (borrows : ∀ id source, inside id → checking.context.tree.form? id = some (.borrow source) →
      comparison.Holds (askSource checking.lookup source) (askSource checking'.lookup source))
    (statement : ∀ id, inside id → isStatement checking'.context id = isStatement checking.context id)
    (block : ∀ {id statements}, inside id → checking.context.tree.form? id = some (.block statements) →
      checking'.checkBlock id (checking'.context.tree.list statements) =
        checking.checkBlock id (checking.context.tree.list statements))
    (here : inside id) : comparison.Holds (checking.check id) (checking'.check id) := by
  unfold Checking.check
  dsimp only
  rw [concurs.form?_eq id here]
  cases is : checking.context.tree.form? id with
  | none => exact comparison.pure _
  | some form =>
    have below {child : NodeId} (link : child ∈ form.links checking.context.tree.list) : inside child :=
      concurs.link here is link
    have same (list : ChildList) (listed : list ∈ form.childLists) :
        checking'.context.tree.list list = checking.context.tree.list list :=
      concurs.list_eq here is listed
    cases form with
    | program | number | pair | placeholder | unparsable | mapping | boolean | text | none => exact comparison.pure _
    | block statements =>
      simp only [block here is]
      exact comparison.pure _
    | sequence items | set items =>
      simp only [same items (by simp [Form.childLists])]
      exact comparison.pure _
    | reference name =>
      simp only [concurs.resolve?_eq here is]
      exact comparison.pure _
    | changed stream =>
      have there : inside stream := below (by simp [Form.links])
      simp only [concurs.isStream_eq there]
      exact comparison.pure _
    | record name inputs =>
      have within (input : NodeId) (among : input ∈ checking.context.tree.list inputs) : inside input := below among
      simp only [same inputs (by simp [Form.childLists]), concurs.checkInputs_eq within]
      exact comparison.pure _
    | bind name value declared variadic =>
      simp only [statement id here]
      exact comparison.map (comparison.checkDeclared asks (below (by simp [Form.links])) _ _)
    | property owner name =>
      exact comparison.map (comparison.checkProperty concurs asks _ (below (by simp [Form.links])) _)
    | binary op left right =>
      refine comparison.ite (comparison.map (comparison.pure _)) (comparison.map ?_)
      exact comparison.checkBinary asks _ _ (below (by simp [Form.links])) (below (by simp [Form.links]))
    | unary op operand =>
      refine comparison.ite (comparison.map (comparison.pure _)) (comparison.map ?_)
      exact comparison.checkUnary asks _ _ (below (by simp [Form.links]))
    | conditional condition yes no =>
      refine comparison.ite (comparison.map (comparison.pure _)) (comparison.map ?_)
      exact comparison.expectType asks (below (by simp [Form.links])) _ _
    | function name inputs body output =>
      have within (input : NodeId) (among : input ∈ checking.context.tree.list inputs) : inside input :=
        below (List.mem_append_left _ among)
      simp only [same inputs (by simp [Form.childLists]), concurs.checkInputs_eq within]
      exact comparison.map (comparison.checkDeclared asks (below (by simp [Form.links])) _ _)
    | call callee arguments =>
      simp only [same arguments (by simp [Form.childLists])]
      refine comparison.ite (comparison.map (comparison.pure _)) (comparison.map ?_)
      exact comparison.checkCall concurs asks _ (below (by simp [Form.links])) fun argument among =>
        below (by simp [Form.links, among])
    | borrow source =>
      refine comparison.bind (borrows id source here is) fun answer => ?_
      cases answer <;> exact comparison.pure _

end

end Comparison

end Rivulet
