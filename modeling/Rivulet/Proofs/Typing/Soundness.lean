import Rivulet.Proofs.Meaning.Recursion
import Rivulet.Proofs.Store.Lookup
import Rivulet.Proofs.Meaning.Computation
import Rivulet.Proofs.Typing.Rules

/-!
Typed programs keep what their types promise. In a scope that provides what a node sees, a typed node comes to a value
of its type, or it divides by zero; its statements leave a scope behind that provides what the next statement sees.

Main statement: `attains_node`.
-/

namespace Rivulet

namespace Meaning

variable {α β : Type} {world : World}

/-- A computation comes to something good, unless it divides by zero. -/
def Attains (computation : Eval α) (world : World) (good : α → World → Prop) : Prop :=
  match computation world with
  | .ok value world' => good value world'
  | .error halt _ => ∃ origin, halt = .exception (.failed .divisionByZero origin)

theorem attains_pure {good : α → World → Prop} {value : α} (holds : good value world) :
    Attains (pure value) world good :=
  holds

theorem attains_of_ok {computation : Eval α} {good : α → World → Prop} {value : α} {world' : World}
    (computed : computation world = .ok value world') (holds : good value world') :
    Attains computation world good := by
  rw [Attains, computed]
  exact holds

theorem Attains.bind {computation : Eval α} {next : α → Eval β} {good : α → World → Prop} {good' : β → World → Prop}
    (first : Attains computation world good)
    (second : ∀ value world', good value world' → Attains (next value) world' good') :
    Attains (computation >>= next) world good' := by
  unfold Attains at first
  cases computed : computation world with
  | ok value world' =>
    rw [computed] at first
    rw [Attains, bind_of_ok computed]
    exact second value world' first
  | error halt world' =>
    rw [computed] at first
    rw [Attains, bind_of_error computed]
    exact first

theorem Attains.mono {computation : Eval α} {good good' : α → World → Prop} (attains : Attains computation world good)
    (implied : ∀ value world', good value world' → good' value world') : Attains computation world good' := by
  unfold Attains at attains ⊢
  cases computed : computation world with
  | ok value world' =>
    rw [computed] at attains
    exact implied value world' attains
  | error halt world' =>
    rw [computed] at attains
    exact attains

theorem attains_bind_of_ok {computation : Eval α} {next : α → Eval β} {good : β → World → Prop} {value : α}
    {world' : World} (computed : computation world = .ok value world') (attains : Attains (next value) world' good) :
    Attains (computation >>= next) world good := by
  rw [Attains, bind_of_ok computed]
  exact attains

theorem attains_yield {type : Ty} {result : Except Failure Value} (yields : Operators.Yields type result) (id : NodeId)
    {good : Value → World → Prop} (holds : ∀ value, value.Conforms type → good value world) :
    Attains (yield result id) world good := by
  rcases yields with ⟨value, rfl, conforms⟩ | rfl
  · exact attains_pure (holds value conforms)
  · exact ⟨id, rfl⟩

theorem conforms_named {type : Ty} {value : Value} (conforms : value.Conforms type) (name : String) :
    (named name value).Conforms type := by
  unfold named
  split
  · cases conforms with
    | any => exact .any _
    | function => split <;> exact .function _
  · exact conforms

/-! ### Scopes -/

/-- The scopes of one world are those of another, and more may have come in between. -/
structure Carries (root : ScopeId) (world world' : World) : Prop where
  keeps : world.store.Keeps world'.store
  rooted : world'.store.Rooted root

/-- A scope provides a value of the right type for every name that is visible. -/
structure Provides (type : NodeId → Ty) (outer : String → Option Value) (root scope : ScopeId) (store : Store)
    (visible : String → Option Definition) : Prop where
  rooted : store.Rooted root
  later : root ≤ scope
  bound : scope < store.scopes.size
  sees : ∀ name, match visible name with
    | some (.bind bind) => ∃ value, store.lookup scope name = some value ∧ value.Conforms (type bind)
    | _ => store.lookup scope name = outer name

section

variable {type : NodeId → Ty} {outer : String → Option Value} {root scope : ScopeId} {world' : World}
  {visible : String → Option Definition}

theorem Carries.trans {world'' : World} (carries : Carries root world world') (carries' : Carries root world' world'') :
    Carries root world world'' :=
  ⟨IsTrans.trans _ _ _ carries.keeps carries'.keeps, carries'.rooted⟩

theorem Provides.carries_self (provides : Provides type outer root scope world.store visible) :
    Carries root world world :=
  ⟨fun _ _ there => there, provides.rooted⟩

theorem Provides.carry (provides : Provides type outer root scope world.store visible)
    (carries : Carries root world world') : Provides type outer root scope world'.store visible where
  rooted := carries.rooted
  later := provides.later
  bound := by
    have there := Array.getElem?_eq_getElem provides.bound
    exact Store.lt_size_of_getElem? (carries.keeps _ _ there)
  sees name := by
    rw [Store.lookup_of_keeps provides.rooted carries.rooted carries.keeps provides.later provides.bound]
    exact provides.sees name

/-- Elements are evaluated one after the other. -/
theorem attains_mapM {elements : List β} {each : β → Eval α} {good : β → α → Prop}
    (provides : Provides type outer root scope world.store visible)
    (attains : ∀ element ∈ elements, ∀ world, Provides type outer root scope world.store visible →
      Attains (each element) world fun value world' => Carries root world world' ∧ good element value) :
    Attains (elements.mapM each) world fun values world' =>
      Carries root world world' ∧ List.Forall₂ good elements values := by
  induction elements generalizing world with
  | nil => exact ⟨provides.carries_self, .nil⟩
  | cons element rest hypothesis =>
    rw [List.mapM_cons]
    refine (attains element (by simp) world provides).bind fun value world' first => ?_
    have after := hypothesis (provides.carry first.1) fun other among => attains other (by simp [among])
    refine after.bind fun values world'' later => ?_
    exact attains_pure ⟨first.1.trans later.1, .cons first.2 later.2⟩

end

/-! ### Values of parts -/

theorem forall_of_forall₂ {good : α → β → Prop} {holds : β → Prop} {elements : List α} {values : List β}
    (implied : ∀ element ∈ elements, ∀ value, good element value → holds value)
    (all : List.Forall₂ good elements values) : ∀ value ∈ values, holds value := by
  induction all with
  | nil => simp
  | cons here _ hypothesis =>
    intro value among
    rcases List.mem_cons.mp among with rfl | later
    · exact implied _ (by simp) _ here
    · exact hypothesis (fun element there => implied element (by simp [there])) value later

theorem truth_eq_pure {value : Value} (conforms : value.Conforms .boolean) :
    ∃ holds, value = .boolean holds ∧ ∀ id, truth value id = pure holds := by
  obtain - | - | ⟨holds⟩ := conforms
  exact ⟨holds, rfl, fun _ => rfl⟩

/-- A logical operator evaluates its right operand unless the left one decides. -/
theorem attains_logical {root : ScopeId} (op : BinaryOp) (id : NodeId) {left right : Eval Value}
    (leftAttains : Attains left world fun value world' => Carries root world world' ∧ value.Conforms .boolean)
    (rightAttains : ∀ world', Carries root world world' → Attains right world' fun value world'' =>
      Carries root world' world'' ∧ value.Conforms .boolean) :
    Attains
      (do
        let first ← truth (← left) id
        if first == (op == .or) then pure (.boolean first)
        else return .boolean (← truth (← right) id) : Eval Value)
      world fun value world' => Carries root world world' ∧ value.Conforms .boolean := by
  refine leftAttains.bind fun value world' first => ?_
  obtain ⟨holds, rfl, is⟩ := truth_eq_pure first.2
  rw [is, pure_bind]
  split
  · exact attains_pure ⟨first.1, .boolean holds⟩
  · refine (rightAttains world' first.1).bind fun value world'' second => ?_
    obtain ⟨holds', rfl, is'⟩ := truth_eq_pure second.2
    rw [is', pure_bind]
    exact attains_pure ⟨first.1.trans second.1, .boolean holds'⟩

/-! ### Nodes -/

/-- A typed first-order program, evaluated with an outermost scope that supplies the streams. -/
structure Welltyped (setting : Setting) (context : Context) (type : NodeId → Ty) (outer : String → Option Value) :
    Prop where
  tree : setting.tree = context.tree
  program : context.FirstOrder
  typed : ∀ id form, context.tree.Reached id → context.tree.form? id = some form → context.Typed type id form
  supplied : ∀ name index stream, context.outermost? name = some (.stream index) →
    context.streams[index]? = some stream → ∃ value, outer name = some value ∧ value.Conforms stream.valueType

section

variable {setting : Setting} {context : Context} {type : NodeId → Ty} {outer : String → Option Value}
  {root scope : ScopeId} {id child : NodeId} {form : Form} {calls : Nat}

/-- Wherever a scope provides what a node sees, the node comes to a value of its type. -/
def Attainable (setting : Setting) (context : Context) (type : NodeId → Ty) (outer : String → Option Value)
    (root : ScopeId) (calls : Nat) (id : NodeId) : Prop :=
  ∀ scope world, Provides type outer root scope world.store (context.visible? id) →
    Attains (node setting calls scope id) world fun value world' =>
      Carries root world world' ∧ value.Conforms (type id)

variable (welltyped : Welltyped setting context type outer)

include welltyped

theorem Welltyped.childWith_eq (reached : context.tree.Reached id) (is : context.tree.form? id = some form)
    (link : child ∈ form.links context.tree.list) (evaluated : NodeId → Eval Value) :
    childWith context.tree evaluated id child = evaluated child := by
  have there := welltyped.program.proper.isSome_of_reached (welltyped.program.reached_of_link reached is link)
  rw [childWith, if_pos there]

theorem Welltyped.visible?_of_link (reached : context.tree.Reached id) (is : context.tree.form? id = some form)
    (other : ∀ statements, form ≠ .block statements) (link : child ∈ form.links context.tree.list) :
    context.visible? child = context.visible? id :=
  funext fun name => welltyped.program.visible?_of_link reached is other
    (welltyped.program.complete.mem_children reached is link) name

/-- Lower expressions can be evaluated wherever what they see is provided. -/
def Below (setting : Setting) (context : Context) (type : NodeId → Ty) (outer : String → Option Value)
    (root : ScopeId) (calls : Nat) (rank : NodeId → Nat) (id : NodeId) : Prop :=
  ∀ child, rank child < rank id → context.tree.Reached child →
    (context.tree.form? child).any Form.isFirstOrder = true → Attainable setting context type outer root calls child

variable {rank : NodeId → Nat} (lower : ∀ child parent, context.tree.Child child parent → rank child < rank parent)
  (below : Below setting context type outer root calls rank id) (reached : context.tree.Reached id)
  (is : context.tree.form? id = some form)

include lower below reached is

/-- The children of a node that is neither a block nor a mapping are evaluated in its scope. -/
theorem Welltyped.attains_child (passes : form.opensScope = false) (other : form.isMapping = false)
    (link : child ∈ form.links context.tree.list) (world : World)
    (provides : Provides type outer root scope world.store (context.visible? id)) :
    Attains (childWith context.tree (node setting calls scope) id child) world fun value world' =>
      Carries root world world' ∧ value.Conforms (type child) := by
  rw [welltyped.childWith_eq reached is link]
  have expression : (context.tree.form? child).any Form.isFirstOrder = true := by
    obtain ⟨form', is', fits⟩ := Tree.form?_of_admits (welltyped.program.admits reached is link)
    cases form with
    | block => simp [Form.opensScope] at passes
    | mapping => simp [Form.isMapping] at other
    | _ => simp [is', fits]
  refine below child (lower child id ⟨form, is, link⟩) (welltyped.program.reached_of_link reached is link) expression
    scope world ?_
  rwa [welltyped.visible?_of_link reached is (by rintro statements rfl; simp [Form.opensScope] at passes) link]

omit lower below is in
/-- A name refers to a value of the type that it has. -/
theorem Welltyped.exists_value {name : String} (is : context.tree.form? id = some (.reference name)) {store : Store}
    (provides : Provides type outer root scope store (context.visible? id)) :
    ∃ value, store.lookup scope name = some value ∧ value.Conforms (type id) := by
  have sees := provides.sees name
  rcases welltyped.typed id _ reached is with ⟨bind, resolved, same⟩ | ⟨index, stream, resolved, there, same⟩
  · simpa only [Context.resolve?_eq_bind_iff.mp resolved, same] using sees
  · -- What is visible among the nodes is no stream.
    have unseen : context.visible? id name = none := by
      cases visible : context.visible? id name with
      | none => rfl
      | some definition =>
        obtain ⟨bind, rfl, -⟩ := welltyped.program.exists_bind_of_visible reached visible
        rw [Context.resolve?_eq, visible] at resolved
        simp at resolved
    rw [Context.resolve?_eq, unseen, Option.none_or] at resolved
    obtain ⟨value, supplied, conforms⟩ := welltyped.supplied name index stream resolved there
    simp only [unseen] at sees
    exact ⟨value, sees.trans supplied, same ▸ conforms⟩

omit is in
/-- An entry of a mapping comes to a key and a value. -/
theorem Welltyped.attains_entry {entries : ChildList} {entry : NodeId} {keyType valueType : Ty}
    (is : context.tree.form? id = some (.mapping entries)) (among : entry ∈ context.tree.list entries)
    (same : ∀ key value, context.tree.form? entry = some (.pair key value) → type key = keyType ∧ type value = valueType)
    (world : World) (provides : Provides type outer root scope world.store (context.visible? id)) :
    Attains (entryWith context.tree (node setting calls scope) id entry) world fun entry world' =>
      Carries root world world' ∧ entry.1.Conforms keyType ∧ entry.2.Conforms valueType := by
  obtain ⟨form', is', key, value, rfl⟩ := Tree.form?_of_admits (welltyped.program.admits reached is among)
  have entryReached := welltyped.program.reached_of_link reached is among
  have entryBelow : Below setting context type outer root calls rank entry := fun child less =>
    below child (Nat.lt_trans less (lower entry id ⟨_, is, among⟩))
  have provides : Provides type outer root scope world.store (context.visible? entry) := by
    rwa [welltyped.visible?_of_link reached is (by simp) among]
  have part (part : NodeId) (link : part ∈ (Form.pair key value : Form).links context.tree.list) (world : World)
      (provides : Provides type outer root scope world.store (context.visible? entry)) :=
    welltyped.attains_child lower entryBelow entryReached is' rfl rfl link world provides
  obtain ⟨keyIs, valueIs⟩ := same key value is'
  simp only [entryWith, is']
  refine (part key (by simp [Form.links]) world provides).bind fun first world' made => ?_
  refine (part value (by simp [Form.links]) world' (provides.carry made.1)).bind fun second world'' made' => ?_
  exact attains_pure ⟨made.1.trans made'.1, keyIs ▸ made.2, valueIs ▸ made'.2⟩

/-- A typed expression that is no block comes to a value of its type. -/
theorem Welltyped.attains_nodeWith (expression : form.isFirstOrder = true) (passes : form.opensScope = false)
    (world : World) (provides : Provides type outer root scope world.store (context.visible? id)) :
    Attains (nodeWith setting (node setting calls) (callTo setting calls) scope id) world fun value world' =>
      Carries root world world' ∧ value.Conforms (type id) := by
  have typed := welltyped.typed id form reached is
  have each (other : form.isMapping = false) (child : NodeId) (link : child ∈ form.links context.tree.list)
      (world : World) (provides : Provides type outer root scope world.store (context.visible? id)) :=
    welltyped.attains_child lower below reached is passes other link world provides
  unfold nodeWith
  simp only [welltyped.tree, is]
  cases form with
  | program body =>
    rw [← show type body = type id from typed]
    exact each rfl body (by simp [Form.links]) world provides
  | number literal measure =>
    obtain ⟨whole, readable⟩ := typed
    obtain ⟨number, read⟩ := Option.isSome_iff_exists.mp readable
    rw [whole]
    simp only [read]
    exact attains_pure ⟨provides.carries_self, .number number (Quantity.measure_of_ofText? read)⟩
  | boolean value =>
    rw [show type id = .boolean from typed]
    exact attains_pure ⟨provides.carries_self, .boolean value⟩
  | text value =>
    rw [show type id = .text from typed]
    exact attains_pure ⟨provides.carries_self, .text value⟩
  | none =>
    rw [show type id = .none from typed]
    exact attains_pure ⟨provides.carries_self, .none⟩
  | sequence items =>
    obtain ⟨item, whole, same⟩ := typed
    rw [whole]
    refine (attains_mapM provides (each rfl)).bind fun values world' made => attains_pure ⟨made.1, .sequence ?_⟩
    simpa using forall_of_forall₂ (fun item among value conforms => same item among ▸ conforms) made.2
  | set items =>
    obtain ⟨item, whole, same⟩ := typed
    rw [whole]
    refine (attains_mapM provides (each rfl)).bind fun values world' made => attains_pure ⟨made.1, ?_⟩
    exact Value.conforms_setOf (forall_of_forall₂ (fun item among value conforms => same item among ▸ conforms) made.2)
  | mapping entries =>
    obtain ⟨key, value, whole, same⟩ := typed
    rw [whole]
    have entry (entry : NodeId) (among : entry ∈ context.tree.list entries) (world : World)
        (provides : Provides type outer root scope world.store (context.visible? id)) :=
      welltyped.attains_entry lower below reached is among (fun key' value' is' =>
        same (key', value') (List.mem_filterMap.mpr ⟨entry, among, by simp [is']⟩)) world provides
    refine (attains_mapM provides entry).bind fun values world' made => attains_pure ⟨made.1, ?_⟩
    exact Value.conforms_mappingOf (forall_of_forall₂ (fun _ _ _ conform => conform) made.2)
  | reference name =>
    obtain ⟨value, found, conforms⟩ := welltyped.exists_value reached is provides
    have computed : (do visit id scope; lookUp id scope name : Eval Value) world =
        .ok value { world with visits := world.visits ++ [⟨id, scope, world.store⟩] } := by
      rw [bind_of_ok (visit_eq id scope), lookUp_eq]
      simp only [found]
    exact attains_of_ok computed ⟨⟨provides.carries_self.keeps, provides.rooted⟩, conforms⟩
  | binary op left right =>
    cases logical : op.isLogical with
    | true =>
      have takes : op.Takes (type left) (type right) (type id) := typed
      obtain ⟨leftIs, rightIs, whole⟩ := BinaryOp.booleans_of_isLogical takes logical
      rw [whole]
      simp only [logical, if_true]
      refine attains_logical op id (leftIs ▸ each rfl left (by simp [Form.links]) world provides) fun world' carries => ?_
      exact rightIs ▸ each rfl right (by simp [Form.links]) world' (provides.carry carries)
    | false =>
      simp only [logical, Bool.false_eq_true, if_false]
      refine (each rfl left (by simp [Form.links]) world provides).bind fun first world' made => ?_
      refine (each rfl right (by simp [Form.links]) world' (provides.carry made.1)).bind fun second world'' made' => ?_
      refine attains_yield (Operators.yields_binary typed made.2 made'.2) id fun value conforms => ?_
      exact ⟨made.1.trans made'.1, conforms⟩
  | unary op operand =>
    refine (each rfl operand (by simp [Form.links]) world provides).bind fun value world' made => ?_
    exact attains_yield (Operators.yields_unary typed made.2) id fun value conforms => ⟨made.1, conforms⟩
  | conditional condition yes no =>
    obtain ⟨conditionIs, yesIs, noIs⟩ := typed
    refine (each rfl condition (by simp [Form.links]) world provides).bind fun value world' made => ?_
    obtain ⟨holds, -, is'⟩ := truth_eq_pure (conditionIs ▸ made.2)
    rw [is', pure_bind]
    have branch (branch : NodeId) (link : branch ∈ [yes, no]) (branchIs : type branch = type id) :
        Attains (childWith context.tree (node setting calls scope) id branch) world' fun value world'' =>
          Carries root world world'' ∧ value.Conforms (type id) := by
      refine (each rfl branch (List.mem_cons_of_mem _ link) world' (provides.carry made.1)).mono ?_
      exact fun value world'' made' => ⟨made.1.trans made'.1, branchIs ▸ made'.2⟩
    split
    · exact branch yes (by simp) yesIs
    · exact branch no (by simp) noIs
  | block => simp [Form.opensScope] at passes
  | bind | pair | function | record | property | call | changed | borrow | placeholder | unparsable =>
    simp [Form.isFirstOrder] at expression

end

/-! ### Blocks -/

section

variable {setting : Setting} {context : Context} {type : NodeId → Ty} {outer : String → Option Value}
  {root scope inner : ScopeId} {block statement : NodeId} {before after : List NodeId} {calls : Nat} {world : World}

/-- What a statement sees after some others in a block. -/
def seenAfter (context : Context) (block : NodeId) (before : List NodeId) (name : String) : Option Definition :=
  ((context.latest? before name).map .bind).or (context.visible? block name)

/-- The scope of a block after some of its statements. -/
structure Reaches (context : Context) (type : NodeId → Ty) (outer : String → Option Value) (root inner : ScopeId)
    (block : NodeId) (before : List NodeId) (store : Store) : Prop where
  provides : Provides type outer root inner store (seenAfter context block before)
  fresh : ∀ name, context.latest? before name = none → store.local? inner name = none

theorem Reaches.carry {world' : World} (reaches : Reaches context type outer root inner block before world.store)
    (carries : Carries root world world') : Reaches context type outer root inner block before world'.store where
  provides := reaches.provides.carry carries
  fresh name unbound := by
    rw [carries.keeps.local? reaches.provides.bound, reaches.fresh name unbound]

theorem latest?_concat (context : Context) (before : List NodeId) (statement : NodeId) (name : String) :
    context.latest? (before ++ [statement]) name =
      if context.declares statement name then some statement else context.latest? before name := by
  simp only [Context.latest?, List.reverse_append, List.reverse_singleton, List.singleton_append, List.find?_cons]
  cases context.declares statement name <;> rfl

/-- A new scope of a block provides what the block sees, and binds nothing. -/
theorem reaches_added {scope : ScopeId} (provides : Provides type outer root scope world.store (context.visible? block)) :
    Reaches context type outer root world.store.scopes.size block [] (world.store.add ⟨[], some scope⟩).2 := by
  have rooted : (world.store.add ⟨[], some scope⟩).2.Rooted root := provides.rooted.add rfl provides.later provides.bound
  have later : root ≤ world.store.scopes.size := Nat.le_of_lt provides.rooted.inside
  refine ⟨⟨rooted, later, by simp, fun name => ?_⟩, fun name _ => by simp⟩
  have found : (world.store.add ⟨[], some scope⟩).2.lookup world.store.scopes.size name =
      world.store.lookup scope name := by
    rw [Store.lookup_of_parent rooted later (Store.parent?_add_self _ _), Store.local?_add_self]
    exact Store.lookup_of_keeps provides.rooted rooted (Store.keeps_add _ _) provides.later provides.bound name
  rw [found]
  exact provides.sees name

/-- No statement has declared a name that is declared once, later on. -/
theorem latest?_eq_none {name : String}
    (distinct : (declaredNames context.tree (before ++ statement :: after)).Nodup)
    (declares : context.declares statement name = true) : context.latest? before name = none := by
  refine List.find?_eq_none.mpr fun earlier among declared => ?_
  have named (id : NodeId) (declares : context.declares id name = true) :
      Checking.declaredName? context.tree id = some name := Context.declares_iff.mp declares
  simp only [declaredNames, List.filterMap_append, List.filterMap_cons, named statement declares] at distinct
  refine (List.nodup_append.mp distinct).2.2 name ?_ name List.mem_cons_self rfl
  exact List.mem_filterMap.mpr ⟨earlier, List.mem_reverse.mp among, named earlier declared⟩

/-- A statement that declares nothing adds nothing to what the next one sees. -/
theorem Reaches.pass {store : Store} (reaches : Reaches context type outer root inner block before store)
    (silent : ∀ name, context.declares statement name = false) :
    Reaches context type outer root inner block (before ++ [statement]) store := by
  have same : context.latest? (before ++ [statement]) = context.latest? before := by
    funext name
    simp [latest?_concat, silent]
  refine ⟨?_, fun name unbound => reaches.fresh name (same ▸ unbound)⟩
  have seen : seenAfter context block (before ++ [statement]) = seenAfter context block before := by
    funext name
    rw [seenAfter, seenAfter, same]
  exact seen ▸ reaches.provides

/-- A bind adds its name to what the next statement sees. -/
theorem Reaches.bind {store : Store} (reaches : Reaches context type outer root inner block before store)
    {name : String} {value : Value} (declares : ∀ other, context.declares statement other = true ↔ other = name)
    (conforms : value.Conforms (type statement)) :
    Reaches context type outer root inner block (before ++ [statement]) (store.bindNew inner name value) where
  provides :=
    { rooted := reaches.provides.rooted.bindNew inner name value
      later := reaches.provides.later
      bound := by simpa [Store.bindNew] using reaches.provides.bound
      sees := fun other => by
        rw [seenAfter, latest?_concat,
          Store.lookup_bindNew reaches.provides.rooted reaches.provides.later reaches.provides.bound]
        by_cases same : other = name
        · simp only [if_pos ((declares other).mpr same), if_pos same]
          exact ⟨value, rfl, conforms⟩
        · simp only [if_neg fun declared => same ((declares other).mp declared), if_neg same]
          exact reaches.provides.sees other }
  fresh other unbound := by
    rw [latest?_concat] at unbound
    split at unbound
    · simp at unbound
    · rename_i apart
      rw [Store.local?_bindNew reaches.provides.bound, if_neg fun same => apart ((declares other).mpr same)]
      exact reaches.fresh other unbound

variable (welltyped : Welltyped setting context type outer) {rank : NodeId → Nat}
  (lower : ∀ child parent, context.tree.Child child parent → rank child < rank parent)

include welltyped lower

/-- A bind evaluates its value and then binds its name, which must not be bound yet. -/
theorem Welltyped.attains_bind {name : String} {value : NodeId} {declared : Option Ty} {variadic : Bool}
    (below : Below setting context type outer root calls rank statement) (reached : context.tree.Reached statement)
    (is : context.tree.form? statement = some (.bind name value declared variadic))
    (provides : Provides type outer root inner world.store (context.visible? statement))
    (fresh : world.store.local? inner name = none) :
    Attains (node setting calls inner statement) world fun value world' => ∃ between, Carries root world between ∧
      world'.store = between.store.bindNew inner name (named name value) ∧ value.Conforms (type statement) := by
  have same : type value = type statement := welltyped.typed statement _ reached is
  rw [node_eq (welltyped.tree ▸ welltyped.program.proper.acyclic), nodeWith]
  simp only [welltyped.tree, is]
  refine (welltyped.attains_child lower below reached is rfl rfl (by simp [Form.links]) world provides).bind ?_
  rintro result between ⟨carries, conforms⟩
  have unbound : between.store.bindsLocally inner name = false := by
    rw [Store.bindsLocally, carries.keeps.local? provides.bound, fresh, Option.isSome_none]
  have bound : bindName inner name (named name result) statement between =
      .ok () { between with store := between.store.bindNew inner name (named name result) } := by
    rw [bindName_eq, unbound]
    rfl
  rw [Attains, bind_of_ok bound]
  exact ⟨between, carries, rfl, same ▸ conforms⟩

variable (below : Below setting context type outer root calls rank block) (reached : context.tree.Reached block)
  {statements : ChildList} (is : context.tree.form? block = some (.block statements))

include below reached is

/-- A statement leaves the scope of its block as the next statement needs it. -/
theorem Welltyped.attains_statement (split : context.tree.list statements = before ++ statement :: after)
    (reaches : Reaches context type outer root inner block before world.store) :
    Attains (node setting calls inner statement) world fun value world' =>
      world.store.KeepsOthers inner world'.store ∧
        Reaches context type outer root inner block (before ++ [statement]) world'.store ∧
          value.Conforms (type statement) := by
  have among : statement ∈ context.tree.list statements := by simp [split]
  have statementReached := welltyped.program.reached_of_link reached is among
  have less := lower statement block ⟨_, is, among⟩
  have there : (context.tree.list statements)[before.length]? = some statement := by simp [split]
  have seen : context.visible? statement = seenAfter context block before := by
    funext name
    rw [welltyped.program.visible?_of_earlier reached is there]
    simp [seenAfter, split]
  obtain ⟨form, is', expression | bind⟩ := Tree.form?_of_admits (welltyped.program.admits reached is among)
  · refine (below statement less statementReached (by simp [is', expression]) inner world (seen ▸ reaches.provides)).mono ?_
    rintro value world' ⟨carries, conforms⟩
    refine ⟨carries.keeps.others, (reaches.carry carries).pass fun name => ?_, conforms⟩
    simp [Context.declares, is', Form.declaredName?_of_isFirstOrder expression]
  · cases form with
    | bind name value declared variadic =>
      have declares (other : String) : context.declares statement other = true ↔ other = name := by
        rw [Context.declares_iff, is']
        simp [Form.declaredName?, eq_comm]
      have distinct := (welltyped.typed block _ reached is).2
      have fresh := reaches.fresh name (latest?_eq_none (split ▸ distinct) ((declares name).mpr rfl))
      have statementBelow : Below setting context type outer root calls rank statement := fun child lesser =>
        below child (Nat.lt_trans lesser less)
      refine (welltyped.attains_bind lower statementBelow statementReached is' (seen ▸ reaches.provides) fresh).mono ?_
      rintro value world' ⟨between, carries, after, conforms⟩
      rw [after]
      refine ⟨?_, (reaches.carry carries).bind declares (conforms_named conforms name), conforms⟩
      exact IsTrans.trans _ _ _ carries.keeps.others (Store.extends_bindNew _ _ _ _).others
    | _ => simp [Form.isBind] at bind

/-- The statements of a block are evaluated one after the other in the scope of the block. -/
theorem Welltyped.attains_statements (split : context.tree.list statements = before ++ after)
    (reaches : Reaches context type outer root inner block before world.store) :
    Attains (after.mapM (childWith context.tree (node setting calls inner) block)) world fun values world' =>
      (world.store.KeepsOthers inner world'.store ∧ world'.store.Rooted root) ∧
        List.Forall₂ (fun statement value => Value.Conforms (type statement) value) after values := by
  induction after generalizing before world with
  | nil => exact ⟨⟨fun _ _ _ there => there, reaches.provides.rooted⟩, .nil⟩
  | cons statement after hypothesis =>
    have among : statement ∈ context.tree.list statements := by simp [split]
    rw [List.mapM_cons, welltyped.childWith_eq reached is among]
    refine (welltyped.attains_statement lower below reached is split reaches).bind fun value between made => ?_
    refine (hypothesis (by simp [split]) made.2.1).bind fun values world' made' => attains_pure ?_
    exact ⟨⟨IsTrans.trans _ _ _ made.1 made'.1.1, made'.1.2⟩, .cons made.2.2 made'.2⟩

omit lower below in
/-- A block comes to the value of its last statement. -/
theorem Welltyped.attains_last {good : List Value → World → Prop}
    (attains : Attains ((context.tree.list statements).mapM (childWith context.tree (node setting calls inner) block))
      world fun values world' => good values world' ∧
        List.Forall₂ (fun statement value => Value.Conforms (type statement) value) (context.tree.list statements) values) :
    Attains (statementsWith context.tree (node setting calls inner) block (context.tree.list statements)) world
      fun value world' => (∃ values, good values world') ∧ value.Conforms (type block) := by
  obtain ⟨⟨last, ends, same⟩, -⟩ := welltyped.typed block _ reached is
  refine attains.bind ?_
  rintro values world' ⟨holds, conform⟩
  cases valuesEnd : values.getLast? with
  | none =>
    rw [List.getLast?_eq_none_iff] at valuesEnd
    subst valuesEnd
    simp [List.forall₂_nil_right_iff.mp conform] at ends
  | some value =>
    obtain ⟨statement, ends', conforms⟩ := getLast?_of_forall₂ conform valuesEnd
    rw [ends, Option.some.injEq] at ends'
    subst ends'
    exact attains_pure ⟨⟨values, holds⟩, same ▸ conforms⟩

/-- A typed block comes to a value of its type, and what it binds stays inside. -/
theorem Welltyped.attains_block {scope : ScopeId}
    (provides : Provides type outer root scope world.store (context.visible? block)) :
    Attains (blockWith context.tree (node setting calls) scope block (context.tree.list statements)) world
      fun value world' => Carries root world world' ∧ value.Conforms (type block) := by
  unfold blockWith
  split
  · -- The statements are evaluated in a scope of their own.
    let started : World := { world with store := (world.store.add ⟨[], some scope⟩).2 }
    have computed : addScope ⟨[], some scope⟩ world = .ok world.store.scopes.size started := addScope_eq _
    refine attains_bind_of_ok computed ?_
    have reaches : Reaches context type outer root world.store.scopes.size block [] started.store := reaches_added provides
    have attains := welltyped.attains_statements lower below reached is (List.nil_append _).symm reaches
    refine (welltyped.attains_last reached is attains).mono ?_
    rintro value world' ⟨⟨-, kept, rooted⟩, conforms⟩
    exact ⟨⟨Store.keeps_of_fresh kept, rooted⟩, conforms⟩
  · -- No statement is a bind, so they all see what the block sees.
    rename_i silent
    rw [pure_bind]
    have undeclared (statement : NodeId) (among : statement ∈ context.tree.list statements) (form : Form)
        (is' : context.tree.form? statement = some form) : form.declaredName? = none := by
      have found := List.any_eq_false.mp (Bool.eq_false_iff.mpr silent) statement among
      simpa [is'] using found
    have attains : Attains ((context.tree.list statements).mapM
        (childWith context.tree (node setting calls scope) block)) world fun values world' =>
          Carries root world world' ∧
            List.Forall₂ (fun statement value => Value.Conforms (type statement) value)
              (context.tree.list statements) values := by
      refine attains_mapM provides fun statement among world provides => ?_
      rw [welltyped.childWith_eq reached is among]
      obtain ⟨form, is', kind⟩ := Tree.form?_of_admits (welltyped.program.admits reached is among)
      have expression : form.isFirstOrder = true := kind.resolve_right fun bind => by
        have nameless := undeclared statement among form is'
        cases form <;> simp [Form.isBind, Form.declaredName?] at bind nameless
      have seen : context.visible? statement = context.visible? block := by
        funext name
        obtain ⟨position, there⟩ := List.getElem?_of_mem among
        rw [welltyped.program.visible?_of_earlier reached is there]
        have unbound : context.latest? ((context.tree.list statements).take position) name = none := by
          refine List.find?_eq_none.mpr fun earlier before declares => ?_
          obtain ⟨form', is'', named⟩ := Option.bind_eq_some_iff.mp (Context.declares_iff.mp declares)
          rw [undeclared earlier (List.mem_of_mem_take (List.mem_reverse.mp before)) form' is''] at named
          simp at named
        rw [unbound, Option.map_none, Option.none_or]
      exact below statement (lower statement block ⟨_, is, among⟩) (welltyped.program.reached_of_link reached is among)
        (by simp [is', expression]) scope world (seen ▸ provides)
    refine (welltyped.attains_last reached is attains).mono ?_
    rintro value world' ⟨⟨-, carries⟩, conforms⟩
    exact ⟨carries, conforms⟩

omit lower below reached is in
/-- A typed expression comes to a value of its type wherever what it sees is provided. -/
theorem Welltyped.attains_node {id : NodeId} (reached : context.tree.Reached id)
    (expression : (context.tree.form? id).any Form.isFirstOrder = true) :
    Attainable setting context type outer root calls id := by
  have acyclic := welltyped.program.proper.acyclic
  obtain ⟨rank, lower, -⟩ := Tree.exists_rank acyclic
  induction bound : rank id using Nat.strong_induction_on generalizing id with
  | _ _ hypothesis =>
    subst bound
    have below : Below setting context type outer root calls rank id := fun child less reached expression =>
      hypothesis _ less reached expression rfl
    obtain ⟨form, is⟩ := Option.isSome_iff_exists.mp (welltyped.program.proper.isSome_of_reached reached)
    rw [is, Option.any_some] at expression
    intro scope world provides
    rw [node_eq (welltyped.tree ▸ acyclic)]
    by_cases opens : form.opensScope = true
    · cases form with
      | block statements =>
        unfold nodeWith
        simp only [welltyped.tree, is]
        exact welltyped.attains_block lower below reached is provides
      | _ => simp [Form.opensScope, Form.isFirstOrder] at opens expression
    · exact welltyped.attains_nodeWith lower below reached is expression (Bool.eq_false_iff.mpr opens) world provides

end

end Meaning

end Rivulet
