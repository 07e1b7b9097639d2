import Rivulet.Proofs.Analysis.Visibility

/-!
The first-order language: programs and blocks of expressions and binds, without functions, calls, records and
borrows. In it a name refers to an earlier statement of a block around it, or to something outside of the tree, and
no question about a type leads back to where it was asked.

Main statements: `visible?_of_earlier`, `exists_bind_of_visible` and `acyclic_asks`.
-/

namespace Rivulet

/-- Whether a node is an expression of the first-order language. -/
def Form.isFirstOrder : Form → Bool
  | program _ | block _ | number .. | boolean _ | text _ | none | sequence _ | set _ | mapping _ | reference _
  | binary .. | unary .. | conditional .. => true
  | _ => false

theorem Form.declaredName?_of_isFirstOrder {form : Form} (expression : form.isFirstOrder = true) :
    form.declaredName? = Option.none := by
  cases form with
  | bind | function | record | borrow => simp [isFirstOrder] at expression
  | _ => rfl

/-- Whether a node is a bind. -/
def Form.isBind : Form → Bool
  | bind .. => true
  | _ => false

namespace Tree

/-- What may be a child of a node in the first-order language: binds stand in blocks, and the entries of a mapping
are pairs. -/
def admits (tree : Tree) (parent : Form) (child : NodeId) : Bool :=
  (tree.form? child).any fun form =>
    match parent with
    | .block _ => form.isFirstOrder || form.isBind
    | .mapping _ => tree.isPair child
    | _ => form.isFirstOrder

/-- What is reached in a tree belongs to the first-order language. Children may be missing, but not the entries of
mappings. -/
structure FirstOrder (tree : Tree) : Prop where
  root : (tree.form? tree.root).any Form.isFirstOrder = true
  links : ∀ id form child, tree.Reached id → tree.form? id = some form → child ∈ form.links tree.list →
    child = .missing ∧ form.isMapping = false ∨ tree.admits form child = true

instance (tree : Tree) : Decidable tree.FirstOrder :=
  decidable_of_iff
    ((tree.form? tree.root).any Form.isFirstOrder = true ∧
      ∀ id ∈ tree.descendants tree.root, ∀ form ∈ tree.form? id, ∀ child ∈ form.links tree.list,
        child = .missing ∧ form.isMapping = false ∨ tree.admits form child = true)
    ⟨fun ⟨root, links⟩ => ⟨root, fun id form child reached is link => links id reached form is child link⟩,
      fun plain => ⟨plain.root, fun id reached form is child link => plain.links id form child reached is link⟩⟩

/-- No child of what is reached is missing. -/
def Complete (tree : Tree) : Prop :=
  ∀ id form child, tree.Reached id → tree.form? id = some form → child ∈ form.links tree.list → child ≠ .missing

variable {tree : Tree} {id child : NodeId} {form : Form}

theorem Complete.mem_children (complete : tree.Complete) (reached : tree.Reached id)
    (is : tree.form? id = some form) (link : child ∈ form.links tree.list) : child ∈ tree.children id := by
  refine mem_children_iff.mpr ⟨⟨form, is, link⟩, ?_⟩
  cases child with
  | missing => exact absurd rfl (complete id form .missing reached is link)
  | node => rfl

theorem form?_of_admits (admitted : tree.admits form child = true) :
    ∃ form', tree.form? child = some form' ∧
      match form with
      | .block _ => form'.isFirstOrder = true ∨ form'.isBind = true
      | .mapping _ => ∃ key value, form' = .pair key value
      | _ => form'.isFirstOrder = true := by
  unfold admits at admitted
  cases is : tree.form? child with
  | none => simp [is] at admitted
  | some form' =>
    refine ⟨form', rfl, ?_⟩
    rw [is, Option.any_some] at admitted
    cases form with
    | block => simpa using admitted
    | mapping =>
      cases form' with
      | pair key value => exact ⟨key, value, rfl⟩
      | _ => simp [isPair, is] at admitted
    | _ => simpa using admitted

/-- What may stand anywhere is an expression, a bind or a pair. -/
theorem kind_of_admits (admitted : tree.admits form child = true) :
    ∃ form', tree.form? child = some form' ∧
      (form'.isFirstOrder = true ∨ form'.isBind = true ∨ ∃ key value, form' = .pair key value) := by
  obtain ⟨form', is, fits⟩ := form?_of_admits admitted
  refine ⟨form', is, ?_⟩
  cases form with
  | block => exact fits.elim .inl fun bind => .inr (.inl bind)
  | mapping => exact .inr (.inr fits)
  | _ => exact .inl fits

theorem isPair_eq_false_of_kind (is : tree.form? id = some form)
    (kind : form.isFirstOrder = true ∨ form.isBind = true) : tree.isPair id = false := by
  rw [isPair, is]
  cases form with
  | pair => simp [Form.isFirstOrder, Form.isBind] at kind
  | _ => rfl

namespace FirstOrder

variable (plain : tree.FirstOrder) (proper : tree.Proper)

include plain

theorem admits (complete : tree.Complete) (reached : tree.Reached id) (is : tree.form? id = some form)
    (link : child ∈ form.links tree.list) : tree.admits form child = true :=
  (plain.links id form child reached is link).resolve_left fun absent => complete id form child reached is link absent.1

include proper

theorem kind_of_reached (reached : tree.Reached id) (is : tree.form? id = some form) :
    form.isFirstOrder = true ∨ form.isBind = true ∨ ∃ key value, form = .pair key value := by
  refine proper.reached_induction (motive := fun id => ∀ form, tree.form? id = some form →
    (form.isFirstOrder = true ∨ form.isBind = true ∨ ∃ key value, form = .pair key value)) ?_ ?_ reached form is
  · intro form is
    have root := plain.root
    rw [is, Option.any_some] at root
    exact .inl root
  · intro child parent above link _ form is
    obtain ⟨form', is', link'⟩ := child_of_mem_children link
    have there := isPresent_of_mem_children link
    have admitted := (plain.links parent form' child above is' link').resolve_left fun absent => by
      simp [absent.1, NodeId.isPresent, NodeId.isMissing] at there
    obtain ⟨form'', is'', kind⟩ := kind_of_admits admitted
    rw [is] at is''
    cases is''
    exact kind

omit proper in
theorem isPair_root : tree.isPair tree.root = false := by
  have root := plain.root
  cases is : tree.form? tree.root with
  | none => simp [isPair, is]
  | some form =>
    rw [is, Option.any_some] at root
    exact isPair_eq_false_of_kind is (.inl root)

/-- What is reached in the first-order language can be compiled. -/
theorem formedAt (reached : tree.Reached id) : tree.FormedAt id where
  lists_within := proper.lists_within id
  pair_iff_entry form child is link there := by
    have present : child ≠ .missing := by
      rintro rfl
      simp [form?_missing] at there
    have admitted := (plain.links id form child reached is link).resolve_left fun absent => present absent.1
    obtain ⟨form', is', fits⟩ := form?_of_admits admitted
    cases form with
    | block => exact isPair_eq_false_of_kind is' fits
    | mapping =>
      obtain ⟨key, value, rfl⟩ := fits
      simp [isPair, is', Form.isMapping]
    | _ => exact isPair_eq_false_of_kind is' (.inl fits)

end FirstOrder

end Tree

/-! ### Names -/

/-- A tree of the first-order language in which nothing is missing, with the index of its parents. -/
structure Context.FirstOrder (context : Context) : Prop where
  proper : context.tree.Proper
  plain : context.tree.FirstOrder
  complete : context.tree.Complete
  indexed : context.parents = .ofTree context.tree

namespace Context

variable {context : Context} {id child parent : NodeId} {form : Form} {name : String}

/-- The bind that a statement finds under a name among the statements before it. -/
def latest? (context : Context) (earlier : List NodeId) (name : String) : Option NodeId :=
  earlier.reverse.find? fun statement => context.declares statement name

/-- The type of one node is asked for in order to tell that of another. -/
def Asks (context : Context) (asked id : NodeId) : Prop :=
  context.tree.Reached id ∧ (asked ∈ context.tree.children id ∨
    ∃ name, context.tree.form? id = some (.reference name) ∧ context.resolve? id name = some (.bind asked))

/-- Names that no node declares come from outside of the tree. -/
theorem outermost?_cases {definition : Definition} (outer : context.outermost? name = some definition) :
    (∃ index, definition = .stream index) ∨ ∃ index, definition = .native index := by
  unfold outermost? at outer
  cases found : lastIndex? (fun stream : StreamSignature => stream.name == name) context.streams with
  | some index =>
    rw [found] at outer
    cases outer
    exact .inl ⟨index, rfl⟩
  | none =>
    rw [found, Option.map_none, Option.none_or] at outer
    obtain ⟨index, -, rfl⟩ := Option.map_eq_some_iff.mp outer
    exact .inr ⟨index, rfl⟩

theorem resolve?_eq_bind_iff {bind : NodeId} :
    context.resolve? id name = some (.bind bind) ↔ context.visible? id name = some (.bind bind) := by
  rw [resolve?_eq]
  cases context.visible? id name with
  | some definition => rfl
  | none =>
    rw [Option.none_or]
    constructor
    · intro outer
      rcases outermost?_cases outer with ⟨_, other⟩ | ⟨_, other⟩ <;> cases other
    · simp

namespace FirstOrder

variable (program : context.FirstOrder)

include program

theorem reached_of_link (reached : context.tree.Reached id) (is : context.tree.form? id = some form)
    (link : child ∈ form.links context.tree.list) : context.tree.Reached child :=
  program.proper.reached_child reached (program.complete.mem_children reached is link)

theorem admits (reached : context.tree.Reached id) (is : context.tree.form? id = some form)
    (link : child ∈ form.links context.tree.list) : context.tree.admits form child = true :=
  program.plain.admits program.complete reached is link

theorem kind_of_reached (reached : context.tree.Reached id) (is : context.tree.form? id = some form) :
    form.isFirstOrder = true ∨ form.isBind = true ∨ ∃ key value, form = .pair key value :=
  program.plain.kind_of_reached program.proper reached is

/-- Only binds declare names. -/
theorem is_bind_of_declares (reached : context.tree.Reached id) (declares : context.declares id name = true) :
    ∃ value declared variadic, context.tree.form? id = some (.bind name value declared variadic) := by
  obtain ⟨form, is, declared⟩ := Option.bind_eq_some_iff.mp (declares_iff.mp declares)
  have kind := program.kind_of_reached reached is
  cases form with
  | bind name' value type variadic =>
    have same : name' = name := by simpa [Form.declaredName?] using declared
    exact ⟨value, type, variadic, by rw [is, same]⟩
  | function | record | borrow => simp [Form.isFirstOrder, Form.isBind] at kind
  | _ => simp [Form.declaredName?] at declared

/-- No bind is visible inside itself. -/
theorem mayRecurse_of_reached (reached : context.tree.Reached id) : context.mayRecurse id = false := by
  unfold mayRecurse
  cases is : context.tree.form? id with
  | none => rfl
  | some form =>
    have kind := program.kind_of_reached reached is
    cases form with
    | function | record => simp [Form.isFirstOrder, Form.isBind] at kind
    | bind name value declared variadic =>
      have link : value ∈ (Form.bind name value declared variadic : Form).links context.tree.list := by
        simp [Form.links]
      obtain ⟨form', is', fits⟩ := Tree.form?_of_admits (program.admits reached is link)
      dsimp only
      rw [is']
      cases form' with
      | function => simp [Form.isFirstOrder] at fits
      | _ => rfl
    | _ => rfl

/-- A node passes on what it sees, unless it is a block. -/
theorem visible?_of_link (reached : context.tree.Reached parent) (is : context.tree.form? parent = some form)
    (other : ∀ statements, form ≠ .block statements) (link : child ∈ context.tree.children parent) (name : String) :
    context.visible? child name = context.visible? parent name := by
  have kind := program.kind_of_reached reached is
  have nothing : context.inParent? parent child name = none := by
    cases form with
    | block statements => exact absurd rfl (other statements)
    | function | record => simp [Form.isFirstOrder, Form.isBind] at kind
    | _ => simp [inParent?, is]
  rw [visible?_of_child program.proper program.indexed reached link, nothing, Option.none_or]

/-- A statement sees the binds before it, and then what its block sees. -/
theorem visible?_of_earlier {block : NodeId} {statements : ChildList} {position : Nat} {statement : NodeId}
    (reached : context.tree.Reached block) (is : context.tree.form? block = some (.block statements))
    (there : (context.tree.list statements)[position]? = some statement) (name : String) :
    context.visible? statement name =
      ((context.latest? ((context.tree.list statements).take position) name).map .bind).or
        (context.visible? block name) := by
  have children {other : NodeId} (among : other ∈ context.tree.list statements) :
      other ∈ context.tree.children block :=
    program.complete.mem_children reached is (by simpa [Form.links] using among)
  have statementReached := program.proper.reached_child reached (children (List.mem_of_getElem? there))
  rw [visible?_of_statement program.proper program.indexed reached is
      (fun other among => Tree.isPresent_of_mem_children (children among)) there,
    program.mayRecurse_of_reached statementReached, Bool.and_false, if_neg (by simp), latest?]
  cases found : ((context.tree.list statements).take position).reverse.find? fun earlier =>
    context.declares earlier name with
  | none => rfl
  | some bind =>
    have among := List.mem_of_mem_take (List.mem_reverse.mp (List.mem_of_find?_eq_some found))
    obtain ⟨_, _, _, is'⟩ := program.is_bind_of_declares (program.proper.reached_child reached (children among))
      (@List.find?_some _ (fun earlier => context.declares earlier name) _ _ found)
    simp [definitionOf, is']

/-- What is visible among the nodes is a bind. -/
theorem exists_bind_of_visible (reached : context.tree.Reached id) {definition : Definition}
    (visible : context.visible? id name = some definition) :
    ∃ bind, definition = .bind bind ∧ context.tree.Reached bind := by
  refine program.proper.reached_induction (motive := fun id => context.visible? id name = some definition →
    ∃ bind, definition = .bind bind ∧ context.tree.Reached bind) ?_ ?_ reached visible
  · intro visible
    simp [visible?_root program.proper program.indexed] at visible
  · intro child parent above link hypothesis visible
    obtain ⟨form, is, link'⟩ := Tree.child_of_mem_children link
    by_cases block : ∃ statements, form = .block statements
    · obtain ⟨statements, rfl⟩ := block
      obtain ⟨position, there⟩ := List.getElem?_of_mem (show child ∈ context.tree.list statements from link')
      rw [program.visible?_of_earlier above is there] at visible
      cases found : context.latest? ((context.tree.list statements).take position) name with
      | none => exact hypothesis (by simpa [found] using visible)
      | some bind =>
        rw [found] at visible
        cases visible
        have among := List.mem_of_mem_take (List.mem_reverse.mp (List.mem_of_find?_eq_some found))
        exact ⟨bind, rfl, program.proper.reached_child above (program.complete.mem_children above is among)⟩
    · rw [program.visible?_of_link above is (fun statements same => block ⟨statements, same⟩) link] at visible
      exact hypothesis visible

/-! ### Questions about types -/

/-- A name refers to a bind, to a stream or to a native. -/
theorem resolve?_cases (reached : context.tree.Reached id) {definition : Definition}
    (resolved : context.resolve? id name = some definition) :
    (∃ bind, definition = .bind bind ∧ context.tree.Reached bind) ∨ (∃ index, definition = .stream index) ∨
      ∃ index, definition = .native index := by
  rw [resolve?_eq] at resolved
  cases visible : context.visible? id name with
  | some found =>
    rw [visible] at resolved
    cases resolved
    exact .inl (program.exists_bind_of_visible reached visible)
  | none =>
    rw [visible, Option.none_or] at resolved
    exact .inr (outermost?_cases resolved)

theorem reached_of_asks {asked : NodeId} (asks : context.Asks asked id) : context.tree.Reached asked := by
  obtain ⟨reached, link | ⟨name, is, resolved⟩⟩ := asks
  · exact program.proper.reached_child reached link
  · rcases program.resolve?_cases reached resolved with ⟨_, same, bindReached⟩ | other | other
    · cases same
      exact bindReached
    · simp at other
    · simp at other

/-- Questions about a node come to an end if those about the binds that it sees do. -/
theorem acc_asks_of_visible (reached : context.tree.Reached id)
    (binds : ∀ name bind, context.visible? id name = some (.bind bind) → Acc context.Asks bind) :
    Acc context.Asks id := by
  obtain ⟨rank, lower, -⟩ := Tree.exists_rank program.proper.acyclic
  induction size : rank id using Nat.strong_induction_on generalizing id with
  | _ _ hypothesis =>
    subst size
    refine .intro id fun asked asks => ?_
    obtain ⟨-, link | ⟨name, -, resolved⟩⟩ := asks
    case inr => exact binds name asked (resolve?_eq_bind_iff.mp resolved)
    obtain ⟨form, is, link'⟩ := Tree.child_of_mem_children link
    have below (child : NodeId) (link : child ∈ context.tree.children id) : rank child < rank id :=
      lower child id (Tree.child_of_mem_children link)
    by_cases block : ∃ statements, form = .block statements
    case neg =>
      refine hypothesis _ (below asked link) (program.proper.reached_child reached link)
        (fun name bind visible => ?_) rfl
      rw [program.visible?_of_link reached is (fun statements same => block ⟨statements, same⟩) link] at visible
      exact binds name bind visible
    -- A statement asks about earlier ones, so the statements of a block are taken up in order.
    obtain ⟨statements, rfl⟩ := block
    have each (position : Nat) (statement : NodeId)
        (there : (context.tree.list statements)[position]? = some statement) : Acc context.Asks statement := by
      induction position using Nat.strong_induction_on generalizing statement with
      | _ position earlier =>
        have link := program.complete.mem_children reached is (show statement ∈ context.tree.list statements from
          List.mem_of_getElem? there)
        refine hypothesis _ (below statement link) (program.proper.reached_child reached link)
          (fun name bind visible => ?_) rfl
        rw [program.visible?_of_earlier reached is there] at visible
        cases found : context.latest? ((context.tree.list statements).take position) name with
        | none => exact binds name bind (by simpa [found] using visible)
        | some other =>
          rw [found] at visible
          cases visible
          have among := List.mem_reverse.mp (List.mem_of_find?_eq_some found)
          obtain ⟨before, here⟩ := List.getElem?_of_mem among
          rw [List.getElem?_take] at here
          split at here
          · exact earlier before ‹_› bind here
          · simp at here
    obtain ⟨position, there⟩ := List.getElem?_of_mem (show asked ∈ context.tree.list statements from link')
    exact each position asked there

/-- No question about a type leads back to where it was asked. -/
theorem acyclic_asks (id : NodeId) : ¬ Relation.TransGen context.Asks id id := by
  have root : Acc context.Asks context.tree.root := by
    refine program.acc_asks_of_visible program.proper.reached_root fun name bind visible => ?_
    simp [visible?_root program.proper program.indexed] at visible
  have all (id : NodeId) (reached : context.tree.Reached id) : Acc context.Asks id :=
    program.proper.reached_induction root (fun child parent above link acc => acc.inv ⟨above, .inl link⟩) reached
  intro cycle
  have reached : context.tree.Reached id := by
    obtain ⟨_, -, last⟩ := Relation.TransGen.tail'_iff.mp cycle
    exact last.1
  induction (all id reached).transGen with
  | intro id _ hypothesis => exact hypothesis id cycle cycle reached

end FirstOrder

end Context

end Rivulet
