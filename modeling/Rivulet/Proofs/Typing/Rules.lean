import Rivulet.Proofs.Analysis.Acceptance
import Rivulet.Proofs.Typing.Memo
import Rivulet.Proofs.Value.Conformance

/-!
What an analysis without blocking conflicts has established about the types of a first-order program. The types of a
node and of its children have to do with each other as the form of the node demands (`Context.Typed`), provided that no
type leaves anything open.

Main statements: `typeOf_analyze` and `typed_of_analyze`.
-/

namespace Rivulet

open Checking Context

/-! ### Typing -/

/-- What the types of a node and of its children have to do with each other, so that the node can be evaluated. -/
def Context.Typed (context : Context) (type : NodeId → Ty) (id : NodeId) (form : Form) : Prop :=
  let tree := context.tree
  match form with
  | .program body => type body = type id
  | .block statements =>
    (∃ last, (tree.list statements).getLast? = some last ∧ type last = type id) ∧
      (declaredNames tree (tree.list statements)).Nodup
  | .bind _ value _ _ => type value = type id
  | .number literal measure => type id = .number measure ∧ (Quantity.ofText? literal measure).isSome
  | .boolean _ => type id = .boolean
  | .text _ => type id = .text
  | .none => type id = .none
  | .sequence items => ∃ item, type id = .sequence item ∧ ∀ child ∈ tree.list items, type child = item
  | .set items => ∃ item, type id = .set item ∧ ∀ child ∈ tree.list items, type child = item
  | .mapping entries => ∃ key value, type id = .mapping key value ∧
      ∀ pair ∈ Typing.pairsOf tree (tree.list entries), type pair.1 = key ∧ type pair.2 = value
  | .reference name =>
    (∃ bind, context.resolve? id name = some (.bind bind) ∧ type bind = type id) ∨
      ∃ index stream, context.resolve? id name = some (.stream index) ∧ context.streams[index]? = some stream ∧
        stream.valueType = type id
  | .binary op left right => op.Takes (type left) (type right) (type id)
  | .unary op operand => op.Takes (type operand) (type id)
  | .conditional condition yes no => type condition = .boolean ∧ type yes = type id ∧ type no = type id
  | _ => True

/-- Whether the rule of a node compares types. -/
def Form.comparesTypes : Form → Bool
  | bind .. | binary .. | unary .. | conditional .. => true
  | _ => false

/-! ### Operators -/

/-- Operands whose types are checked are taken by their operator. -/
theorem BinaryOp.takes_of_operandConflicts {op : BinaryOp} {leftType rightType : Ty} {node left right : NodeId}
    (known : (binaryType op leftType rightType).mentionsAny = false) (leftKnown : leftType.mentionsAny = false)
    (rightKnown : rightType.mentionsAny = false) (other : op ≠ .equal ∧ op ≠ .notEqual ∧ op.isLogical = false)
    (fits : ∀ conflict ∈ operandConflicts op leftType rightType node left right, conflict.isBlocking = false) :
    op.Takes leftType rightType (binaryType op leftType rightType) := by
  -- Operands of other types than these are reported.
  have misfit (conflicts : operandConflicts op leftType rightType node left right =
      [.between (.incompatibleOperand op) (if acceptsLeft op leftType then right else left) node]) : False := by
    rw [conflicts] at fits
    have := fits _ List.mem_cons_self
    simp [Conflict.isBlocking, Conflict.between, Problem.severity] at this
  cases leftType with
  | number first =>
    cases rightType with
    | number second =>
      -- Only products and quotients mix measures.
      have same (arithmetic : op ≠ .multiply ∧ op ≠ .divide) : first = second := by
        have found := holds_of_reportIf rfl fits
        simpa [arithmetic.1, arithmetic.2] using found
      cases op with
      | add | subtract | remainder =>
        obtain rfl := same (by simp)
        simpa [binaryType] using BinaryOp.Takes.arithmetic (by simp) first
      | multiply => exact .product first second
      | divide => exact .quotient first second
      | less | lessEqual | greater | greaterEqual =>
        obtain rfl := same (by simp)
        exact .order rfl first
      | equal | notEqual | and | or => simp [BinaryOp.isLogical] at other
    | _ => exact (misfit rfl).elim
  | text =>
    cases rightType with
    | text =>
      cases op with
      | add => exact .joinTexts
      | less | lessEqual | greater | greaterEqual => exact .orderTexts rfl
      | subtract | remainder | multiply | divide => exact (misfit rfl).elim
      | equal | notEqual | and | or => simp [BinaryOp.isLogical] at other
    | _ => exact (misfit rfl).elim
  | sequence first =>
    cases rightType with
    | sequence second =>
      cases op with
      | add =>
        have items := @Ty.eq_common [first, second] (Ty.isAny_eq_false known) fun type among => by
          rcases List.mem_pair.mp among with rfl | rfl
          · exact Ty.isAny_eq_false leftKnown
          · exact Ty.isAny_eq_false rightKnown
        obtain rfl : second = first := (items second (by simp)).trans (items first (by simp)).symm
        simp only [binaryType]
        rw [← items second (by simp)]
        exact .join second
      | equal | notEqual | and | or => simp [BinaryOp.isLogical] at other
      | _ => exact (misfit rfl).elim
    | _ => exact (misfit rfl).elim
  | _ => exact (misfit rfl).elim

/-! ### Checking -/

namespace Context

/-- The types of all reached nodes leave nothing open. -/
def Known (context : Context) (type : NodeId → Ty) : Prop :=
  ∀ id, context.tree.Reached id → (type id).mentionsAny = false

/-- Nodes whose one type is known all have it. -/
theorem Known.eq_common {context : Context} {type : NodeId → Ty} (known : context.Known type) {nodes : List NodeId}
    (reached : ∀ node ∈ nodes, context.tree.Reached node) (whole : (Ty.common (nodes.map type)).mentionsAny = false) :
    ∀ node ∈ nodes, type node = Ty.common (nodes.map type) := by
  intro node among
  refine Ty.eq_common (Ty.isAny_eq_false whole) ?_ _ (List.mem_map_of_mem among)
  intro other found
  obtain ⟨node', there, rfl⟩ := List.mem_map.mp found
  exact Ty.isAny_eq_false (known node' (reached node' there))

/-- A rule keeps the memory of types, and unless it finds something that blocks, a fact holds. -/
def Establishes {σ : Type} (checking : Checking σ) (rule : TypeM σ (List Conflict)) (fact : Prop) : Prop :=
  Settles (checking.context.Remembers fun _ => False) rule fun conflicts =>
    (∀ conflict ∈ conflicts, conflict.isBlocking = false) → checking.context.Known checking.context.staticType → fact

section

variable {σ : Type} {checking : Checking σ} {rule : TypeM σ (List Conflict)} {fact fact' : Prop}

theorem Establishes.mono (establishes : Establishes checking rule fact)
    (implied : checking.context.Known checking.context.staticType → fact → fact') :
    Establishes checking rule fact' := by
  intro state remembers
  obtain ⟨found, kept⟩ := establishes state remembers
  exact ⟨fun none known => implied known (found none known), kept⟩

theorem establishes_pure {conflicts : List Conflict}
    (holds : (∀ conflict ∈ conflicts, conflict.isBlocking = false) →
      checking.context.Known checking.context.staticType → fact) :
    Establishes checking (pure conflicts) fact :=
  settles_pure holds

/-- A rule may complain about something else first. -/
theorem Establishes.after (establishes : Establishes checking rule fact) (others : List Conflict) :
    Establishes checking (rule >>= fun found => pure (others ++ found)) fact :=
  settles_bind establishes fun _ found =>
    settles_pure fun none => found fun conflict among => none conflict (List.mem_append_right _ among)

/-- Two rules establish two facts. -/
theorem Establishes.both {rule' : TypeM σ (List Conflict)} (establishes : Establishes checking rule fact)
    (establishes' : Establishes checking rule' fact') :
    Establishes checking (rule >>= fun first => rule' >>= fun second => pure (first ++ second)) (fact ∧ fact') :=
  settles_bind establishes fun _ found => settles_bind establishes' fun _ found' =>
    settles_pure fun none known =>
      ⟨found (fun conflict among => none conflict (List.mem_append_left _ among)) known,
        found' (fun conflict among => none conflict (List.mem_append_right _ among)) known⟩

end

namespace FirstOrder

variable {σ : Type} {checking : Checking σ} {id : NodeId} {form : Form} (program : checking.context.FirstOrder)

include program

/-- A type that fits where it is used is the type that is expected there. -/
theorem establishes_expectType {expected : Ty} {node : NodeId} (related : NodeId)
    (reached : checking.context.tree.Reached node)
    (definite : checking.context.Known checking.context.staticType → expected.mentionsAny = false) :
    Establishes checking (checking.expectType expected node related)
      (checking.context.staticType node = expected) := by
  refine (program.answers_typeOf checking.lookup reached).bind (establishes_pure fun none known => ?_)
  have accepted := holds_of_reportIf rfl none
  exact (Ty.eq_of_accepts _ _ (by simpa using accepted) (definite known) (known node reached)).symm

variable (reached : checking.context.tree.Reached id)

include reached

theorem isMissing_of_link (is : checking.context.tree.form? id = some form) {child : NodeId}
    (link : child ∈ form.links checking.context.tree.list) : child.isMissing = false := by
  cases child with
  | missing => exact absurd rfl (program.complete id form .missing reached is link)
  | node => rfl

/-! ### Rules that ask for types -/

theorem establishes_bind {name : String} {value : NodeId} {declared : Option Ty} {variadic : Bool}
    (is : checking.context.tree.form? id = some (.bind name value declared variadic)) :
    Establishes checking (checking.check id)
      (checking.context.Typed checking.context.staticType id (.bind name value declared variadic)) := by
  have link : value ∈ (Form.bind name value declared variadic : Form).links checking.context.tree.list := by
    simp [Form.links]
  have typeIs := program.staticType_eq reached is
  simp only [check, is]
  refine Establishes.after ?_ _
  cases declared with
  | none => exact establishes_pure fun _ _ => typeIs.symm
  | some declared =>
    simp only [checkDeclared, program.isMissing_of_link reached is link, Bool.false_eq_true, if_false]
    have declaredIs : checking.context.staticType id = declared := typeIs
    refine (program.establishes_expectType id (program.reached_of_link reached is link) fun known => ?_).mono
      fun _ same => same.trans declaredIs.symm
    exact declaredIs ▸ known id reached

theorem establishes_unary {op : UnaryOp} {operand : NodeId}
    (is : checking.context.tree.form? id = some (.unary op operand)) :
    Establishes checking (checking.check id)
      (checking.context.Typed checking.context.staticType id (.unary op operand)) := by
  have link : operand ∈ (Form.unary op operand : Form).links checking.context.tree.list := by simp [Form.links]
  have operandReached := program.reached_of_link reached is link
  have typeIs : checking.context.staticType id = unaryType op (checking.context.staticType operand) :=
    program.staticType_eq reached is
  simp only [check, is, Typed, program.isMissing_of_link reached is link, Bool.false_eq_true, if_false, checkUnary]
  refine Establishes.after ((program.answers_typeOf checking.lookup operandReached).bind ?_) _
  rw [typeIs]
  cases op with
  | negate =>
    cases found : checking.context.staticType operand with
    | number measure => exact establishes_pure fun _ _ => .negate measure
    | _ =>
      refine (program.establishes_expectType id operandReached fun _ => rfl).mono fun _ same => ?_
      rw [found] at same
      cases same
  | not =>
    refine (program.establishes_expectType id operandReached fun _ => rfl).mono fun _ same => ?_
    rw [same]
    exact .not

theorem establishes_binary {op : BinaryOp} {left right : NodeId}
    (is : checking.context.tree.form? id = some (.binary op left right)) :
    Establishes checking (checking.check id)
      (checking.context.Typed checking.context.staticType id (.binary op left right)) := by
  have link (child : NodeId) (among : child ∈ [left, right]) :
      child ∈ (Form.binary op left right : Form).links checking.context.tree.list := by simpa [Form.links] using among
  have leftReached := program.reached_of_link reached is (link left (by simp))
  have rightReached := program.reached_of_link reached is (link right (by simp))
  have typeIs : checking.context.staticType id =
      binaryType op (checking.context.staticType left) (checking.context.staticType right) :=
    program.staticType_eq reached is
  simp only [check, is, Typed, program.isMissing_of_link reached is (link left (by simp)),
    program.isMissing_of_link reached is (link right (by simp)), Bool.or_self, Bool.false_eq_true, if_false, checkBinary]
  refine Establishes.after ?_ _
  refine (program.answers_typeOf checking.lookup leftReached).bind ?_
  refine (program.answers_typeOf checking.lookup rightReached).bind ?_
  cases logical : op.isLogical with
  | true =>
    refine ((program.establishes_expectType id leftReached fun _ => rfl).both
      (program.establishes_expectType id rightReached fun _ => rfl)).mono fun _ same => ?_
    have boolean : checking.context.staticType id = .boolean := by
      rw [typeIs]
      cases op with
      | and | or => rfl
      | _ => simp [BinaryOp.isLogical] at logical
    rw [boolean, same.1, same.2]
    exact .logic logical
  | false =>
    simp only [Bool.false_eq_true, if_false]
    split
    · rename_i lenient
      refine establishes_pure fun _ known => ?_
      have equality : op = .equal ∨ op = .notEqual := by
        simpa [Ty.isAny_eq_false (known left leftReached), Ty.isAny_eq_false (known right rightReached)] using lenient
      have boolean : checking.context.staticType id = .boolean := by
        rw [typeIs]
        rcases equality with rfl | rfl <;> rfl
      exact boolean ▸ .equality equality _ _
    · rename_i strict
      refine establishes_pure fun none known => ?_
      have other : op ≠ .equal ∧ op ≠ .notEqual ∧ op.isLogical = false := by
        simp only [Bool.or_eq_true, beq_iff_eq, not_or] at strict
        exact ⟨strict.1.1.1, strict.1.1.2, logical⟩
      rw [typeIs]
      exact BinaryOp.takes_of_operandConflicts (typeIs ▸ known id reached) (known left leftReached)
        (known right rightReached) other none

theorem establishes_conditional {condition yes no : NodeId}
    (is : checking.context.tree.form? id = some (.conditional condition yes no)) :
    Establishes checking (checking.check id)
      (checking.context.Typed checking.context.staticType id (.conditional condition yes no)) := by
  have link (child : NodeId) (among : child ∈ [condition, yes, no]) :
      child ∈ (Form.conditional condition yes no : Form).links checking.context.tree.list := by
    simpa [Form.links] using among
  have conditionReached := program.reached_of_link reached is (link condition (by simp))
  have typeIs : checking.context.staticType id = Ty.common ([yes, no].map checking.context.staticType) :=
    program.staticType_eq reached is
  simp only [check, is, program.isMissing_of_link reached is (link condition (by simp)), Bool.false_eq_true, if_false]
  refine Establishes.after ((program.establishes_expectType id conditionReached fun _ => rfl).mono
    fun known same => ?_) _
  have branches := known.eq_common
    (fun branch among => program.reached_of_link reached is (link branch (List.mem_cons_of_mem _ among)))
    (typeIs ▸ known id reached)
  rw [← typeIs] at branches
  exact ⟨same, branches yes (by simp), branches no (by simp)⟩

/-! ### Rules that ask for no types -/

omit program reached in
/-- A native leaves the types of its inputs open. -/
theorem mentionsAny_standard {index : Nat} {native : Native} (found : Natives.standard.get? index = some native) :
    native.signature.mentionsAny = true := by
  have all : ∀ native ∈ (Natives.standard : Natives).definitions, native.signature.mentionsAny = true := by
    simp [Natives.standard, Ty.mentionsAny, Ty.anyMentionsAny]
  exact all native (List.mem_of_getElem? found)

/-- What follows from the form of a node, if its rule is satisfied. -/
theorem typed_of_satisfied (standard : checking.context.natives = .standard)
    (is : checking.context.tree.form? id = some form) (satisfied : Satisfied checking id)
    (known : checking.context.Known checking.context.staticType)
    (other : form.comparesTypes = false) : checking.context.Typed checking.context.staticType id form := by
  have typeIs := program.staticType_eq reached is
  have definite := known id reached
  cases form with
  | program body => exact typeIs.symm
  | block statements =>
    obtain ⟨nonempty, distinct⟩ := block_of_satisfied satisfied is
    have last := List.getLast?_eq_some_getLast nonempty
    refine ⟨⟨_, last, ?_⟩, distinct⟩
    rw [typeIs, typeWith, last]
    rfl
  | number literal measure => exact ⟨typeIs, number_of_satisfied satisfied is⟩
  | boolean | text | none => exact typeIs
  | sequence items =>
    rw [typeIs] at definite
    exact ⟨_, typeIs, known.eq_common (fun item among => program.reached_of_link reached is among) definite⟩
  | set items =>
    rw [typeIs] at definite
    exact ⟨_, typeIs, known.eq_common (fun item among => program.reached_of_link reached is among) definite⟩
  | mapping entries =>
    have parts (pair : NodeId × NodeId)
        (among : pair ∈ Typing.pairsOf checking.context.tree (checking.context.tree.list entries)) :
        checking.context.tree.Reached pair.1 ∧ checking.context.tree.Reached pair.2 := by
      obtain ⟨first, second⟩ := program.precedes_of_pairsOf reached is among
      exact ⟨program.reached_of_precedes first, program.reached_of_precedes second⟩
    rw [typeIs, typeWith] at definite
    simp only [Ty.mentionsAny, Bool.or_eq_false_iff] at definite
    have keys := known.eq_common (fun key among => by
      obtain ⟨pair, there, rfl⟩ := List.mem_map.mp among
      exact (parts pair there).1) definite.1
    have values := known.eq_common (fun value among => by
      obtain ⟨pair, there, rfl⟩ := List.mem_map.mp among
      exact (parts pair there).2) definite.2
    exact ⟨_, _, typeIs, fun pair among => ⟨keys _ (List.mem_map_of_mem among), values _ (List.mem_map_of_mem among)⟩⟩
  | pair => trivial
  | reference name =>
    obtain ⟨definition, resolved⟩ := Option.isSome_iff_exists.mp (reference_of_satisfied satisfied is)
    simp only [typeWith, resolved, Option.map_some, Option.getD_some] at typeIs
    rw [typeIs] at definite
    rcases program.resolve?_cases reached resolved with ⟨bind, rfl, -⟩ | ⟨index, rfl⟩ | ⟨index, rfl⟩
    · exact .inl ⟨bind, resolved, typeIs.symm⟩
    · simp only [definitionTypeBy] at definite typeIs
      cases there : checking.context.streams[index]? with
      | none => simp [there, Ty.mentionsAny] at definite
      | some stream =>
        simp only [there, Option.map_some, Option.getD_some] at typeIs
        exact .inr ⟨index, stream, resolved, there, typeIs.symm⟩
    · -- The natives have types that leave something open, and no name may refer to one.
      simp only [definitionTypeBy, standard] at definite
      cases there : (Natives.standard : Natives).get? index with
      | none => simp [there, Ty.mentionsAny] at definite
      | some native => simp [there, mentionsAny_standard there] at definite
  | function | record | property | call | changed | borrow | placeholder | unparsable =>
    simpa [Form.isFirstOrder, Form.isBind] using program.kind_of_reached reached is
  | bind | binary | unary | conditional => simp [Form.comparesTypes] at other

/-- The rule of a node establishes that the node is typed. -/
theorem establishes_check (standard : checking.context.natives = .standard)
    (is : checking.context.tree.form? id = some form) :
    Establishes checking (checking.check id) (checking.context.Typed checking.context.staticType id form) := by
  have independent (made : ∃ conflicts, checking.check id = pure conflicts) (other : form.comparesTypes = false) :
      Establishes checking (checking.check id) (checking.context.Typed checking.context.staticType id form) := by
    obtain ⟨conflicts, made⟩ := made
    intro state remembers
    rw [made]
    refine ⟨fun none known => ?_, remembers⟩
    exact program.typed_of_satisfied reached standard is ⟨state, by rw [made]; exact none⟩ known other
  cases form with
  | bind => exact program.establishes_bind reached is
  | unary => exact program.establishes_unary reached is
  | binary => exact program.establishes_binary reached is
  | conditional => exact program.establishes_conditional reached is
  | function | record | property | call | changed | borrow | placeholder | unparsable =>
    simpa [Form.isFirstOrder, Form.isBind] using program.kind_of_reached reached is
  | _ =>
    refine independent ⟨?_, ?made⟩ rfl
    case made =>
      simp only [check, is]
      rfl

end FirstOrder

/-! ### Analyses -/

section

variable {σ : Type} {tree : Tree} {natives : Natives} {streams : List StreamSignature} {lookup : SourceLookup σ}
  {host : σ}

theorem settles_mapM {α β : Type} {inv : TypeState σ → Prop} {each : α → TypeM σ β} {good : α → β → Prop}
    {elements : List α} (settles : ∀ element ∈ elements, Settles inv (each element) (good element)) :
    Settles inv (elements.mapM each) fun results => ∀ element ∈ elements, ∃ result ∈ results, good element result := by
  induction elements with
  | nil => exact settles_pure (by simp)
  | cons first rest hypothesis =>
    rw [List.mapM_cons]
    refine settles_bind (settles first (by simp)) fun result holds => ?_
    refine settles_bind (hypothesis fun element among => settles element (by simp [among])) fun results all => ?_
    refine settles_pure fun element among => ?_
    rcases List.mem_cons.mp among with rfl | later
    · exact ⟨result, by simp, holds⟩
    · obtain ⟨found, there, holds⟩ := all element later
      exact ⟨found, by simp [there], holds⟩

/-- The types of some nodes are asked for one after the other, and none is lost that was found before. -/
theorem settles_typesFrom {checking : Checking σ} (program : checking.context.FirstOrder) {reachable : List NodeId}
    (reached : ∀ id ∈ reachable, checking.context.tree.Reached id) {types : Array Ty}
    (size : types.size = checking.context.tree.size) :
    Settles (checking.context.Remembers fun _ => False)
      (reachable.foldlM
        (fun types id => do
          match id with
          | .missing => pure types
          | .node index => pure (types.setIfInBounds index (← checking.typeOf id))) types)
      fun result => ∀ index, .node index ∈ reachable ∨
        types[index]? = some (checking.context.staticType (.node index)) →
          result[index]? = some (checking.context.staticType (.node index)) := by
  induction reachable generalizing types with
  | nil => exact settles_pure (by simp)
  | cons id rest hypothesis =>
    have here := reached id (by simp)
    obtain ⟨index, rfl⟩ := Parents.isPresent_of_form? (program.proper.isSome_of_reached here)
    have bound : index < types.size := size ▸ Tree.lt_size_of_form? (program.proper.isSome_of_reached here)
    rw [List.foldlM_cons]
    simp only [bind_assoc, pure_bind]
    refine (program.answers_typeOf checking.lookup here).bind ?_
    have later := @hypothesis (fun other among => reached other (by simp [among]))
      (types.setIfInBounds index (checking.context.staticType (.node index))) (by simpa using size)
    intro state remembers
    obtain ⟨found, kept⟩ := later state remembers
    refine ⟨fun other either => found other ?_, kept⟩
    by_cases same : other = index
    · subst same
      exact .inr (by simp [bound])
    · rw [Array.getElem?_setIfInBounds_ne (Ne.symm same)]
      exact either.imp_left fun among => (List.mem_cons.mp among).resolve_left (by simpa using same)

/-- The table of types has the type of every node that was asked for. -/
theorem settles_typesOf {checking : Checking σ} (program : checking.context.FirstOrder) {reachable : List NodeId}
    (reached : ∀ id ∈ reachable, checking.context.tree.Reached id) :
    Settles (checking.context.Remembers fun _ => False) (Analysis.typesOf checking reachable) fun types =>
      ∀ index, .node index ∈ reachable → types[index]? = some (checking.context.staticType (.node index)) := by
  have size : (Array.replicate checking.context.tree.size Ty.any).size = checking.context.tree.size := by simp
  intro state remembers
  obtain ⟨found, kept⟩ := settles_typesFrom program reached size state remembers
  exact ⟨fun index among => found index (.inl among), kept⟩

section

variable (proper : tree.Proper) (plain : tree.FirstOrder)

include proper plain

theorem isStatement_of_bind {id : NodeId} (reached : tree.Reached id) {name : String} {value : NodeId}
    {declared : Option Ty} {variadic : Bool} (is : tree.form? id = some (.bind name value declared variadic)) :
    isStatement (.ofTree tree natives streams) id = true := by
  refine proper.reached_induction (motive := fun id => tree.form? id = some (.bind name value declared variadic) →
    isStatement (.ofTree tree natives streams) id = true) ?_ ?_ reached is
  · intro is
    have root := plain.root
    simp [is, Form.isFirstOrder] at root
  · intro child parent above link _ is
    obtain ⟨form, is', link'⟩ := Tree.child_of_mem_children link
    have present : child ≠ .missing := by
      rintro rfl
      simp [Tree.form?_missing] at is
    obtain ⟨form', is'', fits⟩ := Tree.form?_of_admits
      ((plain.links parent form child above is' link').resolve_left fun absent => present absent.1)
    rw [is] at is''
    cases is''
    have around : (Parents.ofTree tree).parent? child = some parent := proper.parent?_of_child above link
    cases form with
    | block statements => simp [isStatement, Context.ofTree, around, is']
    | _ => simp [Form.isFirstOrder] at fits

/-- Without blocking conflicts no child is missing. -/
theorem complete_of_analyze (unblocked : (Analysis.analyze tree natives streams lookup host).1.isBlocked = false) :
    tree.Complete := by
  intro id form child reached is link
  obtain ⟨references, state, none⟩ := satisfied_of_analyze unblocked reached
  have demanded (links : List NodeId) (required : ∀ conflict ∈ require id links, conflict.isBlocking = false)
      (among : child ∈ links) : child ≠ .missing := by
    have found := List.any_eq_false.mp (holds_of_reportIf rfl required) child among
    rintro rfl
    simp [NodeId.isMissing] at found
  have kind := plain.kind_of_reached proper reached is
  have is' : (Context.ofTree tree natives streams).tree.form? id = some form := is
  simp only [check, is'] at none
  cases form with
  | program | sequence | set | pair => exact demanded _ none link
  | block =>
    refine demanded _ (fun conflict among => none conflict ?_) link
    exact List.mem_append_left _ (List.mem_append_left _ (List.mem_append_left _ among))
  | bind name value declared variadic =>
    rw [isStatement_of_bind proper plain reached is] at none
    exact demanded _ (fun conflict among => none conflict (List.mem_append_left _ among)) link
  | binary | unary | conditional =>
    dsimp only at none
    split at none <;> exact demanded _ (fun conflict among => none conflict (List.mem_append_left _ among)) link
  | mapping =>
    have admitted := (plain.links id _ child reached is link).resolve_left fun absent => by
      simp [Form.isMapping] at absent
    obtain ⟨form', is', -⟩ := Tree.form?_of_admits admitted
    rintro rfl
    simp [Tree.form?_missing] at is'
  | number | boolean | text | none | reference => simp [Form.links] at link
  | function | record | property | call | changed | borrow | placeholder | unparsable =>
    simp [Form.isFirstOrder, Form.isBind] at kind

end

section

variable (program : (Context.ofTree tree natives streams).FirstOrder) (standard : natives = .standard)
  (lookup : SourceLookup σ) (host : σ)

include program standard

/-- The rules of all nodes establish that the nodes are typed. -/
theorem settles_checks (references : References) :
    Settles ((Context.ofTree tree natives streams).Remembers fun _ => False)
      ((tree.descendants tree.root).mapM (Checking.check ⟨.ofTree tree natives streams, references, lookup⟩))
      fun results => ∀ id ∈ tree.descendants tree.root, ∃ conflicts ∈ results,
        (∀ conflict ∈ conflicts, conflict.isBlocking = false) →
          (Context.ofTree tree natives streams).Known (Context.ofTree tree natives streams).staticType →
            ∀ form, tree.form? id = some form → (Context.ofTree tree natives streams).Typed
              (Context.ofTree tree natives streams).staticType id form := by
  refine settles_mapM fun id reached => ?_
  obtain ⟨form, is⟩ : ∃ form, tree.form? id = some form :=
    Option.isSome_iff_exists.mp (program.proper.isSome_of_reached reached)
  have establishes := @FirstOrder.establishes_check _ ⟨.ofTree tree natives streams, references, lookup⟩ id form program
    reached standard is
  refine establishes.mono fun _ typed form' is' => ?_
  rw [is, Option.some.injEq] at is'
  exact is' ▸ typed

/-- The analysis tells of every reached node the type that it has. -/
theorem typeOf_analyze {id : NodeId} (reached : tree.Reached id) :
    (Analysis.analyze tree natives streams lookup host).1.typeOf id =
      (Context.ofTree tree natives streams).staticType id := by
  obtain ⟨index, rfl⟩ := Parents.isPresent_of_form? (program.proper.isSome_of_reached reached)
  let context := Context.ofTree tree natives streams
  let checking : Checking σ := ⟨context, context.referencesOf (tree.descendants tree.root), lookup⟩
  have kept := (settles_checks program standard lookup checking.references _ (@remembers_initial _ context _ host)).2
  have table := (@settles_typesOf _ checking program (tree.descendants tree.root) (fun _ among => among) _ kept).1
  have found : (Analysis.analyze tree natives streams lookup host).1.types[index]? =
      some (context.staticType (.node index)) := table index reached
  rw [Analysis.typeOf, found, Option.getD_some]

/-- If nothing blocks and no type leaves anything open, all nodes are typed. -/
theorem typed_of_analyze (unblocked : (Analysis.analyze tree natives streams lookup host).1.isBlocked = false)
    (known : ∀ id, tree.Reached id →
      ((Analysis.analyze tree natives streams lookup host).1.typeOf id).mentionsAny = false)
    {id : NodeId} {form : Form} (reached : tree.Reached id) (is : tree.form? id = some form) :
    (Context.ofTree tree natives streams).Typed (Context.ofTree tree natives streams).staticType id form := by
  let context := Context.ofTree tree natives streams
  obtain ⟨conflicts, found, typed⟩ := (settles_checks program standard lookup
    (context.referencesOf (tree.descendants tree.root)) _ (@remembers_initial _ context _ host)).1 id reached
  refine typed (fun conflict among => ?_) (fun id reached => ?_) form is
  · have listed : conflict ∈ (Analysis.analyze tree natives streams lookup host).1.conflicts :=
      List.mem_flatten.mpr ⟨_, found, among⟩
    simpa using List.any_eq_false.mp unblocked conflict listed
  · rw [← typeOf_analyze program standard lookup host reached]
    exact known id reached

end

end

end Context

end Rivulet
