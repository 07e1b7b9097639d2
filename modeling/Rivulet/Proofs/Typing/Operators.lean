import Rivulet.Analysis.Rules
import Rivulet.Proofs.Typing.Memo
import Rivulet.Proofs.Value.Conformance

/-!
The rules of operators are exact. On operands of known types the rule of an operator complains exactly about what
makes the operator fail, and where it does not the result has the type that the operator is said to have
(`Checking.Foretells`). A rule may ask for a type twice; the second answer is the first one (`typeOf_again`).

Main statement: `operators_foretold`.
-/

namespace Rivulet

/-! ### Asking again -/

namespace Typing

section

variable {σ : Type} {context : Context} {lookup : SourceLookup σ} {ask : NodeId → TypeM σ Ty} {count : Nat}

/-- A computation leaves the number of slots as it is. -/
def KeepsSlots {α : Type} (computation : TypeM σ α) : Prop :=
  ∀ count, Settles (fun state => state.slots.size = count) computation fun _ => True

theorem keepsSlots_pure {α : Type} (value : α) : KeepsSlots (σ := σ) (pure value) :=
  fun _ => settles_pure trivial

theorem KeepsSlots.bind {α β : Type} {computation : TypeM σ α} {next : α → TypeM σ β} (first : KeepsSlots computation)
    (second : ∀ value, KeepsSlots (next value)) : KeepsSlots (computation >>= next) :=
  fun count => settles_bind (first count) fun value _ => second value count

theorem KeepsSlots.map {α β : Type} {computation : TypeM σ α} {answer : α → β} (first : KeepsSlots computation) :
    KeepsSlots (computation >>= fun value => pure (answer value)) :=
  first.bind fun value => keepsSlots_pure (answer value)

theorem keepsSlots_ite {α : Type} {condition : Prop} [Decidable condition] {yes no : TypeM σ α} (first : KeepsSlots yes)
    (second : KeepsSlots no) : KeepsSlots (if condition then yes else no) := by
  split
  · exact first
  · exact second

theorem keepsSlots_mapM {α β : Type} {each : α → TypeM σ β} (keeps : ∀ element, KeepsSlots (each element))
    (elements : List α) : KeepsSlots (elements.mapM each) := by
  induction elements with
  | nil => exact keepsSlots_pure []
  | cons element elements hypothesis =>
    rw [List.mapM_cons]
    exact (keeps element).bind fun _ => hypothesis.map

theorem keepsSlots_askSource (lookup : SourceLookup σ) (source : String) : KeepsSlots (askSource lookup source) :=
  fun _ _ size => ⟨trivial, size⟩

variable (keeps : ∀ id, KeepsSlots (ask id))

include keeps

theorem keepsSlots_inputTypeWith (context : Context) (input : NodeId) :
    KeepsSlots (inputTypeWith context ask input) := by
  unfold inputTypeWith
  cases context.tree.form? input with
  | none => exact keepsSlots_pure _
  | some form =>
    cases form with
    | bind name value declared variadic =>
      cases declared with
      | some type => exact (keepsSlots_pure type).map
      | none => exact keepsSlots_ite (keepsSlots_pure _).map (keeps value).map
    | _ => exact keepsSlots_pure _

theorem keepsSlots_commonOf (nodes : List NodeId) : KeepsSlots (commonOf ask nodes) :=
  (keepsSlots_mapM keeps nodes).map

theorem keepsSlots_definitionTypeWith (context : Context) (definition : Definition) :
    KeepsSlots (definitionTypeWith context ask definition) := by
  cases definition with
  | bind | function | record | borrow => exact keeps _
  | input => exact keepsSlots_inputTypeWith keeps context _
  | stream | native => exact keepsSlots_pure _

theorem keepsSlots_compute (context : Context) (lookup : SourceLookup σ) (id : NodeId) :
    KeepsSlots (compute context lookup ask id) := by
  unfold compute
  dsimp only
  cases context.tree.form? id with
  | none => exact keepsSlots_pure _
  | some form =>
    cases form with
    | program | pair => exact keeps _
    | block | bind =>
      dsimp only
      split
      all_goals first | exact keeps _ | exact keepsSlots_pure _
    | sequence | set => exact (keepsSlots_commonOf keeps _).map
    | mapping => exact (keepsSlots_commonOf keeps _).bind fun _ => (keepsSlots_commonOf keeps _).map
    | reference name =>
      dsimp only
      split
      · exact keepsSlots_definitionTypeWith keeps context _
      · exact keepsSlots_pure _
    | property owner name =>
      refine (keeps owner).bind fun type => ?_
      cases type with
      | record definition =>
        dsimp only
        cases fieldInput? context.tree definition name with
        | none => exact keepsSlots_pure _
        | some input => exact keepsSlots_inputTypeWith keeps context input
      | _ => exact keepsSlots_pure _
    | binary => exact (keeps _).bind fun _ => (keeps _).map
    | unary => exact (keeps _).map
    | conditional => exact keepsSlots_commonOf keeps _
    | function name inputs body output =>
      refine (keepsSlots_mapM (keepsSlots_inputTypeWith keeps context) _).bind fun types => ?_
      cases output with
      | some type => exact (keepsSlots_pure type).map
      | none => exact keepsSlots_ite (keepsSlots_pure _).map (keeps body).map
    | record => exact (keepsSlots_mapM (keepsSlots_inputTypeWith keeps context) _).map
    | call callee arguments =>
      refine (keeps callee).bind fun type => ?_
      cases type <;> exact keepsSlots_pure _
    | borrow source =>
      refine (keepsSlots_askSource lookup source).bind fun answer => ?_
      cases answer <;> exact keepsSlots_pure _
    | _ => exact keepsSlots_pure _

omit keeps

theorem keepsSlots_setSlot (index : Nat) (slot : Slot) : KeepsSlots (σ := σ) (setSlot index slot) :=
  fun _ _ size => ⟨trivial, Array.size_setIfInBounds.trans size⟩

theorem keepsSlots_typeTo (context : Context) (lookup : SourceLookup σ) (depth : Nat) (id : NodeId) :
    KeepsSlots (typeTo context lookup depth id) := by
  induction depth generalizing id with
  | zero => exact keepsSlots_pure _
  | succ depth hypothesis =>
    cases id with
    | missing => exact keepsSlots_pure _
    | node index =>
      refine KeepsSlots.bind (fun _ _ size => ⟨trivial, size⟩) fun state => ?_
      split
      all_goals first | exact keepsSlots_pure _ | skip
      refine (keepsSlots_setSlot index _).bind fun _ => ?_
      refine (keepsSlots_compute hypothesis context lookup _).bind fun _ => ?_
      exact (keepsSlots_setSlot index _).map

/-- Asking for the type of a node again gets the same type, if anything was known about it. -/
theorem typeOf_again (id : NodeId) (state : TypeState σ)
    (known : ((typeOf context lookup id).run state).1.isAny = false) :
    ((typeOf context lookup id).run ((typeOf context lookup id).run state).2).1 =
      ((typeOf context lookup id).run state).1 := by
  unfold typeOf at known ⊢
  cases id with
  | missing => cases known
  | node index =>
    unfold Tree.height at known ⊢
    rw [@Context.run_typeTo σ context state] at known ⊢
    split at known
    · simp [Ty.isAny] at known
    · simp [Ty.isAny] at known
    · rename_i type found
      rw [Context.run_typeTo]
      simp only [found]
    · rename_i found
      -- What was computed is remembered, since the slot of the node is still there.
      have there : index < state.slots.size := (Array.getElem?_eq_some_iff.mp found).1
      have size := (keepsSlots_compute (keepsSlots_typeTo context lookup context.tree.size) context lookup (.node index)
        state.slots.size { state with slots := state.slots.setIfInBounds index .inProgress } (by simp)).2
      rw [Context.run_typeTo]
      simp [size, there]

end

end Typing

/-! ### Operands of known types -/

namespace Value

/-- A value of a known type is one of every type that covers the known type and another one. -/
theorem Conforms.common {type other : Ty} {value : Value} (conforms : value.Conforms type)
    (known : type.isAny = false) : value.Conforms (Ty.common [type, other]) := by
  simp only [Ty.common, Ty.common.go, known, Bool.false_eq_true, if_false]
  split
  · exact conforms
  · exact .any value

theorem Conforms.common' {type other : Ty} {value : Value} (conforms : value.Conforms type) (known : type.isAny = false)
    (known' : other.isAny = false) : value.Conforms (Ty.common [other, type]) := by
  simp only [Ty.common, Ty.common.go, known, known', Bool.false_or, beq_iff_eq, Bool.false_eq_true, if_false]
  split
  · rename_i same
    exact same ▸ conforms
  · exact .any value

end Value

namespace Operators

variable {op : BinaryOp} {leftType rightType : Ty} {left right : Value}

/-- An operator that is neither logical nor a test for equality works on numbers, texts and sequences. -/
theorem binary_of_other (other : op ≠ .equal ∧ op ≠ .notEqual ∧ op.isLogical = false) (left right : Value) :
    binary op left right =
      match left, right with
      | .number first, .number second => onNumbers op first second
      | .text first, .text second =>
        if op == .add then .ok (.text (first ++ second))
        else if op.isComparison then .ok (.boolean (holds op (compareOfLessAndEq first second)))
        else misfit left right
      | .sequence first, .sequence second => if op == .add then .ok (.sequence (first ++ second)) else misfit left right
      | _, _ => misfit left right := by
  cases op with
  | equal | notEqual | and | or => simp [BinaryOp.isLogical] at other
  | _ => cases left <;> cases right <;> rfl

/-- Operands that no rule covers have a wrong kind. -/
theorem exists_of_misfit (left right : Value) :
    ∃ expected found, misfit left right = .error (.typeMismatch expected found) := by
  cases left with
  | _ => exact ⟨_, _, rfl⟩

/-- Numbers of different measures can only be multiplied and divided. -/
theorem onNumbers_of_measure {left right : Quantity} (apart : left.measure ≠ right.measure)
    (adds : op ≠ .multiply ∧ op ≠ .divide) :
    (onNumbers op left right : Except Failure Value) = .error .incompatibleUnits := by
  cases op with
  | add => simp [onNumbers, Quantity.add, apart, numeric, ArithmeticError.failure]
  | subtract =>
    simp [onNumbers, Quantity.subtract, Quantity.add, Quantity.negate, apart, numeric, ArithmeticError.failure]
  | remainder => simp [onNumbers, Quantity.remainder, apart, numeric, ArithmeticError.failure]
  | multiply | divide => simp at adds
  | _ => simp [onNumbers, Quantity.compare, apart, ArithmeticError.failure]

end Operators

/-- The type that a unary operator wants where it finds another: numbers of any measure can be negated. -/
def UnaryOp.wanted (op : UnaryOp) (found : Ty) : Ty :=
  match op, found with
  | .negate, .number measure => .number measure
  | .negate, _ => .plainNumber
  | .not, _ => .boolean

namespace Checking

/-- What the rule of an operator finds tells what the operator does: it yields a value of a type, it fails because it
mixes measures, or it fails on an operand of a wrong kind. -/
inductive Foretells (op : BinaryOp) (type : Ty) : List Problem → Except Failure Value → Prop where
  | nothing {result : Except Failure Value} (yields : Operators.Yields type result) : Foretells op type [] result
  | units : Foretells op type [.incompatibleUnits] (.error .incompatibleUnits)
  | operand (expected found : ValueKind) :
    Foretells op type [.incompatibleOperand op] (.error (.typeMismatch expected found))

section

variable {op : BinaryOp} {leftType rightType type : Ty} {left right : Value} {node first second : NodeId}

theorem Foretells.units_iff {problems : List Problem} {result : Except Failure Value}
    (foretells : Foretells op type problems result) :
    .incompatibleUnits ∈ problems ↔ result = .error .incompatibleUnits := by
  cases foretells with
  | nothing yields =>
    obtain ⟨value, rfl, -⟩ | rfl := yields <;> simp
  | units | operand => simp

theorem Foretells.operand_iff {problems : List Problem} {result : Except Failure Value}
    (foretells : Foretells op type problems result) :
    .incompatibleOperand op ∈ problems ↔ ∃ expected found, result = .error (.typeMismatch expected found) := by
  cases foretells with
  | nothing yields =>
    obtain ⟨value, rfl, -⟩ | rfl := yields <;> simp
  | units | operand => simp

theorem Foretells.yields {problems : List Problem} {result : Except Failure Value}
    (foretells : Foretells op type problems result) (units : .incompatibleUnits ∉ problems)
    (operand : .incompatibleOperand op ∉ problems) : Operators.Yields type result := by
  cases foretells with
  | nothing yields => exact yields
  | units => simp at units
  | operand => simp at operand

theorem foretells_misfit (left right : Value) :
    Foretells op type [.incompatibleOperand op] (Operators.misfit left right) := by
  obtain ⟨expected, found, is⟩ := Operators.exists_of_misfit left right
  exact is ▸ .operand expected found

/-- Numbers fit an operator unless it wants numbers of one measure and they are none. -/
theorem foretells_numbers (other : op ≠ .equal ∧ op ≠ .notEqual ∧ op.isLogical = false) (left right : Quantity) :
    Foretells op (binaryType op (.number left.measure) (.number right.measure))
      ((operandConflicts op (.number left.measure) (.number right.measure) node first second).map (·.problem))
      (Operators.onNumbers op left right) := by
  by_cases scales : op = .multiply ∨ op = .divide
  · obtain rfl | rfl := scales
    · exact .nothing (Operators.yields_ok (.number _ (Quantity.measure_ofParts _ _ _)))
    · exact .nothing (Operators.yields_divide left right)
  · obtain ⟨apart, apart'⟩ := not_or.mp scales
    by_cases same : left.measure = right.measure
    · have none : operandConflicts op (.number left.measure) (.number right.measure) node first second = [] := by
        simp [operandConflicts, reportIf, same]
      rw [none]
      refine .nothing ?_
      cases op with
      | add | subtract | remainder =>
        simpa [binaryType, same] using Operators.yields_arithmetic (by simp) same
      | less | lessEqual | greater | greaterEqual => exact Operators.yields_order rfl same
      | multiply | divide | equal | notEqual | and | or => simp [BinaryOp.isLogical] at apart apart' other
    · rw [Operators.onNumbers_of_measure same ⟨apart, apart'⟩]
      have found : operandConflicts op (.number left.measure) (.number right.measure) node first second =
          [.between .incompatibleUnits node second] := by
        simp [operandConflicts, reportIf, same, apart, apart']
      rw [found]
      exact .units

/-- Texts can be joined and compared. -/
theorem foretells_texts (other : op ≠ .equal ∧ op ≠ .notEqual ∧ op.isLogical = false) (left right : String) :
    Foretells op (binaryType op .text .text) ((operandConflicts op .text .text node first second).map (·.problem))
      (Operators.binary op (.text left) (.text right)) := by
  cases op with
  | add => exact .nothing (Operators.yields_ok (.text _))
  | less | lessEqual | greater | greaterEqual => exact .nothing (Operators.yields_ok (.boolean _))
  | subtract | multiply | divide | remainder => exact foretells_misfit (.text left) (.text right)
  | equal | notEqual | and | or => simp [BinaryOp.isLogical] at other

/-- Sequences can be joined. -/
theorem foretells_sequences (other : op ≠ .equal ∧ op ≠ .notEqual ∧ op.isLogical = false) {leftItem rightItem : Ty}
    (leftKnown : leftItem.isAny = false) (rightKnown : rightItem.isAny = false) {left right : Array Value}
    (leftEach : ∀ item ∈ left.toList, item.Conforms leftItem)
    (rightEach : ∀ item ∈ right.toList, item.Conforms rightItem) :
    Foretells op (binaryType op (.sequence leftItem) (.sequence rightItem))
      ((operandConflicts op (.sequence leftItem) (.sequence rightItem) node first second).map (·.problem))
      (Operators.binary op (.sequence left) (.sequence right)) := by
  cases op with
  | add =>
    refine .nothing (Operators.yields_ok (.sequence fun item among => ?_))
    rw [Array.toList_append, List.mem_append] at among
    exact among.elim (fun among => (leftEach item among).common leftKnown)
      fun among => (rightEach item among).common' rightKnown leftKnown
  | subtract | multiply | divide | remainder | less | lessEqual | greater | greaterEqual =>
    exact foretells_misfit (.sequence left) (.sequence right)
  | equal | notEqual | and | or => simp [BinaryOp.isLogical] at other

/-- The rule of an operator foretells what it does with operands of known types. -/
theorem foretells_operandConflicts (other : op ≠ .equal ∧ op ≠ .notEqual ∧ op.isLogical = false)
    (leftKnown : leftType.mentionsAny = false) (rightKnown : rightType.mentionsAny = false)
    (leftConforms : left.Conforms leftType) (rightConforms : right.Conforms rightType) :
    Foretells op (binaryType op leftType rightType)
      ((operandConflicts op leftType rightType node first second).map (·.problem))
      (Operators.binary op left right) := by
  -- A pair of types that no operator takes is reported, and values of such types are of no use to it.
  cases leftType with
  | any => simp [Ty.mentionsAny] at leftKnown
  | number =>
    obtain - | - | - | ⟨left, rfl⟩ := leftConforms
    cases rightType with
    | number =>
      obtain - | - | - | ⟨right, rfl⟩ := rightConforms
      rw [Operators.binary_of_other other]
      exact foretells_numbers other left right
    | any => simp [Ty.mentionsAny] at rightKnown
    | _ =>
      cases rightConforms
      rw [Operators.binary_of_other other]
      exact foretells_misfit _ _
  | text =>
    cases leftConforms
    cases rightType with
    | text =>
      cases rightConforms
      exact foretells_texts other _ _
    | any => simp [Ty.mentionsAny] at rightKnown
    | _ =>
      cases rightConforms
      rw [Operators.binary_of_other other]
      exact foretells_misfit _ _
  | sequence leftItem =>
    obtain - | - | - | - | - | leftEach := leftConforms
    cases rightType with
    | sequence rightItem =>
      obtain - | - | - | - | - | rightEach := rightConforms
      have leftIs : leftItem.isAny = false := Ty.isAny_eq_false leftKnown
      have rightIs : rightItem.isAny = false := Ty.isAny_eq_false rightKnown
      exact foretells_sequences other leftIs rightIs leftEach rightEach
    | any => simp [Ty.mentionsAny] at rightKnown
    | _ =>
      cases rightConforms
      rw [Operators.binary_of_other other]
      exact foretells_misfit _ _
  | _ =>
    cases leftConforms
    rw [Operators.binary_of_other other]
    exact foretells_misfit _ _

/-- A test for equality is never reported and never fails. -/
theorem yields_equality (is : op = .equal ∨ op = .notEqual) (left right : Value) :
    Operators.Yields (binaryType op leftType rightType) (Operators.binary op left right) := by
  rcases is with rfl | rfl <;> exact Operators.yields_ok (.boolean _)

end

/-- A unary operator fails on values of all types but the one it wants. -/
theorem unary_of_wanted (op : UnaryOp) {type : Ty} {value : Value} (known : type.mentionsAny = false)
    (conforms : value.Conforms type) :
    if (op.wanted type).accepts type then
      ∃ result, Operators.unary op value = .ok result ∧ result.Conforms (unaryType op type)
    else ∃ failure, Operators.unary op value = .error failure := by
  cases op with
  | negate =>
    cases conforms with
    | any => simp [Ty.mentionsAny] at known
    | number number measured =>
      simp only [UnaryOp.wanted, Ty.accepts, Ty.same, beq_self_eq_true, if_true]
      exact ⟨_, rfl, .number _ measured⟩
    | _ => exact ⟨_, rfl⟩
  | not =>
    cases conforms with
    | any => simp [Ty.mentionsAny] at known
    | boolean value => exact ⟨_, rfl, .boolean _⟩
    | _ => exact ⟨_, rfl⟩

/-! ### Nodes -/

section

variable {σ : Type} {checking : Checking σ} {node left right operand : NodeId} {state : TypeState σ}

/-- What is found wrong with a node. -/
def problems (checking : Checking σ) (node : NodeId) (state : TypeState σ) : List Problem :=
  ((checking.check node).run state).1.map (·.problem)

/-- The type of a node when it is asked for. -/
def foundType (checking : Checking σ) (node : NodeId) (state : TypeState σ) : Ty :=
  ((checking.typeOf node).run state).1

/-- The type of a node that is asked for after another one. -/
def foundTypeAfter (checking : Checking σ) (before node : NodeId) (state : TypeState σ) : Ty :=
  checking.foundType node ((checking.typeOf before).run state).2

/-- The type that is computed for a node, which follows from the types of other nodes. -/
def computedType (checking : Checking σ) (node : NodeId) (state : TypeState σ) : Ty :=
  ((Typing.compute checking.context checking.lookup checking.typeOf node).run state).1

theorem run_bind {α β : Type} (computation : TypeM σ α) (next : α → TypeM σ β) (state : TypeState σ) :
    (computation >>= next).run state = (next (computation.run state).1).run (computation.run state).2 :=
  rfl

/-- The rule of a binary operator compares the types of its operands. -/
theorem problems_binary {op : BinaryOp} (is : checking.context.tree.form? node = some (.binary op left right))
    (leftThere : left.isMissing = false) (rightThere : right.isMissing = false) (logical : op.isLogical = false)
    (leftKnown : (checking.foundType left state).isAny = false)
    (rightKnown : (checking.foundTypeAfter left right state).isAny = false) :
    checking.problems node state =
      if op = .equal ∨ op = .notEqual then []
      else (operandConflicts op (checking.foundType left state) (checking.foundTypeAfter left right state) node left
        right).map (·.problem) := by
  have complete : require node [left, right] = [] := by simp [require, reportIf, leftThere, rightThere]
  unfold foundType at leftKnown
  unfold foundTypeAfter foundType at rightKnown
  simp only [problems, check, is, leftThere, rightThere, complete, Bool.or_self, Bool.false_eq_true, if_false,
    List.nil_append, checkBinary, logical, bind_pure, run_bind, leftKnown, rightKnown, Bool.or_eq_true, beq_iff_eq,
    or_false]
  by_cases equality : op = .equal ∨ op = .notEqual
  · rw [if_pos equality, if_pos equality]
    rfl
  · rw [if_neg equality, if_neg equality]
    rfl

/-- An expected type is compared with the one that is found. -/
theorem run_expectType (expected : Ty) (related : NodeId) :
    ((checking.expectType expected node related).run state).1 =
      reportIf (!expected.accepts (checking.foundType node state))
        (.between (.incompatibleType expected (checking.foundType node state)) node related) :=
  rfl

/-- The rule of a unary operator compares the type of its operand with the one it wants, unless it negates a number. -/
theorem problems_unary {op : UnaryOp} (is : checking.context.tree.form? node = some (.unary op operand))
    (there : operand.isMissing = false) (known : (checking.foundType operand state).isAny = false) :
    checking.problems node state =
      (reportIf (!(op.wanted (checking.foundType operand state)).accepts (checking.foundType operand state))
        (.between (.incompatibleType (op.wanted (checking.foundType operand state)) (checking.foundType operand state))
          operand node)).map (·.problem) := by
  have complete : require node [operand] = [] := by simp [require, reportIf, there]
  -- The type of the operand is asked for once more to be compared.
  have again : checking.foundType operand ((checking.typeOf operand).run state).2 = checking.foundType operand state :=
    Typing.typeOf_again operand state known
  simp only [problems, check, is, there, complete, Bool.false_eq_true, if_false, List.nil_append, checkUnary, bind_pure,
    run_bind]
  change List.map _ (StateT.run (match op, checking.foundType operand state with
    | .negate, .number _ => pure []
    | .negate, _ => checking.expectType .plainNumber operand node
    | .not, _ => checking.expectType .boolean operand node) _).1 = _
  have compared (expected : Ty) :
      ((checking.expectType expected operand node).run ((checking.typeOf operand).run state).2).1 =
      reportIf (!expected.accepts (checking.foundType operand state))
        (.between (.incompatibleType expected (checking.foundType operand state)) operand node) := by
    rw [run_expectType, again]
  cases op with
  | negate =>
    cases found : checking.foundType operand state with
    | number measure =>
      simp only [UnaryOp.wanted, Ty.accepts, Ty.same, beq_self_eq_true, Bool.not_true, reportIf, Bool.false_eq_true,
        if_false]
      rfl
    | _ =>
      rw [found] at compared
      exact congrArg _ (compared .plainNumber)
  | not => exact congrArg _ (compared .boolean)

/-- The rule of a binary operator foretells what it does with operands of the types that are found. -/
theorem foretells_binary {op : BinaryOp} (is : checking.context.tree.form? node = some (.binary op left right))
    (leftThere : left.isMissing = false) (rightThere : right.isMissing = false) (logical : op.isLogical = false)
    (leftKnown : (checking.foundType left state).mentionsAny = false)
    (rightKnown : (checking.foundTypeAfter left right state).mentionsAny = false) {first second : Value}
    (firstConforms : first.Conforms (checking.foundType left state))
    (secondConforms : second.Conforms (checking.foundTypeAfter left right state)) :
    Foretells op (binaryType op (checking.foundType left state) (checking.foundTypeAfter left right state))
      (checking.problems node state) (Operators.binary op first second) := by
  rw [problems_binary is leftThere rightThere logical (Ty.isAny_eq_false leftKnown) (Ty.isAny_eq_false rightKnown)]
  by_cases equality : op = .equal ∨ op = .notEqual
  · rw [if_pos equality]
    exact .nothing (yields_equality equality first second)
  · rw [if_neg equality]
    obtain ⟨apart, apart'⟩ := not_or.mp equality
    exact foretells_operandConflicts ⟨apart, apart', logical⟩ leftKnown rightKnown firstConforms secondConforms

/-- The rule of a unary operator reports an operand exactly if the operator fails on it. -/
theorem foretells_unary {op : UnaryOp} (is : checking.context.tree.form? node = some (.unary op operand))
    (there : operand.isMissing = false) (known : (checking.foundType operand state).mentionsAny = false) {value : Value}
    (conforms : value.Conforms (checking.foundType operand state)) :
    if checking.problems node state = [] then
      ∃ result, Operators.unary op value = .ok result ∧ result.Conforms (checking.computedType node state)
    else ∃ failure, Operators.unary op value = .error failure := by
  have typeIs : checking.computedType node state = unaryType op (checking.foundType operand state) := by
    simp only [computedType, Typing.compute, is]
    rfl
  rw [typeIs, problems_unary is there (Ty.isAny_eq_false known)]
  have either := unary_of_wanted op known conforms
  cases accepts : (op.wanted (checking.foundType operand state)).accepts (checking.foundType operand state) <;>
    simpa [reportIf, accepts] using either

/-- The rules of operators are exact. Where the types of the operands are known, the rule of a binary operator that is
not logical reports mixed measures exactly if the operator fails because of them, and a wrong operand exactly if it
fails because of one; if it reports neither, the result is of the type of the operator, or it divides by zero. The rule
of a unary operator reports something exactly if the operator fails, and otherwise the result is of the type of the
node. -/
theorem operators_foretold (checking : Checking σ) (node : NodeId) (state : TypeState σ) :
    (∀ op left right, checking.context.tree.form? node = some (.binary op left right) → left.isMissing = false →
      right.isMissing = false → op.isLogical = false → ∀ leftType rightType,
      checking.foundType left state = leftType → checking.foundTypeAfter left right state = rightType →
      leftType.mentionsAny = false → rightType.mentionsAny = false →
      ∀ first second : Value, first.Conforms leftType → second.Conforms rightType →
        (.incompatibleUnits ∈ checking.problems node state ↔
          Operators.binary op first second = .error .incompatibleUnits) ∧
        (.incompatibleOperand op ∈ checking.problems node state ↔
          ∃ expected found, Operators.binary op first second = .error (.typeMismatch expected found)) ∧
        (.incompatibleUnits ∉ checking.problems node state → .incompatibleOperand op ∉ checking.problems node state →
          Operators.Yields (binaryType op leftType rightType) (Operators.binary op first second))) ∧
    ∀ op operand, checking.context.tree.form? node = some (.unary op operand) → operand.isMissing = false →
      ∀ type, checking.foundType operand state = type → type.mentionsAny = false →
      ∀ value : Value, value.Conforms type →
        (checking.problems node state ≠ [] ↔ ∃ failure, Operators.unary op value = .error failure) ∧
        (checking.problems node state = [] →
          ∃ result, Operators.unary op value = .ok result ∧ result.Conforms (checking.computedType node state)) := by
  constructor
  · rintro op left right is leftThere rightThere logical _ _ rfl rfl leftKnown rightKnown first second firstConforms
      secondConforms
    have foretells := foretells_binary is leftThere rightThere logical leftKnown rightKnown firstConforms secondConforms
    exact ⟨foretells.units_iff, foretells.operand_iff, foretells.yields⟩
  · rintro op operand is there _ rfl known value conforms
    have foretells := foretells_unary is there known conforms
    by_cases none : checking.problems node state = []
    · rw [if_pos none] at foretells
      obtain ⟨result, yields, of⟩ := foretells
      exact ⟨by simp [none, yields], fun _ => ⟨result, yields, of⟩⟩
    · rw [if_neg none] at foretells
      exact ⟨by simp [none, foretells], fun absent => absurd absent none⟩

/-- The remainder of a duration and a plain zero, and the negative of a text. -/
def mixture : Tree where
  nodes := #[
    ⟨.number "2" (.dimension "ms"), ⟨0, 3⟩⟩,
    ⟨.number "0" .unitless, ⟨4, 5⟩⟩,
    ⟨.binary .remainder (.node 0) (.node 1), ⟨0, 5⟩⟩,
    ⟨.text "a", ⟨7, 8⟩⟩,
    ⟨.unary .negate (.node 3), ⟨6, 8⟩⟩]
  lists := #[]
  root := .node 2

/-- That the measures differ is found before the division by zero. -/
theorem mixture_foretold :
    let checking : Checking Unit := ⟨.ofTree mixture .standard [], ⟨#[], []⟩, .none⟩
    let state := Typing.initial mixture ()
    let duration : Value := .number (.ofInt 2 (.dimension "ms"))
    let zero : Value := .number (.ofInt 0 .unitless)
    (checking.foundType (.node 0) state = .number (.dimension "ms") ∧
      checking.foundTypeAfter (.node 0) (.node 1) state = .number .unitless ∧
      (.incompatibleUnits ∈ checking.problems (.node 2) state ↔
        Operators.binary .remainder duration zero = .error .incompatibleUnits)) ∧
    checking.foundType (.node 3) state = .text ∧
      (checking.problems (.node 4) state ≠ [] ↔
        ∃ failure, Operators.unary .negate (.text "a" : Value) = .error failure) := by
  intro checking state duration zero
  have left : checking.foundType (.node 0) state = .number (.dimension "ms") := by decide +kernel
  have right : checking.foundTypeAfter (.node 0) (.node 1) state = .number .unitless := by decide +kernel
  have operand : checking.foundType (.node 3) state = .text := by decide +kernel
  refine ⟨⟨left, right, ?_⟩, operand, ?_⟩
  · exact ((operators_foretold checking (.node 2) state).1 .remainder (.node 0) (.node 1) rfl rfl rfl rfl _ _ left right
      rfl rfl duration zero (.number _ rfl) (.number _ rfl)).1
  · exact ((operators_foretold checking (.node 4) state).2 .negate (.node 3) rfl rfl _ operand rfl (.text "a")
      (.text "a")).1

end

end Checking

end Rivulet
