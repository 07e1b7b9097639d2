import Rivulet.Proofs.Analysis.Exploration
import Rivulet.Proofs.Typing.FirstOrder

/-!
The types of nodes, with and without a memory. In the first-order language a type follows from the types of the
nodes that it asks about (`Context.typeWith`), and since no question leads back there is one type of every node
(`Context.staticType`). A computation that remembers types and marks those under way answers with this type
(`answers_typeTo`).

Main statements: `staticType_eq` and `answers_typeOf`.
-/

namespace Rivulet

/-! ### Computations that keep a condition -/

section

variable {σ α β : Type} {inv : TypeState σ → Prop} {computation : TypeM σ α} {good : α → Prop} {value : α}

/-- A computation keeps a condition on the state, and wherever the condition holds its result is good. -/
def Settles (inv : TypeState σ → Prop) (computation : TypeM σ α) (good : α → Prop) : Prop :=
  ∀ state, inv state → good (computation.run state).1 ∧ inv (computation.run state).2

/-- A computation keeps a condition, and wherever the condition holds it has one result. -/
def Answers (inv : TypeState σ → Prop) (computation : TypeM σ α) (value : α) : Prop :=
  Settles inv computation (· = value)

theorem settles_pure (holds : good value) : Settles inv (pure value) good :=
  fun _ kept => ⟨holds, kept⟩

theorem answers_pure (value : α) : Answers inv (pure value) value :=
  settles_pure rfl

theorem settles_bind {next : α → TypeM σ β} {good' : β → Prop} (first : Settles inv computation good)
    (second : ∀ value, good value → Settles inv (next value) good') : Settles inv (computation >>= next) good' := by
  intro state kept
  obtain ⟨holds, kept⟩ := first state kept
  exact second _ holds _ kept

theorem Answers.bind {next : α → TypeM σ β} {good' : β → Prop} (first : Answers inv computation value)
    (second : Settles inv (next value) good') : Settles inv (computation >>= next) good' :=
  settles_bind first fun _ same => same ▸ second

theorem answers_map {answer : α → β} (answers : Answers inv computation value) :
    Answers inv (computation >>= fun value => pure (answer value)) (answer value) :=
  answers.bind (answers_pure _)

theorem answers_mapM {elements : List α} {each : α → TypeM σ β} {answer : α → β}
    (answers : ∀ element ∈ elements, Answers inv (each element) (answer element)) :
    Answers inv (elements.mapM each) (elements.map answer) := by
  induction elements with
  | nil => exact answers_pure []
  | cons element elements hypothesis =>
    rw [List.mapM_cons]
    refine (answers element (by simp)).bind ?_
    exact (hypothesis fun other among => answers other (by simp [among])).bind (answers_pure _)

end

/-! ### Types without a memory -/

namespace Context

/-- The type of what a name refers to. -/
def definitionTypeBy (context : Context) (type : NodeId → Ty) : Definition → Ty
  | .bind node => type node
  | .stream index => (context.streams[index]?.map (·.valueType)).getD .any
  | .native index => ((context.natives.get? index).map (·.signature)).getD .any
  | _ => .any

/-- The type of a node, given those of others. -/
def typeWith (context : Context) (type : NodeId → Ty) (id : NodeId) (form : Form) : Ty :=
  let list := context.tree.list
  match form with
  | .program body => type body
  | .block statements => ((list statements).getLast?.map type).getD .any
  | .bind _ value declared _ => declared.getD (type value)
  | .number _ measure => .number measure
  | .boolean _ => .boolean
  | .text _ => .text
  | .none => .none
  | .sequence items => .sequence (Ty.common ((list items).map type))
  | .set items => .set (Ty.common ((list items).map type))
  | .mapping entries =>
    let pairs := Typing.pairsOf context.tree (list entries)
    .mapping (Ty.common ((pairs.map Prod.fst).map type)) (Ty.common ((pairs.map Prod.snd).map type))
  | .pair _ value => type value
  | .reference name => ((context.resolve? id name).map (context.definitionTypeBy type)).getD .any
  | .binary op left right => binaryType op (type left) (type right)
  | .unary op operand => unaryType op (type operand)
  | .conditional _ yes no => Ty.common [type yes, type no]
  | _ => .any

/-- The type of a node, asking about other nodes down to a depth. -/
def typeTo (context : Context) : Nat → NodeId → Ty
  | 0, _ => .any
  | depth + 1, id => ((context.tree.form? id).map (context.typeWith (context.typeTo depth) id)).getD .any

/-- The type of a node. -/
def staticType (context : Context) : NodeId → Ty :=
  context.typeTo context.tree.height

/-- What the type of a node follows from, directly or through others. -/
def Precedes (context : Context) : NodeId → NodeId → Prop :=
  Relation.TransGen context.Asks

/-- How many nodes a question about the type of a node may lead to. -/
noncomputable def depth (context : Context) : NodeId → Nat :=
  context.tree.rankBy context.Asks

section

variable {context : Context} {id asked : NodeId} {form : Form}

namespace FirstOrder

variable (program : context.FirstOrder)

include program

theorem precedes_of_link (reached : context.tree.Reached id) (is : context.tree.form? id = some form)
    (link : asked ∈ form.links context.tree.list) : context.Precedes asked id :=
  .single ⟨reached, .inl (program.complete.mem_children reached is link)⟩

/-- The keys and the values of a mapping precede it. -/
theorem precedes_of_pairsOf {entries : ChildList} (reached : context.tree.Reached id)
    (is : context.tree.form? id = some (.mapping entries)) {key value : NodeId}
    (among : (key, value) ∈ Typing.pairsOf context.tree (context.tree.list entries)) :
    context.Precedes key id ∧ context.Precedes value id := by
  obtain ⟨entry, there, pair⟩ := Typing.exists_entry_of_pairsOf among
  have below := program.precedes_of_link reached is there
  have entryReached := program.proper.reached_child reached (program.complete.mem_children reached is there)
  have part (part : NodeId) (link : part ∈ [key, value]) : context.Precedes part id :=
    Relation.TransGen.trans (program.precedes_of_link entryReached pair (by simpa [Form.links] using link)) below
  exact ⟨part key (by simp), part value (by simp)⟩

/-- The type of a node is made of the types of nodes before it. -/
theorem answers_compute {σ : Type} {inv : TypeState σ → Prop} {lookup : SourceLookup σ}
    {ask : NodeId → TypeM σ Ty} {type : NodeId → Ty} (reached : context.tree.Reached id) (is : context.tree.form? id = some form)
    (asks : ∀ asked, context.Precedes asked id → Answers inv (ask asked) (type asked)) :
    Answers inv (Typing.compute context lookup ask id) (context.typeWith type id form) := by
  have link (asked : NodeId) (link : asked ∈ form.links context.tree.list) : Answers inv (ask asked) (type asked) :=
    asks asked (program.precedes_of_link reached is link)
  have common (list : List NodeId) (each : ∀ asked ∈ list, Answers inv (ask asked) (type asked)) :
      Answers inv (Typing.commonOf ask list) (Ty.common (list.map type)) :=
    answers_map (answers_mapM each)
  have kind := program.kind_of_reached reached is
  unfold Typing.compute
  simp only [is]
  cases form with
  | program body => exact link body (by simp [Form.links])
  | block statements =>
    simp only [typeWith]
    cases last : (context.tree.list statements).getLast? with
    | none => exact answers_pure _
    | some statement => exact link statement (by simpa [Form.links] using List.mem_of_getLast? last)
  | bind name value declared variadic =>
    cases declared with
    | some declared => exact answers_pure declared
    | none => exact link value (by simp [Form.links])
  | sequence items => exact answers_map (common _ link)
  | set items => exact answers_map (common _ link)
  | mapping entries =>
    have part (part : NodeId × NodeId) (among : part ∈ Typing.pairsOf context.tree (context.tree.list entries)) :
        Answers inv (ask part.1) (type part.1) ∧ Answers inv (ask part.2) (type part.2) := by
      obtain ⟨first, second⟩ := program.precedes_of_pairsOf reached is among
      exact ⟨asks _ first, asks _ second⟩
    refine (common _ fun key among => ?_).bind (answers_map (common _ fun value among => ?_))
    · obtain ⟨pair, there, rfl⟩ := List.mem_map.mp among
      exact (part pair there).1
    · obtain ⟨pair, there, rfl⟩ := List.mem_map.mp among
      exact (part pair there).2
  | pair key value => exact link value (by simp [Form.links])
  | reference name =>
    simp only [typeWith]
    cases resolved : context.resolve? id name with
    | none => exact answers_pure _
    | some definition =>
      cases definition with
      | bind bind => exact asks bind (.single ⟨reached, .inr ⟨name, is, resolved⟩⟩)
      | stream | native => exact answers_pure _
      | _ => simpa using program.resolve?_cases reached resolved
  | binary op left right =>
    exact (link left (by simp [Form.links])).bind (answers_map (link right (by simp [Form.links])))
  | unary op operand => exact answers_map (link operand (by simp [Form.links]))
  | conditional condition yes no =>
    exact common [yes, no] fun asked among => link asked (List.mem_cons_of_mem _ among)
  | function | record | property | call | changed | borrow => simp [Form.isFirstOrder, Form.isBind] at kind
  | _ => exact answers_pure _

/-- The type of a node follows from the types of the nodes before it, and from no others. -/
theorem typeWith_congr {type type' : NodeId → Ty} (reached : context.tree.Reached id)
    (is : context.tree.form? id = some form) (same : ∀ asked, context.Precedes asked id → type asked = type' asked) :
    context.typeWith type id form = context.typeWith type' id form := by
  -- A computation that asks for the types of one assignment gets those of the other.
  have answers (type' : NodeId → Ty) (same : ∀ asked, context.Precedes asked id → type asked = type' asked) :
      Answers (fun _ => True) (Typing.compute context (SourceLookup.none : SourceLookup Unit) (pure <| type ·) id)
        (context.typeWith type' id form) :=
    program.answers_compute reached is fun asked precedes => settles_pure (same asked precedes)
  have first := (answers type (fun _ _ => rfl) ⟨#[], ()⟩ trivial).1
  exact first.symm.trans (answers type' same ⟨#[], ()⟩ trivial).1

theorem depth_lt_of_precedes (precedes : context.Precedes asked id) : context.depth asked < context.depth id := by
  have step {asked id : NodeId} (asks : context.Asks asked id) : context.depth asked < context.depth id :=
    Tree.rankBy_lt program.acyclic_asks asks (program.proper.isSome_of_reached asks.1)
  induction precedes with
  | single asks => exact step asks
  | tail _ asks hypothesis => exact Nat.lt_trans hypothesis (step asks)

theorem depth_lt_height (id : NodeId) : context.depth id < context.tree.height :=
  Tree.rankBy_lt_height program.acyclic_asks id

theorem reached_of_precedes (precedes : context.Precedes asked id) : context.tree.Reached asked := by
  obtain ⟨_, asks, -⟩ := Relation.TransGen.head'_iff.mp precedes
  exact program.reached_of_asks asks

/-- All depths that the questions of a node do not reach give it the same type. -/
theorem typeTo_eq_typeTo (reached : context.tree.Reached id) {count count' : Nat}
    (enough : context.depth id < count) (enough' : context.depth id < count') :
    context.typeTo count id = context.typeTo count' id := by
  induction count generalizing count' id with
  | zero => omega
  | succ count hypothesis =>
    obtain ⟨count', rfl⟩ : ∃ less, count' = less + 1 := ⟨count' - 1, by omega⟩
    obtain ⟨form, is⟩ := Option.isSome_iff_exists.mp (program.proper.isSome_of_reached reached)
    unfold typeTo
    rw [is, Option.map_some, Option.map_some]
    rw [program.typeWith_congr reached is fun asked precedes => ?_]
    have below := program.depth_lt_of_precedes precedes
    exact hypothesis (program.reached_of_precedes precedes) (by omega) (by omega)

/-- The type of a node follows from the types of other nodes. -/
theorem staticType_eq (reached : context.tree.Reached id) (is : context.tree.form? id = some form) :
    context.staticType id = context.typeWith context.staticType id form := by
  have unfolded : context.staticType id = context.typeWith (context.typeTo context.tree.size) id form := by
    unfold staticType Tree.height typeTo
    rw [is]
    rfl
  rw [unfolded, program.typeWith_congr reached is fun asked precedes => ?_]
  have below := program.depth_lt_of_precedes precedes
  have whole := program.depth_lt_height id
  have height : context.tree.height = context.tree.size + 1 := rfl
  exact program.typeTo_eq_typeTo (program.reached_of_precedes precedes) (by omega) (program.depth_lt_height asked)

end FirstOrder

end

/-! ### Types with a memory -/

/-- A state remembers the types that nodes have, and only some nodes are under way. -/
structure Remembers {σ : Type} (context : Context) (pending : NodeId → Prop) (state : TypeState σ) : Prop where
  size : state.slots.size = context.tree.size
  known : ∀ index type, state.slots[index]? = some (.known type) → context.tree.Reached (.node index) →
    type = context.staticType (.node index)
  inProgress : ∀ index, state.slots[index]? = some .inProgress → pending (.node index)

section

variable {σ : Type} {context : Context} {pending : NodeId → Prop} {state : TypeState σ} {index : Nat}

/-- In the beginning nothing is known. -/
theorem remembers_initial (host : σ) : context.Remembers pending (Typing.initial context.tree host) where
  size := by simp [Typing.initial]
  known index type found := by
    simp only [Typing.initial, Array.getElem?_replicate] at found
    split at found <;> simp at found
  inProgress index found := by
    simp only [Typing.initial, Array.getElem?_replicate] at found
    split at found <;> simp at found

theorem Remembers.begin (remembers : context.Remembers pending state) :
    context.Remembers (fun id => pending id ∨ id = .node index)
      { state with slots := state.slots.setIfInBounds index .inProgress } where
  size := by simpa using remembers.size
  known other type found := by
    rw [Array.getElem?_setIfInBounds] at found
    split at found
    · split at found <;> simp at found
    · exact remembers.known other type found
  inProgress other found := by
    rw [Array.getElem?_setIfInBounds] at found
    split at found
    · rename_i same
      exact .inr (by rw [same])
    · exact .inl (remembers.inProgress other found)

theorem Remembers.finish (remembers : context.Remembers (fun id => pending id ∨ id = .node index) state) :
    context.Remembers pending
      { state with slots := state.slots.setIfInBounds index (.known (context.staticType (.node index))) } where
  size := by simpa using remembers.size
  known other type found reached := by
    rw [Array.getElem?_setIfInBounds] at found
    split at found
    · rename_i same
      subst same
      split at found
      · simpa using found.symm
      · simp at found
    · exact remembers.known other type found reached
  inProgress other found := by
    rw [Array.getElem?_setIfInBounds] at found
    split at found
    · split at found <;> simp at found
    · rename_i apart
      refine (remembers.inProgress other found).resolve_right fun same => ?_
      exact apart (by simpa using same.symm)

/-- A type that is known is given out; one that is not is computed while its node is under way. -/
theorem run_typeTo (lookup : SourceLookup σ) (count : Nat) :
    (Typing.typeTo context lookup (count + 1) (.node index)).run state =
      match state.slots[index]? with
      | none | some .inProgress => (.any, state)
      | some (.known type) => (type, state)
      | some .unknown =>
        let made := (Typing.compute context lookup (Typing.typeTo context lookup count) (.node index)).run
          { state with slots := state.slots.setIfInBounds index .inProgress }
        (made.1, { made.2 with slots := made.2.slots.setIfInBounds index (.known made.1) }) := by
  rw [Typing.typeTo]
  change (match state.slots[index]? with
    | none | some .inProgress => pure .any
    | some (.known type) => pure type
    | some .unknown => _ : TypeM σ Ty) state = _
  cases state.slots[index]? with
  | none => rfl
  | some slot => cases slot <;> rfl

namespace FirstOrder

variable (program : context.FirstOrder)

include program

/-- Asking for a type gets the type, unless the question comes up while it is being answered. -/
theorem answers_typeTo (lookup : SourceLookup σ) {count : Nat} {id : NodeId} (reached : context.tree.Reached id)
    (enough : context.depth id < count) (above : ∀ other, pending other → context.depth id < context.depth other) :
    Answers (context.Remembers pending) (Typing.typeTo context lookup count id) (context.staticType id) := by
  induction count generalizing id pending with
  | zero => omega
  | succ count hypothesis =>
    obtain ⟨form, is⟩ := Option.isSome_iff_exists.mp (program.proper.isSome_of_reached reached)
    obtain ⟨index, rfl⟩ := Parents.isPresent_of_form? (program.proper.isSome_of_reached reached)
    intro state remembers
    have bound : index < state.slots.size := remembers.size ▸ Tree.lt_size_of_form? (program.proper.isSome_of_reached reached)
    have found := Array.getElem?_eq_getElem bound
    cases slot : state.slots[index] with
    | inProgress =>
      rw [slot] at found
      exact absurd (above _ (remembers.inProgress index found)) (Nat.lt_irrefl _)
    | known type =>
      rw [slot] at found
      rw [run_typeTo, found]
      exact ⟨remembers.known index type found reached, remembers⟩
    | unknown =>
      rw [slot] at found
      have answers : Answers (context.Remembers fun id => pending id ∨ id = .node index)
          (Typing.compute context lookup (Typing.typeTo context lookup count) (.node index))
          (context.staticType (.node index)) := by
        rw [program.staticType_eq reached is]
        refine program.answers_compute reached is fun asked precedes => ?_
        have below := program.depth_lt_of_precedes precedes
        refine hypothesis (program.reached_of_precedes precedes) (by omega) fun other either => ?_
        rcases either with before | rfl
        · exact Nat.lt_trans below (above other before)
        · exact below
      obtain ⟨same, kept⟩ := answers _ remembers.begin
      rw [run_typeTo, found]
      dsimp only
      rw [same]
      exact ⟨rfl, kept.finish⟩

/-- Asking for the type of a node when none is under way gets the type. -/
theorem answers_typeOf (lookup : SourceLookup σ) {id : NodeId} (reached : context.tree.Reached id) :
    Answers (context.Remembers fun _ => False) (Typing.typeOf context lookup id) (context.staticType id) :=
  program.answers_typeTo lookup reached (program.depth_lt_height id)
    fun _ pending => pending.elim

end FirstOrder

end

end Context

end Rivulet
