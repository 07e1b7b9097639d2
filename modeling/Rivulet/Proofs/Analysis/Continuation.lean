import Rivulet.Proofs.Analysis.Sources
import Rivulet.Proofs.Analysis.Visibility
import Rivulet.Proofs.Line.Appending
import Rivulet.Proofs.Typing.Order

/-!
Programs that go on with more statements, as rules see them. In the statements before, names refer to what they referred
to (`sameSight`). There the same answers are given when types are asked for, as long as the questions may go down as far
as there are nodes about which nothing is known (`matches_typeTo`); and so the complaints are the same.

Main statement: `matches_check`.
-/

namespace Rivulet

open Typing Checking

/-! ### Nodes of statements -/

theorem Tree.isOuter_eq_false {tree : Tree} {id : NodeId} {form : Form} (inner : tree.IsStatement id ∨ tree.IsInput id)
    (is : tree.form? id = some form) : form.isOuter = false := by
  rcases inner with (term | ⟨_, _, -, is', -⟩ | ⟨_, -, is'⟩) | ⟨_, -, is'⟩
  · obtain ⟨form', is', term⟩ := form?_of_isTerm term
    obtain rfl := Option.some.inj (is.symm.trans is')
    cases form <;> simp_all [Form.isTerm, Form.isOuter]
  all_goals
    obtain rfl := Option.some.inj (is.symm.trans is')
    rfl

namespace Tree.IsProgram

variable {tree : Tree} {count : Nat} {statements : List NodeId} (program : tree.IsProgram count statements)
  {id child parent statement : NodeId} {index : Nat} {form : Form}

include program

theorem before_of_child (before : parent.Before count) (link : tree.Child child parent) : child.Before count := by
  have older := program.written.older child parent link
  cases parent with
  | missing => cases child <;> simp [isOlder] at older
  | node index =>
    cases child with
    | missing => trivial
    | node other => exact Nat.lt_trans (by simpa [isOlder] using older) before

/-- What holds of the statements, and of the children of nodes that it holds of, holds of all nodes of statements. -/
theorem induction {holds : NodeId → Prop} (first : ∀ statement ∈ statements, holds statement)
    (next : ∀ parent child, parent.Before count → child ∈ tree.children parent → holds parent → holds child)
    (bound : index < count) : holds (.node index) := by
  -- A parent is younger than its children, so the nodes are reached from the last one down.
  induction left : count - index using Nat.strong_induction_on generalizing index with
  | _ _ hypothesis =>
    rcases program.placed index bound with among | ⟨later, before, link⟩
    · exact first _ among
    · have older := program.written.older _ _ (child_of_mem_children link)
      have younger : index < later := by simpa [isOlder] using older
      exact next (.node later) _ before link (hypothesis (count - later) (by omega) before rfl)

theorem isStatement (among : statement ∈ statements) : tree.IsStatement statement := by
  obtain ⟨list, is, rfl⟩ := program.block
  exact program.written.fits _ _ is statement among

theorem isPresent_of_mem (among : statement ∈ statements) : statement.isPresent = true :=
  Context.isPresent_of_isSome (regular_of_isStatement (program.isStatement among)).1

theorem children_block : tree.children (.node count) = statements := by
  obtain ⟨list, is, stored⟩ := program.block
  rw [Tree.children, is]
  simp only [Form.links, stored]
  exact List.filter_eq_self.mpr fun _ => program.isPresent_of_mem

/-- No node of a statement is a block or a program. -/
theorem isInner (bound : index < count) (is : tree.form? (.node index) = some form) : form.isOuter = false := by
  refine @induction _ _ _ program index (fun id => ∀ form, tree.form? id = some form → form.isOuter = false) ?_ ?_ bound
    form is
  · exact fun statement among form is => isOuter_eq_false (.inl (program.isStatement among)) is
  · intro parent child _ link inner form is
    obtain ⟨above, there, link⟩ := child_of_mem_children link
    rcases program.written.inner_of_child there (inner above there) link with rfl | term | input
    · simp [form?_missing] at is
    · exact isOuter_eq_false (.inl (.inl term)) is
    · exact isOuter_eq_false (.inr input) is

theorem recordInputs?_eq_none (id : NodeId) : tree.recordInputs? id = none := by
  cases found : tree.recordInputs? id with
  | none => rfl
  | some inputs =>
    obtain ⟨name, list, is, -⟩ := form?_of_recordInputs? found
    have fits := program.written.fits id _ is
    simp [Fits, Form.isTerm] at fits

end Tree.IsProgram

/-- From a node a name refers to the same in two contexts, and if that is a node, then to one of the first. -/
structure Context.SameSight (count : Nat) (context context' : Context) (name : String) (id : NodeId) : Prop where
  same : context'.visible? id name = context.visible? id name
  within : ∀ {definition node}, context.visible? id name = some definition → definition.node? = some node →
    node.Before count

namespace Tree.Continues

variable {tree tree' : Tree} {count count' : Nat} {earlier later : List NodeId}
  (continues : tree.Continues tree' count count' earlier later) {id parent : NodeId} {index : Nat}

include continues

/-- The nodes of the statements before are as they were. -/
theorem shares : tree.Shares (NodeId.Before count) tree' where
  form?_eq id before := by
    cases id with
    | missing => rfl
    | node index => exact congrArg (Option.map Node.form) (continues.node?_eq index before)
  list_eq {id form list} before is listed := by
    cases id with
    | missing => simp [form?_missing] at is
    | node index => exact continues.list_eq before is listed
  link before is link := continues.first.before_of_child before ⟨_, is, link⟩

theorem preorder_eq (before : id.Before count) : tree'.preorder id = tree.preorder id := by
  induction added : addedAt id using Nat.strong_induction_on generalizing id with
  | _ _ hypothesis =>
    rw [Tree.preorder_eq continues.first.written.acyclic, Tree.preorder_eq continues.second.written.acyclic,
      continues.shares.children_eq before, List.flatMap_congr fun child link => ?_]
    have below := child_of_mem_children link
    have older := addedAt_lt_of_isOlder (continues.first.written.older child id below)
    exact hypothesis _ (added ▸ older) (continues.first.before_of_child before below) rfl

/-- A node of a statement before is such a statement, or its parent is a node of one too. -/
theorem parent_of_before (bound : index < count) (link : .node index ∈ tree'.children parent) :
    .node index ∈ earlier ∧ parent = .node count' ∨ ∃ above < count, parent = .node above := by
  rcases continues.first.placed index bound with among | ⟨above, before, link'⟩
  · have own : .node index ∈ tree'.children (.node count') :=
      continues.second.children_block ▸ List.mem_append_left later among
    exact .inl ⟨among, continues.second.written.single _ _ _ link own⟩
  · have inside : (NodeId.node above).Before count := before
    have own : .node index ∈ tree'.children (.node above) := continues.shares.children_eq inside ▸ link'
    exact .inr ⟨above, before, continues.second.written.single _ _ _ link own⟩

/-! ### Names -/

variable {natives : Natives} {streams : List StreamSignature}

theorem sameSight_statement {statement : NodeId} (among : statement ∈ earlier) (name : String) :
    (Context.ofTree tree natives streams).SameSight count (.ofTree tree' natives streams) name statement := by
  let context := Context.ofTree tree natives streams
  let context' := Context.ofTree tree' natives streams
  have shares : context.tree.Shares (NodeId.Before count) context'.tree := continues.shares
  obtain ⟨list, is, stored⟩ := continues.first.block
  obtain ⟨list', is', stored'⟩ := continues.second.block
  obtain ⟨position, there⟩ := List.getElem?_of_mem among
  have before (statement : NodeId) (among : statement ∈ earlier.take position) : statement.Before count :=
    continues.first.before statement (List.mem_of_mem_take among)
  have here := continues.first.before statement among
  have inside := (List.getElem?_eq_some_iff.mp there).1
  have there' : (earlier ++ later)[position]? = some statement := (List.getElem?_append_left inside).trans there
  have first := @Context.visible?_statement context continues.first.written rfl _ _ position statement
    continues.first.root is (stored ▸ there) name
  have second := @Context.visible?_statement context' continues.second.written rfl _ _ position statement
    continues.second.root is' (stored' ▸ there') name
  rw [show context.tree.list list = earlier from stored] at first
  rw [show context'.tree.list list' = earlier ++ later from stored', List.take_append_of_le_length (Nat.le_of_lt inside),
    shares.declares_eq here, shares.mayRecurse_eq here, shares.definitionOf_eq here,
    shares.findDefinition_eq before] at second
  refine ⟨second.trans first.symm, fun {definition node} found declares => ?_⟩
  rw [first] at found
  split at found
  · cases found
    rw [Context.node?_definitionOf] at declares
    exact Option.some.inj declares ▸ here
  · obtain ⟨other, sought, rfl⟩ := Option.map_eq_some_iff.mp found
    rw [Context.node?_definitionOf] at declares
    exact Option.some.inj declares ▸ before other (List.mem_reverse.mp (List.mem_of_find?_eq_some sought))

theorem sameSight_child {child : NodeId} {name : String} (before : parent.Before count)
    (link : child ∈ tree.children parent)
    (sight : (Context.ofTree tree natives streams).SameSight count (.ofTree tree' natives streams) name parent) :
    (Context.ofTree tree natives streams).SameSight count (.ofTree tree' natives streams) name child := by
  let context := Context.ofTree tree natives streams
  let context' := Context.ofTree tree' natives streams
  have shares : context.tree.Shares (NodeId.Before count) context'.tree := continues.shares
  have link' : child ∈ tree'.children parent := shares.children_eq before ▸ link
  have here := continues.first.before_of_child before (child_of_mem_children link)
  have first := @Context.visible?_of_child context child parent continues.first.written.proper rfl
    (continues.first.written.reached_of_link link) link name
  have second := @Context.visible?_of_child context' child parent continues.second.written.proper rfl
    (continues.second.written.reached_of_link link') link' name
  rw [shares.inParent?_eq before here, sight.same, ← first] at second
  refine ⟨second, fun {definition node} found declares => ?_⟩
  rw [first] at found
  rcases Option.or_eq_some_iff.mp found with inner | ⟨-, outer⟩
  · exact @Context.holds_of_inParent? context _ parent child name _ (NodeId.Before count)
      (fun _ _ above link => continues.first.before_of_child above link) before (child_of_mem_children link) inner declares
  · exact sight.within outer declares

/-- In the statements before, names refer to what they referred to. -/
theorem sameSight (bound : index < count) (name : String) :
    (Context.ofTree tree natives streams).SameSight count (.ofTree tree' natives streams) name (.node index) :=
  continues.first.induction (fun _ among => continues.sameSight_statement among name)
    (fun _ _ before link sight => continues.sameSight_child before link sight) bound

theorem concurs : (Context.ofTree tree natives streams).Concurs (NodeId.Before count)
    (Context.ofTree tree' natives streams) where
  toShares := continues.shares
  resolve?_eq {id name} before is := by
    cases id with
    | missing => simp [form?_missing] at is
    | node index =>
      rw [Context.resolve?_eq, Context.resolve?_eq, (continues.sameSight before name).same]
      rfl
  definition {id name definition node} before is found declares := by
    cases id with
    | missing => simp [form?_missing] at is
    | node index =>
      rw [Context.resolve?_eq] at found
      rcases Option.or_eq_some_iff.mp found with inside | ⟨-, outside⟩
      · exact (continues.sameSight before name).within inside declares
      · rcases Context.outermost?_cases outside with ⟨_, rfl⟩ | ⟨_, rfl⟩ <;> cases declares
  recordInputs?_eq id :=
    (continues.second.recordInputs?_eq_none id).trans (continues.first.recordInputs?_eq_none id).symm
  field {id inputs input} found := by
    rw [show (Context.ofTree tree natives streams).tree.recordInputs? id = none from
      continues.first.recordInputs?_eq_none id] at found
    cases found
  natives := rfl
  streams := rfl

theorem isStatement_eq (before : id.Before count) :
    Checking.isStatement (.ofTree tree' natives streams) id = Checking.isStatement (.ofTree tree natives streams) id := by
  cases id with
  | missing => rfl
  | node index =>
    unfold Checking.isStatement
    simp only [Context.ofTree]
    rcases continues.first.placed index before with among | ⟨above, bound, link⟩
    · obtain ⟨list, is, -⟩ := continues.first.block
      obtain ⟨list', is', -⟩ := continues.second.block
      have among' := List.mem_append_left later among
      rw [continues.first.written.parent?_eq_some_iff.mpr (continues.first.children_block ▸ among),
        continues.second.written.parent?_eq_some_iff.mpr (continues.second.children_block ▸ among'),
        Option.bind_some, Option.bind_some, is, is']
    · have inside : (NodeId.node above).Before count := bound
      have link' : .node index ∈ tree'.children (.node above) := continues.shares.children_eq inside ▸ link
      rw [continues.first.written.parent?_eq_some_iff.mpr link, continues.second.written.parent?_eq_some_iff.mpr link',
        Option.bind_some, Option.bind_some, continues.shares.form?_eq _ inside]

end Tree.Continues

/-! ### States -/

/-- In two states the same is known about the first nodes, and nothing about so many of these at most. -/
structure Typing.Alike {σ : Type} (count left : Nat) (state state' : TypeState σ) : Prop where
  slots : ∀ index < count, state'.slots[index]? = state.slots[index]?
  unknown : Context.openSlots count state.slots ≤ left
  host : state'.host = state.host

namespace Typing.Alike

variable {σ : Type} {count left index : Nat} {state state' : TypeState σ}

theorem initial {tree tree' : Tree} (enough : count ≤ tree.size) (enough' : count ≤ tree'.size) (host : σ) :
    Alike count count (Typing.initial tree host) (Typing.initial tree' host) where
  slots index bound := by
    simp only [Typing.initial, Array.getElem?_replicate]
    rw [if_pos (Nat.lt_of_lt_of_le bound enough), if_pos (Nat.lt_of_lt_of_le bound enough')]
  unknown := Context.openSlots_le _ _
  host := rfl

/-- The same is noted about a node in both states. -/
theorem set (alike : Alike count left state state') (bound : index < count) {slot : Slot} (filled : slot ≠ .unknown) :
    Alike count left { state with slots := state.slots.setIfInBounds index slot }
      { state' with slots := state'.slots.setIfInBounds index slot } where
  slots other inside := by
    have same := alike.slots index bound
    by_cases here : index = other
    · subst here
      have sizes : state'.slots.size ≤ index ↔ state.slots.size ≤ index := by
        rw [← Array.getElem?_eq_none_iff, ← Array.getElem?_eq_none_iff, same]
      simp only [Array.getElem?_setIfInBounds_self, ← Nat.not_le, sizes]
    · rw [Array.getElem?_setIfInBounds_ne here, Array.getElem?_setIfInBounds_ne here]
      exact alike.slots other inside
  unknown := Nat.le_trans (Context.openSlots_set_le filled index) alike.unknown
  host := alike.host

/-- When a node is taken up, there is one node less about which nothing is known. -/
theorem begin (alike : Alike count left state state') (bound : index < count)
    (unknown : state.slots[index]? = some .unknown) :
    0 < left ∧ Alike count (left - 1) { state with slots := state.slots.setIfInBounds index .inProgress }
      { state' with slots := state'.slots.setIfInBounds index .inProgress } := by
  have filled : Slot.inProgress ≠ .unknown := by simp
  have fewer := Context.openSlots_set_lt filled unknown bound
  have before := alike.unknown
  have after := alike.set bound filled
  exact ⟨by omega, after.slots, by dsimp only; omega, after.host⟩

theorem mono (alike : Alike count left state state') {more : Nat} (enough : left ≤ more) :
    Alike count more state state' :=
  ⟨alike.slots, Nat.le_trans alike.unknown enough, alike.host⟩

end Typing.Alike

theorem Typing.matches_steady {σ : Type} {relation : TypeState σ → TypeState σ → Prop} {answer : String → SourceType}
    (source : String) : Matches relation (askSource (.steady answer) source) (askSource (.steady answer) source) :=
  fun _ _ related => ⟨rfl, related⟩

namespace Tree.Continues

variable {tree tree' : Tree} {count count' : Nat} {earlier later : List NodeId}
  (continues : tree.Continues tree' count count' earlier later) {natives : Natives} {streams : List StreamSignature}
  {σ : Type} {answer : String → SourceType} {id : NodeId}

include continues

/-! ### Types and rules -/

/-- Questions about the nodes of the statements before are answered in the same way. -/
theorem matches_typeTo {fuel fuel' left : Nat} (enough : left < fuel) (enough' : left < fuel') (before : id.Before count) :
    Matches (@Alike σ count left) (typeTo (.ofTree tree natives streams) (.steady answer) fuel id)
      (typeTo (.ofTree tree' natives streams) (.steady answer) fuel' id) := by
  induction fuel generalizing fuel' left id with
  | zero => omega
  | succ fuel hypothesis =>
    obtain ⟨fuel', rfl⟩ : ∃ less, fuel' = less + 1 := ⟨fuel' - 1, by omega⟩
    cases id with
    | missing => exact matches_pure _
    | node index =>
      intro state state' alike
      rw [Context.run_typeTo, Context.run_typeTo, alike.slots index before]
      cases found : state.slots[index]? with
      | none => exact ⟨rfl, alike⟩
      | some slot =>
        cases slot with
        | inProgress | known type => exact ⟨rfl, alike⟩
        | unknown =>
          obtain ⟨some, begun⟩ := alike.begin before found
          have computed : Matches (Alike count (left - 1))
              (compute (.ofTree tree natives streams) (.steady answer)
                (typeTo (.ofTree tree natives streams) (.steady answer) fuel) (.node index))
              (compute (.ofTree tree' natives streams) (.steady answer)
                (typeTo (.ofTree tree' natives streams) (.steady answer) fuel') (.node index)) :=
            (matching (@Alike σ count (left - 1))).compute continues.concurs
              (fun _ inside => hypothesis (by omega) (by omega) inside) (fun _ source _ _ => matches_steady source) before
          obtain ⟨same, after⟩ := computed _ _ begun
          dsimp only
          rw [same]
          exact ⟨rfl, (after.set before (by simp)).mono (Nat.sub_le _ _)⟩

/-- The nodes of the statements before answer for what they answered for. -/
theorem matches_check (before : id.Before count) :
    Matches (@Alike σ count count) ((Checking.ofTree tree natives streams (.steady answer)).check id)
      ((Checking.ofTree tree' natives streams (.steady answer)).check id) := by
  have asks (id : NodeId) (inside : id.Before count) :
      Matches (@Alike σ count count) ((Checking.ofTree tree natives streams (.steady answer)).typeOf id)
        ((Checking.ofTree tree' natives streams (.steady answer)).typeOf id) := by
    refine continues.matches_typeTo ?_ ?_ inside
    · show count < tree.size + 1
      rw [continues.first.size_eq]
      omega
    · show count < tree'.size + 1
      have longer := continues.longer
      rw [continues.second.size_eq]
      omega
  refine (matching (Alike count count)).check continues.concurs asks (fun _ source _ _ => matches_steady source)
    (fun _ inside => continues.isStatement_eq inside) (fun {id statements} inside is => ?_) before
  cases id with
  | missing => cases is
  | node index => simpa [Form.isOuter] using continues.first.isInner inside is

end Tree.Continues

end Rivulet
