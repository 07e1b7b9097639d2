import Rivulet.Proofs.Lexical.Stage

/-!
Names are bound where they refer to something: a lookup never fails for a name that the analysis found
(`Ready.isSome_lookup`). The induction is on the visits so far, because a call sees what its closure saw
when it was made.
-/

namespace Rivulet

namespace Stage

variable {stage : Stage} {visits : List Visit} {store : Store} {scope : ScopeId} {id : NodeId}
  {name : String}

/-! ### What names refer to -/

theorem mem_declaredNames_iff {nodes : List NodeId} :
    name ∈ declaredNames stage.tree nodes ↔ ∃ node ∈ nodes, stage.context.declares node name = true := by
  simp [declaredNames, Checking.declaredName?, Context.declares, tree]

/-- A statement that sees itself names the function that is its value. -/
theorem literal_of_mayRecurse {statement : NodeId} (fits : stage.tree.IsStatement statement)
    (within : stage.tree.Within statement id) (term : stage.tree.isTerm id = true)
    (declares : stage.context.declares statement name = true)
    (recursive : stage.context.mayRecurse statement = true) : stage.tree.IsLiteral id name := by
  rcases fits with statementTerm | ⟨own, value, -, is, -⟩ | ⟨source, -, is⟩
  · rw [Context.not_declares_of_isTerm statementTerm stage.written] at declares
    simp at declares
  · have is' : stage.context.tree.form? statement = some (.bind own value none false) := is
    have named : own = name := by simpa [Context.declares, is', Form.declaredName?] using declares
    subst named
    have defined : (stage.tree.form? value).any Form.isFunction = true := by
      unfold Context.mayRecurse at recursive
      rw [is'] at recursive
      dsimp only at recursive
      split at recursive
      · rename_i function
        have : stage.tree.form? value = _ := function
        simp [this, Form.isFunction]
      · simp at recursive
    have only : id = statement ∨ id = value := by
      rcases within.cases_start with same | ⟨form, child, is'', -, link, within⟩
      · exact .inl same
      · rw [is] at is''
        cases is''
        obtain ⟨form, is', link⟩ := Tree.child_of_mem_children link
        rw [is] at is'
        cases is'
        have same : child = value := by simpa [Form.links] using link
        subst same
        rcases within.cases_start with same | ⟨form, -, is'', passes, -⟩
        · exact .inr same
        · rw [is''] at defined
          cases form <;> simp [Form.isFunction, Form.opensScope] at defined passes
    rcases only with rfl | rfl
    · simp [Tree.isTerm, is, Form.isTerm] at term
    · exact ⟨defined, statement, none, false, is⟩
  · have is' : stage.context.tree.form? statement = some (.borrow source) := is
    simp [Context.mayRecurse, is'] at recursive

/-- An input of a function has the name, if one refers to it. -/
theorem isSome_inputNamed?_iff {inputs : List NodeId} :
    (stage.context.inputNamed? inputs name).isSome ↔ name ∈ declaredNames stage.tree inputs := by
  rw [mem_declaredNames_iff, Context.inputNamed?, List.find?_isSome]

/-- In the body of a function a name refers to an input, or to what it refers to at the function. -/
theorem resolve?_of_inBody {visit : Visit} {inputs : ChildList} {body : NodeId}
    (place : stage.InBody visits store scope id visit inputs body) (spelled : name ≠ "") :
    stage.context.resolve? id name =
      ((stage.context.inputNamed? (stage.tree.list inputs) name).map
        (Definition.input · visit.node)).or (stage.context.resolve? visit.node name) := by
  rw [Context.resolve?_eq, Context.resolve?_eq,
    Context.visible?_of_within stage.written stage.indexed place.within,
    Context.visible?_body stage.written stage.indexed place.is_function spelled, Option.or_assoc]

/-- In a statement a name refers to the statement itself, or to an earlier one, or outwards. -/
theorem resolve?_of_atTop {position : Nat} {statement : NodeId}
    (place : stage.AtTop store id position statement) (name : String) :
    stage.context.resolve? id name =
      (if stage.context.declares statement name && stage.context.mayRecurse statement then
        some (stage.context.definitionOf statement)
      else
        ((stage.statements.take position).reverse.find? fun earlier =>
          stage.context.declares earlier name).map stage.context.definitionOf).or
      (stage.context.outermost? name) := by
  rw [Context.resolve?_eq, Context.visible?_of_within stage.written stage.indexed place.within,
    Context.visible?_statement stage.written stage.indexed stage.is_program stage.is_block place.there]
  rfl

/-! ### What names are bound to -/

theorem AtTop.fits {position : Nat} {statement : NodeId}
    (place : stage.AtTop store id position statement) : stage.tree.IsStatement statement :=
  stage.written.fits stage.block _ stage.is_block statement (List.mem_of_getElem? place.there)

theorem isTerm_of_isFunction (function : (stage.tree.form? id).any Form.isFunction = true) :
    stage.tree.isTerm id = true := by
  obtain ⟨inputs, body, is⟩ := form?_of_isFunction function
  simp [Tree.isTerm, is, Form.isTerm]

/-- A name that refers to something is bound, unless it is that of the very function that is defined. -/
theorem isSome_lookup_or_literal (consistent : stage.Consistent visits store)
    (recorded : stage.Recorded visits) (situated : stage.Situated visits store scope id)
    (term : stage.tree.isTerm id = true) (spelled : name ≠ "")
    (resolved : (stage.context.resolve? id name).isSome) :
    (store.lookup scope name).isSome ∨ stage.tree.IsLiteral id name := by
  induction size : visits.length using Nat.strong_induction_on generalizing visits store scope id with
  | _ count hypothesis =>
    cases situated with
    | @top _ position statement place =>
      rw [resolve?_of_atTop place] at resolved
      rw [consistent.lookup_scope]
      by_cases self : stage.context.declares statement name && stage.context.mayRecurse statement
      · rw [Bool.and_eq_true] at self
        exact .inr (literal_of_mayRecurse place.fits place.within term self.1 self.2)
      · left
        rw [if_neg self] at resolved
        cases found : (stage.statements.take position).reverse.find? fun earlier =>
            stage.context.declares earlier name with
        | none =>
          rw [found] at resolved
          have := stage.supplied name (by simpa using resolved)
          simp [this]
        | some earlier =>
          have declares : stage.context.declares earlier name = true := by
            simpa using List.find?_some found
          have among : name ∈ declaredNames stage.tree (stage.statements.take position) :=
            mem_declaredNames_iff.mpr
              ⟨earlier, by simpa using List.mem_of_find?_eq_some found, declares⟩
          have := (place.bound name).mpr among
          simp [this]
    | @body _ _ visit inputs body place =>
      left
      rw [consistent.lookup_body recorded place]
      by_cases input : name ∈ declaredNames stage.tree (stage.tree.list inputs)
      · have := place.inputs_bound name input
        simp [this]
      · have none : stage.context.inputNamed? (stage.tree.list inputs) name = none := by
          rw [← Option.not_isSome_iff_eq_none, isSome_inputNamed?_iff]
          exact input
        rw [resolve?_of_inBody place spelled, none] at resolved
        obtain ⟨before, after, split⟩ := List.append_of_mem place.made
        obtain ⟨then_, situated⟩ := recorded before visit after split
        have earlier : stage.Recorded before := by
          intro first other rest same
          exact recorded first other (rest ++ visit :: after) (by simp [split, same])
        have less : before.length < count := by
          rw [← size, split]
          simp
        have term : stage.tree.isTerm visit.node = true := isTerm_of_isFunction
          (by simp [place.is_function, Form.isFunction])
        rcases hypothesis _ less then_ earlier situated term (by simpa using resolved) rfl with bound | literal
        · simp [bound]
        · obtain ⟨value, bound, -⟩ := place.literal_bound name spelled literal input
          simp [bound]

/-- The lookup of a reference succeeds. -/
theorem Ready.isSome_lookup {world : Meaning.World} (ready : stage.Ready world)
    (situated : stage.Situated world.visits world.store scope id)
    (is : stage.tree.form? id = some (.reference name)) : (world.store.lookup scope name).isSome := by
  have resolved := stage.accepted.references id name is
  have spelled : name ≠ "" := stage.written.fits id _ is
  have term : stage.tree.isTerm id = true := by simp [Tree.isTerm, is, Form.isTerm]
  rcases isSome_lookup_or_literal ready.consistent ready.recorded situated term spelled resolved with
    bound | literal
  · exact bound
  · simp [is, Form.isFunction, Tree.IsLiteral] at literal

end Stage

end Rivulet
