import Rivulet.Proofs.Analysis.Affected
import Rivulet.Proofs.Machine.Turns

/-!
Values that a plain program determines. What a node makes of the values of the nodes that it reads depends on
nothing else, but for what the outermost scope binds (`Context.Makes`). So a node has one value at most that
follows from what the outermost scope is known to bind (`determined_unique`). Outside of a set of nodes that
shields from a stream all that is read lies outside as well (`settled_of_makes`).
-/

namespace Rivulet

namespace Context

variable {context : Context} {seen : String → Option Value} {id : NodeId} {form : Form}
  {reads reads' : List (NodeId × Value)} {value value' : Value}

/-- What a node makes of the values of the nodes that it reads, given what the outermost scope is known to
bind. A logical operator may read its left operand only. -/
def Makes (context : Context) (seen : String → Option Value) (id : NodeId) (reads : List (NodeId × Value))
    (value : Value) : Form → Prop
  | .number literal measure => reads = [] ∧ ∃ number, Quantity.ofText? literal measure = some number ∧ value = .number number
  | .boolean holds => reads = [] ∧ value = .boolean holds
  | .text text => reads = [] ∧ value = .text text
  | .none => reads = [] ∧ value = .none
  | .program child | .bind _ child _ _ => reads = [(child, value)]
  | .block statements => ∃ last, (context.tree.list statements).getLast? = some last ∧ reads = [(last, value)]
  | .sequence items => reads.map Prod.fst = context.tree.list items ∧ value = .sequence (reads.map Prod.snd).toArray
  | .property owner name => ∃ definition fields, reads = [(owner, .record definition fields)] ∧
      Value.field? fields name = some value
  | .unary op operand => ∃ first, reads = [(operand, first)] ∧ Operators.unary op first = .ok value
  | .binary op left right =>
    if op.isLogical then
      ∃ first, if first == (op == .or) then reads = [(left, .boolean first)] ∧ value = .boolean first
        else ∃ second, reads = [(left, .boolean first), (right, .boolean second)] ∧ value = .boolean second
    else ∃ first second, reads = [(left, first), (right, second)] ∧ Operators.binary op first second = .ok value
  | .call callee arguments => ∃ function passed, reads = (callee, .function function) :: passed ∧
      passed.map Prod.fst = context.tree.list arguments ∧
      Machine.Answers context.natives function (passed.map Prod.snd) id value
  | .reference name =>
    match context.visible? id name with
    | some (.bind bind) => ∃ bound, reads = [(bind, bound)] ∧ value = Meaning.named name bound
    | some _ => False
    | none => reads = [] ∧ seen name = some value
  | _ => False

/-- Nodes that are read by both have the same values. -/
def Agree (reads reads' : List (NodeId × Value)) : Prop :=
  ∀ read ∈ reads, ∀ read' ∈ reads', read.1 = read'.1 → read.2 = read'.2

theorem Agree.head (agree : Agree ((id, value) :: reads) ((id, value') :: reads')) : value = value' :=
  agree (id, value) List.mem_cons_self (id, value') List.mem_cons_self rfl

theorem Agree.eq_of_map (agree : Agree reads reads') (same : reads.map Prod.fst = reads'.map Prod.fst) :
    reads = reads' := by
  induction reads generalizing reads' with
  | nil => exact (List.map_eq_nil_iff.mp same.symm).symm
  | cons read rest hypothesis =>
    cases reads' with
    | nil => simp at same
    | cons read' rest' =>
      obtain ⟨first, others⟩ := List.cons.inj same
      have equal : read = read' := Prod.ext first (agree read (by simp) read' (by simp) first)
      rw [equal, hypothesis (fun one among other among' => agree one (by simp [among]) other (by simp [among'])) others]

/-- What a node makes is determined by what it reads. -/
theorem makes_unique (makes : context.Makes seen id reads value form)
    (makes' : context.Makes seen id reads' value' form) (agree : Agree reads reads') : value = value' := by
  cases form with
  | number literal measure =>
    obtain ⟨-, number, read, rfl⟩ := makes
    obtain ⟨-, number', read', rfl⟩ := makes'
    rw [read] at read'
    cases read'
    rfl
  | boolean => rw [makes.2, makes'.2]
  | text => rw [makes.2, makes'.2]
  | none => rw [makes.2, makes'.2]
  | program child =>
    cases makes
    cases makes'
    exact agree.head
  | bind name child =>
    cases makes
    cases makes'
    exact agree.head
  | block statements =>
    obtain ⟨last, ends, rfl⟩ := makes
    obtain ⟨last', ends', rfl⟩ := makes'
    rw [ends] at ends'
    cases ends'
    exact agree.head
  | sequence items =>
    obtain ⟨nodes, rfl⟩ := makes
    obtain ⟨nodes', rfl⟩ := makes'
    rw [agree.eq_of_map (nodes.trans nodes'.symm)]
  | property owner name =>
    obtain ⟨definition, fields, rfl, holds⟩ := makes
    obtain ⟨definition', fields', rfl, holds'⟩ := makes'
    cases agree.eq_of_map rfl
    rw [holds] at holds'
    cases holds'
    rfl
  | unary op operand =>
    obtain ⟨first, rfl, yields⟩ := makes
    obtain ⟨first', rfl, yields'⟩ := makes'
    cases agree.eq_of_map rfl
    rw [yields] at yields'
    cases yields'
    rfl
  | binary op left right =>
    unfold Makes at makes makes'
    by_cases logical : op.isLogical = true
    · simp only [logical, if_true] at makes makes'
      obtain ⟨first, makes⟩ := makes
      obtain ⟨first', makes'⟩ := makes'
      have same : first = first' := by
        have firsts : reads.head? = some (left, .boolean first) := by
          split at makes
          · rw [makes.1]; rfl
          · obtain ⟨_, rfl, -⟩ := makes; rfl
        have firsts' : reads'.head? = some (left, .boolean first') := by
          split at makes'
          · rw [makes'.1]; rfl
          · obtain ⟨_, rfl, -⟩ := makes'; rfl
        simpa using agree _ (List.mem_of_mem_head? firsts) _ (List.mem_of_mem_head? firsts') rfl
      subst same
      split at makes
      · rename_i decides
        rw [if_pos decides] at makes'
        rw [makes.2, makes'.2]
      · rename_i undecided
        rw [if_neg undecided] at makes'
        obtain ⟨second, rfl, rfl⟩ := makes
        obtain ⟨second', rfl, rfl⟩ := makes'
        exact agree (right, _) (by simp) (right, _) (by simp) rfl
    · simp only [logical, Bool.false_eq_true, if_false] at makes makes'
      obtain ⟨first, second, rfl, yields⟩ := makes
      obtain ⟨first', second', rfl, yields'⟩ := makes'
      cases agree.eq_of_map rfl
      rw [yields] at yields'
      cases yields'
      rfl
  | call callee arguments =>
    obtain ⟨function, passed, rfl, nodes, answers⟩ := makes
    obtain ⟨function', passed', rfl, nodes', answers'⟩ := makes'
    have same := agree.eq_of_map (by simp [nodes, nodes'])
    simp only [List.cons.injEq, Prod.mk.injEq, Value.function.injEq, true_and] at same
    obtain ⟨rfl, rfl⟩ := same
    exact Machine.answers_unique answers answers'
  | reference name =>
    unfold Makes at makes makes'
    cases visible : context.visible? id name with
    | none =>
      simp only [visible] at makes makes'
      have := makes.2.symm.trans makes'.2
      cases this
      rfl
    | some definition =>
      cases definition with
      | bind bind =>
        simp only [visible] at makes makes'
        obtain ⟨bound, rfl, rfl⟩ := makes
        obtain ⟨bound', rfl, rfl⟩ := makes'
        cases agree.head
        rfl
      | _ => simp only [visible] at makes
  | _ => exact makes.elim

/-- A value of a node that follows from the values of the nodes that it reads. -/
inductive Determined (context : Context) (seen : String → Option Value) : NodeId → Value → Prop where
  | node {id : NodeId} {form : Form} {reads : List (NodeId × Value)} {value : Value}
      (is : context.tree.form? id = some form) (makes : context.Makes seen id reads value form)
      (each : ∀ read ∈ reads, Determined context seen read.1 read.2) : Determined context seen id value

/-- A node has one determined value at most. -/
theorem determined_unique (determined : context.Determined seen id value)
    (determined' : context.Determined seen id value') : value = value' := by
  induction determined generalizing value' with
  | node is makes each hypothesis =>
    obtain ⟨is', makes', each'⟩ := determined'
    rw [is] at is'
    cases is'
    refine makes_unique makes makes' fun read among read' among' same => ?_
    exact hypothesis read among (same ▸ each' read' among')

/-! ### Nodes outside of a set that shields -/

/-- A value of a node of the tree is determined, unless the node is affected. -/
def Settled (context : Context) (seen : String → Option Value) (affected : NodeId → Prop) (id : NodeId)
    (value : Value) : Prop :=
  (context.tree.form? id).isSome ∧ (¬ affected id → context.Determined seen id value)

/-- A node that is not affected reads nothing that is. -/
theorem Shields.not_affected_of_makes {stream : String} {affected : NodeId → Prop}
    (shields : context.Shields stream affected) (is : context.tree.form? id = some form)
    (makes : context.Makes seen id reads value form) (unaffected : ¬ affected id) :
    ∀ read ∈ reads, (context.tree.form? read.1).isSome → ¬ affected read.1 := by
  intro read among there spreads
  refine unaffected ?_
  have linked (reading : form.readsLinks = true) (link : read.1 ∈ form.links context.tree.list) : affected id :=
    shields.links id form read.1 is reading link there spreads
  cases form with
  | program child =>
    cases makes
    exact linked rfl (by simp [Form.links, List.mem_singleton.mp among])
  | bind name child =>
    cases makes
    exact linked rfl (by simp [Form.links, List.mem_singleton.mp among])
  | block statements =>
    obtain ⟨last, ends, rfl⟩ := makes
    rw [List.mem_singleton.mp among] at there spreads
    exact shields.last id statements last is ends there spreads
  | sequence items =>
    exact linked rfl (by simpa [Form.links, ← makes.1] using ⟨read.2, among⟩)
  | property owner name =>
    obtain ⟨definition, fields, rfl, -⟩ := makes
    exact linked rfl (by simp [Form.links, List.mem_singleton.mp among])
  | unary op operand =>
    obtain ⟨first, rfl, -⟩ := makes
    exact linked rfl (by simp [Form.links, List.mem_singleton.mp among])
  | binary op left right =>
    refine linked rfl ?_
    have nodes : reads.map Prod.fst ⊆ [left, right] := by
      dsimp only [Makes] at makes
      split at makes
      · obtain ⟨first, makes⟩ := makes
        split at makes
        · simp [makes.1]
        · obtain ⟨second, rfl, -⟩ := makes
          simp
      · obtain ⟨first, second, rfl, -⟩ := makes
        simp
    exact nodes (List.mem_map_of_mem among)
  | call callee arguments =>
    obtain ⟨function, passed, rfl, nodes, -⟩ := makes
    refine linked rfl ?_
    rcases List.mem_cons.mp among with rfl | argument
    · simp [Form.links]
    · exact List.mem_cons_of_mem _ (nodes ▸ List.mem_map_of_mem argument)
  | reference name =>
    unfold Makes at makes
    cases visible : context.visible? id name with
    | none =>
      simp only [visible] at makes
      simp [makes.1] at among
    | some definition =>
      cases definition with
      | bind bind =>
        simp only [visible] at makes
        obtain ⟨bound, rfl, -⟩ := makes
        rw [List.mem_singleton.mp among] at there spreads
        exact shields.binds id name bind is (by rw [resolve?_eq, visible]; rfl) there spreads
      | _ => simp only [visible] at makes
  | number => simp [makes.1] at among
  | boolean => simp [makes.1] at among
  | text => simp [makes.1] at among
  | none => simp [makes.1] at among
  | _ => exact makes.elim

/-- What a node makes of settled values is settled. -/
theorem settled_of_makes {stream : String} {affected : NodeId → Prop} (shields : context.Shields stream affected)
    (is : context.tree.form? id = some form) (makes : context.Makes seen id reads value form)
    (each : ∀ read ∈ reads, context.Settled seen affected read.1 read.2) :
    context.Settled seen affected id value := by
  refine ⟨by simp [is], fun unaffected => .node is makes fun read among => ?_⟩
  obtain ⟨there, determined⟩ := each read among
  exact determined (shields.not_affected_of_makes is makes unaffected read among there)

end Context

end Rivulet
