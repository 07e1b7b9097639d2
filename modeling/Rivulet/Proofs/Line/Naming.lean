import Rivulet.Line
import Mathlib.Tactic.Cases

/-!
Names in lines. A token that is a name is not empty, and whatever is read from tokens is named by names
among them, so no statement declares or mentions an empty name.

Main statement: `named_of_readStatement`.
-/

namespace Rivulet.Line

/-! ### Names that are not empty -/

/-- No name among some tokens is empty. -/
def AllNamed (tokens : Tokens) : Prop :=
  ∀ token ∈ tokens, ∀ name, token.1 = .name name → name ≠ ""

mutual

/-- No name in an expression is empty. -/
def Expr.Named : Expr → Prop
  | .reference name => name ≠ ""
  | .sequence items => NamedItems items
  | .unary _ operand => operand.Named
  | .binary _ left right => left.Named ∧ right.Named
  | .call callee arguments => callee.Named ∧ NamedItems arguments
  | .property owner _ => owner.Named
  | .changed stream => stream.Named
  | .function inputs body => (∀ input ∈ inputs, input ≠ "") ∧ body.Named
  | .number .. | .text _ | .boolean _ | .none | .placeholder => True
termination_by structural expression => expression

/-- No name in some expressions is empty. -/
def Expr.NamedItems : List Expr → Prop
  | [] => True
  | item :: items => item.Named ∧ NamedItems items
termination_by structural expressions => expressions

end

/-- No name in a statement is empty. -/
def Statement.Named : Statement → Prop
  | .borrow source => source ≠ ""
  | .bind name value => name ≠ "" ∧ value.Named
  | .expression value => value.Named

/-! ### Reading -/

theorem AllNamed.tail {token : Token × Nat} {tokens : Tokens} (named : AllNamed (token :: tokens)) :
    AllNamed tokens :=
  fun other among => named other (by simp [among])

theorem AllNamed.tail' {tokens : Tokens} (named : AllNamed tokens) : AllNamed tokens.tail :=
  fun other among => named other (List.mem_of_mem_tail among)

theorem AllNamed.name {name : String} {column : Nat} {tokens : Tokens}
    (named : AllNamed ((.name name, column) :: tokens)) : name ≠ "" :=
  named (.name name, column) (by simp) name rfl

/-- What a reading yields, and the tokens that it leaves. -/
def Yields {α : Type} (reading : Reading (α × Tokens)) (named : α → Prop) : Prop :=
  ∀ value rest, reading = .ok (value, rest) → named value ∧ AllNamed rest

section

variable {α β : Type} {named : α → Prop} {named' : β → Prop}

theorem yields_ok {value : α} {rest : Tokens} (valueNamed : named value) (restNamed : AllNamed rest) :
    Yields (.ok (value, rest)) named := by
  rintro _ _ ⟨⟩
  exact ⟨valueNamed, restNamed⟩

theorem yields_error (failure : Failure) : Yields (.error failure : Reading (α × Tokens)) named := by
  rintro _ _ ⟨⟩

theorem yields_failAt (problem : Problem) (tokens : Tokens) :
    Yields (failAt problem tokens : Reading (α × Tokens)) named :=
  yields_error _

theorem yields_after {reading : Reading (α × Tokens)} (pieces : List Piece)
    (yields : Yields reading named) : Yields (after pieces reading) named := by
  cases reading with
  | ok result => exact yields
  | error failure => exact yields_error _

theorem yields_bind {reading : Reading (α × Tokens)} {next : α × Tokens → Reading (β × Tokens)}
    (yields : Yields reading named)
    (later : ∀ value rest, named value → AllNamed rest → Yields (next (value, rest)) named') :
    Yields (reading >>= next) named' := by
  cases reading with
  | ok result =>
    obtain ⟨valueNamed, restNamed⟩ := yields result.1 result.2 rfl
    exact later result.1 result.2 valueNamed restNamed
  | error failure => exact yields_error failure

end

variable {tokens : Tokens} (tokensNamed : AllNamed tokens)

include tokensNamed

theorem yields_expect (symbol : Symbol) : Yields (expect symbol tokens) fun _ => True := by
  unfold expect
  split
  · exact yields_ok trivial tokensNamed.tail'
  · exact yields_failAt _ _

theorem yields_inputNames :
    Yields (inputNames tokens) fun names => ∀ name ∈ names, name ≠ "" := by
  induction tokens using inputNames.induct with
  | case1 name column comma rest hypothesis =>
    rw [inputNames]
    refine yields_after _ (yields_bind (hypothesis tokensNamed.tail.tail) fun names rest all restNamed => ?_)
    refine yields_ok ?_ restNamed
    intro other among
    rcases List.mem_cons.mp among with rfl | later
    · exact tokensNamed.name
    · exact all other later
  | case2 name column rest other =>
    rw [inputNames]
    · refine yields_after _ (yields_bind (yields_expect tokensNamed.tail .closeParen) ?_)
      intro _ rest _ restNamed
      refine yields_ok ?_ restNamed
      intro input among
      rw [List.mem_singleton.mp among]
      exact tokensNamed.name
    · exact other
  | case3 tokens first second =>
    rw [inputNames]
    · exact yields_failAt _ _
    · exact first
    · exact second

theorem yields_inputs : Yields (inputs tokens) fun names => ∀ name ∈ names, name ≠ "" := by
  unfold inputs
  split
  · exact yields_ok (by simp) tokensNamed.tail'
  · exact yields_inputNames tokensNamed

omit tokensNamed in
/-- What the functions for expressions read down to a depth has no empty names. -/
structure YieldsTo (depth : Nat) : Prop where
  expression : ∀ tokens, AllNamed tokens → Yields (expression depth tokens) Expr.Named
  operators : ∀ left tokens, left.Named → AllNamed tokens →
    Yields (operators depth left tokens) Expr.Named
  unary : ∀ tokens, AllNamed tokens → Yields (unary depth tokens) Expr.Named
  suffixes : ∀ node tokens, node.Named → AllNamed tokens →
    Yields (suffixes depth node tokens) Expr.Named
  list : ∀ close tokens, AllNamed tokens → Yields (list depth close tokens) Expr.NamedItems
  items : ∀ close tokens, AllNamed tokens → Yields (items depth close tokens) Expr.NamedItems
  primary : ∀ tokens, AllNamed tokens → Yields (primary depth tokens) Expr.Named

omit tokensNamed in
theorem yieldsTo_zero : YieldsTo 0 where
  expression _ _ := yields_failAt _ _
  operators _ _ _ _ := yields_failAt _ _
  unary _ _ := yields_failAt _ _
  suffixes _ _ _ _ := yields_failAt _ _
  list _ _ _ := yields_failAt _ _
  items _ _ _ := yields_failAt _ _
  primary _ _ := yields_failAt _ _

section

variable {depth : Nat} (lower : YieldsTo depth)

include lower

theorem yields_expression : Yields (expression (depth + 1) tokens) Expr.Named := by
  refine yields_bind (lower.unary tokens tokensNamed) fun left rest leftNamed restNamed => ?_
  exact lower.operators left rest leftNamed restNamed

theorem yields_operators {left : Expr} (leftNamed : left.Named) :
    Yields (operators (depth + 1) left tokens) Expr.Named := by
  unfold operators
  split
  · exact yields_ok leftNamed tokensNamed
  · refine yields_bind (yields_after _ (lower.unary _ tokensNamed.tail')) ?_
    intro right rest rightNamed restNamed
    exact lower.operators _ rest (by simp [Expr.Named, leftNamed, rightNamed]) restNamed

theorem yields_unary : Yields (unary (depth + 1) tokens) Expr.Named := by
  unfold unary
  split
  · refine yields_bind (lower.unary _ tokensNamed.tail') fun operand rest operandNamed restNamed => ?_
    exact yields_ok (by simpa [Expr.Named] using operandNamed) restNamed
  · refine yields_bind (lower.primary _ tokensNamed) fun node rest nodeNamed restNamed => ?_
    exact lower.suffixes node rest nodeNamed restNamed

theorem yields_suffixes {node : Expr} (nodeNamed : node.Named) :
    Yields (suffixes (depth + 1) node tokens) Expr.Named := by
  unfold suffixes
  split
  · refine yields_bind (yields_after _ (lower.list .closeParen _ tokensNamed.tail)) ?_
    intro arguments rest argumentsNamed restNamed
    exact lower.suffixes _ rest (by simp [Expr.Named, nodeNamed, argumentsNamed]) restNamed
  · exact lower.suffixes _ _ (by simpa [Expr.Named] using nodeNamed) tokensNamed.tail.tail
  · exact yields_error _
  · exact yields_ok nodeNamed tokensNamed

theorem yields_list (close : Symbol) : Yields (list (depth + 1) close tokens) Expr.NamedItems := by
  unfold list
  split
  · exact yields_ok (by simp [Expr.NamedItems]) tokensNamed.tail'
  · exact lower.items close tokens tokensNamed

theorem yields_items (close : Symbol) :
    Yields (items (depth + 1) close tokens) Expr.NamedItems := by
  unfold items
  refine yields_bind (lower.expression tokens tokensNamed) fun item rest itemNamed restNamed => ?_
  dsimp only
  split
  · refine yields_bind (yields_after _ (lower.items close _ restNamed.tail')) ?_
    intro more rest moreNamed restNamed
    exact yields_ok (by simp [Expr.NamedItems, itemNamed, moreNamed]) restNamed
  · refine yields_bind (yields_after _ (yields_expect restNamed close)) fun _ rest _ restNamed => ?_
    exact yields_ok (by simp [Expr.NamedItems, itemNamed]) restNamed

theorem yields_primary : Yields (primary (depth + 1) tokens) Expr.Named := by
  cases tokens with
  | nil => exact yields_failAt _ _
  | cons first rest =>
    obtain ⟨token, column⟩ := first
    have restNamed : AllNamed rest := tokensNamed.tail
    unfold primary
    dsimp only
    split
    · unfold number
      split
      · exact yields_ok (by simp [Expr.Named]) restNamed
      · exact yields_error _
    · exact yields_ok (by simp [Expr.Named]) restNamed
    · exact yields_ok (by simp [Expr.Named]) restNamed
    · exact yields_ok (by simp [Expr.Named]) restNamed
    · exact yields_ok (by simp [Expr.Named]) restNamed
    · split
      · refine yields_bind (yields_inputs restNamed.tail') fun names rest namesNamed restNamed => ?_
        refine yields_bind (yields_after _ (lower.expression rest restNamed)) ?_
        intro body rest bodyNamed restNamed
        exact yields_ok (by simpa [Expr.Named] using ⟨namesNamed, bodyNamed⟩) restNamed
      · split
        · refine yields_bind (lower.expression _ restNamed.tail') fun stream rest streamNamed restNamed => ?_
          refine yields_bind (yields_after _ (yields_expect restNamed .closeParen)) ?_
          intro _ rest _ restNamed
          exact yields_ok (by simpa [Expr.Named] using streamNamed) restNamed
        · exact yields_ok (by simpa [Expr.Named] using tokensNamed.name) restNamed
    · exact yields_ok (by simp [Expr.Named]) restNamed
    · refine yields_bind (lower.list .closeBracket rest restNamed) ?_
      intro items rest itemsNamed restNamed
      exact yields_ok (by simpa [Expr.Named] using itemsNamed) restNamed
    · refine yields_bind (lower.expression rest restNamed) fun inner rest innerNamed restNamed => ?_
      refine yields_bind (yields_after _ (yields_expect restNamed .closeParen)) ?_
      intro _ rest _ restNamed
      exact yields_ok innerNamed restNamed
    · exact yields_error _

end

omit tokensNamed in
theorem yieldsTo (depth : Nat) : YieldsTo depth := by
  induction depth with
  | zero => exact yieldsTo_zero
  | succ depth lower =>
    exact {
      expression := fun _ named => yields_expression named lower
      operators := fun _ _ leftNamed named => yields_operators named lower leftNamed
      unary := fun _ named => yields_unary named lower
      suffixes := fun _ _ nodeNamed named => yields_suffixes named lower nodeNamed
      list := fun close _ named => yields_list named lower close
      items := fun close _ named => yields_items named lower close
      primary := fun _ named => yields_primary named lower }

/-! ### Statements -/

theorem yields_leadingStatement : Yields (leadingStatement tokens) Statement.Named := by
  unfold leadingStatement
  split
  · exact yields_ok tokensNamed.tail.name tokensNamed.tail.tail
  · refine yields_bind ((yieldsTo _).expression _ tokensNamed.tail.tail) ?_
    intro value rest valueNamed restNamed
    exact yields_ok ⟨tokensNamed.name, valueNamed⟩ restNamed
  · refine yields_bind ((yieldsTo _).expression _ tokensNamed) ?_
    intro value rest valueNamed restNamed
    exact yields_ok valueNamed restNamed

theorem named_of_statement {value : Statement} (read : statement tokens = .ok value) :
    value.Named := by
  unfold statement at read
  cases leading : leadingStatement tokens with
  | error failure => simp [leading, bind, Except.bind] at read
  | ok result =>
    obtain ⟨value', rest⟩ := result
    simp only [leading, bind, Except.bind] at read
    split at read
    · cases read
      exact (yields_leadingStatement tokensNamed _ rest leading).1
    · simp at read

omit tokensNamed in
theorem name_of_lexeme {first : Char} {rest : List Char} {name : String} {extra : Nat}
    (read : lexeme first rest = .ok (some (.name name), extra)) : name ≠ "" := by
  unfold lexeme at read
  split at read
  · simp at read
  · split at read
    · simp at read
    · split at read
      · dsimp only at read
        split at read <;> simp at read
      · split at read
        · simp only [Except.ok.injEq, Prod.mk.injEq, Option.some.injEq, Token.name.injEq] at read
          rw [← read.1]
          intro empty
          have length := congrArg String.toList empty
          simp at length
        · split at read <;> simp at read

omit tokensNamed in
theorem allNamed_of_tokenizeFrom {column : Nat} {text : List Char}
    (read : tokenizeFrom column text = .ok tokens) : AllNamed tokens := by
  fun_induction tokenizeFrom column text generalizing tokens with
  | case1 column =>
    cases read
    exact fun _ among => absurd among (by simp)
  | case2 | case3 => simp at read
  | case4 column first rest extra later laterRead token read' hypothesis =>
    cases read
    intro other among name is
    rcases List.mem_cons.mp among with rfl | inLater
    · dsimp only at is
      subst is
      exact name_of_lexeme read'
    · exact hypothesis laterRead other inLater name is
  | case5 column first rest extra later laterRead read' hypothesis =>
    cases read
    exact hypothesis laterRead

omit tokensNamed in
/-- No statement that is read from a line has an empty name in it. -/
theorem named_of_readStatement {line : List Char} {value : Statement}
    (read : readStatement line = .ok value) : value.Named := by
  unfold readStatement at read
  cases tokenized : tokenize line with
  | error failure => simp [tokenized] at read
  | ok tokens =>
    simp only [tokenized] at read
    cases stated : statement tokens with
    | error failure => simp [stated] at read
    | ok value' =>
      simp only [stated, Except.ok.injEq] at read
      subst read
      exact named_of_statement (allNamed_of_tokenizeFrom tokenized) stated

end Rivulet.Line
