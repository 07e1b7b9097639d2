import Rivulet.Proofs.Line.Progress

/-!
Where reading a statement fails. The tokens that were taken lead to a place where the others do not fit (`Misfit`): the
next one leads nowhere from it, or there is none and the line cannot end there. The column of a failure is that of the
token that leads nowhere, except behind a point, where it is that of the token after it.

Main statements: every failure comes of such a misfit (`blames_statement`), so statements are read from the tokens that
lead to a place where a line can end, and from no others (`exists_statement_iff_run`).
-/

namespace Rivulet.Line

/-! ### Readings that fail -/

/-- A reading fails, and its failure has a column or none. -/
def Fails {α : Type} (reading : Reading α) (column : Option Nat) : Prop :=
  ∃ failure, reading = .error failure ∧ failure.column = column

section

variable {α β : Type} {reading : Reading α} {tokens : Tokens} {column : Option Nat} {pieces : List Piece}
  {symbol : Symbol}

theorem fails_failAt {problem : Problem} (fails : Fails (failAt problem tokens : Reading α) column) :
    column = columnOf tokens := by
  obtain ⟨failure, ⟨⟩, rfl⟩ := fails
  rfl

theorem fails_after (fails : Fails (after pieces reading) column) : Fails reading column := by
  obtain ⟨failure, is, rfl⟩ := fails
  cases reading with
  | ok result => cases is
  | error failure =>
    cases is
    exact ⟨failure, rfl, rfl⟩

theorem fails_bind {reading : Reading (α × Tokens)} {next : α × Tokens → Reading β}
    (fails : Fails (reading >>= next) column) :
    Fails reading column ∨ ∃ value rest, reading = .ok (value, rest) ∧ Fails (next (value, rest)) column := by
  cases reading with
  | ok found => exact .inr ⟨found.1, found.2, rfl, fails⟩
  | error failure =>
    obtain ⟨_, ⟨⟩, rfl⟩ := fails
    exact .inl ⟨failure, rfl, rfl⟩

theorem not_fails_ok {value : α} (fails : Fails (.ok value) column) : False := by
  obtain ⟨_, ⟨⟩, -⟩ := fails

/-- What only goes on with the result of a reading fails where the reading does. -/
theorem fails_map {reading : Reading (α × Tokens)} {next : α × Tokens → β}
    (fails : Fails (reading >>= fun found => .ok (next found)) column) : Fails reading column := by
  rcases fails_bind fails with fails | ⟨_, _, -, fails⟩
  · exact fails
  · exact (not_fails_ok fails).elim

theorem fails_expect (fails : Fails (expect symbol tokens) column) :
    nextSymbol? tokens ≠ some symbol ∧ column = columnOf tokens := by
  unfold expect at fails
  split at fails
  · exact (not_fails_ok fails).elim
  · exact ⟨‹_›, fails_failAt fails⟩

end

/-! ### Misfits -/

/-- Some tokens do not fit at a place, and a column is blamed for it. -/
inductive Misfit : Place → Tokens → Option Nat → Prop where
  | early {place : Place} (incomplete : place.isComplete = false) : Misfit place [] none
  | token {place : Place} {token : Token} {column : Nat} {rest : Tokens} (stuck : place.next? token = none)
      (elsewhere : ¬ place.IsProperty) : Misfit place ((token, column) :: rest) (some column)
  | property {brackets : List Bracket} {token : Token} {column : Nat} {rest : Tokens}
      (stuck : (Place.inside .property brackets).next? token = none) :
      Misfit (.inside .property brackets) ((token, column) :: rest) (columnOf rest)

/-- Some tokens lead on to where the others do not fit. -/
def Blames (place : Place) (tokens : Tokens) (column : Option Nat) : Prop :=
  ∃ place' rest, Leads place tokens place' rest ∧ Misfit place' rest column

section

variable {place place' : Place} {token : Token} {column' : Nat} {tokens rest : Tokens} {column : Option Nat}
  {brackets : List Bracket} {bracket : Bracket} {mark : Mark}

theorem Misfit.blames (misfit : Misfit place tokens column) : Blames place tokens column :=
  ⟨place, tokens, leads_refl place tokens, misfit⟩

theorem Leads.blames (leads : Leads place tokens place' rest) (blames : Blames place' rest column) :
    Blames place tokens column := by
  obtain ⟨last, end', leads', misfit⟩ := blames
  exact ⟨last, end', leads.trans leads', misfit⟩

theorem not_isProperty {stage : Stage} (other : stage ≠ .property) : ¬ (Place.inside stage brackets).IsProperty := by
  rintro ⟨brackets', is⟩
  cases is
  exact other rfl

theorem blames_cons (next : place.next? token = some place') (blames : Blames place' rest column) :
    Blames place ((token, column') :: rest) column :=
  (leads_next next).blames blames

theorem misfit_of_stuck (stuck : ∀ token column more, rest = (token, column) :: more → place.next? token = none)
    (elsewhere : ¬ place.IsProperty) (incomplete : rest = [] → place.isComplete = false) :
    Misfit place rest (columnOf rest) := by
  cases rest with
  | nil => exact .early (incomplete rfl)
  | cons first rest => exact .token (stuck first.1 first.2 rest rfl) elsewhere

/-- What does not go on behind an operand either ends the innermost bracket or does not fit. -/
theorem misfit_operator (stops : Stops rest)
    (stuck : ∀ symbol, nextSymbol? rest = some symbol → endNext? symbol brackets = none)
    (incomplete : rest = [] → brackets ≠ []) : Misfit (.inside (.operator mark) brackets) rest (columnOf rest) := by
  refine misfit_of_stuck ?_ (not_isProperty (by simp)) fun none => ?_
  · rintro token column more rfl
    cases token with
    | number | text | name => rfl
    | symbol symbol =>
      have ends := stuck symbol rfl
      obtain ⟨⟨notParen, notPoint⟩, notBinary⟩ := stops
      cases symbol
      case openParen => exact absurd rfl notParen
      case point => exact absurd rfl notPoint
      all_goals first | exact ends | cases notBinary
  · cases brackets with
    | nil => exact absurd rfl (incomplete none)
    | cons bracket brackets => rfl

theorem endNext?_eq_none {symbol : Symbol} (notClosing : symbol ≠ bracket.closing)
    (notNext : symbol = .comma → bracket = .group) : endNext? symbol (bracket :: brackets) = none := by
  rw [endNext?, if_neg notClosing, if_neg fun is => is.2 (notNext is.1)]

/-- Where a list does not end at once, what does not fit in its first entry does not fit in the list. -/
theorem blames_entry (apart : nextSymbol? tokens ≠ some bracket.closing)
    (blames : Blames (.inside .operand (bracket :: brackets)) tokens column) :
    Blames (.inside .entry (bracket :: brackets)) tokens column := by
  obtain ⟨place, rest, leads, misfit⟩ := blames
  rcases leads_congr (next?_entry apart brackets) leads with ⟨rfl, rfl⟩ | leads'
  · cases misfit with
    | early => exact Misfit.blames (.early rfl)
    | token stuck =>
      exact Misfit.blames (.token (next?_entry apart brackets _ _ _ rfl ▸ stuck) (not_isProperty (by simp)))
  · exact ⟨place, rest, leads', misfit⟩

theorem blames_inputNames (fails : Fails (inputNames tokens) column) {stage : Stage}
    (fits : stage = .input ∨ stage = .inputs ∧ nextSymbol? tokens ≠ some .closeParen) :
    Blames (.inside stage brackets) tokens column := by
  have taken (name : String) :
      (Place.inside stage brackets).next? (.name name) = some (.inside .separator brackets) := by
    rcases fits with rfl | ⟨rfl, -⟩ <;> rfl
  induction tokens using inputNames.induct generalizing stage with
  | case1 name column comma tokens hypothesis =>
    rw [inputNames] at fails
    refine blames_cons (taken name) (blames_cons rfl ?_)
    exact hypothesis (fails_map (fails_after fails)) (.inl rfl) fun _ => rfl
  | case2 name column tokens notComma =>
    rw [inputNames] at fails
    · obtain ⟨notParen, rfl⟩ := fails_expect (fails_map (fails_after fails))
      refine blames_cons (taken name) (Misfit.blames (misfit_of_stuck ?_ (not_isProperty (by simp)) fun _ => rfl))
      rintro token column more rfl
      cases token with
      | number | text | name => rfl
      | symbol symbol =>
        cases symbol
        case comma => exact (notComma _ _ rfl).elim
        case closeParen => exact absurd rfl notParen
        all_goals rfl
    · exact notComma
  | case3 tokens notNext notLast =>
    rw [inputNames] at fails
    · obtain rfl := fails_failAt fails
      refine Misfit.blames (misfit_of_stuck ?_ ?_ fun _ => ?_)
      · rintro token column more rfl
        cases token with
        | name name => exact (notLast _ _ _ rfl).elim
        | number | text => rcases fits with rfl | ⟨rfl, -⟩ <;> rfl
        | symbol symbol =>
          rcases fits with rfl | ⟨rfl, notParen⟩
          · rfl
          · cases symbol
            case closeParen => exact absurd rfl notParen
            all_goals rfl
      · rcases fits with rfl | ⟨rfl, -⟩ <;> exact not_isProperty (by simp)
      · rcases fits with rfl | ⟨rfl, -⟩ <;> rfl
    · exact notNext
    · exact notLast

theorem blames_inputs (fails : Fails (inputs tokens) column) : Blames (.inside .inputs brackets) tokens column := by
  unfold inputs at fails
  split at fails
  · exact (not_fails_ok fails).elim
  · exact blames_inputNames fails (.inr ⟨rfl, ‹_›⟩)

end

/-! ### Expressions -/

/-- The functions for expressions fail at misfits, if the depth is enough for their tokens. -/
structure BlamesTo (depth : Nat) : Prop where
  expression {tokens : Tokens} {column : Option Nat} (measured : AllMeasured tokens)
    (deep : 6 * tokens.length + 3 ≤ depth) (fails : Fails (expression depth tokens) column) (brackets : List Bracket) :
    Blames (.inside .operand brackets) tokens column
  operators {tokens : Tokens} {left : Expr} {column : Option Nat} (measured : AllMeasured tokens)
    (deep : 6 * tokens.length + 1 ≤ depth) (fails : Fails (operators depth left tokens) column) (mark : Mark)
    (brackets : List Bracket) : Blames (.inside (.operator mark) brackets) tokens column
  unary {tokens : Tokens} {column : Option Nat} (measured : AllMeasured tokens) (deep : 6 * tokens.length + 2 ≤ depth)
    (fails : Fails (unary depth tokens) column) (brackets : List Bracket) :
    Blames (.inside .operand brackets) tokens column
  suffixes {tokens : Tokens} {node : Expr} {column : Option Nat} {mark : Mark} (measured : AllMeasured tokens)
    (deep : 6 * tokens.length + 1 ≤ depth) (fails : Fails (suffixes depth node tokens) column)
    (apart : mark.Apart tokens) (brackets : List Bracket) : Blames (.inside (.operator mark) brackets) tokens column
  list {tokens : Tokens} {bracket : Bracket} {column : Option Nat} (measured : AllMeasured tokens)
    (lists : bracket ≠ .group) (deep : 6 * tokens.length + 5 ≤ depth)
    (fails : Fails (list depth bracket.closing tokens) column) (brackets : List Bracket) :
    Blames (.inside .entry (bracket :: brackets)) tokens column
  items {tokens : Tokens} {bracket : Bracket} {column : Option Nat} (measured : AllMeasured tokens)
    (lists : bracket ≠ .group) (deep : 6 * tokens.length + 4 ≤ depth)
    (fails : Fails (items depth bracket.closing tokens) column) (brackets : List Bracket) :
    Blames (.inside .operand (bracket :: brackets)) tokens column
  primary {tokens : Tokens} {column : Option Nat} (measured : AllMeasured tokens)
    (unsigned : (nextSymbol? tokens).bind Symbol.unaryOp? = none) (deep : 6 * tokens.length + 1 ≤ depth)
    (fails : Fails (primary depth tokens) column) (brackets : List Bracket) :
    Blames (.inside .operand brackets) tokens column

theorem blamesTo_zero : BlamesTo 0 where
  expression _ deep := absurd deep (Nat.not_succ_le_zero _)
  operators _ deep := absurd deep (Nat.not_succ_le_zero _)
  unary _ deep := absurd deep (Nat.not_succ_le_zero _)
  suffixes _ deep := absurd deep (Nat.not_succ_le_zero _)
  list _ _ deep := absurd deep (Nat.not_succ_le_zero _)
  items _ _ deep := absurd deep (Nat.not_succ_le_zero _)
  primary _ _ deep := absurd deep (Nat.not_succ_le_zero _)

namespace BlamesTo

variable {depth : Nat} {tokens rest : Tokens} {value left node : Expr} {values : List Expr} {bracket : Bracket}
  {column : Option Nat} {mark : Mark} (lower : BlamesTo depth) (measured : AllMeasured tokens)

include lower measured

theorem expression_succ (deep : 6 * tokens.length + 3 ≤ depth + 1)
    (fails : Fails (Line.expression (depth + 1) tokens) column) (brackets : List Bracket) :
    Blames (.inside .operand brackets) tokens column := by
  rw [Line.expression] at fails
  rcases fails_bind fails with fails | ⟨left, rest, first, fails⟩
  · exact lower.unary measured (by omega) fails brackets
  · have derives := ((soundTo depth).unary measured first).1
    obtain ⟨mark, -, leads⟩ := derives.advances brackets
    have shorter := leads.length_lt (by simp)
    exact leads.blames (lower.operators (measured.suffix derives.suffix) (by omega) fails mark brackets)

theorem operators_succ (deep : 6 * tokens.length + 1 ≤ depth + 1)
    (fails : Fails (Line.operators (depth + 1) left tokens) column) (mark : Mark) (brackets : List Bracket) :
    Blames (.inside (.operator mark) brackets) tokens column := by
  unfold Line.operators at fails
  split at fails
  · exact (not_fails_ok fails).elim
  · rename_i op is
    obtain ⟨symbol, next, is⟩ := Option.bind_eq_some_iff.mp is
    obtain ⟨column, tail, rfl⟩ := nextSymbol?_eq_some_iff.mp next
    rw [List.length_cons] at deep
    have measured' : AllMeasured tail := measured.suffix (List.suffix_cons _ _)
    refine blames_cons (next?_binary is mark brackets) ?_
    rcases fails_bind fails with fails | ⟨right, rest, second, fails⟩
    · exact lower.unary measured' (by omega) (fails_after fails) brackets
    · have derives := ((soundTo depth).unary measured' (after_eq_ok_iff.mp second)).1
      obtain ⟨mark', -, leads⟩ := derives.advances brackets
      have shorter := leads.length_lt (by simp)
      exact leads.blames (lower.operators (measured'.suffix derives.suffix) (by omega) fails mark' brackets)

theorem unary_succ (deep : 6 * tokens.length + 2 ≤ depth + 1)
    (fails : Fails (Line.unary (depth + 1) tokens) column) (brackets : List Bracket) :
    Blames (.inside .operand brackets) tokens column := by
  unfold Line.unary at fails
  split at fails
  · rename_i op is
    obtain ⟨symbol, next, is⟩ := Option.bind_eq_some_iff.mp is
    obtain ⟨column, tail, rfl⟩ := nextSymbol?_eq_some_iff.mp next
    rw [List.length_cons] at deep
    refine blames_cons (next?_unary is brackets) ?_
    exact lower.unary (measured.suffix (List.suffix_cons _ _)) (by omega) (fails_map fails) brackets
  · rename_i unsigned
    rcases fails_bind fails with fails | ⟨node, rest, first, fails⟩
    · exact lower.primary measured unsigned (by omega) fails brackets
    · have derives := (soundTo depth).primary measured first
      obtain ⟨mark, apart, leads⟩ := derives.advances brackets
      have shorter := leads.length_lt (by simp)
      exact leads.blames (lower.suffixes (measured.suffix derives.suffix) (by omega) fails apart brackets)

theorem suffixes_succ (deep : 6 * tokens.length + 1 ≤ depth + 1)
    (fails : Fails (Line.suffixes (depth + 1) node tokens) column) (apart : mark.Apart tokens)
    (brackets : List Bracket) : Blames (.inside (.operator mark) brackets) tokens column := by
  unfold Line.suffixes at fails
  split at fails
  · rename_i tail
    obtain rfl : mark = .call := Decidable.byContradiction fun other => apart other rfl
    rw [List.length_cons] at deep
    have measured' : AllMeasured tail := measured.suffix (List.suffix_cons _ _)
    refine blames_cons rfl ?_
    rcases fails_bind fails with fails | ⟨arguments, rest, inner, fails⟩
    · exact @lower.list tail .call column measured' (by simp) (by omega) (fails_after fails) brackets
    · obtain ⟨column', derives⟩ := (soundTo depth).list measured' (after_eq_ok_iff.mp inner)
      have leads := derives.advances .call brackets column' rest nofun rfl
      have shorter := leads.length_lt (by simp)
      have ends : rest <:+ tail := (List.suffix_cons _ _).trans derives.suffix
      exact leads.blames (lower.suffixes (measured'.suffix ends) (by omega) fails (apart_call rest) brackets)
  · rename_i column name column' tail
    simp only [List.length_cons] at deep
    have measured' : AllMeasured tail := measured.suffix ((List.suffix_cons _ _).trans (List.suffix_cons _ _))
    refine blames_cons rfl (blames_cons rfl ?_)
    exact lower.suffixes measured' (by omega) fails (apart_call tail) brackets
  · -- The token behind the point is passed over before it turns out to be no name.
    rename_i column tail notName
    obtain ⟨_, ⟨⟩, rfl⟩ := fails
    refine blames_cons rfl (Misfit.blames ?_)
    cases tail with
    | nil => exact .early rfl
    | cons first tail =>
      obtain ⟨token, column'⟩ := first
      refine .property ?_
      cases token with
      | name name => exact (notName _ _ _ rfl).elim
      | number | text | symbol => rfl
  · exact (not_fails_ok fails).elim

theorem list_succ (lists : bracket ≠ .group) (deep : 6 * tokens.length + 5 ≤ depth + 1)
    (fails : Fails (Line.list (depth + 1) bracket.closing tokens) column) (brackets : List Bracket) :
    Blames (.inside .entry (bracket :: brackets)) tokens column := by
  unfold Line.list at fails
  split at fails
  · exact (not_fails_ok fails).elim
  · rename_i apart
    exact blames_entry apart (lower.items measured lists (by omega) fails brackets)

theorem items_succ (lists : bracket ≠ .group) (deep : 6 * tokens.length + 4 ≤ depth + 1)
    (fails : Fails (Line.items (depth + 1) bracket.closing tokens) column) (brackets : List Bracket) :
    Blames (.inside .operand (bracket :: brackets)) tokens column := by
  rw [Line.items] at fails
  rcases fails_bind fails with fails | ⟨item, rest, first, fails⟩
  · exact lower.expression measured (by omega) fails (bracket :: brackets)
  · obtain ⟨derives, stops⟩ := (soundTo depth).expression measured first
    obtain ⟨mark, -, leads⟩ := derives.advances (bracket :: brackets)
    have shorter := leads.length_lt (by simp)
    refine leads.blames ?_
    dsimp only at fails
    split at fails
    · rename_i next
      obtain ⟨column', tail, rfl⟩ := nextSymbol?_eq_some_iff.mp next
      rw [List.length_cons] at shorter
      have ends : tail <:+ tokens := (List.suffix_cons _ _).trans derives.suffix
      refine blames_cons (next?_comma mark brackets lists) ?_
      exact lower.items (measured.suffix ends) lists (by omega) (fails_after (fails_map fails)) brackets
    · rename_i notComma
      obtain ⟨notClosing, rfl⟩ := fails_expect (fails_after (fails_map fails))
      refine Misfit.blames (misfit_operator stops (fun symbol next => ?_) fun _ => List.cons_ne_nil _ _)
      rw [next] at notClosing notComma
      exact endNext?_eq_none (fun is => notClosing (congrArg some is)) fun is => absurd (congrArg some is) notComma

/-- Between parentheses either the expression fails, or the parenthesis after it is missing. -/
theorem enclosed_succ {make : Expr → Expr} (deep : 6 * tokens.length + 3 ≤ depth)
    (fails : Fails (Line.expression depth tokens >>= fun inner =>
      Line.after [.ofExpr inner.1] (expect .closeParen inner.2) >>= fun closed => .ok (make inner.1, closed.2)) column)
    (brackets : List Bracket) : Blames (.inside .operand (.group :: brackets)) tokens column := by
  rcases fails_bind fails with fails | ⟨inner, rest, first, fails⟩
  · exact lower.expression measured deep fails (.group :: brackets)
  · obtain ⟨derives, stops⟩ := (soundTo depth).expression measured first
    obtain ⟨mark, -, leads⟩ := derives.advances (.group :: brackets)
    obtain ⟨notClosing, rfl⟩ := fails_expect (fails_after (fails_map fails))
    refine leads.blames (Misfit.blames (misfit_operator stops (fun symbol next => ?_) fun _ => List.cons_ne_nil _ _))
    rw [next] at notClosing
    exact endNext?_eq_none (fun is => notClosing (congrArg some is)) fun _ => rfl

theorem function_succ (deep : 6 * tokens.length + 3 ≤ depth)
    (fails : Fails (inputs tokens >>= fun found => Line.after (found.1.map .input) (Line.expression depth found.2) >>=
      fun body => .ok (Expr.function found.1 body.1, body.2)) column) (brackets : List Bracket) :
    Blames (.inside .inputs brackets) tokens column := by
  rcases fails_bind fails with fails | ⟨names, rest, listed, fails⟩
  · exact blames_inputs fails
  · obtain ⟨column', names⟩ := derivesInputs_of_inputs listed
    have leads := leads_inputs names brackets
    have shorter := leads.length_lt (by simp)
    have measured' : AllMeasured rest := measured.suffix ((List.suffix_cons _ _).trans names.suffix)
    exact leads.blames (lower.expression measured' (by omega) (fails_after (fails_map fails)) brackets)

theorem primary_succ (unsigned : (nextSymbol? tokens).bind Symbol.unaryOp? = none)
    (deep : 6 * tokens.length + 1 ≤ depth + 1) (fails : Fails (Line.primary (depth + 1) tokens) column)
    (brackets : List Bracket) : Blames (.inside .operand brackets) tokens column := by
  cases tokens with
  | nil =>
    obtain rfl := fails_failAt fails
    exact Misfit.blames (.early rfl)
  | cons first tokens =>
    obtain ⟨token, column'⟩ := first
    rw [List.length_cons] at deep
    have measured' : AllMeasured tokens := measured.suffix (List.suffix_cons _ _)
    unfold Line.primary at fails
    dsimp only at fails
    split at fails
    case h_1 digits unit =>
      rw [number, measured digits unit column' List.mem_cons_self] at fails
      exact (not_fails_ok fails).elim
    case h_6 name notTrue notFalse notNone =>
      refine blames_cons (show _ = some (Place.inside (.operator (.ofName name)) brackets) from rfl) ?_
      split at fails
      · rename_i is
        simp only [Bool.and_eq_true, decide_eq_true_eq, Bool.or_eq_true, beq_iff_eq] at is
        obtain ⟨next, marked⟩ := is
        obtain ⟨column', opened, rfl⟩ := nextSymbol?_eq_some_iff.mp next
        rw [List.length_cons] at deep
        rw [show Mark.ofName name = .function from if_pos marked]
        exact blames_cons rfl (lower.function_succ (measured'.suffix (List.suffix_cons _ _)) (by omega) fails brackets)
      · split at fails
        · rename_i is
          simp only [Bool.and_eq_true, decide_eq_true_eq, beq_iff_eq] at is
          obtain ⟨next, rfl⟩ := is
          obtain ⟨column', middle, rfl⟩ := nextSymbol?_eq_some_iff.mp next
          rw [List.length_cons] at deep
          refine blames_cons rfl ?_
          exact @enclosed_succ depth middle column lower (measured'.suffix (List.suffix_cons _ _)) .changed (by omega)
            fails brackets
        · exact (not_fails_ok fails).elim
    case h_8 =>
      refine blames_cons rfl ?_
      exact @lower.list tokens .sequence column measured' (by simp) (by omega) (fails_map fails) brackets
    case h_9 =>
      exact blames_cons rfl (@enclosed_succ depth tokens column lower measured' id (by omega) fails brackets)
    case h_10 symbol notQuestion notBracket notParen =>
      obtain ⟨_, ⟨⟩, rfl⟩ := fails
      refine Misfit.blames (.token ?_ (not_isProperty (by simp)))
      have unsigned' : symbol.unaryOp? = none := unsigned
      cases symbol
      case question => exact absurd rfl notQuestion
      case openBracket => exact absurd rfl notBracket
      case openParen => exact absurd rfl notParen
      all_goals first | rfl | cases unsigned'
    all_goals exact (not_fails_ok fails).elim

end BlamesTo

theorem blamesTo (depth : Nat) : BlamesTo depth := by
  induction depth with
  | zero => exact blamesTo_zero
  | succ depth lower =>
    exact {
      expression := fun measured => lower.expression_succ measured
      operators := fun measured => lower.operators_succ measured
      unary := fun measured => lower.unary_succ measured
      suffixes := fun measured => lower.suffixes_succ measured
      list := fun measured => lower.list_succ measured
      items := fun measured => lower.items_succ measured
      primary := fun measured => lower.primary_succ measured }

/-! ### Statements -/

section

variable {tokens rest : Tokens} {column : Option Nat}

/-- Where an expression has to take up all tokens, it fails at a misfit, or what comes behind it is one. -/
theorem blames_whole {make : Expr → Statement} (measured : AllMeasured tokens)
    (fails : Fails ((expression (depthOf tokens) tokens >>= fun found => .ok (make found.1, found.2)) >>= fun found =>
      if found.2.isEmpty then .ok found.1
      else .error ⟨.expectedEnd, columnOf found.2, [.statement found.1]⟩) column) :
    Blames (.inside .operand []) tokens column := by
  rcases fails_bind fails with fails | ⟨_, _, read, fails⟩
  · exact (blamesTo _).expression measured (by unfold depthOf; omega) (fails_map fails) []
  · obtain ⟨value, rest, first, ⟨⟩⟩ := bind_eq_ok_iff.mp read
    obtain ⟨derives, stops⟩ := (soundTo _).expression measured first
    obtain ⟨mark, -, leads⟩ := derives.advances []
    cases rest with
    | nil => exact (not_fails_ok fails).elim
    | cons first rest =>
      obtain ⟨_, ⟨⟩, rfl⟩ := fails
      exact leads.blames (Misfit.blames (misfit_operator stops (fun _ _ => rfl) nofun))

/-- What does not fit in an expression does not fit in a line that is neither a binding nor a borrow. -/
theorem blames_start
    (notBorrow : ∀ column source column' rest, tokens ≠ (.name "borrow", column) :: (.name source, column') :: rest)
    (notBind : ∀ name column column' rest, tokens ≠ (.name name, column) :: (.symbol .colon, column') :: rest)
    (blames : Blames (.inside .operand []) tokens column) : Blames .start tokens column := by
  obtain ⟨place, rest, leads, misfit⟩ := blames
  rcases leads_start leads with leads | ⟨rfl, rfl⟩ | ⟨name, column', rfl, rfl⟩
  · exact ⟨place, rest, leads, misfit⟩
  · refine Misfit.blames ?_
    cases misfit with
    | early => exact .early rfl
    | token stuck =>
      refine .token ?_ nofun
      rw [next?_start]
      · exact stuck
      · rintro name rfl
        cases stuck
  · refine (leads_next rfl).blames (Misfit.blames ?_)
    cases misfit with
    | early incomplete => cases incomplete
    | token stuck =>
      refine .token ?_ nofun
      rw [next?_named]
      · exact stuck
      · rintro rfl
        exact notBind _ _ _ _ rfl
      · rintro rfl source rfl
        exact notBorrow _ _ _ _ rfl

/-- A statement that cannot be read fails at a misfit. -/
theorem blames_statement (measured : AllMeasured tokens) (fails : Fails (statement tokens) column) :
    Blames .start tokens column := by
  unfold statement leadingStatement at fails
  split at fails
  · rename_i column source column' rest
    refine (leads_cons rfl (leads_next rfl)).blames (@Misfit.blames .finished _ _ ?_)
    cases rest with
    | nil => exact (not_fails_ok fails).elim
    | cons first rest =>
      obtain ⟨_, ⟨⟩, rfl⟩ := fails
      exact .token rfl nofun
  · refine blames_cons rfl (blames_cons rfl ?_)
    exact blames_whole (measured.suffix ((List.suffix_cons _ _).trans (List.suffix_cons _ _))) fails
  · rename_i notBorrow notBind
    refine blames_start (fun _ _ _ _ is => notBorrow _ _ _ _ is) (fun _ _ _ _ is => notBind _ _ _ _ is) ?_
    exact blames_whole measured fails

theorem isComplete_of_misfit {place : Place} (misfit : Misfit place rest column) {place' : Place}
    (run : place.run (rest.map Prod.fst) = some place') : place'.isComplete = false := by
  cases misfit with
  | early incomplete =>
    cases run
    exact incomplete
  | token stuck | property stuck =>
    rw [List.map_cons, Place.run, stuck] at run
    cases run

/-- A statement is read from some tokens if and only if they lead to a place where a line can end. -/
theorem exists_statement_iff_run (measured : AllMeasured tokens) : (∃ value, statement tokens = .ok value) ↔
    ∃ place, Place.start.run (tokens.map Prod.fst) = some place ∧ place.isComplete = true := by
  constructor
  · rintro ⟨value, read⟩
    obtain ⟨place, ⟨word, is, run⟩, complete⟩ := (derives_of_statement measured read).leads
    rw [List.append_nil] at is
    exact ⟨place, is ▸ run, complete⟩
  · rintro ⟨place, run, complete⟩
    cases read : statement tokens with
    | ok value => exact ⟨value, rfl⟩
    | error failure =>
      obtain ⟨place', rest, ⟨word, rfl, run'⟩, misfit⟩ := blames_statement measured ⟨failure, read, rfl⟩
      rw [List.map_append, run_append, run'] at run
      rw [isComplete_of_misfit misfit run] at complete
      cases complete

end

end Rivulet.Line
