import Rivulet.Proofs.Line.Acceptance

/-!
How far a line has come after some of its tokens. The place it has come to says which brackets are open and what part of
a statement comes next, and a further token leads on to at most one place (`Place.next?`). At every place some tokens
complete the line (`run_completion`).

Main statement: the tokens of a statement lead from the start of a line to a place where it can end
(`DerivesStatement.leads`).
-/

namespace Rivulet.Line

/-! ### Places -/

/-- A bracket that is open. -/
inductive Bracket where
  | call
  | sequence
  | group
deriving DecidableEq, Repr

/-- The symbol that closes a bracket. -/
def Bracket.closing : Bracket → Symbol
  | call => .closeParen
  | sequence => .closeBracket
  | group => .closeParen

/-- What a parenthesis begins behind an operand. -/
inductive Mark where
  | call
  | function
  | changed
deriving DecidableEq, Repr

/-- What a parenthesis begins behind a name. -/
def Mark.ofName (name : String) : Mark :=
  if name = "ƒ" ∨ name = "fun" then .function else if name = "changed" then .changed else .call

/-- What comes next inside the innermost bracket. -/
inductive Stage where
  | operand
  /-- The first entry of a list, or its end. -/
  | entry
  /-- Something behind an operand. -/
  | operator (mark : Mark)
  | property
  /-- The first input of a function, or the end of the inputs. -/
  | inputs
  | input
  /-- A comma behind an input, or the end of the inputs. -/
  | separator
deriving DecidableEq, Repr

/-- A place in a line. -/
inductive Place where
  | start
  /-- Behind a name at the start, which may be that of a binding. -/
  | named (name : String)
  /-- Inside an expression, given its open brackets from the innermost on. -/
  | inside (stage : Stage) (brackets : List Bracket)
  /-- Behind a statement that takes nothing more. -/
  | finished
deriving DecidableEq, Repr

/-- Where a token leads that comes in place of an operand. -/
def operandNext? (brackets : List Bracket) : Token → Option Place
  | .number _ _ => some (.inside (.operator .call) brackets)
  | .text _ => some (.inside (.operator .call) brackets)
  | .name name => some (.inside (.operator (.ofName name)) brackets)
  | .symbol .question => some (.inside (.operator .call) brackets)
  | .symbol .openBracket => some (.inside .entry (.sequence :: brackets))
  | .symbol .openParen => some (.inside .operand (.group :: brackets))
  | .symbol symbol => if symbol.unaryOp?.isSome then some (.inside .operand brackets) else none

/-- Where a token leads that comes in place of the first entry of a list. -/
def entryNext? (brackets : List Bracket) (token : Token) : Option Place :=
  match brackets with
  | [] => operandNext? [] token
  | bracket :: outer =>
    if token = .symbol bracket.closing then some (.inside (.operator .call) outer) else operandNext? brackets token

/-- Where a symbol leads that ends an expression. -/
def endNext? (symbol : Symbol) : List Bracket → Option Place
  | [] => none
  | bracket :: outer =>
    if symbol = bracket.closing then some (.inside (.operator .call) outer)
    else if symbol = .comma ∧ bracket ≠ .group then some (.inside .operand (bracket :: outer))
    else none

/-- Where a token leads that comes behind an operand. -/
def operatorNext? (mark : Mark) (brackets : List Bracket) : Token → Option Place
  | .symbol .openParen =>
    match mark with
    | .call => some (.inside .entry (.call :: brackets))
    | .function => some (.inside .inputs brackets)
    | .changed => some (.inside .operand (.group :: brackets))
  | .symbol .point => some (.inside .property brackets)
  | .symbol symbol =>
    if symbol.binaryOp?.isSome then some (.inside .operand brackets) else endNext? symbol brackets
  | _ => none

/-- Where a token leads inside an expression. -/
def Stage.next? (stage : Stage) (brackets : List Bracket) (token : Token) : Option Place :=
  match stage, token with
  | operand, token => operandNext? brackets token
  | entry, token => entryNext? brackets token
  | operator mark, token => operatorNext? mark brackets token
  | property, .name _ => some (.inside (.operator .call) brackets)
  | inputs, .name _ | input, .name _ => some (.inside .separator brackets)
  | separator, .symbol .comma => some (.inside .input brackets)
  | inputs, .symbol .closeParen | separator, .symbol .closeParen => some (.inside .operand brackets)
  | _, _ => none

/-- Where a token leads. -/
def Place.next? (place : Place) (token : Token) : Option Place :=
  match place, token with
  | start, .name name => some (named name)
  | start, token => operandNext? [] token
  | named _, .symbol .colon => some (inside .operand [])
  | named "borrow", .name _ => some finished
  | named name, token => operatorNext? (.ofName name) [] token
  | inside stage brackets, token => stage.next? brackets token
  | finished, _ => none

/-- Where tokens lead one after another. -/
def Place.run (place : Place) : List Token → Option Place
  | [] => some place
  | token :: tokens => (place.next? token).bind fun next => next.run tokens

/-- Whether a line can end at a place. -/
def Place.isComplete : Place → Bool
  | named _ | finished => true
  | inside (.operator _) [] => true
  | _ => false

/-! ### Completions -/

/-- Tokens that lead behind an operand, if the innermost bracket stays open. -/
def Stage.completion : Stage → List Token
  | operand => [.symbol .question]
  | entry => [.symbol .question]
  | operator _ => []
  | property => [.name "x"]
  | inputs => [.symbol .closeParen, .symbol .question]
  | input => [.name "x", .symbol .closeParen, .symbol .question]
  | separator => [.symbol .closeParen, .symbol .question]

/-- Tokens that lead to the end of a line. -/
def Place.completion : Place → List Token
  | start => [.symbol .question]
  | named _ | finished => []
  | inside stage brackets => stage.completion ++ brackets.map fun bracket => .symbol bracket.closing

theorem run_append (place : Place) (words words' : List Token) :
    place.run (words ++ words') = (place.run words).bind fun next => next.run words' := by
  induction words generalizing place with
  | nil => rfl
  | cons token words hypothesis =>
    simp only [List.cons_append, Place.run, Option.bind_assoc, hypothesis]

theorem next?_closing (mark : Mark) (bracket : Bracket) (brackets : List Bracket) :
    (Place.inside (.operator mark) (bracket :: brackets)).next? (.symbol bracket.closing) =
      some (.inside (.operator .call) brackets) := by
  cases bracket <;> rfl

theorem run_completion_stage (stage : Stage) (brackets : List Bracket) :
    ∃ mark, (Place.inside stage brackets).run stage.completion = some (.inside (.operator mark) brackets) := by
  cases stage with
  | operator mark => exact ⟨mark, rfl⟩
  | entry =>
    cases brackets with
    | nil => exact ⟨_, rfl⟩
    | cons bracket brackets => cases bracket <;> exact ⟨_, rfl⟩
  | operand | property | inputs | input | separator => exact ⟨_, rfl⟩

theorem run_closing (mark : Mark) (brackets : List Bracket) :
    ∃ place, (Place.inside (.operator mark) brackets).run (brackets.map fun bracket => .symbol bracket.closing) =
      some place ∧ place.isComplete = true := by
  induction brackets generalizing mark with
  | nil => exact ⟨_, rfl, rfl⟩
  | cons bracket brackets hypothesis =>
    obtain ⟨place, ends, complete⟩ := hypothesis .call
    refine ⟨place, ?_, complete⟩
    rw [List.map_cons, Place.run, next?_closing]
    exact ends

/-- From every place a line can be completed. -/
theorem run_completion (place : Place) :
    ∃ place', place.run place.completion = some place' ∧ place'.isComplete = true := by
  cases place with
  | start | named | finished => exact ⟨_, rfl, rfl⟩
  | inside stage brackets =>
    obtain ⟨mark, leads⟩ := run_completion_stage stage brackets
    obtain ⟨place', ends, complete⟩ := run_closing mark brackets
    refine ⟨place', ?_, complete⟩
    rw [Place.completion, run_append, leads]
    exact ends

/-! ### Points -/

/-- A place where the name of a property has to come. -/
def Place.IsProperty (place : Place) : Prop :=
  ∃ brackets, place = .inside .property brackets

section

variable {place place' : Place} {token : Token} {brackets : List Bracket} {mark : Mark} {symbol : Symbol}

theorem isProperty_of_operandNext? (next : operandNext? brackets token = some place) :
    place.IsProperty ↔ token = .symbol .point := by
  cases token with
  | number | text | name =>
    cases next
    exact ⟨nofun, nofun⟩
  | symbol symbol => cases symbol <;> cases next <;> exact ⟨nofun, nofun⟩

theorem isProperty_of_entryNext? (next : entryNext? brackets token = some place) :
    place.IsProperty ↔ token = .symbol .point := by
  unfold entryNext? at next
  split at next
  · exact isProperty_of_operandNext? next
  · rename_i bracket outer
    split at next
    · rename_i closing
      subst closing
      cases next
      cases bracket <;> exact ⟨nofun, nofun⟩
    · exact isProperty_of_operandNext? next

theorem isProperty_of_endNext? (next : endNext? symbol brackets = some place) :
    place.IsProperty ↔ Token.symbol symbol = .symbol .point := by
  cases brackets with
  | nil => cases next
  | cons bracket brackets => cases symbol <;> cases bracket <;> cases next <;> exact ⟨nofun, nofun⟩

theorem isProperty_of_operatorNext? (next : operatorNext? mark brackets token = some place) :
    place.IsProperty ↔ token = .symbol .point := by
  unfold operatorNext? at next
  split at next
  · cases mark <;> cases next <;> exact ⟨nofun, nofun⟩
  · cases next
    exact ⟨fun _ => rfl, fun _ => ⟨brackets, rfl⟩⟩
  · rename_i symbol notParen notPoint
    split at next
    · cases next
      exact ⟨nofun, fun point => absurd (Token.symbol.inj point) notPoint⟩
    · exact isProperty_of_endNext? next
  · cases next

/-- The name of a property has to come behind a point, and nowhere else. -/
theorem isProperty_of_next? (next : place.next? token = some place') : place'.IsProperty ↔ token = .symbol .point := by
  unfold Place.next? at next
  split at next
  · cases next
    exact ⟨nofun, nofun⟩
  · exact isProperty_of_operandNext? next
  · cases next
    exact ⟨nofun, nofun⟩
  · cases next
    exact ⟨nofun, nofun⟩
  · exact isProperty_of_operatorNext? next
  · unfold Stage.next? at next
    split at next
    · exact isProperty_of_operandNext? next
    · exact isProperty_of_entryNext? next
    · exact isProperty_of_operatorNext? next
    all_goals
      cases next
      try exact ⟨nofun, nofun⟩
  · cases next

theorem isProperty_of_run {words : List Token} (run : Place.start.run words = some place) :
    place.IsProperty ↔ words.getLast? = some (.symbol .point) := by
  rcases List.eq_nil_or_concat words with rfl | ⟨front, token, rfl⟩
  · cases run
    exact ⟨nofun, nofun⟩
  · rw [List.concat_eq_append, run_append] at run
    obtain ⟨middle, -, next⟩ := Option.bind_eq_some_iff.mp run
    obtain ⟨_, next, ⟨⟩⟩ := Option.bind_eq_some_iff.mp next
    rw [isProperty_of_next? next]
    simp

end

/-! ### The way through a phrase -/

/-- Tokens lead from one place to another, and others are left. -/
def Leads (place : Place) (before : Tokens) (place' : Place) (after : Tokens) : Prop :=
  ∃ word, before = word ++ after ∧ place.run (word.map Prod.fst) = some place'

/-- A parenthesis does not follow, unless it begins a call. -/
def Mark.Apart (mark : Mark) (after : Tokens) : Prop :=
  mark ≠ .call → nextSymbol? after ≠ some .openParen

/-- What a phrase leads to from where it can stand. Arguments are taken up to the symbol that closes them. -/
def Phrase.Advances (before after : Tokens) : Phrase → Prop
  | arguments _ => ∀ bracket brackets column rest, bracket ≠ .group →
      after = (.symbol bracket.closing, column) :: rest →
      Leads (.inside .entry (bracket :: brackets)) before (.inside (.operator .call) brackets) rest
  | items _ => ∀ bracket brackets column rest, bracket ≠ .group →
      after = (.symbol bracket.closing, column) :: rest →
      Leads (.inside .operand (bracket :: brackets)) before (.inside (.operator .call) brackets) rest
  | _ => ∀ brackets, ∃ mark, mark.Apart after ∧
      Leads (.inside .operand brackets) before (.inside (.operator mark) brackets) after

section

variable {ends : Tokens → Tokens → Prop} {phrase : Phrase} {place place' middle : Place} {token : Token} {column : Nat}
  {before between after : Tokens} {brackets : List Bracket} {bracket : Bracket} {symbol : Symbol}

theorem leads_refl (place : Place) (tokens : Tokens) : Leads place tokens place tokens :=
  ⟨[], rfl, rfl⟩

theorem leads_cons (next : place.next? token = some middle) (leads : Leads middle rest place' after) :
    Leads place ((token, column) :: rest) place' after := by
  obtain ⟨word, rfl, run⟩ := leads
  refine ⟨(token, column) :: word, rfl, ?_⟩
  rw [List.map_cons, Place.run, next]
  exact run

theorem leads_next (next : place.next? token = some place') : Leads place ((token, column) :: rest) place' rest :=
  leads_cons next (leads_refl place' rest)

theorem Leads.trans (first : Leads place before middle between) (second : Leads middle between place' after) :
    Leads place before place' after := by
  obtain ⟨word, rfl, run⟩ := first
  obtain ⟨word', rfl, run'⟩ := second
  refine ⟨word ++ word', by rw [List.append_assoc], ?_⟩
  rw [List.map_append, run_append, run]
  exact run'

/-- Tokens are taken on the way from one place to another. -/
theorem Leads.length_lt (leads : Leads place before place' after) (moves : place ≠ place') :
    after.length < before.length := by
  obtain ⟨word, rfl, run⟩ := leads
  cases word with
  | nil => exact absurd (Option.some.inj run) moves
  | cons first word =>
    rw [List.length_append, List.length_cons]
    omega

theorem apart_call (after : Tokens) : Mark.Apart .call after :=
  fun other => absurd rfl other

theorem next?_binary {op : BinaryOp} (is : symbol.binaryOp? = some op) (mark : Mark) (brackets : List Bracket) :
    (Place.inside (.operator mark) brackets).next? (.symbol symbol) = some (.inside .operand brackets) := by
  cases symbol <;> first | rfl | cases is

theorem next?_unary {op : UnaryOp} (is : symbol.unaryOp? = some op) (brackets : List Bracket) :
    (Place.inside .operand brackets).next? (.symbol symbol) = some (.inside .operand brackets) := by
  cases symbol <;> first | rfl | cases is

theorem next?_comma (mark : Mark) (brackets : List Bracket) (lists : bracket ≠ .group) :
    (Place.inside (.operator mark) (bracket :: brackets)).next? (.symbol .comma) =
      some (.inside .operand (bracket :: brackets)) := by
  cases bracket with
  | call | sequence => rfl
  | group => exact absurd rfl lists

theorem isClosing_closing (bracket : Bracket) : IsClosing bracket.closing := by
  cases bracket
  · exact .inl rfl
  · exact .inr rfl
  · exact .inl rfl

/-- Where the next token leads to the same, all that is left is to stay at a place. -/
theorem leads_congr {other : Place}
    (same : ∀ token column rest, before = (token, column) :: rest → place.next? token = other.next? token)
    (leads : Leads place before place' after) :
    (before = after ∧ place' = place) ∨ Leads other before place' after := by
  obtain ⟨word, rfl, run⟩ := leads
  cases word with
  | nil =>
    cases run
    exact .inl ⟨rfl, rfl⟩
  | cons first word =>
    rw [List.map_cons, Place.run, same first.1 first.2 _ rfl] at run
    exact .inr ⟨first :: word, rfl, run⟩

/-- What does not close a list begins its first entry as it begins an expression. -/
theorem next?_entry (apart : nextSymbol? before ≠ some bracket.closing) (brackets : List Bracket) :
    ∀ token column rest, before = (token, column) :: rest →
      (Place.inside .operand (bracket :: brackets)).next? token =
        (Place.inside .entry (bracket :: brackets)).next? token := by
  rintro token column rest rfl
  refine (if_neg ?_).symm
  rintro rfl
  exact apart rfl

theorem leads_names {names : List String} (derives : DerivesNames names before after) (brackets : List Bracket) :
    Leads (.inside .input brackets) before (.inside .separator brackets) after := by
  induction derives with
  | last => exact leads_next rfl
  | next _ others => exact leads_cons rfl (leads_cons rfl others)

theorem leads_inputs {names : List String}
    (derives : DerivesInputs names before ((.symbol .closeParen, column) :: after)) (brackets : List Bracket) :
    Leads (.inside .inputs brackets) before (.inside .operand brackets) after := by
  cases derives with
  | none => exact leads_next rfl
  | some listed =>
    cases listed with
    | last => exact leads_cons rfl (leads_next rfl)
    | next others => exact leads_cons rfl (leads_cons rfl ((leads_names others brackets).trans (leads_next rfl)))

theorem apart_ofName {name : String}
    (apart : IsFunctionMark name ∨ name = "changed" → nextSymbol? after ≠ some .openParen) :
    (Mark.ofName name).Apart after := by
  unfold Mark.ofName
  split
  · rename_i marked
    exact fun _ => apart (.inl marked)
  split
  · rename_i marked
    exact fun _ => apart (.inr marked)
  · exact apart_call after

theorem advances_atom {value : Expr} (is : IsAtom token after value) (brackets : List Bracket) :
    ∃ mark : Mark, mark.Apart after ∧
      Leads (.inside .operand brackets) ((token, column) :: after) (.inside (.operator mark) brackets) after := by
  cases is with
  | reference plain => exact ⟨_, apart_ofName plain.2, leads_next rfl⟩
  | number | text | truth | falsehood | nothing | placeholder => exact ⟨_, apart_call after, leads_next rfl⟩

/-- A phrase leads on to where something follows it. -/
theorem Derives.advances (derives : Derives ends phrase before after) : phrase.Advances before after := by
  induction derives with
  | operand _ only => exact only
  | binary _ is _ first second =>
    intro brackets
    obtain ⟨mark, -, leads⟩ := first brackets
    obtain ⟨mark', apart, leads'⟩ := second brackets
    exact ⟨mark', apart, leads.trans (leads_cons (next?_binary is mark brackets) leads')⟩
  | sign is _ inner =>
    intro brackets
    obtain ⟨mark, apart, leads⟩ := inner brackets
    exact ⟨mark, apart, leads_cons (next?_unary is brackets) leads⟩
  | unsigned _ only => exact only
  | bare _ only => exact only
  | call _ _ first inner =>
    intro brackets
    obtain ⟨mark, apart, leads⟩ := first brackets
    -- A parenthesis follows, so it begins a call.
    obtain rfl : mark = .call := Decidable.byContradiction fun other => apart other rfl
    exact ⟨.call, apart_call _, leads.trans (leads_cons rfl (inner .call brackets _ _ nofun rfl))⟩
  | property _ first =>
    intro brackets
    obtain ⟨mark, -, leads⟩ := first brackets
    exact ⟨.call, apart_call _, leads.trans (leads_cons rfl (leads_next rfl))⟩
  | atom is => exact advances_atom is
  | sequence _ inner =>
    exact fun brackets => ⟨.call, apart_call _, leads_cons rfl (inner .sequence brackets _ _ nofun rfl)⟩
  | group _ inner =>
    intro brackets
    obtain ⟨mark, -, leads⟩ := inner (.group :: brackets)
    exact ⟨.call, apart_call _, leads_cons rfl (leads.trans (leads_next (next?_closing mark .group brackets)))⟩
  | function marked names _ _ inner =>
    intro brackets
    obtain ⟨mark, apart, leads⟩ := inner brackets
    have begins : Mark.ofName _ = .function := if_pos marked
    refine ⟨mark, apart, leads_cons rfl (leads_cons ?_ ((leads_inputs names brackets).trans leads))⟩
    rw [begins]
    rfl
  | changed _ inner =>
    intro brackets
    obtain ⟨mark, -, leads⟩ := inner (.group :: brackets)
    refine ⟨.call, apart_call _, leads_cons rfl (leads_cons rfl (leads.trans (leads_next ?_)))⟩
    exact next?_closing mark .group brackets
  | noArguments =>
    intro bracket brackets column rest _ is
    subst is
    exact leads_next (if_pos rfl)
  | someArguments items inner =>
    intro bracket brackets column rest lists is
    have apart (next : nextSymbol? _ = some bracket.closing) : False := items.opens _ next (isClosing_closing bracket)
    rcases leads_congr (next?_entry apart brackets) (inner bracket brackets column rest lists is) with ⟨-, same⟩ | leads
    · cases same
    · exact leads
  | lastItem _ only =>
    intro bracket brackets column rest _ is
    subst is
    obtain ⟨mark, -, leads⟩ := only (bracket :: brackets)
    exact leads.trans (leads_next (next?_closing mark bracket brackets))
  | nextItem _ _ first others =>
    intro bracket brackets column rest lists is
    obtain ⟨mark, -, leads⟩ := first (bracket :: brackets)
    exact leads.trans (leads_cons (next?_comma mark brackets lists) (others bracket brackets column rest lists is))

/-! ### The start of a line -/

theorem next?_start (notName : ∀ name, token ≠ .name name) :
    Place.start.next? token = (Place.inside .operand []).next? token := by
  cases token with
  | name name => exact absurd rfl (notName name)
  | number | text | symbol => rfl

/-- A name at the start is followed by what follows it elsewhere, unless it belongs to a binding or a borrow. -/
theorem next?_named {name : String} (notBind : token ≠ .symbol .colon)
    (notBorrow : name = "borrow" → ∀ source, token ≠ .name source) :
    (Place.named name).next? token = (Place.inside (.operator (.ofName name)) []).next? token := by
  rw [Place.next?]
  · rfl
  · exact notBind
  · exact fun source is borrow => notBorrow borrow source is

/-- At the start of a line tokens lead on as in an expression, if there are more than a name. -/
theorem leads_start (leads : Leads (.inside .operand []) before place after) :
    Leads .start before place after ∨ (before = after ∧ place = .inside .operand []) ∨
      ∃ name column, before = (.name name, column) :: after ∧ place = .inside (.operator (.ofName name)) [] := by
  obtain ⟨word, rfl, run⟩ := leads
  cases word with
  | nil =>
    cases run
    exact .inr (.inl ⟨rfl, rfl⟩)
  | cons first word =>
    obtain ⟨token, column⟩ := first
    by_cases isName : ∃ name, token = .name name
    · obtain ⟨name, rfl⟩ := isName
      cases word with
      | nil =>
        cases run
        exact .inr (.inr ⟨name, column, rfl, rfl⟩)
      | cons second word =>
        have run' : ((Place.inside (.operator (.ofName name)) []).next? second.1).bind
          (fun next => next.run (word.map Prod.fst)) = some place := run
        rw [← next?_named] at run'
        · exact .inl ⟨_, rfl, run'⟩
        · intro bind
          rw [bind] at run'
          cases run'
        · intro _ source borrow
          rw [borrow] at run'
          cases run'
    · rw [List.map_cons, Place.run, ← next?_start fun name is => isName ⟨name, is⟩] at run
      exact .inl ⟨_, rfl, run⟩

/-- The tokens of a statement lead to the end of a line. -/
theorem DerivesStatement.leads {value : Statement} {tokens : Tokens} (derives : DerivesStatement ends value tokens) :
    ∃ place, Leads .start tokens place [] ∧ place.isComplete = true := by
  cases derives with
  | borrow => exact ⟨.finished, leads_cons rfl (leads_next rfl), rfl⟩
  | bind inner =>
    obtain ⟨mark, -, leads⟩ := inner.advances []
    exact ⟨_, leads_cons rfl (leads_cons rfl leads), rfl⟩
  | expression only =>
    obtain ⟨mark, -, leads⟩ := only.advances []
    rcases leads_start leads with leads | ⟨rfl, is⟩ | ⟨name, column, rfl, -⟩
    · exact ⟨_, leads, rfl⟩
    · cases is
    · exact ⟨.named name, leads_next rfl, rfl⟩

end

end Rivulet.Line
