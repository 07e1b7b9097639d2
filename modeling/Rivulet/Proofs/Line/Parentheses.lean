import Rivulet.Line
import Rivulet.Proofs.Line.Lexemes

/-!
Statements written with full parentheses: every operand, callee, owner and body stands in parentheses of its own. What
was read from a line reads the same when it is written so (`readStatement_write`).

Main statement: a line is read exactly as the grammar says (`reads_as_derived`).
-/

namespace Rivulet.Line

/-! ### Writing statements -/

/-- The symbol that a binary operator is written with. -/
def Symbol.ofBinary : BinaryOp → Symbol
  | .add => plus
  | .subtract => minus
  | .multiply => star
  | .divide => slash
  | .remainder => percent
  | .less => less
  | .lessEqual => lessEqual
  | .greater => greater
  | .greaterEqual => greaterEqual
  | .equal => equal
  | .notEqual => notEqual
  | .and => ampersand
  | .or => bar

/-- The symbol that a unary operator is written with. -/
def Symbol.ofUnary : UnaryOp → Symbol
  | .negate => minus
  | .not => tilde

theorem Symbol.binaryOp?_ofBinary (op : BinaryOp) : (ofBinary op).binaryOp? = some op := by
  cases op <;> rfl

theorem Symbol.unaryOp?_ofUnary (op : UnaryOp) : (ofUnary op).unaryOp? = some op := by
  cases op <;> rfl

/-- Tokens in parentheses. -/
def enclose (words : List Token) : List Token :=
  .symbol .openParen :: (words ++ [.symbol .closeParen])

/-- Names, each after a comma. -/
def renderNames (names : List String) : List Token :=
  names.flatMap fun name => [.symbol .comma, .name name]

mutual

/-- The tokens of an expression with full parentheses. -/
def Expr.render : Expr → List Token
  | .number digits measure => [.number digits measure.toText]
  | .text value => [.text value]
  | .boolean value => [.name (if value then "true" else "false")]
  | .none => [.name "none"]
  | .placeholder => [.symbol .question]
  | .reference name => [.name name]
  | .sequence items => .symbol .openBracket :: ((renderItems items).tail ++ [.symbol .closeBracket])
  | .unary op operand => .symbol (.ofUnary op) :: enclose operand.render
  | .binary op left right => enclose left.render ++ .symbol (.ofBinary op) :: enclose right.render
  | .call callee arguments => enclose callee.render ++ enclose (renderItems arguments).tail
  | .property owner name => enclose owner.render ++ [.symbol .point, .name name]
  | .changed stream => .name "changed" :: enclose stream.render
  | .function inputs body => .name "ƒ" :: (enclose (renderNames inputs).tail ++ enclose body.render)
termination_by structural expression => expression

/-- The tokens of some expressions, each after a comma. -/
def Expr.renderItems : List Expr → List Token
  | [] => []
  | item :: items => .symbol .comma :: (item.render ++ renderItems items)
termination_by structural expressions => expressions

end

/-- The tokens of a statement with full parentheses. -/
def Statement.render : Statement → List Token
  | borrow source => [.name "borrow", .name source]
  | bind name value => .name name :: .symbol .colon :: value.render
  | expression value => value.render

/-! ### Statements that lines can say -/

mutual

/-- An expression that a line can say: its names, texts and numbers are those of tokens. -/
def Expr.Sayable : Expr → Prop
  | .number digits measure => ∃ unit, measure = .dimension unit ∧ (Token.number digits unit).Lexical
  | .text value => (Token.text value).Lexical
  | .boolean _ | .none | .placeholder => True
  | .reference name => (name ≠ "true" ∧ name ≠ "false" ∧ name ≠ "none") ∧ (Token.name name).Lexical
  | .sequence items => SayableItems items
  | .unary _ operand => operand.Sayable
  | .binary _ left right => left.Sayable ∧ right.Sayable
  | .call callee arguments => callee.Sayable ∧ SayableItems arguments
  | .property owner name => owner.Sayable ∧ (Token.name name).Lexical
  | .changed stream => stream.Sayable
  | .function inputs body => (∀ input ∈ inputs, (Token.name input).Lexical) ∧ body.Sayable
termination_by structural expression => expression

/-- Expressions that a line can say. -/
def Expr.SayableItems : List Expr → Prop
  | [] => True
  | item :: items => item.Sayable ∧ SayableItems items
termination_by structural expressions => expressions

end

/-- A statement that a line can say. -/
def Statement.Sayable : Statement → Prop
  | borrow source => (Token.name source).Lexical
  | bind name value => (Token.name name).Lexical ∧ value.Sayable
  | expression value => value.Sayable

/-- What a phrase says can be said. -/
def Phrase.Sayable : Phrase → Prop
  | expression value | unary value | suffixed value | primary value => value.Sayable
  | arguments values | items values => Expr.SayableItems values

section

variable {ends : Tokens → Tokens → Prop} {phrase : Phrase} {before after tokens : Tokens} {statement : Statement}

/-- All tokens can be cut out of a line. -/
def AllLexical (tokens : Tokens) : Prop :=
  ∀ token ∈ tokens, token.1.Lexical

theorem AllLexical.suffix (lexical : AllLexical before) (ends : after <:+ before) : AllLexical after :=
  fun token among => lexical token (ends.subset among)

theorem lexical_of_names {names : List String} (derives : DerivesNames names before after)
    (lexical : AllLexical before) : ∀ name ∈ names, (Token.name name).Lexical := by
  induction derives with
  | last => exact fun name among => List.mem_singleton.mp among ▸ lexical _ List.mem_cons_self
  | next _ hypothesis =>
    refine List.forall_mem_cons.mpr ⟨lexical _ List.mem_cons_self, hypothesis (lexical.suffix ?_)⟩
    exact (List.suffix_cons _ _).trans (List.suffix_cons _ _)

theorem lexical_of_inputs {names : List String} (derives : DerivesInputs names before after)
    (lexical : AllLexical before) : ∀ name ∈ names, (Token.name name).Lexical := by
  cases derives with
  | none => simp
  | some listed => exact lexical_of_names listed lexical

theorem Derives.sayable (derives : Derives ends phrase before after) (lexical : AllLexical before) :
    phrase.Sayable := by
  have tail {first : Token × Nat} {rest : Tokens} (lexical : AllLexical (first :: rest)) : AllLexical rest :=
    lexical.suffix (List.suffix_cons first rest)
  induction derives with
  | operand _ only => exact only lexical
  | binary derives _ _ first second =>
    exact ⟨first lexical, second (tail (lexical.suffix derives.suffix))⟩
  | sign _ _ inner => exact inner (tail lexical)
  | unsigned _ only => exact only lexical
  | bare _ only => exact only lexical
  | call derives _ first inner => exact ⟨first lexical, inner (tail (lexical.suffix derives.suffix))⟩
  | property derives first =>
    exact ⟨first lexical, tail (lexical.suffix derives.suffix) _ List.mem_cons_self⟩
  | atom is =>
    have here := lexical _ List.mem_cons_self
    cases is with
    | number => exact ⟨_, rfl, here⟩
    | text => exact here
    | truth => trivial
    | falsehood => trivial
    | nothing => trivial
    | placeholder => trivial
    | reference plain => exact ⟨plain.1, here⟩
  | sequence _ inner => exact inner (tail lexical)
  | group _ inner => exact inner (tail lexical)
  | function _ names _ _ inner =>
    have opened := tail (tail lexical)
    exact ⟨lexical_of_inputs names opened, inner (tail (opened.suffix names.suffix))⟩
  | changed _ inner => exact inner (tail (tail lexical))
  | noArguments => trivial
  | someArguments _ inner => exact inner lexical
  | lastItem _ only => exact ⟨only lexical, trivial⟩
  | nextItem derives _ first others => exact ⟨first lexical, others (tail (lexical.suffix derives.suffix))⟩

theorem DerivesStatement.sayable (derives : DerivesStatement ends statement tokens) (lexical : AllLexical tokens) :
    statement.Sayable := by
  cases derives with
  | borrow => exact lexical _ (List.mem_cons_of_mem _ List.mem_cons_self)
  | bind inner =>
    have rest := lexical.suffix ((List.suffix_cons _ _).trans (List.suffix_cons _ _))
    exact ⟨lexical _ List.mem_cons_self, inner.sayable rest⟩
  | expression only => exact only.sayable lexical

end

/-! ### Reading what was written -/

section

variable {word : Token} {words : List Token} {tokens after : Tokens} {value : Expr}

theorem exists_of_map_eq_cons (is : tokens.map Prod.fst = word :: words) :
    ∃ column rest, tokens = (word, column) :: rest ∧ rest.map Prod.fst = words := by
  obtain ⟨⟨_, column⟩, rest, rfl, rfl, same⟩ := List.map_eq_cons_iff.mp is
  exact ⟨column, rest, rfl, same⟩

/-- Some words say an expression, with any columns and in front of any tokens that it stops at. -/
def Says (words : List Token) (value : Expr) : Prop :=
  ∀ tokens after, tokens.map Prod.fst = words → Stops after →
    Derives Stopping (.expression value) (tokens ++ after) after

theorem Says.enclose (inner : Says words value) (is : tokens.map Prod.fst = Line.enclose words) (after : Tokens) :
    Derives Stopping (.primary value) (tokens ++ after) after := by
  obtain ⟨column, rest, rfl, inside⟩ := exists_of_map_eq_cons is
  obtain ⟨between, closed, rfl, said, closes⟩ := List.map_eq_append_iff.mp inside
  obtain ⟨column', rest, rfl, ends⟩ := exists_of_map_eq_cons closes
  obtain rfl := List.map_eq_nil_iff.mp ends
  rw [List.cons_append, List.append_assoc]
  exact .group (inner _ _ said (stops_cons (by simp)))

theorem Says.operand (inner : Says words value) (is : tokens.map Prod.fst = Line.enclose words) (after : Tokens) :
    Derives Stopping (.unary value) (tokens ++ after) after :=
  .unsigned (.bare (inner.enclose is after))

theorem says_atom {token : Token} (atom : ∀ after, Stops after → IsAtom token after value) : Says [token] value := by
  intro tokens after is stops
  obtain ⟨column, rest, rfl, ends⟩ := exists_of_map_eq_cons is
  obtain rfl := List.map_eq_nil_iff.mp ends
  exact .operand (.unsigned (.bare (.atom (atom after stops))))

theorem derivesNames_render {name : String} {names : List String}
    (is : tokens.map Prod.fst = .name name :: renderNames names) (after : Tokens) :
    DerivesNames (name :: names) (tokens ++ after) after := by
  induction names generalizing name tokens with
  | nil =>
    obtain ⟨column, rest, rfl, ends⟩ := exists_of_map_eq_cons is
    obtain rfl := List.map_eq_nil_iff.mp ends
    exact .last
  | cons next names hypothesis =>
    obtain ⟨column, rest, rfl, more⟩ := exists_of_map_eq_cons is
    obtain ⟨column', rest, rfl, others⟩ := exists_of_map_eq_cons more
    exact .next (hypothesis others)

theorem derivesInputs_render {names : List String} (is : tokens.map Prod.fst = (renderNames names).tail)
    (after : Tokens) : DerivesInputs names (tokens ++ after) after := by
  cases names with
  | nil =>
    obtain rfl := List.map_eq_nil_iff.mp is
    exact .none
  | cons name names => exact .some (derivesNames_render is after)

/-- Some words say expressions, of which there are some, with any columns and in front of any tokens that the last of
them stops at. -/
def SaysItems (words : List Token) (values : List Expr) : Prop :=
  values ≠ [] → ∀ tokens after, tokens.map Prod.fst = words → Stops after →
    Derives Stopping (.items values) (tokens ++ after) after

theorem says_items {items : List Expr} (first : Says words value)
    (others : SaysItems (Expr.renderItems items).tail items) :
    SaysItems (words ++ Expr.renderItems items) (value :: items) := by
  intro _ tokens after is stops
  cases items with
  | nil =>
    rw [Expr.renderItems, List.append_nil] at is
    exact .lastItem (first tokens after is stops)
  | cons item items =>
    rw [Expr.renderItems] at is
    obtain ⟨front, back, rfl, said, more⟩ := List.map_eq_append_iff.mp is
    obtain ⟨column, rest, rfl, listed⟩ := exists_of_map_eq_cons more
    rw [List.append_assoc, List.cons_append]
    refine .nextItem (first front _ said (stops_cons (by simp))) (others (List.cons_ne_nil _ _) rest after ?_ stops)
    rw [Expr.renderItems, List.tail_cons, listed]

theorem derivesArguments {items : List Expr} (inner : SaysItems (Expr.renderItems items).tail items)
    (is : tokens.map Prod.fst = (Expr.renderItems items).tail) (stops : Stops after) :
    Derives Stopping (.arguments items) (tokens ++ after) after := by
  cases items with
  | nil =>
    obtain rfl : tokens = [] := List.map_eq_nil_iff.mp (by rw [is, Expr.renderItems, List.tail_nil])
    exact .noArguments
  | cons item items => exact .someArguments (inner (List.cons_ne_nil _ _) tokens after is stops)

theorem toText_dimension (unit : String) : (Measure.dimension unit).toText = unit := by
  by_cases empty : unit = ""
  · subst empty
    rfl
  · have powers : (Measure.dimension unit).powers = [(unit, 1)] := by
      rw [Measure.dimension, if_neg empty]
      rfl
    simp [Measure.toText, powers, Measure.factorText]

theorem says_sequence {items : List Expr} (inner : SaysItems (Expr.renderItems items).tail items) :
    Says (.symbol .openBracket :: ((Expr.renderItems items).tail ++ [.symbol .closeBracket])) (.sequence items) := by
  intro tokens after is _
  obtain ⟨column, rest, rfl, inside⟩ := exists_of_map_eq_cons is
  obtain ⟨said, closed, rfl, listed, closes⟩ := List.map_eq_append_iff.mp inside
  obtain ⟨column', rest, rfl, ends⟩ := exists_of_map_eq_cons closes
  obtain rfl := List.map_eq_nil_iff.mp ends
  rw [List.cons_append, List.append_assoc]
  exact .operand (.unsigned (.bare (.sequence (derivesArguments inner listed (stops_cons (by simp))))))

theorem says_unary (op : UnaryOp) (inner : Says words value) :
    Says (.symbol (.ofUnary op) :: enclose words) (.unary op value) := by
  intro tokens after is _
  obtain ⟨column, rest, rfl, said⟩ := exists_of_map_eq_cons is
  exact .operand (.sign (Symbol.unaryOp?_ofUnary op) (inner.operand said after))

theorem says_binary (op : BinaryOp) {words' : List Token} {value' : Expr} (first : Says words value)
    (second : Says words' value') :
    Says (enclose words ++ .symbol (.ofBinary op) :: enclose words') (.binary op value value') := by
  intro tokens after is _
  obtain ⟨front, rest, rfl, said, more⟩ := List.map_eq_append_iff.mp is
  obtain ⟨column, rest, rfl, said'⟩ := exists_of_map_eq_cons more
  rw [List.append_assoc]
  exact .binary (.operand (first.operand said _)) (Symbol.binaryOp?_ofBinary op) (second.operand said' after)

theorem says_call {arguments : List Expr} (callee : Says words value)
    (inner : SaysItems (Expr.renderItems arguments).tail arguments) :
    Says (enclose words ++ enclose (Expr.renderItems arguments).tail) (.call value arguments) := by
  intro tokens after is _
  obtain ⟨front, back, rfl, said, more⟩ := List.map_eq_append_iff.mp is
  obtain ⟨column, rest, rfl, inside⟩ := exists_of_map_eq_cons more
  obtain ⟨listed, closed, rfl, said', closes⟩ := List.map_eq_append_iff.mp inside
  obtain ⟨column', rest, rfl, ends⟩ := exists_of_map_eq_cons closes
  obtain rfl := List.map_eq_nil_iff.mp ends
  rw [List.append_assoc, List.cons_append, List.append_assoc]
  exact .operand (.unsigned (.call (.bare (callee.enclose said _))
    (derivesArguments inner said' (stops_cons (by simp)))))

theorem says_property (name : String) (owner : Says words value) :
    Says (enclose words ++ [.symbol .point, .name name]) (.property value name) := by
  intro tokens after is _
  obtain ⟨front, rest, rfl, said, more⟩ := List.map_eq_append_iff.mp is
  obtain ⟨column, rest, rfl, named⟩ := exists_of_map_eq_cons more
  obtain ⟨column', rest, rfl, ends⟩ := exists_of_map_eq_cons named
  obtain rfl := List.map_eq_nil_iff.mp ends
  rw [List.append_assoc]
  exact .operand (.unsigned (.property (.bare (owner.enclose said _))))

theorem says_changed (stream : Says words value) : Says (.name "changed" :: enclose words) (.changed value) := by
  intro tokens after is _
  obtain ⟨column, rest, rfl, more⟩ := exists_of_map_eq_cons is
  obtain ⟨column', rest, rfl, inside⟩ := exists_of_map_eq_cons more
  obtain ⟨inner, closed, rfl, said, closes⟩ := List.map_eq_append_iff.mp inside
  obtain ⟨column'', rest, rfl, ends⟩ := exists_of_map_eq_cons closes
  obtain rfl := List.map_eq_nil_iff.mp ends
  rw [List.cons_append, List.cons_append, List.append_assoc]
  exact .operand (.unsigned (.bare (.changed (stream _ _ said (stops_cons (by simp))))))

theorem says_function (names : List String) (body : Says words value) :
    Says (.name "ƒ" :: (enclose (renderNames names).tail ++ enclose words)) (.function names value) := by
  intro tokens after is stops
  obtain ⟨column, rest, rfl, more⟩ := exists_of_map_eq_cons is
  obtain ⟨front, back, rfl, opened, said⟩ := List.map_eq_append_iff.mp more
  obtain ⟨column', rest, rfl, inside⟩ := exists_of_map_eq_cons opened
  obtain ⟨listed, closed, rfl, named, closes⟩ := List.map_eq_append_iff.mp inside
  obtain ⟨column'', rest, rfl, ends⟩ := exists_of_map_eq_cons closes
  obtain rfl := List.map_eq_nil_iff.mp ends
  have inputs := derivesInputs_render named ((.symbol .closeParen, column'') :: (back ++ after))
  have whole : Derives Stopping (.primary (.function names value)) ((.name "ƒ", column) ::
      (.symbol .openParen, column') :: (listed ++ (.symbol .closeParen, column'') :: (back ++ after))) after :=
    .function (.inl rfl) inputs (.operand (body.operand said after)) stops
  simpa using Derives.operand (.unsigned (.bare whole))

mutual

/-- An expression that can be said is said by its tokens. -/
theorem says_render (value : Expr) (sayable : value.Sayable) : Says value.render value := by
  cases value with
  | number digits measure =>
    obtain ⟨unit, rfl, -⟩ : ∃ unit, measure = .dimension unit ∧ (Token.number digits unit).Lexical := by
      simpa [Expr.Sayable] using sayable
    rw [Expr.render, toText_dimension]
    exact says_atom fun _ _ => .number
  | text value =>
    rw [Expr.render]
    exact says_atom fun _ _ => .text
  | boolean value =>
    rw [Expr.render]
    cases value with
    | true => exact says_atom fun _ _ => .truth
    | false => exact says_atom fun _ _ => .falsehood
  | none =>
    rw [Expr.render]
    exact says_atom fun _ _ => .nothing
  | placeholder =>
    rw [Expr.render]
    exact says_atom fun _ _ => .placeholder
  | reference name =>
    rw [Expr.Sayable] at sayable
    rw [Expr.render]
    exact says_atom fun _ stops => .reference ⟨sayable.1, fun _ => stops.1.1⟩
  | sequence items =>
    rw [Expr.Sayable] at sayable
    rw [Expr.render]
    exact says_sequence (says_renderItems items sayable)
  | unary op operand =>
    rw [Expr.Sayable] at sayable
    rw [Expr.render]
    exact says_unary op (says_render operand sayable)
  | binary op left right =>
    rw [Expr.Sayable] at sayable
    rw [Expr.render]
    exact says_binary op (says_render left sayable.1) (says_render right sayable.2)
  | call callee arguments =>
    rw [Expr.Sayable] at sayable
    rw [Expr.render]
    exact says_call (says_render callee sayable.1) (says_renderItems arguments sayable.2)
  | property owner name =>
    rw [Expr.Sayable] at sayable
    rw [Expr.render]
    exact says_property name (says_render owner sayable.1)
  | changed stream =>
    rw [Expr.Sayable] at sayable
    rw [Expr.render]
    exact says_changed (says_render stream sayable)
  | function inputs body =>
    rw [Expr.Sayable] at sayable
    rw [Expr.render]
    exact says_function inputs (says_render body sayable.2)
termination_by structural value

/-- Expressions that can be said are said by their tokens with commas between them. -/
theorem says_renderItems (items : List Expr) (sayable : Expr.SayableItems items) :
    SaysItems (Expr.renderItems items).tail items := by
  cases items with
  | nil => exact fun some => absurd rfl some
  | cons item items =>
    rw [Expr.SayableItems] at sayable
    rw [Expr.renderItems, List.tail_cons]
    exact says_items (says_render item sayable.1) (says_renderItems items sayable.2)
termination_by structural items

end

theorem derivesStatement_render {statement : Statement} (sayable : statement.Sayable)
    (is : tokens.map Prod.fst = statement.render) : DerivesStatement Stopping statement tokens := by
  have whole {value : Expr} {tokens : Tokens} (sayable : value.Sayable) (is : tokens.map Prod.fst = value.render) :
      Derives Stopping (.expression value) tokens [] := by
    simpa using says_render value sayable tokens [] is stops_nil
  cases statement with
  | borrow source =>
    obtain ⟨column, rest, rfl, more⟩ := exists_of_map_eq_cons is
    obtain ⟨column', rest, rfl, ends⟩ := exists_of_map_eq_cons more
    obtain rfl := List.map_eq_nil_iff.mp ends
    exact .borrow
  | bind name value =>
    obtain ⟨column, rest, rfl, more⟩ := exists_of_map_eq_cons is
    obtain ⟨column', rest, rfl, said⟩ := exists_of_map_eq_cons more
    exact .bind (whole sayable.2 said)
  | expression value => exact .expression (whole sayable is)

end

/-! ### Writing what can be said -/

section

variable {words : List Token}

theorem lexical_word {name : String} (known : name ∈ ["true", "false", "none", "changed", "ƒ", "borrow"]) :
    (Token.name name).Lexical := by
  simp only [List.mem_cons, List.not_mem_nil, or_false] at known
  rcases known with rfl | rfl | rfl | rfl | rfl | rfl <;>
    exact ⟨_, _, rfl, by unfold IsPlainStart; decide +kernel, rfl, List.all_eq_true.mp (by decide +kernel)⟩

theorem lexical_enclose (lexical : ∀ word ∈ words, word.Lexical) : ∀ word ∈ enclose words, word.Lexical :=
  List.forall_mem_cons.mpr ⟨trivial, List.forall_mem_append.mpr ⟨lexical, List.forall_mem_singleton.mpr trivial⟩⟩

theorem lexical_renderNames {names : List String} (lexical : ∀ name ∈ names, (Token.name name).Lexical) :
    ∀ word ∈ renderNames names, word.Lexical := by
  intro word among
  obtain ⟨name, within, here⟩ := List.mem_flatMap.mp among
  simp only [List.mem_cons, List.not_mem_nil, or_false] at here
  rcases here with rfl | rfl
  · trivial
  · exact lexical name within

theorem lexical_tail (lexical : ∀ word ∈ words, word.Lexical) : ∀ word ∈ words.tail, word.Lexical :=
  fun word among => lexical word (List.mem_of_mem_tail among)

mutual

/-- The tokens of an expression that can be said can be cut out of a line. -/
theorem lexical_render (value : Expr) (sayable : value.Sayable) : ∀ word ∈ value.render, word.Lexical := by
  cases value with
  | number digits measure =>
    obtain ⟨unit, rfl, lexical⟩ : ∃ unit, measure = .dimension unit ∧ (Token.number digits unit).Lexical := by
      simpa [Expr.Sayable] using sayable
    rw [Expr.render, toText_dimension]
    exact List.forall_mem_singleton.mpr lexical
  | text value =>
    rw [Expr.Sayable] at sayable
    rw [Expr.render]
    exact List.forall_mem_singleton.mpr sayable
  | boolean value =>
    rw [Expr.render]
    refine List.forall_mem_singleton.mpr (lexical_word ?_)
    cases value <;> simp
  | none =>
    rw [Expr.render]
    exact List.forall_mem_singleton.mpr (lexical_word (by simp))
  | placeholder =>
    rw [Expr.render]
    exact List.forall_mem_singleton.mpr trivial
  | reference name =>
    rw [Expr.Sayable] at sayable
    rw [Expr.render]
    exact List.forall_mem_singleton.mpr sayable.2
  | sequence items =>
    rw [Expr.Sayable] at sayable
    rw [Expr.render]
    have inner := lexical_tail (lexical_renderItems items sayable)
    exact List.forall_mem_cons.mpr ⟨trivial, List.forall_mem_append.mpr ⟨inner, List.forall_mem_singleton.mpr trivial⟩⟩
  | unary op operand =>
    rw [Expr.Sayable] at sayable
    rw [Expr.render]
    exact List.forall_mem_cons.mpr ⟨trivial, lexical_enclose (lexical_render operand sayable)⟩
  | binary op left right =>
    rw [Expr.Sayable] at sayable
    rw [Expr.render]
    have second := lexical_enclose (lexical_render right sayable.2)
    exact List.forall_mem_append.mpr
      ⟨lexical_enclose (lexical_render left sayable.1), List.forall_mem_cons.mpr ⟨trivial, second⟩⟩
  | call callee arguments =>
    rw [Expr.Sayable] at sayable
    rw [Expr.render]
    have inner := lexical_enclose (lexical_tail (lexical_renderItems arguments sayable.2))
    exact List.forall_mem_append.mpr ⟨lexical_enclose (lexical_render callee sayable.1), inner⟩
  | property owner name =>
    rw [Expr.Sayable] at sayable
    rw [Expr.render]
    have named : ∀ word ∈ [.symbol .point, Token.name name], word.Lexical :=
      List.forall_mem_cons.mpr ⟨trivial, List.forall_mem_singleton.mpr sayable.2⟩
    exact List.forall_mem_append.mpr ⟨lexical_enclose (lexical_render owner sayable.1), named⟩
  | changed stream =>
    rw [Expr.Sayable] at sayable
    rw [Expr.render]
    exact List.forall_mem_cons.mpr ⟨lexical_word (by simp), lexical_enclose (lexical_render stream sayable)⟩
  | function inputs body =>
    rw [Expr.Sayable] at sayable
    rw [Expr.render]
    have named := lexical_enclose (lexical_tail (lexical_renderNames sayable.1))
    have inner := lexical_enclose (lexical_render body sayable.2)
    exact List.forall_mem_cons.mpr ⟨lexical_word (by simp), List.forall_mem_append.mpr ⟨named, inner⟩⟩
termination_by structural value

/-- The tokens of expressions that can be said can be cut out of a line. -/
theorem lexical_renderItems (items : List Expr) (sayable : Expr.SayableItems items) :
    ∀ word ∈ Expr.renderItems items, word.Lexical := by
  cases items with
  | nil =>
    rw [Expr.renderItems]
    simp
  | cons item items =>
    rw [Expr.SayableItems] at sayable
    rw [Expr.renderItems]
    have parts := List.forall_mem_append.mpr ⟨lexical_render item sayable.1, lexical_renderItems items sayable.2⟩
    exact List.forall_mem_cons.mpr ⟨trivial, parts⟩
termination_by structural items

end

theorem lexical_renderStatement {statement : Statement} (sayable : statement.Sayable) :
    ∀ word ∈ statement.render, word.Lexical := by
  cases statement with
  | borrow source =>
    exact List.forall_mem_cons.mpr ⟨lexical_word (by simp), List.forall_mem_singleton.mpr sayable⟩
  | bind name value =>
    exact List.forall_mem_cons.mpr ⟨sayable.1, List.forall_mem_cons.mpr ⟨trivial, lexical_render value sayable.2⟩⟩
  | expression value => exact lexical_render value sayable

end

/-! ### Reading lines -/

section

variable {line : List Char} {tokens : Tokens} {value : Statement}

/-- A statement that can be said is read from its tokens with full parentheses. -/
theorem readStatement_write (sayable : value.Sayable) : readStatement (write value.render) = .ok value := by
  obtain ⟨tokens, cut, is⟩ := tokenizeFrom_write (lexical_renderStatement sayable) 1
  have measured := allMeasured_of_lexical (lexical_of_tokenizeFrom cut)
  have read := statement_of_derives measured (derivesStatement_render sayable is)
  simp only [readStatement, tokenize, cut, read]

/-- A statement is read from the tokens of a line if and only if the grammar derives one from all of them. The statement
is the one whose function bodies reach furthest. Every statement that can be derived is read from its own tokens with
full parentheses. -/
theorem reads_as_derived (cut : tokenize line = .ok tokens) :
    ((∃ value, statement tokens = .ok value) ↔ ∃ value, DerivesStatement Anywhere value tokens) ∧
    (∀ value, statement tokens = .ok value ↔ DerivesStatement Furthest value tokens) ∧
    ∀ value, DerivesStatement Anywhere value tokens → readStatement (write value.render) = .ok value := by
  have lexical := lexical_of_tokenizeFrom cut
  have measured := allMeasured_of_lexical lexical
  refine ⟨⟨fun ⟨value, read⟩ => ?_, fun ⟨value, derives⟩ => exists_statement measured derives⟩, fun value => ?_, ?_⟩
  · exact ⟨value, (derives_of_statement measured read).anywhere⟩
  · exact statement_eq_ok_iff measured
  · exact fun value derives => readStatement_write (derives.sayable lexical)

/-- Two functions, one in the body of the other: the inner one reaches to the parenthesis around it, and `changed` is a
name where no parenthesis follows. -/
def nestedLine : List Char :=
  "f : ƒ(x, y) x - (fun() y * 2m < changed)(true).size + ~x".toList

def nestedTokens : Tokens :=
  [(.name "f", 1), (.symbol .colon, 3), (.name "ƒ", 5), (.symbol .openParen, 6), (.name "x", 7), (.symbol .comma, 8),
    (.name "y", 10), (.symbol .closeParen, 11), (.name "x", 13), (.symbol .minus, 15), (.symbol .openParen, 17),
    (.name "fun", 18), (.symbol .openParen, 21), (.symbol .closeParen, 22), (.name "y", 24), (.symbol .star, 26),
    (.number "2" "m", 28), (.symbol .less, 31), (.name "changed", 33), (.symbol .closeParen, 40),
    (.symbol .openParen, 41), (.name "true", 42), (.symbol .closeParen, 46), (.symbol .point, 47), (.name "size", 48),
    (.symbol .plus, 53), (.symbol .tilde, 55), (.name "x", 56)]

def nestedStatement : Statement :=
  .bind "f" (.function ["x", "y"] (.binary .add
    (.binary .subtract (.reference "x") (.property (.call (.function [] (.binary .less
      (.binary .multiply (.reference "y") (.number "2" (.dimension "m"))) (.reference "changed"))) [.boolean true])
      "size"))
    (.unary .not (.reference "x"))))

theorem reads_as_derived_nested : tokenize nestedLine = .ok nestedTokens ∧
    DerivesStatement Furthest nestedStatement nestedTokens ∧
    readStatement (write nestedStatement.render) = .ok nestedStatement := by
  have cut : tokenize nestedLine = .ok nestedTokens := by decide +kernel
  have read : statement nestedTokens = .ok nestedStatement := by rfl
  obtain ⟨-, exact, written⟩ := reads_as_derived cut
  exact ⟨cut, (exact nestedStatement).mp read, written _ ((exact nestedStatement).mp read).anywhere⟩

end

end Rivulet.Line
