import Rivulet.Line.Grammar

/-!
The grammar of lines. A phrase derives the tokens from one place of a line to another (`Derives`); what comes next
matters, because `ƒ`, `fun` and `changed` are plain names only where no parenthesis follows. Binary operators nest to
the left. The grammar is ambiguous in one way: where the body of a function ends. A condition on the ends of bodies is
therefore a parameter. The bodies of interest are those that reach as far as any expression does (`Furthest`), and those
that end where nothing goes on (`Stopping`).

Main statements: an expression that stops has a derivation in which all bodies stop (`exists_stopping`), and in the
derivation of an expression that stops bodies that reach furthest stop (`stopping_of_furthest`).
-/

namespace Rivulet.Line

/-! ### Rules -/

/-- A part of a line, and what it says. -/
inductive Phrase where
  | expression (value : Expr)
  | unary (value : Expr)
  | suffixed (value : Expr)
  | primary (value : Expr)
  | arguments (values : List Expr)
  | items (values : List Expr)

/-- Names with commas between them. -/
inductive DerivesNames : List String → Tokens → Tokens → Prop where
  | last {name : String} {column : Nat} {after : Tokens} : DerivesNames [name] ((.name name, column) :: after) after
  | next {name : String} {names : List String} {column column' : Nat} {middle after : Tokens}
      (others : DerivesNames names middle after) :
      DerivesNames (name :: names) ((.name name, column) :: (.symbol .comma, column') :: middle) after

/-- The inputs of a function, of which there may be none. -/
inductive DerivesInputs : List String → Tokens → Tokens → Prop where
  | none {after : Tokens} : DerivesInputs [] after after
  | some {names : List String} {before after : Tokens} (listed : DerivesNames names before after) :
      DerivesInputs names before after

/-- The names that functions start with. -/
def IsFunctionMark (name : String) : Prop :=
  name = "ƒ" ∨ name = "fun"

/-- A name stands for itself in front of some tokens. -/
def IsPlain (name : String) (after : Tokens) : Prop :=
  (name ≠ "true" ∧ name ≠ "false" ∧ name ≠ "none") ∧
    (IsFunctionMark name ∨ name = "changed" → nextSymbol? after ≠ some .openParen)

/-- A token is an expression by itself in front of some tokens. -/
inductive IsAtom : Token → Tokens → Expr → Prop where
  | number {digits unit : String} {after : Tokens} :
      IsAtom (.number digits unit) after (.number digits (.dimension unit))
  | text {value : String} {after : Tokens} : IsAtom (.text value) after (.text value)
  | truth {after : Tokens} : IsAtom (.name "true") after (.boolean true)
  | falsehood {after : Tokens} : IsAtom (.name "false") after (.boolean false)
  | nothing {after : Tokens} : IsAtom (.name "none") after .none
  | placeholder {after : Tokens} : IsAtom (.symbol .question) after .placeholder
  | reference {name : String} {after : Tokens} (plain : IsPlain name after) :
      IsAtom (.name name) after (.reference name)

/-- A phrase takes a line from one place to another. The bodies of functions satisfy a condition on where they start and
where they end. -/
inductive Derives (ends : Tokens → Tokens → Prop) : Phrase → Tokens → Tokens → Prop where
  | operand {value : Expr} {before after : Tokens} (only : Derives ends (.unary value) before after) :
      Derives ends (.expression value) before after
  | binary {left right : Expr} {symbol : Symbol} {op : BinaryOp} {column : Nat} {before middle after : Tokens}
      (first : Derives ends (.expression left) before ((.symbol symbol, column) :: middle))
      (is : symbol.binaryOp? = some op) (second : Derives ends (.unary right) middle after) :
      Derives ends (.expression (.binary op left right)) before after
  | sign {operand : Expr} {symbol : Symbol} {op : UnaryOp} {column : Nat} {middle after : Tokens}
      (is : symbol.unaryOp? = some op) (inner : Derives ends (.unary operand) middle after) :
      Derives ends (.unary (.unary op operand)) ((.symbol symbol, column) :: middle) after
  | unsigned {value : Expr} {before after : Tokens} (only : Derives ends (.suffixed value) before after) :
      Derives ends (.unary value) before after
  | bare {value : Expr} {before after : Tokens} (only : Derives ends (.primary value) before after) :
      Derives ends (.suffixed value) before after
  | call {callee : Expr} {arguments : List Expr} {column column' : Nat} {before middle after : Tokens}
      (first : Derives ends (.suffixed callee) before ((.symbol .openParen, column) :: middle))
      (inner : Derives ends (.arguments arguments) middle ((.symbol .closeParen, column') :: after)) :
      Derives ends (.suffixed (.call callee arguments)) before after
  | property {owner : Expr} {name : String} {column column' : Nat} {before after : Tokens}
      (first : Derives ends (.suffixed owner) before ((.symbol .point, column) :: (.name name, column') :: after)) :
      Derives ends (.suffixed (.property owner name)) before after
  | atom {token : Token} {value : Expr} {column : Nat} {after : Tokens} (is : IsAtom token after value) :
      Derives ends (.primary value) ((token, column) :: after) after
  | sequence {items : List Expr} {column column' : Nat} {middle after : Tokens}
      (inner : Derives ends (.arguments items) middle ((.symbol .closeBracket, column') :: after)) :
      Derives ends (.primary (.sequence items)) ((.symbol .openBracket, column) :: middle) after
  | group {value : Expr} {column column' : Nat} {middle after : Tokens}
      (inner : Derives ends (.expression value) middle ((.symbol .closeParen, column') :: after)) :
      Derives ends (.primary value) ((.symbol .openParen, column) :: middle) after
  | function {mark : String} {inputs : List String} {body : Expr} {column column' column'' : Nat}
      {opened middle after : Tokens} (marked : IsFunctionMark mark)
      (names : DerivesInputs inputs opened ((.symbol .closeParen, column'') :: middle))
      (inner : Derives ends (.expression body) middle after) (bound : ends middle after) :
      Derives ends (.primary (.function inputs body))
        ((.name mark, column) :: (.symbol .openParen, column') :: opened) after
  | changed {stream : Expr} {column column' column'' : Nat} {middle after : Tokens}
      (inner : Derives ends (.expression stream) middle ((.symbol .closeParen, column'') :: after)) :
      Derives ends (.primary (.changed stream))
        ((.name "changed", column) :: (.symbol .openParen, column') :: middle) after
  | noArguments {after : Tokens} : Derives ends (.arguments []) after after
  | someArguments {values : List Expr} {before after : Tokens} (inner : Derives ends (.items values) before after) :
      Derives ends (.arguments values) before after
  | lastItem {value : Expr} {before after : Tokens} (only : Derives ends (.expression value) before after) :
      Derives ends (.items [value]) before after
  | nextItem {value : Expr} {values : List Expr} {column : Nat} {before middle after : Tokens}
      (first : Derives ends (.expression value) before ((.symbol .comma, column) :: middle))
      (others : Derives ends (.items values) middle after) : Derives ends (.items (value :: values)) before after

/-- A statement takes up a whole line. -/
inductive DerivesStatement (ends : Tokens → Tokens → Prop) : Statement → Tokens → Prop where
  | borrow {source : String} {column column' : Nat} :
      DerivesStatement ends (.borrow source) [(.name "borrow", column), (.name source, column')]
  | bind {name : String} {value : Expr} {column column' : Nat} {rest : Tokens}
      (inner : Derives ends (.expression value) rest []) :
      DerivesStatement ends (.bind name value) ((.name name, column) :: (.symbol .colon, column') :: rest)
  | expression {value : Expr} {tokens : Tokens} (only : Derives ends (.expression value) tokens []) :
      DerivesStatement ends (.expression value) tokens

/-! ### Where bodies end -/

/-- Bodies may end anywhere. -/
def Anywhere (_ _ : Tokens) : Prop :=
  True

/-- No expression from the start of a body reaches further than the body. -/
def Furthest (middle after : Tokens) : Prop :=
  ∀ value after', Derives Anywhere (.expression value) middle after' → after.length ≤ after'.length

/-- An operand does not go on with what comes next. -/
def Closed (after : Tokens) : Prop :=
  nextSymbol? after ≠ some .openParen ∧ nextSymbol? after ≠ some .point

/-- An expression does not go on with what comes next. -/
def Stops (after : Tokens) : Prop :=
  Closed after ∧ (nextSymbol? after).bind Symbol.binaryOp? = none

/-- Bodies end where nothing goes on. -/
def Stopping (_ after : Tokens) : Prop :=
  Stops after

theorem stops_nil : Stops [] :=
  ⟨⟨nofun, nofun⟩, rfl⟩

/-- No expression goes on with a closing symbol or a comma. -/
theorem stops_cons {symbol : Symbol} {column : Nat} {after : Tokens}
    (separates : symbol ∈ [.closeParen, .closeBracket, .comma]) : Stops ((.symbol symbol, column) :: after) := by
  simp only [List.mem_cons, List.not_mem_nil, or_false] at separates
  rcases separates with rfl | rfl | rfl <;> exact ⟨⟨by simp [nextSymbol?], by simp [nextSymbol?]⟩, rfl⟩

section

variable {ends ends' : Tokens → Tokens → Prop} {phrase : Phrase} {before middle after : Tokens}

/-- Bodies may satisfy a weaker condition. -/
theorem Derives.mono (derives : Derives ends phrase before after) (weaker : ∀ body middle after,
    Derives ends (.expression body) middle after → ends middle after → ends' middle after) :
    Derives ends' phrase before after := by
  induction derives with
  | operand _ only => exact .operand only
  | binary _ is _ first second => exact .binary first is second
  | sign is _ inner => exact .sign is inner
  | unsigned _ only => exact .unsigned only
  | bare _ only => exact .bare only
  | call _ _ first inner => exact .call first inner
  | property _ first => exact .property first
  | atom is => exact .atom is
  | sequence _ inner => exact .sequence inner
  | group _ inner => exact .group inner
  | function marked names body bound inner => exact .function marked names inner (weaker _ _ _ body bound)
  | changed _ inner => exact .changed inner
  | noArguments => exact .noArguments
  | someArguments _ inner => exact .someArguments inner
  | lastItem _ only => exact .lastItem only
  | nextItem _ _ first others => exact .nextItem first others

theorem Derives.anywhere (derives : Derives ends phrase before after) : Derives Anywhere phrase before after :=
  derives.mono fun _ _ _ _ _ => trivial

theorem DerivesStatement.anywhere {value : Statement} {tokens : Tokens} (derives : DerivesStatement ends value tokens) :
    DerivesStatement Anywhere value tokens := by
  cases derives with
  | borrow => exact .borrow
  | bind inner => exact .bind inner.anywhere
  | expression only => exact .expression only.anywhere

/-! ### Tokens that follow -/

/-- Some tokens begin with the same symbol as others, or there are none. -/
def Alike (after after' : Tokens) : Prop :=
  nextSymbol? after' = nextSymbol? after ∨ after' = []

theorem alike_cons {first : Token × Nat} (after after' : Tokens) : Alike (first :: after) (first :: after') := by
  obtain ⟨token, column⟩ := first
  cases token <;> exact .inl rfl

theorem Stops.alike {after' : Tokens} (stops : Stops after) (alike : Alike after after') : Stops after' := by
  rcases alike with same | rfl
  · unfold Stops Closed
    rwa [same]
  · exact stops_nil

theorem IsAtom.alike {token : Token} {value : Expr} {after' : Tokens} (is : IsAtom token after value)
    (alike : Alike after after') : IsAtom token after' value := by
  cases is with
  | reference plain =>
    refine .reference ⟨plain.1, fun mark => ?_⟩
    rcases alike with same | rfl
    · exact same ▸ plain.2 mark
    · exact nofun
  | number => exact .number
  | text => exact .text
  | truth => exact .truth
  | falsehood => exact .falsehood
  | nothing => exact .nothing
  | placeholder => exact .placeholder

theorem DerivesNames.replace {names : List String} (derives : DerivesNames names before after) :
    ∃ word, before = word ++ after ∧ ∀ after', DerivesNames names (word ++ after') after' := by
  induction derives with
  | last => exact ⟨[_], rfl, fun _ => .last⟩
  | next _ others =>
    obtain ⟨word, rfl, derives⟩ := others
    exact ⟨_ :: _ :: word, rfl, fun after' => .next (derives after')⟩

theorem DerivesInputs.replace {names : List String} (derives : DerivesInputs names before after) :
    ∃ word, before = word ++ after ∧ ∀ after', DerivesInputs names (word ++ after') after' := by
  cases derives with
  | none => exact ⟨[], rfl, fun _ => .none⟩
  | some listed =>
    obtain ⟨word, rfl, derives⟩ := listed.replace
    exact ⟨word, rfl, fun after' => .some (derives after')⟩

theorem DerivesInputs.suffix {names : List String} (derives : DerivesInputs names before after) : after <:+ before := by
  obtain ⟨word, rfl, -⟩ := derives.replace
  exact List.suffix_append word after

/-- The tokens after a phrase can be others that are alike. -/
theorem Derives.replace (derives : Derives ends phrase before after)
    (stable : ∀ middle middle' after after', ends middle after → Alike after after' → ends middle' after') :
    ∃ word, before = word ++ after ∧ ∀ after', Alike after after' → Derives ends phrase (word ++ after') after' := by
  induction derives with
  | operand _ only =>
    obtain ⟨word, rfl, derives⟩ := only
    exact ⟨word, rfl, fun after' alike => .operand (derives after' alike)⟩
  | @binary _ _ symbol _ column _ _ _ _ is _ first second =>
    obtain ⟨word, rfl, derives⟩ := first
    obtain ⟨word', rfl, derives'⟩ := second
    refine ⟨word ++ (.symbol symbol, column) :: word', by simp, fun after' alike => ?_⟩
    rw [List.append_assoc, List.cons_append]
    exact .binary (derives _ (alike_cons _ _)) is (derives' after' alike)
  | sign is _ inner =>
    obtain ⟨word, rfl, derives⟩ := inner
    exact ⟨_ :: word, rfl, fun after' alike => .sign is (derives after' alike)⟩
  | unsigned _ only =>
    obtain ⟨word, rfl, derives⟩ := only
    exact ⟨word, rfl, fun after' alike => .unsigned (derives after' alike)⟩
  | bare _ only =>
    obtain ⟨word, rfl, derives⟩ := only
    exact ⟨word, rfl, fun after' alike => .bare (derives after' alike)⟩
  | @call _ _ column column' _ _ _ _ _ first inner =>
    obtain ⟨word, rfl, derives⟩ := first
    obtain ⟨word', rfl, derives'⟩ := inner
    refine ⟨word ++ (.symbol .openParen, column) :: (word' ++ [(.symbol .closeParen, column')]), by simp, ?_⟩
    intro after' _
    rw [List.append_assoc, List.cons_append, List.append_assoc]
    exact .call (derives _ (alike_cons _ _)) (derives' _ (alike_cons _ _))
  | @property _ name column column' _ _ _ first =>
    obtain ⟨word, rfl, derives⟩ := first
    refine ⟨word ++ [(.symbol .point, column), (.name name, column')], by simp, fun after' _ => ?_⟩
    rw [List.append_assoc]
    exact .property (derives _ (alike_cons _ _))
  | atom is => exact ⟨[_], rfl, fun after' alike => .atom (is.alike alike)⟩
  | @sequence _ column column' _ _ _ inner =>
    obtain ⟨word, rfl, derives⟩ := inner
    refine ⟨(.symbol .openBracket, column) :: (word ++ [(.symbol .closeBracket, column')]), by simp, fun after' _ => ?_⟩
    rw [List.cons_append, List.append_assoc]
    exact .sequence (derives _ (alike_cons _ _))
  | @group _ column column' _ _ _ inner =>
    obtain ⟨word, rfl, derives⟩ := inner
    refine ⟨(.symbol .openParen, column) :: (word ++ [(.symbol .closeParen, column')]), by simp, fun after' _ => ?_⟩
    rw [List.cons_append, List.append_assoc]
    exact .group (derives _ (alike_cons _ _))
  | @function mark _ _ column column' column'' _ _ _ marked names _ bound inner =>
    obtain ⟨listed, rfl, derives⟩ := names.replace
    obtain ⟨word, rfl, derives'⟩ := inner
    refine ⟨(.name mark, column) :: (.symbol .openParen, column') ::
      (listed ++ (.symbol .closeParen, column'') :: word), by simp, fun after' alike => ?_⟩
    rw [List.cons_append, List.cons_append, List.append_assoc, List.cons_append]
    exact .function marked (derives _) (derives' after' alike) (stable _ _ _ _ bound alike)
  | @changed _ column column' column'' _ _ _ inner =>
    obtain ⟨word, rfl, derives⟩ := inner
    refine ⟨(.name "changed", column) :: (.symbol .openParen, column') :: (word ++ [(.symbol .closeParen, column'')]),
      by simp, fun after' _ => ?_⟩
    rw [List.cons_append, List.cons_append, List.append_assoc]
    exact .changed (derives _ (alike_cons _ _))
  | noArguments => exact ⟨[], rfl, fun _ _ => .noArguments⟩
  | someArguments _ inner =>
    obtain ⟨word, rfl, derives⟩ := inner
    exact ⟨word, rfl, fun after' alike => .someArguments (derives after' alike)⟩
  | lastItem _ only =>
    obtain ⟨word, rfl, derives⟩ := only
    exact ⟨word, rfl, fun after' alike => .lastItem (derives after' alike)⟩
  | @nextItem _ _ column _ _ _ _ _ first others =>
    obtain ⟨word, rfl, derives⟩ := first
    obtain ⟨word', rfl, derives'⟩ := others
    refine ⟨word ++ (.symbol .comma, column) :: word', by simp, fun after' alike => ?_⟩
    rw [List.append_assoc, List.cons_append]
    exact .nextItem (derives _ (alike_cons _ _)) (derives' after' alike)

/-- What a phrase leaves is the end of the line that it starts at. -/
theorem Derives.suffix (derives : Derives ends phrase before after) : after <:+ before := by
  obtain ⟨word, rfl, -⟩ := derives.anywhere.replace fun _ _ _ _ _ _ => trivial
  exact List.suffix_append word after

/-! ### Bodies that stop -/

/-- An expression that ends at a place goes on from there to another one. -/
def Joins (middle after : Tokens) : Prop :=
  ∀ value before, Derives Stopping (.expression value) before middle →
    ∃ value', Derives Stopping (.expression value') before after

/-- An operand that ends at a place goes on from there, and then its expression does, to another place. -/
def GoesOn (middle after : Tokens) : Prop :=
  ∀ value before, Derives Stopping (.suffixed value) before middle →
    ∃ value' middle', Derives Stopping (.suffixed value') before middle' ∧ Joins middle' after

theorem goesOn_refl (after : Tokens) : GoesOn after after :=
  fun value _ derives => ⟨value, after, derives, fun value' _ derives' => ⟨value', derives'⟩⟩

/-- From where a phrase starts, something of its kind with bodies that stop leads on to where the line can be read
to from its end. -/
def Phrase.Resumes (before after : Tokens) : Phrase → Prop
  | expression _ => ∀ rest, Stops rest → GoesOn after rest → ∃ value, Derives Stopping (.expression value) before rest
  | unary _ => ∀ rest, Stops rest → GoesOn after rest →
      ∃ value middle, Derives Stopping (.unary value) before middle ∧ Joins middle rest
  | suffixed _ => ∀ rest, Stops rest → GoesOn after rest →
      ∃ value middle, Derives Stopping (.suffixed value) before middle ∧ GoesOn middle rest
  | primary _ => ∀ rest, Stops rest → GoesOn after rest →
      ∃ value middle, Derives Stopping (.primary value) before middle ∧ GoesOn middle rest
  | arguments _ => Stops after → ∃ values, Derives Stopping (.arguments values) before after
  | items _ => Stops after → ∃ values, Derives Stopping (.items values) before after

/-- What follows the body of a function belongs to the body, if it belongs to anything before it. -/
theorem Derives.resumes (derives : Derives ends phrase before after) : phrase.Resumes before after := by
  induction derives with
  | operand _ only =>
    intro rest stops goesOn
    obtain ⟨value, middle, derives, joins⟩ := only rest stops goesOn
    exact joins value _ (.operand derives)
  | binary _ is _ first second =>
    intro rest stops goesOn
    refine first rest stops fun value before derives => ⟨value, _, derives, fun left before derives => ?_⟩
    obtain ⟨right, middle, derives', joins⟩ := second rest stops goesOn
    exact joins _ before (.binary derives is derives')
  | sign is _ inner =>
    intro rest stops goesOn
    obtain ⟨value, middle, derives, joins⟩ := inner rest stops goesOn
    exact ⟨_, middle, .sign is derives, joins⟩
  | unsigned _ only =>
    intro rest stops goesOn
    obtain ⟨value, middle, derives, goesOn⟩ := only rest stops goesOn
    obtain ⟨value, middle, derives, joins⟩ := goesOn value _ derives
    exact ⟨value, middle, .unsigned derives, joins⟩
  | bare _ only =>
    intro rest stops goesOn
    obtain ⟨value, middle, derives, goesOn⟩ := only rest stops goesOn
    exact ⟨value, middle, .bare derives, goesOn⟩
  | call _ _ first inner =>
    intro rest stops goesOn
    refine first rest stops fun callee before derives => ?_
    obtain ⟨values, derives'⟩ := inner (stops_cons (by simp))
    exact goesOn _ before (.call derives derives')
  | property _ first =>
    intro rest stops goesOn
    exact first rest stops fun owner before derives => goesOn _ before (.property derives)
  | atom is => exact fun rest stops goesOn => ⟨_, _, .atom is, goesOn⟩
  | sequence _ inner =>
    intro rest stops goesOn
    obtain ⟨values, derives⟩ := inner (stops_cons (by simp))
    exact ⟨_, _, .sequence derives, goesOn⟩
  | group _ inner =>
    intro rest stops goesOn
    obtain ⟨value, derives⟩ := inner _ (stops_cons (by simp)) (goesOn_refl _)
    exact ⟨_, _, .group derives, goesOn⟩
  | function marked names _ _ inner =>
    intro rest stops goesOn
    obtain ⟨body, derives⟩ := inner rest stops goesOn
    exact ⟨_, rest, .function marked names derives stops, goesOn_refl rest⟩
  | changed _ inner =>
    intro rest stops goesOn
    obtain ⟨stream, derives⟩ := inner _ (stops_cons (by simp)) (goesOn_refl _)
    exact ⟨_, _, .changed derives, goesOn⟩
  | noArguments => exact fun _ => ⟨[], .noArguments⟩
  | someArguments _ inner =>
    intro stops
    obtain ⟨values, derives⟩ := inner stops
    exact ⟨values, .someArguments derives⟩
  | lastItem _ only =>
    intro stops
    obtain ⟨value, derives⟩ := only _ stops (goesOn_refl _)
    exact ⟨[value], .lastItem derives⟩
  | nextItem _ _ first others =>
    intro stops
    obtain ⟨value, derives⟩ := first _ (stops_cons (by simp)) (goesOn_refl _)
    obtain ⟨values, derives'⟩ := others stops
    exact ⟨value :: values, .nextItem derives derives'⟩

/-- Whatever bodies an expression has, if it stops there is one with bodies that stop. -/
theorem exists_stopping {value : Expr} (derives : Derives ends (.expression value) before after) (stops : Stops after) :
    ∃ value', Derives Stopping (.expression value') before after :=
  derives.resumes after stops (goesOn_refl after)

/-! ### Bodies that reach furthest -/

theorem Derives.length_le (derives : Derives ends phrase before after) : after.length ≤ before.length :=
  derives.suffix.length_le

/-- Operands that end at a place can be continued to another one. -/
def Continues (middle after : Tokens) : Prop :=
  ∀ value before, Derives Anywhere (.suffixed value) before middle →
    ∃ value', Derives Anywhere (.suffixed value') before after

theorem continues_call {arguments : List Expr} {column column' : Nat}
    (inner : Derives Anywhere (.arguments arguments) middle ((.symbol .closeParen, column') :: after)) :
    Continues ((.symbol .openParen, column) :: middle) after :=
  fun _ _ derives => ⟨_, .call derives inner⟩

theorem continues_property (name : String) (column column' : Nat) (after : Tokens) :
    Continues ((.symbol .point, column) :: (.name name, column') :: after) after :=
  fun _ _ derives => ⟨_, .property derives⟩

theorem Continues.unary (continues : Continues middle after) {value : Expr} {before : Tokens} :
    Derives Anywhere (.unary value) before middle → ∃ value', Derives Anywhere (.unary value') before after
  | .sign is inner =>
    let ⟨_, derives⟩ := continues.unary inner
    ⟨_, .sign is derives⟩
  | .unsigned only =>
    let ⟨_, derives⟩ := continues _ _ only
    ⟨_, .unsigned derives⟩

theorem Continues.expression (continues : Continues middle after) {value : Expr}
    (derives : Derives Anywhere (.expression value) before middle) :
    ∃ value', Derives Anywhere (.expression value') before after := by
  cases derives with
  | operand only =>
    obtain ⟨value, derives⟩ := continues.unary only
    exact ⟨value, .operand derives⟩
  | binary first is second =>
    obtain ⟨value, derives⟩ := continues.unary second
    exact ⟨_, .binary first is derives⟩

/-- An expression that does not stop at a place can be continued to a later one. -/
def Extends (after : Tokens) : Prop :=
  Stops after ∨ ∀ body start, Derives Anywhere (.expression body) start after →
    ∃ body' after', Derives Anywhere (.expression body') start after' ∧ after'.length < after.length

theorem Continues.extends (continues : Continues middle after) (later : after.length < middle.length) :
    Extends middle :=
  .inr fun _ _ derives =>
    let ⟨body', derives'⟩ := continues.expression derives
    ⟨body', after, derives', later⟩

/-- What can be said of the end of a phrase in the derivation of an expression that stops. -/
def Phrase.Ends (after : Tokens) : Phrase → Prop
  | arguments _ | items _ => Stops after
  | _ => Extends after

/-- The bodies that reach furthest stop. -/
theorem Derives.stopping_of_furthest (derives : Derives Furthest phrase before after) (fits : phrase.Ends after) :
    Derives Stopping phrase before after := by
  induction derives with
  | operand _ only => exact .operand (only fits)
  | binary _ is later first second =>
    refine .binary (first (.inr fun body start derives => ?_)) is (second fits)
    exact ⟨_, _, .binary derives is later.anywhere, Nat.lt_succ_of_le later.length_le⟩
  | sign is _ inner => exact .sign is (inner fits)
  | unsigned _ only => exact .unsigned (only fits)
  | bare _ only => exact .bare (only fits)
  | call _ later first inner =>
    have shorter := later.length_le
    refine .call (first ((continues_call later.anywhere).extends ?_)) (inner (stops_cons (by simp)))
    exact Nat.lt_trans (Nat.lt_succ_self _) (Nat.lt_succ_of_le shorter)
  | property _ first =>
    exact .property (first ((continues_property _ _ _ _).extends (by simp only [List.length_cons]; omega)))
  | atom is => exact .atom is
  | sequence _ inner => exact .sequence (inner (stops_cons (by simp)))
  | group _ inner => exact .group (inner (.inl (stops_cons (by simp))))
  | function marked names body bound inner =>
    refine .function marked names (inner fits) ?_
    rcases fits with stops | goesOn
    · exact stops
    · obtain ⟨body', after', derives, shorter⟩ := goesOn _ _ body.anywhere
      exact absurd (bound body' after' derives) (Nat.not_le_of_lt shorter)
  | changed _ inner => exact .changed (inner (.inl (stops_cons (by simp))))
  | noArguments => exact .noArguments
  | someArguments _ inner => exact .someArguments (inner fits)
  | lastItem _ only => exact .lastItem (only (.inl fits))
  | nextItem _ _ first others => exact .nextItem (first (.inl (stops_cons (by simp)))) (others fits)

end

end Rivulet.Line
