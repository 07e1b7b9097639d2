import Rivulet.Line.Statement

/-!
Reading a statement from the tokens of a line.

Binary operators of every kind apply strictly from left to right, and the body of a function reaches
as far as it can. A failure tells the problem, the column of the token at fault, and the parts of
the line that were complete by then, in the order in which they were read.

The functions for expressions call each other along the tokens. Their first argument bounds the
depth of these calls, and `depthOf` is never too small a bound, because no more than five calls lead
from one token to the next.
-/

namespace Rivulet.Line

/-- Why a statement cannot be read. Without a column the line ended too early, and its last token
is at fault. -/
structure Failure where
  problem : Problem
  column : Option Nat
  pieces : List Piece
deriving Repr

/-- What was read, or why nothing could be read. -/
abbrev Reading := Except Failure

/-- The column of the next token. -/
def columnOf (tokens : Tokens) : Option Nat :=
  tokens.head?.map Prod.snd

/-- Fails at the next token. -/
def failAt {α : Type} (problem : Problem) (tokens : Tokens) : Reading α :=
  .error ⟨problem, columnOf tokens, []⟩

/-- Reads on after some parts of the line were complete; a failure counts them too. -/
def after {α : Type} (pieces : List Piece) (reading : Reading α) : Reading α :=
  match reading with
  | .ok result => .ok result
  | .error failure => .error { failure with pieces := pieces ++ failure.pieces }

/-- The symbol that comes next. -/
def nextSymbol? : Tokens → Option Symbol
  | (.symbol symbol, _) :: _ => some symbol
  | _ => none

/-- Takes a symbol that must come next. -/
def expect (symbol : Symbol) (tokens : Tokens) : Reading (Unit × Tokens) :=
  if nextSymbol? tokens = some symbol then .ok ((), tokens.tail)
  else failAt (.expectedSymbol symbol) tokens

/-- The binary operator that a symbol stands for. -/
def Symbol.binaryOp? : Symbol → Option BinaryOp
  | plus => some .add
  | minus => some .subtract
  | star => some .multiply
  | slash => some .divide
  | percent => some .remainder
  | less => some .less
  | lessEqual => some .lessEqual
  | greater => some .greater
  | greaterEqual => some .greaterEqual
  | equal => some .equal
  | notEqual => some .notEqual
  | ampersand => some .and
  | bar => some .or
  | _ => none

/-- The unary operator that a symbol stands for. -/
def Symbol.unaryOp? : Symbol → Option UnaryOp
  | minus => some .negate
  | tilde => some .not
  | _ => none

/-- Reads the names of the inputs of a function, of which there is at least one, and the closing
parenthesis. -/
def inputNames : Tokens → Reading (List String × Tokens)
  | (.name name, _) :: (.symbol .comma, _) :: rest =>
    after [.input name] do
      let (names, rest) ← inputNames rest
      .ok (name :: names, rest)
  | (.name name, _) :: rest =>
    after [.input name] do
      let (_, rest) ← expect .closeParen rest
      .ok ([name], rest)
  | tokens => failAt .expectedInput tokens

/-- Reads the inputs of a function after the opening parenthesis. -/
def inputs (tokens : Tokens) : Reading (List String × Tokens) :=
  if nextSymbol? tokens = some .closeParen then .ok ([], tokens.tail) else inputNames tokens

/-- Reads a number with its measure. -/
def number (digits unit : String) (column : Nat) (rest : Tokens) : Reading (Expr × Tokens) :=
  match Measure.ofText? unit with
  | some measure => .ok (.number digits measure, rest)
  | none => .error ⟨.notAUnit unit, some column, []⟩

mutual

/-- Reads an expression: operands joined by binary operators. -/
def expression : Nat → Tokens → Reading (Expr × Tokens)
  | 0, tokens => failAt .expectedExpression tokens
  | depth + 1, tokens => do
    let (left, rest) ← unary depth tokens
    operators depth left rest

/-- Reads the operators and operands that follow a left operand. -/
def operators : Nat → Expr → Tokens → Reading (Expr × Tokens)
  | 0, _, tokens => failAt .expectedExpression tokens
  | depth + 1, left, tokens =>
    match (nextSymbol? tokens).bind Symbol.binaryOp? with
    | none => .ok (left, tokens)
    | some op => do
      let (right, rest) ← after [.ofExpr left] (unary depth tokens.tail)
      operators depth (.binary op left right) rest

/-- Reads an operand with the unary operators before it. -/
def unary : Nat → Tokens → Reading (Expr × Tokens)
  | 0, tokens => failAt .expectedExpression tokens
  | depth + 1, tokens =>
    match (nextSymbol? tokens).bind Symbol.unaryOp? with
    | some op => do
      let (operand, rest) ← unary depth tokens.tail
      .ok (.unary op operand, rest)
    | none => do
      let (node, rest) ← primary depth tokens
      suffixes depth node rest

/-- Reads the arguments and property names that follow an operand. -/
def suffixes : Nat → Expr → Tokens → Reading (Expr × Tokens)
  | 0, _, tokens => failAt .expectedExpression tokens
  | depth + 1, node, tokens =>
    match tokens with
    | (.symbol .openParen, _) :: rest => do
      let (arguments, rest) ← after [.ofExpr node] (list depth .closeParen rest)
      suffixes depth (.call node arguments) rest
    | (.symbol .point, _) :: (.name name, _) :: rest => suffixes depth (.property node name) rest
    | (.symbol .point, _) :: rest =>
      .error ⟨.expectedProperty, columnOf rest.tail, [.ofExpr node]⟩
    | _ => .ok (node, tokens)

/-- Reads expressions between commas up to and including a closing symbol. -/
def list : Nat → Symbol → Tokens → Reading (List Expr × Tokens)
  | 0, _, tokens => failAt .expectedExpression tokens
  | depth + 1, close, tokens =>
    if nextSymbol? tokens = some close then .ok ([], tokens.tail) else items depth close tokens

/-- Reads at least one expression of a list. -/
def items : Nat → Symbol → Tokens → Reading (List Expr × Tokens)
  | 0, _, tokens => failAt .expectedExpression tokens
  | depth + 1, close, tokens => do
    let (item, rest) ← expression depth tokens
    if nextSymbol? rest = some .comma then
      let (more, rest) ← after [.ofExpr item] (items depth close rest.tail)
      .ok (item :: more, rest)
    else
      let (_, rest) ← after [.ofExpr item] (expect close rest)
      .ok ([item], rest)

/-- Reads an operand without operators and suffixes. The names `ƒ`, `fun` and `changed` are plain
names unless a parenthesis follows. -/
def primary : Nat → Tokens → Reading (Expr × Tokens)
  | 0, tokens => failAt .expectedExpression tokens
  | _ + 1, [] => failAt .expectedExpression []
  | depth + 1, (token, column) :: rest =>
    match token with
    | .number digits unit => number digits unit column rest
    | .text value => .ok (.text value, rest)
    | .name "true" => .ok (.boolean true, rest)
    | .name "false" => .ok (.boolean false, rest)
    | .name "none" => .ok (.none, rest)
    | .name name =>
      if nextSymbol? rest = some .openParen && (name == "ƒ" || name == "fun") then do
        let (names, rest) ← inputs rest.tail
        let (body, rest) ← after (names.map .input) (expression depth rest)
        .ok (.function names body, rest)
      else if nextSymbol? rest = some .openParen && name == "changed" then do
        let (stream, rest) ← expression depth rest.tail
        let (_, rest) ← after [.ofExpr stream] (expect .closeParen rest)
        .ok (.changed stream, rest)
      else .ok (.reference name, rest)
    | .symbol .question => .ok (.placeholder, rest)
    | .symbol .openBracket => do
      let (items, rest) ← list depth .closeBracket rest
      .ok (.sequence items, rest)
    | .symbol .openParen => do
      let (inner, rest) ← expression depth rest
      let (_, rest) ← after [.ofExpr inner] (expect .closeParen rest)
      .ok (inner, rest)
    | .symbol symbol => .error ⟨.unexpectedSymbol symbol, some column, []⟩

end

/-- How deep the calls that read an expression may nest. -/
def depthOf (tokens : Tokens) : Nat :=
  6 * (tokens.length + 1)

/-- Reads the part of a statement that a line starts with. -/
def leadingStatement (tokens : Tokens) : Reading (Statement × Tokens) :=
  match tokens with
  | (.name "borrow", _) :: (.name source, _) :: rest => .ok (.borrow source, rest)
  | (.name name, _) :: (.symbol .colon, _) :: rest => do
    let (value, rest) ← expression (depthOf rest) rest
    .ok (.bind name value, rest)
  | _ => do
    let (value, rest) ← expression (depthOf tokens) tokens
    .ok (.expression value, rest)

/-- Reads a statement, which must take up all tokens. -/
def statement (tokens : Tokens) : Reading Statement := do
  let (value, rest) ← leadingStatement tokens
  if rest.isEmpty then .ok value
  else .error ⟨.expectedEnd, columnOf rest, [.statement value]⟩

end Rivulet.Line
