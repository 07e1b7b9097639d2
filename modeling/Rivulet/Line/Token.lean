import Rivulet.Text.Letter
import Rivulet.Text.Decimal

/-!
The tokens of a line. A lexeme starts at the first character that is no blank and is as long as it
can be; blanks between lexemes only separate them.
-/

namespace Rivulet.Line

/-- The marks that lines are written with besides names, numbers and texts. -/
inductive Symbol where
  | lessEqual | greaterEqual | notEqual
  | plus | minus | star | slash | percent | less | greater | equal | ampersand | bar | tilde
  | openParen | closeParen | openBracket | closeBracket | comma | point | colon | question
deriving DecidableEq, Repr

/-- A symbol as it is written. -/
def Symbol.text : Symbol → String
  | lessEqual => "<="
  | greaterEqual => ">="
  | notEqual => "!="
  | plus => "+"
  | minus => "-"
  | star => "*"
  | slash => "/"
  | percent => "%"
  | less => "<"
  | greater => ">"
  | equal => "="
  | ampersand => "&"
  | bar => "|"
  | tilde => "~"
  | openParen => "("
  | closeParen => ")"
  | openBracket => "["
  | closeBracket => "]"
  | comma => ","
  | point => "."
  | colon => ":"
  | question => "?"

/-- The symbol that a character starts, given the character after it. -/
def Symbol.ofChars? (first : Char) (second : Option Char) : Option Symbol :=
  match first, second with
  | '<', some '=' => some lessEqual
  | '>', some '=' => some greaterEqual
  | '!', some '=' => some notEqual
  | '+', _ => some plus
  | '-', _ => some minus
  | '*', _ => some star
  | '/', _ => some slash
  | '%', _ => some percent
  | '<', _ => some less
  | '>', _ => some greater
  | '=', _ => some equal
  | '&', _ => some ampersand
  | '|', _ => some bar
  | '~', _ => some tilde
  | '(', _ => some openParen
  | ')', _ => some closeParen
  | '[', _ => some openBracket
  | ']', _ => some closeBracket
  | ',', _ => some comma
  | '.', _ => some point
  | ':', _ => some colon
  | '?', _ => some question
  | _, _ => none

/-- A token of a line. -/
inductive Token where
  /-- A number as written, and the letters that follow it at once. -/
  | number (digits : String) (unit : String)
  | text (value : String)
  | name (value : String)
  | symbol (value : Symbol)
deriving DecidableEq, Repr

/-- Tokens with the columns at which they start; the first column is one. -/
abbrev Tokens := List (Token × Nat)

/-- Why a line cannot be read. -/
inductive Problem where
  | unterminatedText
  | unexpectedCharacter (character : Char)
  | unexpectedSymbol (symbol : Symbol)
  | expectedSymbol (symbol : Symbol)
  | expectedEnd
  | expectedExpression
  | expectedProperty
  | expectedInput
  | notAUnit (unit : String)
deriving DecidableEq, Repr

/-- A problem in words. -/
def Problem.message : Problem → String
  | unterminatedText => "unterminated text"
  | unexpectedCharacter character => s!"unexpected `{character}`"
  | unexpectedSymbol symbol => s!"unexpected `{symbol.text}`"
  | expectedSymbol symbol => s!"expected `{symbol.text}`"
  | expectedEnd => "expected the end of the line"
  | expectedExpression => "expected an expression"
  | expectedProperty => "expected a property name"
  | expectedInput => "expected an input name"
  | notAUnit unit => s!"`{unit}` is not a unit"

/-- Whether a character may start a name. -/
def startsName (c : Char) : Bool :=
  Text.isLetter c || c == '_'

/-- Whether a character may occur in a name. -/
def continuesName (c : Char) : Bool :=
  Text.isLetter c || Text.isNumeral c || c == '_'

/-- Whether a character may occur in the digits of a number. -/
def continuesNumber (c : Char) : Bool :=
  Text.isDigit c || c == '.'

/-- The lexeme that a character starts: its token, unless it is a blank, and how many of the
characters after the first one belong to it. -/
def lexeme (first : Char) (rest : List Char) : Except Problem (Option Token × Nat) :=
  if Text.isBlank first then .ok (none, 0)
  else if Text.isDigit first then
    let digits := rest.takeWhile continuesNumber
    let unit := (rest.drop digits.length).takeWhile Text.isLetter
    .ok (some (.number (String.ofList (first :: digits)) (String.ofList unit)),
      digits.length + unit.length)
  else if first == '"' then
    let (content, closed) := Text.cutAt (· == '"') rest
    if closed.isNone then .error .unterminatedText
    else .ok (some (.text (String.ofList content)), content.length + 1)
  else if startsName first then
    let name := rest.takeWhile continuesName
    .ok (some (.name (String.ofList (first :: name))), name.length)
  else
    match Symbol.ofChars? first rest.head? with
    | some symbol => .ok (some (.symbol symbol), symbol.text.length - 1)
    | none => .error (.unexpectedCharacter first)

/-- The tokens of a text that starts at a column, or the first problem and its column. -/
def tokenizeFrom (column : Nat) (text : List Char) : Except (Problem × Nat) Tokens :=
  match text with
  | [] => .ok []
  | first :: rest =>
    match lexeme first rest with
    | .error problem => .error (problem, column)
    | .ok (token, extra) =>
      match tokenizeFrom (column + 1 + extra) (rest.drop extra) with
      | .error failure => .error failure
      | .ok later =>
        match token with
        | some token => .ok ((token, column) :: later)
        | none => .ok later
termination_by text.length
decreasing_by simp only [List.length_cons, List.length_drop]; omega

/-- The tokens of a line. -/
def tokenize (line : List Char) : Except (Problem × Nat) Tokens :=
  tokenizeFrom 1 line

end Rivulet.Line
