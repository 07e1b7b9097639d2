import Rivulet.Line.Grammar

/-!
Sources with one statement per line. A strict reading fails at the first line that cannot be read;
a lenient one keeps such a line as an unparsable statement.
-/

namespace Rivulet

/-- Where a source cannot be read, and why. Lines and columns start at one, and a column counts
characters of the line without the blanks around it. -/
structure ParseError where
  line : Nat
  column : Nat
  problem : Line.Problem
deriving DecidableEq, Repr

/-- An error as its users read it: the place, then the problem. -/
def ParseError.message (error : ParseError) : String :=
  s!"{error.line}:{error.column}: {error.problem.message}"

namespace Line

/-- Whether a line without blanks around it says nothing: it is empty or a comment. -/
def isSilent (line : List Char) : Bool :=
  line.isEmpty || ['/', '/'].isPrefixOf line

/-- The statement of a line, or the problem, its column, and the parts that were complete. -/
def readStatement (line : List Char) : Except (Problem × Nat × List Piece) Statement :=
  match tokenize line with
  | .error (problem, column) => .error (problem, column, [])
  | .ok tokens =>
    match statement tokens with
    | .ok value => .ok value
    | .error failure =>
      let last := ((tokens.getLast?).map Prod.snd).getD 1
      .error (failure.problem, failure.column.getD last, failure.pieces)

/-- Adds the statements of some lines, the first of which has a number. Of a line that a lenient
reading cannot read, the parts that were complete stay in the tree without being used. -/
def readLines (lenient : Bool) (number : Nat) (builder : Builder) :
    List (List Char) → Except ParseError (List NodeId × Builder)
  | [] => .ok ([], builder)
  | text :: rest =>
    let line := Text.trim text
    if isSilent line then readLines lenient (number + 1) builder rest
    else
      let goOn (added : NodeId × Builder) : Except ParseError (List NodeId × Builder) :=
        match readLines lenient (number + 1) added.2 rest with
        | .ok (statements, builder) => .ok (added.1 :: statements, builder)
        | .error error => .error error
      match readStatement line with
      | .ok statement => goOn (statement.build builder)
      | .error (problem, column, pieces) =>
        if lenient then
          let builder := pieces.foldl Piece.build builder
          goOn (builder.alloc (.unparsable (String.ofList line)))
        else .error ⟨number, column, problem⟩

/-- The tree of a source. -/
def parse (lenient : Bool) (text : String) : Except ParseError Tree :=
  match readLines lenient 1 .empty (Text.lines text.toList) with
  | .ok (statements, builder) => .ok (builder.program statements)
  | .error error => .error error

end Line

end Rivulet
