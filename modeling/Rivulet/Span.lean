/-!
Ranges of positions in a source text, with an exclusive end.
-/

namespace Rivulet

/-- The positions from `start` up to but not including `stop`. -/
structure Span where
  start : Nat
  stop : Nat
deriving DecidableEq, Repr, Inhabited

namespace Span

/-- The span of a node that has no place in a text. -/
def none : Span := ⟨0, 0⟩

/-- How many positions a span covers. -/
def length (span : Span) : Nat :=
  span.stop - span.start

/-- Whether a span covers no position. -/
def isEmpty (span : Span) : Bool :=
  span.stop ≤ span.start

/-- The smallest span that covers two spans and what lies between them. -/
def merge (first second : Span) : Span :=
  ⟨min first.start second.start, max first.stop second.stop⟩

/-- Whether a position lies in a span. -/
def contains (span : Span) (position : Nat) : Bool :=
  span.start ≤ position && position < span.stop

/-- Both ends of a span, joined by two points. -/
def toText (span : Span) : String :=
  s!"{span.start}..{span.stop}"

end Span

end Rivulet
