import Rivulet.Natives
import Rivulet.Scope

/-!
Frames. A frame is one activation of a program, a definition or a native: a cursor into its steps,
a stack of values, and the scope its names are resolved in.
-/

namespace Rivulet

/-- Misuse of an evaluation by its host. Failures of the evaluated program are exception values
instead. -/
inductive Fault where
  | notStarted
  | jumpOutOfBounds (cursor : Nat) (distance : Int) (length : Nat)
  | uncompilable (node : NodeId)
  | notCallable (node : NodeId)
  | unknownNative (index : Nat)
deriving DecidableEq, Repr, Inhabited

/-- A fault in words. -/
def Fault.message : Fault → String
  | notStarted => "evaluation has not been started"
  | jumpOutOfBounds cursor distance length =>
    s!"jump by {distance} from step {cursor} leaves a sequence of {length} steps"
  | uncompilable node => s!"{node.toText} has no standalone step"
  | notCallable node => s!"{node.toText} is not a function or structure definition"
  | unknownNative index => s!"native {index} is not registered"

/-- What a frame runs. -/
inductive FrameKind where
  | program
  | function (definition : NodeId)
  | record (definition : NodeId)
  | native (index : Nat)
deriving DecidableEq, Repr, Inhabited

/-- What a frame runs, in words. -/
def FrameKind.toText : FrameKind → String
  | program => "program"
  | function definition => s!"function {definition.number}"
  | record definition => s!"structure {definition.number}"
  | native index => s!"native {index}"

/-- One activation. The top of the stack comes first in `values`. -/
structure Frame (N : Type := String) where
  kind : FrameKind
  /-- The node that started the frame: the root of the program or the site of the call. -/
  origin : NodeId
  steps : Array Step
  cursor : Nat
  scope : ScopeId
  values : List (Value N)
deriving Inhabited

namespace Frame

variable {N : Type}

/-- A frame at its first step. -/
def start (kind : FrameKind) (origin : NodeId) (steps : Array Step) (scope : ScopeId) : Frame N :=
  ⟨kind, origin, steps, 0, scope, []⟩

/-- The step that runs next. -/
def current? (frame : Frame N) : Option Step :=
  frame.steps[frame.cursor]?

/-- Whether no step is left. -/
def isExhausted (frame : Frame N) : Bool :=
  frame.steps.size ≤ frame.cursor

/-- The node that the frame works on: that of its next step, or the one that started it. -/
def currentNode (frame : Frame N) : NodeId :=
  (frame.current?.bind Step.node?).getD frame.origin

/-- Moves on to the following step. -/
def advance (frame : Frame N) : Frame N :=
  { frame with cursor := frame.cursor + 1 }

/-- Moves the cursor by a distance. The frame still advances afterwards, so the target must be a
step of the sequence. -/
def jump (frame : Frame N) (distance : Int) : Except Fault (Frame N) :=
  let target : Int := frame.cursor + distance
  if 0 ≤ target && target < frame.steps.size then .ok { frame with cursor := target.toNat }
  else .error (.jumpOutOfBounds frame.cursor distance frame.steps.size)

/-- Puts a value on the stack. -/
def push (frame : Frame N) (value : Value N) : Frame N :=
  { frame with values := value :: frame.values }

/-- The value on top of the stack. -/
def peek? (frame : Frame N) : Option (Value N) :=
  frame.values.head?

/-- Takes the value on top off the stack. -/
def pop? (frame : Frame N) : Option (Value N × Frame N) :=
  match frame.values with
  | [] => none
  | value :: rest => some (value, { frame with values := rest })

/-- Takes some values off a stack and puts them before others, which restores the order in which
they were pushed. -/
def takeTop : Nat → List (Value N) → List (Value N) → Option (List (Value N) × List (Value N))
  | 0, stack, taken => some (taken, stack)
  | _ + 1, [], _ => none
  | count + 1, value :: stack, taken => takeTop count stack (value :: taken)

/-- Takes the topmost values off the stack, in the order in which they were pushed; a stack with
fewer values stays as it is. -/
def popMany? (frame : Frame N) (count : Nat) : Option (List (Value N) × Frame N) :=
  match takeTop count frame.values [] with
  | none => none
  | some (taken, rest) => some (taken, { frame with values := rest })

end Frame

end Rivulet
