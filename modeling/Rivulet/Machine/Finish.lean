import Rivulet.Machine.Call
import Rivulet.Value.Collection

/-!
Completing a node from the values that its children left on the stack of the frame.
-/

namespace Rivulet

namespace Machine

variable {N : Type} [DecidableEq N] [Naming N]

/-- Leaves the scope of a frame for the one around it; the outermost scope is never left. -/
def exitScope (machine : Machine N) (frame : Frame N) : Frame N :=
  match machine.store.parent? frame.scope with
  | some outer => { frame with scope := outer }
  | none => frame

/-- Takes the values of some children off the stack and goes on with what they make. -/
def collect (machine : Machine N) (frame : Frame N) (count : Nat) (node : NodeId)
    (make : List (Value N) → Value N) : Effect N :=
  match frame.popMany? count with
  | none => machine.fail .expectedValue node
  | some (values, rest) => (machine.setTop rest).flow (.push (make values))

/-- Takes one value off the stack and goes on with it. -/
def consume (machine : Machine N) (frame : Frame N) (node : NodeId)
    (next : Machine N → Value N → Effect N) : Effect N :=
  match frame.pop? with
  | none => machine.fail .expectedValue node
  | some (value, rest) => next (machine.setTop rest) value

/-- Completes a block: leaves its scope and keeps the value of the last statement. -/
def finishBlock (machine : Machine N) (frame : Frame N) (node : NodeId) (statements : ChildList) :
    Effect N :=
  let children := machine.tree.list statements
  let popped := frame.popMany? children.length
  let frame := (popped.map Prod.snd).getD frame
  let frame := if machine.tree.declaresNames children then machine.exitScope frame else frame
  let machine := machine.setTop frame
  match popped.bind (·.1.getLast?) with
  | some last => machine.flow (.push last)
  | none => machine.fail .expectedValue node

/-- Makes a closure over a capture of the current scope and binds it there if it has a name. The
body sees its own name through the scope of its call. -/
def define (machine : Machine N) (frame : Frame N) (node : NodeId) (name : N) : Effect N :=
  let (context, store) := machine.store.capture frame.scope
  let closure := Value.function ⟨.definition node, some context, name⟩
  let machine := { machine with store }
  if name = Naming.anonymous then machine.flow (.push closure)
  else machine.bindName frame.scope name closure node (.push closure)

/-- Yields the value of another source and binds it to the name of that source. -/
def finishBorrow (machine : Machine N) (frame : Frame N) (node : NodeId) (source : N) : Effect N :=
  match machine.borrowed.lookup source with
  | none => machine.fail (.unknownSource source) node
  | some value => machine.bindName frame.scope source value node (.push value)

/-- Yields a field of the instance on the stack. -/
def finishProperty (machine : Machine N) (frame : Frame N) (node : NodeId) (name : N) : Effect N :=
  machine.consume frame node fun machine value =>
    match value with
    | .record _ fields =>
      match Value.field? fields name with
      | some field => machine.flow (.push field)
      | none => machine.fail (.unknownProperty name) node
    | other => machine.mismatch .record other node

/-- Completes a binary operator. The right operand of a logical one decides alone, because the left
one did not. -/
def finishBinary (machine : Machine N) (frame : Frame N) (node : NodeId) (op : BinaryOp) : Effect N :=
  if op.isLogical then
    machine.consume frame node fun machine value =>
      match value with
      | .boolean decided => machine.flow (.push (.boolean decided))
      | other => machine.mismatch .boolean other node
  else
    match frame.popMany? 2 with
    | some ([left, right], rest) =>
      (machine.setTop rest).yield (Operators.binary op left right) node
    | _ => machine.fail .expectedValue node

/-- Whether a node is a reference to the stream that triggered the evaluation. -/
def triggeredBy (machine : Machine N) (stream : NodeId) : Bool :=
  match machine.tree.form? stream with
  | some (.reference name) => machine.trigger == some name
  | _ => false

/-- Completes a node. -/
def finish (machine : Machine N) (frame : Frame N) (node : NodeId) : Effect N :=
  match machine.tree.form? node with
  | none => machine.fail .expectedValue node
  | some form =>
    match form with
    | .program _ | .conditional .. | .call .. =>
      if frame.values.isEmpty then machine.fail .expectedValue node else machine.flow .proceed
    | .block statements => machine.finishBlock frame node statements
    | .number literal measure =>
      match Quantity.ofText? (Naming.text literal) measure with
      | some number => machine.flow (.push (.number number))
      | none => machine.fail .notANumber node
    | .boolean value => machine.flow (.push (.boolean value))
    | .text value => machine.flow (.push (.text (Naming.text value)))
    | .none => machine.flow (.push .none)
    | .sequence items =>
      machine.collect frame items.length node fun values => .sequence values.toArray
    | .set items => machine.collect frame items.length node Value.setOf
    | .mapping entries =>
      machine.collect frame (entries.length * 2) node fun values =>
        Value.mappingOf (Value.entriesOf values)
    | .reference name =>
      match machine.store.lookup frame.scope name with
      | some value => machine.flow (.push value)
      | none => machine.fail (.unknownName name) node
    | .property _ name => machine.finishProperty frame node name
    | .binary op _ _ => machine.finishBinary frame node op
    | .unary op _ =>
      machine.consume frame node fun machine operand =>
        machine.yield (Operators.unary op operand) node
    | .function name .. | .record name _ => machine.define frame node name
    | .changed stream => machine.flow (.push (.boolean (machine.triggeredBy stream)))
    | .borrow source => machine.finishBorrow frame node source
    | .placeholder => machine.fail .placeholder node
    | .unparsable _ => machine.fail .unparsable node
    | .bind .. | .pair .. => (machine, .error (.uncompilable node))

end Machine

end Rivulet
