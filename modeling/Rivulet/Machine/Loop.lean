import Rivulet.Machine.Call
import Rivulet.Value.Collection

/-!
Loops over collections. A loop runs four steps in a frame of its own and calls the function it was
given in a frame above, once per element, so that every call can be watched. Its position and
result are bound in the scope of its frame under names that no program can spell; what `map` and
`filter` keep waits on the stack of the frame, entries as key then value.
-/

namespace Rivulet

namespace Machine

variable {N : Type} [DecidableEq N] [Naming N]

/-- A collection of the same kind as another with the items kept. -/
def collectLike (collection : Value N) (kept : List (Value N)) : Value N :=
  match collection with
  | .set _ => Value.setOf kept
  | .mapping _ => Value.mappingOf (Value.entriesOf kept)
  | _ => .sequence kept.toArray

/-- A binding of the loop, or none. -/
def loopLocal (machine : Machine N) (frame : Frame N) (name : N) : Value N :=
  (machine.store.local? frame.scope name).getD .none

/-- Changes a binding of the loop. -/
def setLoopLocal (machine : Machine N) (frame : Frame N) (name : N) (value : Value N) : Machine N :=
  { machine with store := machine.store.rebind frame.scope name value }

/-- The position of the loop; anything but a whole number counts as zero, and so does a negative
one. -/
def loopIndex (machine : Machine N) (frame : Frame N) : Nat :=
  match machine.loopLocal frame Natives.indexName with
  | .number number => number.toIndex?.getD 0
  | _ => 0

/-- Checks the inputs of a loop and sets its position and, for a fold, its first result. -/
def loopInit (machine : Machine N) (frame : Frame N) (op : HigherOrder) : Effect N :=
  let collection := machine.loopLocal frame Natives.collectionName
  if !collection.isCollection then machine.mismatch .sequence collection frame.origin
  else
    match machine.loopLocal frame Natives.functionName with
    | .function _ =>
      let machine := machine.setLoopLocal frame Natives.indexName (.number (.ofNat 0))
      let machine :=
        if op == .fold then
          machine.setLoopLocal frame Natives.resultName
            (machine.loopLocal frame Natives.initialName)
        else machine
      machine.flow .proceed
    | other => machine.mismatch .function other frame.origin

/-- The arguments for an element: the value, or the key and the value of an entry. -/
def elementArguments : Element N → List (Value N)
  | .single value => [value]
  | .entry key value => [key, value]

/-- Calls the function on the next element, or jumps to the end when there is none. -/
def loopNext (machine : Machine N) (frame : Frame N) (op : HigherOrder) : Effect N :=
  let collection := machine.loopLocal frame Natives.collectionName
  match collection.element? (machine.loopIndex frame) with
  | none => machine.jumpTop frame 1
  | some element =>
    match machine.loopLocal frame Natives.functionName with
    | .function function =>
      let result := if op == .fold then [machine.loopLocal frame Natives.resultName] else []
      machine.startCall function (result ++ elementArguments element) frame.origin
    | _ => machine.fail .expectedValue frame.origin

/-- What stays on the stack of a frame for an element, given what the function produced. -/
def keep (op : HigherOrder) (element : Element N) (produced : Value N) (frame : Frame N) :
    Except (Value N) (Frame N) :=
  match op, produced with
  | .map, _ =>
    match element with
    | .single _ => .ok (frame.push produced)
    | .entry key _ => .ok ((frame.push key).push produced)
  | .filter, .boolean true => .ok ((elementArguments element).foldl Frame.push frame)
  | .filter, .boolean false => .ok frame
  | .filter, other => .error other
  | .fold, _ => .ok frame

/-- Takes in what the function produced, moves the position and goes back. -/
def loopCollect (machine : Machine N) (frame : Frame N) (op : HigherOrder) : Effect N :=
  let index := machine.loopIndex frame
  let collection := machine.loopLocal frame Natives.collectionName
  match frame.pop?, collection.element? index with
  | some (produced, rest), some element =>
    match keep op element produced rest with
    | .error other => machine.mismatch .boolean other frame.origin
    | .ok kept =>
      let machine :=
        if op == .fold then machine.setLoopLocal frame Natives.resultName produced else machine
      let machine := machine.setLoopLocal frame Natives.indexName (.number (.ofNat (index + 1)))
      machine.jumpTop kept (-2)
  | _, _ => machine.fail .expectedValue frame.origin

/-- Yields the result of the loop. -/
def loopDone (machine : Machine N) (frame : Frame N) (op : HigherOrder) : Effect N :=
  if op == .fold then machine.flow (.push (machine.loopLocal frame Natives.resultName))
  else
    let collection := machine.loopLocal frame Natives.collectionName
    (machine.setTop { frame with values := [] }).flow
      (.push (collectLike collection frame.values.reverse))

/-- Runs one step of a loop. -/
def loopStep (machine : Machine N) (frame : Frame N) (op : HigherOrder) (phase : LoopPhase) : Effect N :=
  match phase with
  | .init => machine.loopInit frame op
  | .next => machine.loopNext frame op
  | .collect => machine.loopCollect frame op
  | .done => machine.loopDone frame op

end Machine

end Rivulet
