import Rivulet.Machine.Frame

/-!
Call stacks: the active frames together with their number, so that the depth of calls is known at
once however many frames there are.
-/

namespace Rivulet

/-- The active frames, the topmost first. -/
structure CallStack (N : Type := String) where
  frames : List (Frame N)
  depth : Nat
  depth_eq : depth = frames.length

namespace CallStack

variable {N : Type}

/-- A stack without frames. -/
def empty : CallStack N := ⟨[], 0, rfl⟩

instance : Inhabited (CallStack N) := ⟨empty⟩

/-- The stack with a frame on top of it. -/
def push (stack : CallStack N) (frame : Frame N) : CallStack N :=
  ⟨frame :: stack.frames, stack.depth + 1, congrArg (· + 1) stack.depth_eq⟩

/-- The stack without its topmost frame. -/
def pop : CallStack N → CallStack N
  | ⟨[], depth, same⟩ => ⟨[], depth, same⟩
  | ⟨_ :: rest, depth, same⟩ => ⟨rest, depth - 1, congrArg (· - 1) same⟩

/-- The stack with its topmost frame replaced. -/
def setTop (stack : CallStack N) (frame : Frame N) : CallStack N :=
  stack.pop.push frame

@[simp]
theorem frames_push (stack : CallStack N) (frame : Frame N) :
    (stack.push frame).frames = frame :: stack.frames :=
  rfl

@[simp]
theorem frames_pop (stack : CallStack N) : stack.pop.frames = stack.frames.tail := by
  obtain ⟨_ | _, _, _⟩ := stack <;> rfl

@[simp]
theorem frames_setTop (stack : CallStack N) (frame : Frame N) :
    (stack.setTop frame).frames = frame :: stack.frames.tail := by
  simp [setTop]

/-- Hands a value to some frames: a frame with steps left takes it, a frame without any is dropped
and passes it on. A value that no frame takes is left over. -/
def deliverTo (value : Value N) :
    (frames : List (Frame N)) → (depth : Nat) → depth = frames.length → CallStack N × Option (Value N)
  | [], depth, same => (⟨[], depth, same⟩, some value)
  | caller :: rest, depth, same =>
    if caller.isExhausted then deliverTo value rest (depth - 1) (congrArg (· - 1) same)
    else (⟨caller.push value :: rest, depth, same⟩, none)

/-- Hands a value down a stack. -/
def deliver (stack : CallStack N) (value : Value N) : CallStack N × Option (Value N) :=
  deliverTo value stack.frames stack.depth stack.depth_eq

end CallStack

end Rivulet
