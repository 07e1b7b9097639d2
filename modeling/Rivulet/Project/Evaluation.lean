import Rivulet.Project

/-!
The values of the sources of a project. A source is evaluated after the sources it borrows, and
each source at most once per evaluation. Sources that borrow each other in a cycle have no value.
-/

namespace Rivulet

/-- What an evaluation of a project is given: the limits of each source, the latest values of the
streams, and the stream that caused it. -/
structure Occasion (N : Type := String) where
  limits : Limits
  streams : List (N × Value N)
  trigger : Option N
deriving Inhabited

/-- An evaluation with the first values of the standard streams, caused by the stream of a number or
by none. -/
def Occasion.initial {N : Type} [DecidableEq N] [Naming N] (limits : Limits) (trigger : Option Nat) : Occasion N :=
  ⟨limits, (Streams.standard : Streams N).bindings, trigger.bind (Streams.standard : Streams N).name?⟩

/-- The values found so far by place of the source, and the scopes that closures among them
captured. -/
structure Values (N : Type := String) where
  values : List (Option (Value N))
  store : Store N
deriving Inhabited

namespace Project

variable {N : Type} [DecidableEq N] [Naming N]

/-- Evaluates a source alone, given the values of the sources it borrows. -/
def evaluateAlone (project : Project N) (occasion : Occasion N) (source : Source N)
    (borrowed : List (N × Value N)) (store : Store N) : Except ProjectError (Value N × Store N) :=
  let machine := Machine.create (.ofTree source.tree) project.natives occasion.limits store
  match machine.evaluate ⟨occasion.streams, borrowed, occasion.trigger⟩ with
  | (_, .error fault) => .error (.fault fault)
  | (_, .ok .suspended) => .error (.suspended source.name)
  | (machine, .ok (.finished value)) => .ok (value, machine.store)

/-- Finds the values of borrowed sources in order; a name without a source is left out and surfaces
at the borrow. -/
def borrowedWith (project : Project N)
    (valueOf : Nat → Values N → Except ProjectError (Value N × Values N)) :
    List N → Values N → Except ProjectError (List (N × Value N) × Values N)
  | [], values => .ok ([], values)
  | name :: names, values =>
    match project.indexOf? (Naming.text name) with
    | none => borrowedWith project valueOf names values
    | some index => do
      let (value, values) ← valueOf index values
      let (borrowed, values) ← borrowedWith project valueOf names values
      .ok ((name, value) :: borrowed, values)

/-- Finds the value of the source at a place while others are being visited, following borrows down
to a depth. -/
def valueTo (project : Project N) (occasion : Occasion N) :
    Nat → List Nat → Nat → Values N → Except ProjectError (Value N × Values N)
  | 0, _, _, _ => .error .empty
  | depth + 1, visiting, index, values =>
    match values.values[index]?.join, project.sources[index]? with
    | some value, _ => .ok (value, values)
    | none, none => .error .empty
    | none, some source =>
      if visiting.contains index then .error (.borrowCycle source.name)
      else do
        let (borrowed, values) ←
          project.borrowedWith (project.valueTo occasion depth (index :: visiting)) source.borrows
            values
        let (value, store) ← project.evaluateAlone occasion source borrowed values.store
        .ok (value, ⟨values.values.set index (some value), store⟩)

/-- Evaluates a source after the sources it borrows. -/
def evaluateSource (project : Project N) (name : String) (occasion : Occasion N) :
    Except ProjectError (Value N) := do
  let index ← project.indexOf name
  let unknown : Values N := ⟨project.sources.map fun _ => none, .empty⟩
  let (value, _) ← project.valueTo occasion (project.sources.length + 1) [] index unknown
  .ok value

/-- Evaluates the main source. -/
def evaluate (project : Project N) (occasion : Occasion N) : Except ProjectError (Value N) :=
  project.evaluateSource project.main.name occasion

end Project

end Rivulet
