import Rivulet.Naming
import Rivulet.Ty
import Rivulet.Value

/-!
Streams. A stream is a named input from outside, such as the time or the latest key, with a bounded
history of values. Every value that a stream accepts is also a change that waits to be evaluated.
-/

namespace Rivulet

/-- What the analysis needs to know about a stream. -/
structure StreamSignature (N : Type := String) where
  name : N
  valueType : Ty
deriving DecidableEq, Repr, Inhabited

/-- A stream: its signature, the values it remembers with the oldest first, and whether it takes
new ones. -/
structure Stream (N : Type := String) where
  signature : StreamSignature N
  history : List (Value N)
  active : Bool
deriving Inhabited

/-- A value that a stream accepted and that waits to be evaluated. -/
structure StreamChange (N : Type := String) where
  stream : Nat
  name : N
  value : Value N
deriving Inhabited

/-! ### Numbers by name -/

namespace Streams

variable {N : Type} [DecidableEq N]

/-- The number of the last stream of a name in a list that starts at a number. -/
def lastOfName (name : N) : List (Stream N) → Nat → Option Nat
  | [], _ => none
  | stream :: rest, id =>
    match lastOfName name rest (id + 1) with
    | some later => some later
    | none => if stream.signature.name = name then some id else none

theorem lastOfName_concat (name : N) (streams : List (Stream N)) (stream : Stream N) (start : Nat) :
    lastOfName name (streams ++ [stream]) start =
      if stream.signature.name = name then some (start + streams.length)
      else lastOfName name streams start := by
  induction streams generalizing start with
  | nil => rfl
  | cons first rest hypothesis =>
    rw [List.cons_append, lastOfName, hypothesis, lastOfName, List.length_cons]
    by_cases last : stream.signature.name = name
    · simp only [last, if_true, Nat.add_assoc, Nat.add_comm 1]
    · simp only [last, if_false]

/-- Only the names of the streams decide. -/
theorem lastOfName_congr (name : N) {streams streams' : List (Stream N)}
    (same : streams.map (·.signature.name) = streams'.map (·.signature.name)) (start : Nat) :
    lastOfName name streams start = lastOfName name streams' start := by
  induction streams generalizing streams' start with
  | nil => rw [List.map_eq_nil_iff.mp same.symm]
  | cons first rest hypothesis =>
    obtain ⟨first', rest', rfl, named, others⟩ := List.map_eq_cons_iff.mp same.symm
    rw [lastOfName, lastOfName, hypothesis others.symm, named]

/-- Lets a name stand for a number from now on. -/
def insertName (name : N) (id : Nat) : List (N × Nat) → List (N × Nat)
  | [] => [(name, id)]
  | (other, old) :: rest =>
    if other = name then (name, id) :: rest else (other, old) :: insertName name id rest

theorem lookup_insertName (name other : N) (id : Nat) (table : List (N × Nat)) :
    (insertName name id table).lookup other =
      if name = other then some id else table.lookup other := by
  induction table with
  | nil =>
    by_cases same : name = other
    · simp [insertName, same]
    · have apart : (other == name) = false := beq_eq_false_iff_ne.mpr (Ne.symm same)
      simp [insertName, List.lookup_cons, apart, same]
  | cons entry rest hypothesis =>
    obtain ⟨first, old⟩ := entry
    rw [insertName]
    split
    · rename_i found
      subst found
      by_cases same : first = other
      · simp [same]
      · have apart : (other == first) = false := beq_eq_false_iff_ne.mpr (Ne.symm same)
        simp [List.lookup_cons, apart, same]
    · rename_i apart
      rw [List.lookup_cons, List.lookup_cons, hypothesis]
      by_cases found : other = first
      · subst found
        simp [Ne.symm apart]
      · simp [beq_eq_false_iff_ne.mpr found]

end Streams

/-- All streams by number, the number that each name stands for, how many values each stream
remembers, and the changes that wait. -/
structure Streams (N : Type := String) [DecidableEq N] where
  streams : List (Stream N)
  numbers : List (N × Nat)
  capacity : Nat
  pending : List (StreamChange N)
  named : ∀ name, numbers.lookup name = Streams.lastOfName name streams 0

namespace Streams

variable {N : Type} [DecidableEq N]

/-! ### Making streams -/

/-- How many values a stream remembers unless told otherwise. -/
def defaultCapacity : Nat := 256

/-- A registry without streams; a stream remembers at least one value. -/
def withCapacity (capacity : Nat) : Streams N where
  streams := []
  numbers := []
  capacity := max capacity 1
  pending := []
  named _ := rfl

/-- A registry without streams and with the usual capacity. -/
def empty : Streams N :=
  withCapacity defaultCapacity

instance : Inhabited (Streams N) := ⟨empty⟩

/-- Adds an active stream with a first value. A name stands for the stream defined last. -/
def define (registry : Streams N) (name : N) (valueType : Ty) (initial : Value N) :
    Nat × Streams N :=
  (registry.streams.length,
    { registry with
      streams := registry.streams ++ [⟨⟨name, valueType⟩, [initial], true⟩]
      numbers := insertName name registry.streams.length registry.numbers
      named other := by
        rw [lookup_insertName, lastOfName_concat, registry.named, Nat.zero_add] })

/-- The measure that time is counted in. -/
def milliseconds : Measure := Measure.dimension "ms"

/-- The streams every program can use: the time, the latest choice and the latest key. -/
def standard [Naming N] : Streams N :=
  let (_, registry) := empty.define (Naming.ofText "time") (.number milliseconds) (.number (.ofInt 0 milliseconds))
  let (_, registry) := registry.define (Naming.ofText "choice") .text (.text "")
  let (_, registry) := registry.define (Naming.ofText "key") .text (.text "")
  registry

/-- The names of the standard streams in order. -/
def texts : List String :=
  (standard : Streams).streams.map (·.signature.name)

/-- The number of the stream that a name stands for. -/
def find? (registry : Streams N) (name : N) : Option Nat :=
  registry.numbers.lookup name

/-- A name stands for the last stream that was defined under it. -/
theorem find?_eq_lastOfName (registry : Streams N) (name : N) :
    registry.find? name = lastOfName name registry.streams 0 :=
  registry.named name

/-- The name of a stream. -/
def name? (registry : Streams N) (id : Nat) : Option N :=
  registry.streams[id]?.map (·.signature.name)

/-- The last values of a list, as many as may be remembered. -/
def recent (capacity : Nat) (values : List (Value N)) : List (Value N) :=
  values.drop (values.length - capacity)

/-- Changes all streams, but not their names. -/
def map (registry : Streams N) (change : Stream N → Stream N)
    (same : ∀ stream, (change stream).signature.name = stream.signature.name) : Streams N :=
  { registry with
    streams := registry.streams.map change
    named name := by
      rw [registry.named]
      exact lastOfName_congr name (by simp [same]) 0 }

/-- Changes the stream of a number, but not its name. -/
def modify (registry : Streams N) (id : Nat) (change : Stream N → Stream N)
    (same : ∀ stream, (change stream).signature.name = stream.signature.name) : Streams N :=
  { registry with
    streams := registry.streams.modify id change
    named name := by
      rw [registry.named]
      refine lastOfName_congr name (List.ext_getElem? fun other => ?_) 0
      rw [List.getElem?_map, List.getElem?_map, List.getElem?_modify]
      by_cases here : id = other <;> cases registry.streams[other]? <;> simp [here, same] }

/-- Gives a stream a new value and schedules a change. A stream that is not active or does not
exist drops the value; the answer tells whether it was kept. -/
def record (registry : Streams N) (id : Nat) (value : Value N) : Bool × Streams N :=
  match registry.streams[id]? with
  | none => (false, registry)
  | some stream =>
    if !stream.active then (false, registry)
    else
      let history := recent registry.capacity (stream.history ++ [value])
      (true,
        { registry.modify id (fun stream => { stream with history }) fun _ => rfl with
          pending := registry.pending ++ [⟨id, stream.signature.name, value⟩] })

/-- Makes a stream take new values or drop them; its history stays. -/
def setActive (registry : Streams N) (id : Nat) (active : Bool) : Streams N :=
  registry.modify id (fun stream => { stream with active }) fun _ => rfl

/-- Makes all streams take new values or drop them. -/
def setAllActive (registry : Streams N) (active : Bool) : Streams N :=
  registry.map (fun stream => { stream with active }) fun _ => rfl

/-- Whether a stream takes new values. -/
def isActive (registry : Streams N) (id : Nat) : Bool :=
  registry.streams[id]?.any Stream.active

/-- The values that a stream remembers, oldest first. -/
def history (registry : Streams N) (id : Nat) : List (Value N) :=
  (registry.streams[id]?.map Stream.history).getD []

/-- The latest value of a stream. -/
def latest? (registry : Streams N) (id : Nat) : Option (Value N) :=
  (registry.history id).getLast?

/-- The numbers of the streams that names stand for, in order. -/
def current (registry : Streams N) : List Nat :=
  (List.range registry.streams.length).filter fun id =>
    match registry.name? id with
    | some name => registry.find? name == some id
    | none => false

/-- Every name with the latest value of the stream it stands for. -/
def bindings (registry : Streams N) : List (N × Value N) :=
  registry.current.filterMap fun id => do
    let name ← registry.name? id
    let value ← registry.latest? id
    some (name, value)

/-- The signatures of the streams that names stand for, in order of definition. -/
def signatures (registry : Streams N) : List (StreamSignature N) :=
  registry.current.filterMap fun id => registry.streams[id]?.map Stream.signature

/-- The changes that wait, oldest first, and the registry without them. -/
def takePending (registry : Streams N) : List (StreamChange N) × Streams N :=
  (registry.pending, { registry with pending := [] })

/-- Whether a change waits. -/
def hasPending (registry : Streams N) : Bool :=
  !registry.pending.isEmpty

/-- How many streams were defined. -/
def size (registry : Streams N) : Nat :=
  registry.streams.length

end Streams

end Rivulet
