import Mathlib.Data.List.DropRight
import Rivulet.Streams

/-!
# What a registry of streams owes to its calls

The calls on a registry are its whole past. The definitions below read from the past alone which
streams are defined, which of them take values and which values were accepted; nothing in them looks
at a registry. A registry that was created empty and then received the calls agrees with them in all
it shows: the histories, the changes that wait, the bindings and the signatures.

A past is a list of calls with the latest call first, so that what a call does is read from the past
behind it.
-/

namespace Rivulet

namespace Streams

/-- A call that changes a registry. -/
inductive Call where
  | define (name : String) (valueType : Ty) (initial : Value)
  | record (id : Nat) (value : Value)
  | start (id : Nat)
  | stop (id : Nat)
  | startAll
  | stopAll
  | takePending

/-- The registry after a call, behind the changes that the call hands out. -/
def perform (registry : Streams) : Call → List StreamChange × Streams
  | .define name valueType initial => ([], (registry.define name valueType initial).2)
  | .record id value => ([], (registry.record id value).2)
  | .start id => ([], registry.setActive id true)
  | .stop id => ([], registry.setActive id false)
  | .startAll => ([], registry.setAllActive true)
  | .stopAll => ([], registry.setAllActive false)
  | .takePending => registry.takePending

/-- The registry after some calls, behind all changes that they hand out. -/
def run (registry : Streams) : List Call → List StreamChange × Streams
  | [] => ([], registry)
  | call :: rest =>
    let (taken, next) := registry.perform call
    let (later, last) := next.run rest
    (taken ++ later, last)

/-! ## What the past says -/

/-- A stream as a call defined it. -/
structure Definition where
  signature : StreamSignature
  initial : Value

/-- The streams that a past defines; the place of a definition is the number of its stream. -/
def definitions : List Call → List Definition
  | [] => []
  | .define name valueType initial :: past => definitions past ++ [⟨⟨name, valueType⟩, initial⟩]
  | _ :: past => definitions past

/-- Whether a stream takes new values: the latest call that concerns it decides, and a stream
starts out taking them. -/
def takes (id : Nat) : List Call → Bool
  | [] => true
  | .define _ _ _ :: past => (definitions past).length == id || takes id past
  | .start started :: past => started == id || takes id past
  | .stop stopped :: past => stopped != id && takes id past
  | .startAll :: _ => true
  | .stopAll :: _ => false
  | .record _ _ :: past => takes id past
  | .takePending :: past => takes id past

/-- The change that a call makes after a past: a value recorded on a stream that is defined and
takes values. -/
def change? (past : List Call) : Call → Option StreamChange
  | .record id value =>
    (definitions past)[id]?.bind fun definition =>
      if takes id past then some ⟨id, definition.signature.name, value⟩ else none
  | _ => none

/-- All changes that a past made, in the order of recording. -/
def accepted : List Call → List StreamChange
  | [] => []
  | call :: past => accepted past ++ (change? past call).toList

/-- The values that a past recorded on a stream while it took them. -/
def recorded (id : Nat) (past : List Call) : List Value :=
  ((accepted past).filter (·.stream == id)).map StreamChange.value

/-- The names of the streams that a past defines, by number. -/
def names (past : List Call) : List String :=
  (definitions past).map (·.signature.name)

/-- A place of a list is the last place of a name. -/
def IsLast (names : List String) (name : String) (place : Nat) : Prop :=
  names[place]? = some name ∧ ∀ later, place < later → names[later]? ≠ some name

/-- What a registry shows is what its past says. -/
structure Shows (capacity : Nat) (past : List Call) (taken : List StreamChange)
    (registry : Streams) : Prop where
  /-- A new stream gets the place of its definition as its number. -/
  numbers : ∀ name valueType initial,
    (registry.define name valueType initial).1 = (definitions past).length
  /-- A stream remembers the last of its first value and all values recorded on it. -/
  remembers : ∀ id definition, (definitions past)[id]? = some definition →
    registry.history id = (definition.initial :: recorded id past).rtake
      (min (max capacity 1) (1 + (recorded id past).length))
  /-- The latest value of a stream is the last of them. -/
  latest : ∀ id definition, (definitions past)[id]? = some definition →
    registry.latest? id =
      some ((definition.initial :: recorded id past).getLast (List.cons_ne_nil _ _))
  /-- What was handed out and what still waits are the accepted values, in order. -/
  waits : taken ++ registry.pending = accepted past
  /-- A call that records a value tells whether it is accepted. -/
  answers : ∀ id value,
    (registry.record id value).1 = (change? past (.record id value)).isSome
  /-- A name is bound to the latest value of the stream defined last under it. -/
  binds : ∀ name value, (name, value) ∈ registry.bindings ↔
    ∃ id, IsLast (names past) name id ∧ registry.latest? id = some value
  /-- A signature is the one of the stream defined last under its name. -/
  signs : ∀ signature, signature ∈ registry.signatures ↔
    ∃ id, IsLast (names past) signature.name id ∧
      (definitions past)[id]?.map Definition.signature = some signature
  /-- The bound names are the defined ones, each bound once. -/
  bound : (registry.bindings.map Prod.fst).Nodup ∧
    ∀ name, name ∈ registry.bindings.map Prod.fst ↔ name ∈ names past
  /-- The names with a signature are the defined ones, each with one signature. -/
  signed : (registry.signatures.map StreamSignature.name).Nodup ∧
    ∀ name, name ∈ registry.signatures.map StreamSignature.name ↔ name ∈ names past

/-! ## The past in the registry -/

/-- The stream that a registry holds for a definition after a past. -/
def streamAfter (capacity : Nat) (past : List Call) (id : Nat) (definition : Definition) : Stream :=
  ⟨definition.signature, (definition.initial :: recorded id past).rtake (max capacity 1),
    takes id past⟩

/-- A registry is the one that its past makes: this is kept by every call. -/
structure Mirrors (capacity : Nat) (past : List Call) (taken : List StreamChange)
    (registry : Streams) : Prop where
  capacity_eq : registry.capacity = max capacity 1
  streams_eq : registry.streams = (definitions past).mapIdx (streamAfter capacity past)
  waits : taken ++ registry.pending = accepted past

variable {capacity id : Nat} {past : List Call} {call : Call} {taken : List StreamChange}
  {registry : Streams}

theorem Mirrors.stream? (mirrors : Mirrors capacity past taken registry) (id : Nat) :
    registry.streams[id]? = (definitions past)[id]?.map (streamAfter capacity past id) := by
  rw [mirrors.streams_eq, List.getElem?_mapIdx]

theorem Mirrors.length_eq (mirrors : Mirrors capacity past taken registry) :
    registry.streams.length = (definitions past).length := by
  rw [mirrors.streams_eq, List.length_mapIdx]

/-- A change is made on a stream that is defined. -/
theorem lt_of_change? {change : StreamChange} (made : change? past call = some change) :
    change.stream < (definitions past).length := by
  cases call with
  | record id value =>
    simp only [change?, Option.bind_eq_some_iff, Option.ite_none_right_eq_some,
      Option.some.injEq] at made
    obtain ⟨definition, present, -, rfl⟩ := made
    exact (List.getElem?_eq_some_iff.mp present).1
  | _ => simp [change?] at made

theorem length_definitions_le : (definitions past).length ≤ (definitions (call :: past)).length := by
  cases call <;> simp [definitions]

theorem lt_of_mem_accepted {change : StreamChange} (made : change ∈ accepted past) :
    change.stream < (definitions past).length := by
  induction past with
  | nil => simp [accepted] at made
  | cons call past hypothesis =>
    refine lt_of_lt_of_le ?_ length_definitions_le
    rcases List.mem_append.mp made with earlier | now
    · exact hypothesis earlier
    · exact lt_of_change? (Option.mem_toList.mp now)

/-- A stream that is not yet defined has no values. -/
theorem recorded_eq_nil (undefined : (definitions past).length ≤ id) : recorded id past = [] := by
  have none_made : (accepted past).filter (·.stream == id) = [] := by
    refine List.filter_eq_nil_iff.mpr fun change made => ?_
    have bounded := lt_of_mem_accepted made
    simp only [beq_iff_eq]
    omega
  rw [recorded, none_made, List.map_nil]

theorem recorded_cons :
    recorded id (call :: past) = recorded id past ++
      (((change? past call).toList.filter (·.stream == id)).map StreamChange.value) := by
  simp [recorded, accepted]

/-- A call that makes no change to a stream and leaves its activity leaves the stream. -/
theorem streamAfter_cons (quiet : ∀ change, change? past call = some change → change.stream ≠ id)
    (stays : takes id (call :: past) = takes id past) :
    streamAfter capacity (call :: past) id = streamAfter capacity past id := by
  have none_made : (change? past call).toList.filter (·.stream == id) = [] := by
    refine List.filter_eq_nil_iff.mpr fun change made => ?_
    simpa using quiet change (Option.mem_toList.mp made)
  funext definition
  rw [streamAfter, streamAfter, recorded_cons, none_made, List.map_nil, List.append_nil, stays]

/-- Of the values that may be remembered, a new one displaces the oldest. -/
theorem rtake_concat {Element : Type} (elements : List Element) (element : Element) {count : Nat}
    (positive : 1 ≤ count) :
    (elements.rtake count ++ [element]).rtake count = (elements ++ [element]).rtake count := by
  obtain ⟨count, rfl⟩ := Nat.exists_eq_add_of_le' positive
  rw [List.rtake_concat_succ, List.rtake_concat_succ]
  congr 1
  simp [List.rtake_eq_reverse_take_reverse, List.take_take]

/-! ## What a call preserves -/

/-- A call that makes no change and defines nothing leaves everything but the activity. -/
theorem mirrors_of_quiet (mirrors : Mirrors capacity past taken registry)
    (active : Nat → Bool) (quiet : change? past call = none)
    (same : definitions (call :: past) = definitions past)
    (switched : ∀ id, takes id (call :: past) = active id) {next : Streams}
    (capacity_eq : next.capacity = registry.capacity) (pending_eq : next.pending = registry.pending)
    (streams_eq : next.streams =
      registry.streams.mapIdx fun id stream => { stream with active := active id }) :
    Mirrors capacity (call :: past) taken next where
  capacity_eq := capacity_eq.trans mirrors.capacity_eq
  streams_eq := by
    refine List.ext_getElem? fun id => ?_
    rw [streams_eq, List.getElem?_mapIdx, mirrors.stream?, List.getElem?_mapIdx, same,
      Option.map_map]
    congr 1
    funext definition
    simp [streamAfter, recorded_cons, quiet, switched]
  waits := by simp [pending_eq, mirrors.waits, accepted, quiet]

theorem Mirrors.define (mirrors : Mirrors capacity past taken registry) (name : String)
    (valueType : Ty) (initial : Value) :
    Mirrors capacity (.define name valueType initial :: past) taken
      (registry.define name valueType initial).2 where
  capacity_eq := mirrors.capacity_eq
  streams_eq := by
    refine List.ext_getElem? fun id => ?_
    rw [List.getElem?_mapIdx]
    rcases Nat.lt_trichotomy id (definitions past).length with old | new | beyond
    · have stays : takes id (.define name valueType initial :: past) = takes id past := by
        simp [takes, Nat.ne_of_gt old]
      rw [Streams.define, List.getElem?_append_left (mirrors.length_eq ▸ old), mirrors.stream?,
        definitions, List.getElem?_append_left old, streamAfter_cons (by simp [change?]) stays]
    · subst new
      rw [Streams.define, ← mirrors.length_eq, List.getElem?_concat_length, mirrors.length_eq,
        definitions, List.getElem?_concat_length]
      have first : ([initial] : List Value).rtake (max capacity 1) = [initial] := by
        rw [List.rtake, List.length_singleton, Nat.sub_eq_zero_of_le (Nat.le_max_right capacity 1),
          List.drop_zero]
      simp [streamAfter, recorded_cons, change?, recorded_eq_nil, takes, first]
    · rw [Streams.define, List.getElem?_eq_none, List.getElem?_eq_none, Option.map_none]
      · rw [definitions, List.length_append]
        exact beyond
      · rw [List.length_append, mirrors.length_eq]
        exact beyond
  waits := by simp [Streams.define, mirrors.waits, accepted, change?]

/-- What a record does is told by the change that it makes. -/
theorem Mirrors.record_eq (mirrors : Mirrors capacity past taken registry) (id : Nat)
    (value : Value) :
    (change? past (.record id value) = none ∧ registry.record id value = (false, registry)) ∨
    ∃ definition, (definitions past)[id]? = some definition ∧ takes id past = true ∧
      change? past (.record id value) = some ⟨id, definition.signature.name, value⟩ ∧
      (registry.record id value).1 = true ∧
      (registry.record id value).2.capacity = registry.capacity ∧
      (registry.record id value).2.streams = registry.streams.set id
        { streamAfter capacity past id definition with
          history := recent registry.capacity
            ((streamAfter capacity past id definition).history ++ [value]) } ∧
      (registry.record id value).2.pending =
        registry.pending ++ [⟨id, definition.signature.name, value⟩] := by
  have found := mirrors.stream? id
  cases present : (definitions past)[id]? with
  | none =>
    left
    rw [present, Option.map_none] at found
    exact ⟨by simp [change?, present], by simp [record, found]⟩
  | some definition =>
    rw [present, Option.map_some] at found
    cases taking : takes id past with
    | false =>
      left
      exact ⟨by simp [change?, present, taking], by simp [record, found, streamAfter, taking]⟩
    | true =>
      right
      have changed (change : Stream → Stream) : registry.streams.modify id change =
          registry.streams.set id (change (streamAfter capacity past id definition)) := by
        rw [List.modify_eq_set_getElem?, found]
        rfl
      refine ⟨definition, rfl, rfl, by simp [change?, present, taking], ?_⟩
      simp [record, found, streamAfter, taking, modify, changed]

theorem Mirrors.record (mirrors : Mirrors capacity past taken registry) (id : Nat) (value : Value) :
    Mirrors capacity (.record id value :: past) taken (registry.record id value).2 := by
  rcases mirrors.record_eq id value with
    ⟨quiet, unchanged⟩ | ⟨definition, present, -, made, -, capacity_eq, streams_eq, pending_eq⟩
  · rw [unchanged]
    refine mirrors_of_quiet mirrors (fun id => takes id past) quiet rfl (fun _ => rfl) rfl rfl ?_
    refine List.ext_getElem? fun id => ?_
    rw [List.getElem?_mapIdx, mirrors.stream?, Option.map_map]
    rfl
  · refine ⟨capacity_eq.trans mirrors.capacity_eq, ?_, ?_⟩
    · rw [streams_eq]
      refine List.ext_getElem? fun other => ?_
      rw [List.getElem?_mapIdx]
      change _ = ((definitions past)[other]?).map _
      have bounded : id < registry.streams.length :=
        mirrors.length_eq ▸ (List.getElem?_eq_some_iff.mp present).1
      by_cases same : id = other
      · subst same
        rw [List.getElem?_set_self bounded, present]
        have kept := rtake_concat (definition.initial :: recorded id past) value
          (Nat.le_max_right capacity 1)
        simpa [streamAfter, recorded_cons, made, recent, List.rtake, mirrors.capacity_eq,
          takes] using kept
      · rw [List.getElem?_set_ne same, mirrors.stream?, streamAfter_cons ?_ rfl]
        intro change now
        rw [made, Option.some.injEq] at now
        exact now ▸ same
    · rw [pending_eq]
      simp [accepted, made, ← mirrors.waits]

/-- Starting and stopping change who takes values, and nothing else. -/
theorem Mirrors.setActive (mirrors : Mirrors capacity past taken registry) (id : Nat)
    (active : Bool) (quiet : change? past call = none)
    (same : definitions (call :: past) = definitions past)
    (switched : ∀ other,
      takes other (call :: past) = if id = other then active else takes other past) :
    Mirrors capacity (call :: past) taken (registry.setActive id active) := by
  refine mirrors_of_quiet mirrors _ quiet same switched rfl rfl ?_
  refine List.ext_getElem? fun other => ?_
  rw [Streams.setActive, Streams.modify, List.getElem?_modify, List.getElem?_mapIdx, mirrors.stream?]
  cases (definitions past)[other]? with
  | none => rfl
  | some definition =>
    by_cases this : id = other
    · simp [this]
    · simp [this, streamAfter]

theorem Mirrors.setAllActive (mirrors : Mirrors capacity past taken registry) (active : Bool)
    (quiet : change? past call = none) (same : definitions (call :: past) = definitions past)
    (switched : ∀ other, takes other (call :: past) = active) :
    Mirrors capacity (call :: past) taken (registry.setAllActive active) := by
  refine mirrors_of_quiet mirrors _ quiet same switched rfl rfl ?_
  refine List.ext_getElem? fun other => ?_
  rw [Streams.setAllActive, Streams.map, List.getElem?_map, List.getElem?_mapIdx]

theorem Mirrors.takePending (mirrors : Mirrors capacity past taken registry) :
    Mirrors capacity (.takePending :: past) (taken ++ registry.takePending.1)
      registry.takePending.2 where
  capacity_eq := mirrors.capacity_eq
  streams_eq := by
    refine mirrors.streams_eq.trans ?_
    congr 1
    funext id definition
    simp [streamAfter, recorded_cons, change?, takes]
  waits := by simp [Streams.takePending, mirrors.waits, accepted, change?]

/-- Every call leaves a registry that its past makes. -/
theorem Mirrors.perform (mirrors : Mirrors capacity past taken registry) (call : Call) :
    Mirrors capacity (call :: past) (taken ++ (registry.perform call).1)
      (registry.perform call).2 := by
  cases call with
  | define name valueType initial =>
    simpa [Streams.perform] using mirrors.define name valueType initial
  | record id value => simpa [Streams.perform] using mirrors.record id value
  | start id =>
    have started : Mirrors capacity (.start id :: past) taken (registry.setActive id true) :=
      mirrors.setActive id true rfl rfl fun other => by
        by_cases same : id = other <;> simp [takes, same]
    simpa [Streams.perform] using started
  | stop id =>
    have stopped : Mirrors capacity (.stop id :: past) taken (registry.setActive id false) :=
      mirrors.setActive id false rfl rfl fun other => by
        by_cases same : id = other <;> simp [takes, same]
    simpa [Streams.perform] using stopped
  | startAll =>
    have started : Mirrors capacity (.startAll :: past) taken (registry.setAllActive true) :=
      mirrors.setAllActive true rfl rfl fun _ => rfl
    simpa [Streams.perform] using started
  | stopAll =>
    have stopped : Mirrors capacity (.stopAll :: past) taken (registry.setAllActive false) :=
      mirrors.setAllActive false rfl rfl fun _ => rfl
    simpa [Streams.perform] using stopped
  | takePending => exact mirrors.takePending

theorem mirrors_withCapacity (capacity : Nat) : Mirrors capacity [] [] (withCapacity capacity) :=
  ⟨rfl, rfl, rfl⟩

/-- Many calls leave a registry that their past makes. -/
theorem Mirrors.run (mirrors : Mirrors capacity past taken registry) (calls : List Call) :
    Mirrors capacity (calls.reverse ++ past) (taken ++ (registry.run calls).1)
      (registry.run calls).2 := by
  induction calls generalizing past taken registry with
  | nil => simpa [Streams.run] using mirrors
  | cons call rest hypothesis =>
    have later := hypothesis (mirrors.perform call)
    simpa [Streams.run] using later

/-! ## Names -/

theorem IsLast.unique {names : List String} {name : String} {place other : Nat}
    (last : IsLast names name place) (last_other : IsLast names name other) : place = other := by
  rcases Nat.lt_trichotomy place other with before | same | after
  · exact absurd last_other.1 (last.2 other before)
  · exact same
  · exact absurd last.1 (last_other.2 place after)

/-- In a longer list the last place of a name moves along, and the new name has one only if the
name stands nowhere else. -/
theorem isLast_cons {first name : String} {rest : List String} {place : Nat} :
    IsLast (first :: rest) name place ↔
      (∃ before, place = before + 1 ∧ IsLast rest name before) ∨
        (place = 0 ∧ first = name ∧ name ∉ rest) := by
  constructor
  · rintro ⟨named, final⟩
    cases place with
    | zero =>
      refine Or.inr ⟨rfl, by simpa using named, fun present => ?_⟩
      obtain ⟨later, found⟩ := List.mem_iff_getElem?.mp present
      exact final (later + 1) (by omega) (by simpa using found)
    | succ before =>
      refine Or.inl ⟨before, rfl, by simpa using named, fun later after found => ?_⟩
      exact final (later + 1) (by omega) (by simpa using found)
  · rintro (⟨before, rfl, named, final⟩ | ⟨rfl, rfl, absent⟩)
    · refine ⟨by simpa using named, fun later after => ?_⟩
      obtain ⟨later, rfl⟩ := Nat.exists_eq_succ_of_ne_zero (Nat.ne_zero_of_lt after)
      simpa using final later (by omega)
    · refine ⟨rfl, fun later after found => ?_⟩
      obtain ⟨later, rfl⟩ := Nat.exists_eq_add_of_lt after
      exact absent (List.mem_iff_getElem?.mpr ⟨_, by simpa using found⟩)

theorem exists_isLast {names : List String} {name : String} :
    (∃ place, IsLast names name place) ↔ name ∈ names := by
  induction names with
  | nil => simp [IsLast]
  | cons first rest hypothesis =>
    simp only [isLast_cons]
    by_cases later : name ∈ rest
    · obtain ⟨before, last⟩ := hypothesis.mpr later
      simp only [List.mem_cons, later, or_true, iff_true]
      exact ⟨before + 1, Or.inl ⟨before, rfl, last⟩⟩
    · have none_later : ∀ before, ¬IsLast rest name before :=
        fun before last => later (hypothesis.mp ⟨before, last⟩)
      simp [later, none_later, eq_comm]

/-- The number found for a name is that of the last stream of this name. -/
theorem lastOfName_eq_some_iff {name : String} {streams : List Stream} {start : Nat} :
    lastOfName name streams start = some id ↔
      ∃ place, id = start + place ∧ IsLast (streams.map (·.signature.name)) name place := by
  induction streams generalizing start id with
  | nil => simp [lastOfName, IsLast]
  | cons stream rest hypothesis =>
    cases found : lastOfName name rest (start + 1) with
    | some last =>
      obtain ⟨before, rfl, last⟩ := hypothesis.mp found
      have moved : IsLast ((stream :: rest).map (·.signature.name)) name (before + 1) :=
        isLast_cons.mpr (Or.inl ⟨before, rfl, last⟩)
      rw [lastOfName, found, Option.some.injEq]
      constructor
      · rintro rfl
        exact ⟨before + 1, by omega, moved⟩
      · rintro ⟨place, rfl, other⟩
        have same := moved.unique other
        omega
    | none =>
      have none_later : name ∉ rest.map (·.signature.name) := by
        intro present
        obtain ⟨before, last⟩ := exists_isLast.mpr present
        have some_later : lastOfName name rest (start + 1) = some (start + 1 + before) :=
          hypothesis.mpr ⟨before, rfl, last⟩
        rw [found] at some_later
        cases some_later
      rw [lastOfName, found]
      simp only [Option.ite_none_right_eq_some, Option.some.injEq, List.map_cons, isLast_cons]
      constructor
      · rintro ⟨named, rfl⟩
        exact ⟨0, rfl, Or.inr ⟨rfl, named, none_later⟩⟩
      · rintro ⟨place, rfl, ⟨before, -, last⟩ | ⟨rfl, named, -⟩⟩
        · exact absurd (exists_isLast.mp ⟨before, last⟩) none_later
        · exact ⟨named, rfl⟩

theorem Mirrors.names_eq (mirrors : Mirrors capacity past taken registry) :
    registry.streams.map (·.signature.name) = names past := by
  refine List.ext_getElem? fun id => ?_
  rw [List.getElem?_map, mirrors.stream?, names, List.getElem?_map, Option.map_map]
  rfl

theorem Mirrors.find?_eq_some_iff (mirrors : Mirrors capacity past taken registry) {name : String} :
    registry.find? name = some id ↔ IsLast (names past) name id := by
  rw [find?_eq_lastOfName, lastOfName_eq_some_iff, mirrors.names_eq]
  simp

theorem Mirrors.name?_eq (mirrors : Mirrors capacity past taken registry) :
    registry.name? id = (names past)[id]? := by
  rw [← mirrors.names_eq, List.getElem?_map]
  rfl

theorem Mirrors.mem_current_iff (mirrors : Mirrors capacity past taken registry) :
    id ∈ registry.current ↔ ∃ name, IsLast (names past) name id := by
  rw [current, List.mem_filter, List.mem_range]
  constructor
  · rintro ⟨-, found⟩
    cases named : registry.name? id with
    | none => simp [named] at found
    | some name => exact ⟨name, mirrors.find?_eq_some_iff.mp (by simpa [named] using found)⟩
  · rintro ⟨name, last⟩
    have named : registry.name? id = some name := mirrors.name?_eq.trans last.1
    have bounded := (List.getElem?_eq_some_iff.mp last.1).1
    rw [← mirrors.names_eq, List.length_map] at bounded
    exact ⟨bounded, by simp [named, mirrors.find?_eq_some_iff.mpr last]⟩

section Readings

variable {Reading : Type} {read : Nat → Option Reading} {key : Reading → String}

/-- Reading the streams that names stand for gives, for each name, what the last stream of the name
has to read. -/
theorem Mirrors.mem_filterMap_current (mirrors : Mirrors capacity past taken registry)
    (keyed : ∀ id reading, read id = some reading → (names past)[id]? = some (key reading))
    (reading : Reading) :
    reading ∈ registry.current.filterMap read ↔
      ∃ id, IsLast (names past) (key reading) id ∧ read id = some reading := by
  rw [List.mem_filterMap]
  constructor
  · rintro ⟨id, present, found⟩
    obtain ⟨name, last⟩ := mirrors.mem_current_iff.mp present
    have same : key reading = name :=
      Option.some.inj ((keyed id reading found).symm.trans last.1)
    exact ⟨id, same ▸ last, found⟩
  · rintro ⟨id, last, found⟩
    exact ⟨id, mirrors.mem_current_iff.mpr ⟨_, last⟩, found⟩

/-- No name is read twice. -/
theorem Mirrors.nodup_filterMap_current (mirrors : Mirrors capacity past taken registry)
    (keyed : ∀ id reading, read id = some reading → (names past)[id]? = some (key reading)) :
    ((registry.current.filterMap read).map key).Nodup := by
  have distinct : registry.current.Nodup := List.nodup_range.filter _
  rw [List.Nodup, List.pairwise_map, List.pairwise_filterMap]
  refine distinct.imp_of_mem fun {first second} present_first present_second different => ?_
  intro one found_one two found_two same
  obtain ⟨name_one, last_one⟩ := mirrors.mem_current_iff.mp present_first
  obtain ⟨name_two, last_two⟩ := mirrors.mem_current_iff.mp present_second
  have named_one : key one = name_one :=
    Option.some.inj ((keyed first one found_one).symm.trans last_one.1)
  have named_two : key two = name_two :=
    Option.some.inj ((keyed second two found_two).symm.trans last_two.1)
  have same_name : name_one = name_two := named_one.symm.trans (same.trans named_two)
  exact different (last_one.unique (same_name ▸ last_two))

/-- Every defined name is read if every defined stream has something to read. -/
theorem Mirrors.keys_filterMap_current (mirrors : Mirrors capacity past taken registry)
    (keyed : ∀ id reading, read id = some reading → (names past)[id]? = some (key reading))
    (total : ∀ id, id < (names past).length → (read id).isSome) (name : String) :
    name ∈ (registry.current.filterMap read).map key ↔ name ∈ names past := by
  rw [← @exists_isLast (names past), List.mem_map]
  constructor
  · rintro ⟨reading, present, rfl⟩
    obtain ⟨id, last, -⟩ := (mirrors.mem_filterMap_current keyed reading).mp present
    exact ⟨id, last⟩
  · rintro ⟨id, last⟩
    have bounded := (List.getElem?_eq_some_iff.mp last.1).1
    obtain ⟨reading, found⟩ := Option.isSome_iff_exists.mp (total id bounded)
    have same : key reading = name := Option.some.inj ((keyed id reading found).symm.trans last.1)
    exact ⟨reading, (mirrors.mem_filterMap_current keyed reading).mpr ⟨id, same ▸ last, found⟩, same⟩

end Readings

/-! ## What a registry shows -/

theorem Mirrors.history_eq (mirrors : Mirrors capacity past taken registry)
    {definition : Definition} (present : (definitions past)[id]? = some definition) :
    registry.history id = (definition.initial :: recorded id past).rtake (max capacity 1) := by
  rw [history, mirrors.stream?, present]
  rfl

/-- A stream remembers no more than there is. -/
theorem rtake_min_length {Element : Type} (elements : List Element) (count : Nat) :
    elements.rtake (min count elements.length) = elements.rtake count := by
  rw [List.rtake, List.rtake]
  congr 1
  omega

/-- The last values of a list end with its last value. -/
theorem getLast?_rtake {Element : Type} (elements : List Element) {count : Nat}
    (positive : 1 ≤ count) : (elements.rtake count).getLast? = elements.getLast? := by
  induction elements using List.reverseRecOn with
  | nil => simp
  | append_singleton elements element _ =>
    obtain ⟨count, rfl⟩ := Nat.exists_eq_add_of_le' positive
    rw [List.rtake_concat_succ, List.getLast?_concat, List.getLast?_concat]

theorem Mirrors.latest?_eq (mirrors : Mirrors capacity past taken registry)
    {definition : Definition} (present : (definitions past)[id]? = some definition) :
    registry.latest? id =
      some ((definition.initial :: recorded id past).getLast (List.cons_ne_nil _ _)) := by
  rw [latest?, mirrors.history_eq present, getLast?_rtake _ (Nat.le_max_right capacity 1),
    List.getLast?_eq_getLast_of_ne_nil]

/-- What a binding is read from. -/
def binding? (registry : Streams) (id : Nat) : Option (String × Value) := do
  let name ← registry.name? id
  let value ← registry.latest? id
  some (name, value)

theorem binding?_eq_some_iff {name : String} {value : Value} :
    registry.binding? id = some (name, value) ↔
      registry.name? id = some name ∧ registry.latest? id = some value := by
  simp only [binding?, Option.bind_eq_bind, Option.bind_eq_some_iff, Option.some.injEq,
    Prod.mk.injEq, exists_eq_right_right]

theorem Mirrors.shows (mirrors : Mirrors capacity past taken registry) :
    Shows capacity past taken registry := by
  have binding_keyed : ∀ id reading, registry.binding? id = some reading →
      (names past)[id]? = some reading.1 := fun id reading found =>
    mirrors.name?_eq.symm.trans (binding?_eq_some_iff.mp found).1
  have signature_keyed : ∀ (id : Nat) (signature : StreamSignature),
      registry.streams[id]?.map Stream.signature = some signature →
        (names past)[id]? = some signature.name := by
    intro id signature found
    obtain ⟨stream, present, rfl⟩ := Option.map_eq_some_iff.mp found
    rw [← mirrors.names_eq, List.getElem?_map, present]
    rfl
  have defined : ∀ id, id < (names past).length → ∃ definition,
      (definitions past)[id]? = some definition := by
    intro id bounded
    rw [names, List.length_map] at bounded
    exact ⟨_, List.getElem?_eq_getElem bounded⟩
  constructor
  case numbers => exact fun _ _ _ => mirrors.length_eq
  case remembers =>
    intro id definition present
    rw [mirrors.history_eq present, ← rtake_min_length, List.length_cons, Nat.add_comm]
  case latest =>
    intro id definition present
    exact mirrors.latest?_eq present
  case waits => exact mirrors.waits
  case answers =>
    intro id value
    rcases mirrors.record_eq id value with ⟨quiet, unchanged⟩ | ⟨definition, -, -, made, kept, -⟩
    · rw [quiet, unchanged]
      rfl
    · rw [made, kept]
      rfl
  case binds =>
    intro name value
    refine (mirrors.mem_filterMap_current binding_keyed (name, value)).trans ?_
    refine exists_congr fun id => and_congr_right fun last => ?_
    rw [binding?_eq_some_iff, mirrors.name?_eq]
    exact and_iff_right last.1
  case signs =>
    intro signature
    refine (mirrors.mem_filterMap_current signature_keyed signature).trans ?_
    refine exists_congr fun id => and_congr_right fun _ => ?_
    rw [mirrors.stream?, Option.map_map]
    rfl
  case bound =>
    refine ⟨mirrors.nodup_filterMap_current binding_keyed,
      mirrors.keys_filterMap_current binding_keyed fun id bounded => ?_⟩
    obtain ⟨definition, present⟩ := defined id bounded
    have named := mirrors.name?_eq.trans (List.getElem?_eq_getElem bounded)
    exact Option.isSome_iff_exists.mpr
      ⟨_, binding?_eq_some_iff.mpr ⟨named, mirrors.latest?_eq present⟩⟩
  case signed =>
    refine ⟨mirrors.nodup_filterMap_current signature_keyed,
      mirrors.keys_filterMap_current signature_keyed fun id bounded => ?_⟩
    obtain ⟨definition, present⟩ := defined id bounded
    rw [mirrors.stream?, present]
    rfl

/-- A registry that starts empty shows, after any calls, what the calls say: the bounded histories
of all streams, the accepted values in the order of recording, and every defined name through the
stream defined last under it. -/
theorem run_shows_calls (capacity : Nat) (calls : List Call) :
    Shows capacity calls.reverse ((withCapacity capacity).run calls).1
      ((withCapacity capacity).run calls).2 := by
  have mirrors := (mirrors_withCapacity capacity).run calls
  rw [List.append_nil, List.nil_append] at mirrors
  exact mirrors.shows

/-- Of two places the latest value takes the older one, and a stopped stream drops its value. -/
example :
    ((withCapacity 2).run [.define "key" .text (.text "a"), .record 0 (.text "b"), .stop 0,
      .record 0 (.text "c"), .startAll, .record 0 (.text "d")]).2.history 0 =
        [.text "b", .text "d"] := rfl

end Streams

end Rivulet
