import Rivulet.Proofs.Meaning

/-!
What loops make of a collection. A loop is told apart by what it collects of the elements and of what a function
produced for them (`HigherOrder.collected`), and by its outcome (`HigherOrder.outcome`). What it collects waits on a
stack, each entry as key and value.

Main statement: a set or a mapping has just the elements that it is made of, if all of their keys are different
(`Value.elements_like`).
-/

namespace Rivulet

namespace Element

/-- The value of an element. -/
def value : Element → Value
  | single value | entry _ value => value

/-- What tells an element of a set or a mapping from the others. -/
def key : Element → Value
  | single value => value
  | entry key _ => key

/-- An element with another value; an entry keeps its key. -/
def withValue : Element → Value → Element
  | single _, produced => single produced
  | entry key _, produced => entry key produced

/-- An element is of the form that the elements of a collection have. -/
def Fits (collection : Value) : Element → Prop
  | single _ => collection.kind ≠ .mapping
  | entry .. => collection.kind = .mapping

end Element

namespace Value

/-! ### Collections of a kind -/

/-- The collection of the kind of another one that is made of some elements, in order. -/
def like (collection : Value) (elements : List Element) : Value :=
  match collection with
  | .set _ => setOf (elements.map Element.value)
  | .mapping _ => mappingOf (elements.map fun element => (element.key, element.value))
  | _ => .sequence (elements.map Element.value).toArray

/-- The keys of some elements are different. -/
def AreApart (elements : List Element) : Prop :=
  elements.Pairwise fun earlier later => (later.key == earlier.key) = false

/-- A collection that holds no two equal keys; a sequence has none. -/
def IsProper (collection : Value) : Prop :=
  collection.kind = .set ∨ collection.kind = .mapping → AreApart collection.elements

section

variable {collection : Value} {elements : List Element}

theorem fits_elements : ∀ element ∈ collection.elements, element.Fits collection := by
  intro element among
  cases collection with
  | sequence items | set items =>
    obtain ⟨value, -, rfl⟩ := List.mem_map.mp among
    exact nofun
  | mapping entries =>
    obtain ⟨entry, -, rfl⟩ := List.mem_map.mp among
    rfl
  | _ => cases among

theorem foldl_insertItem (items stored : List Value)
    (apart : (stored ++ items).Pairwise fun earlier later => (later == earlier) = false) :
    items.foldl insertItem stored = stored ++ items := by
  induction items generalizing stored with
  | nil => simp
  | cons item items hypothesis =>
    have fresh : stored.any (item == ·) = false := by
      rw [List.any_eq_false]
      intro earlier among
      have different := (List.pairwise_append.mp apart).2.2 earlier among item List.mem_cons_self
      simp [different]
    have inserted : insertItem stored item = stored ++ [item] := by
      rw [insertItem, fresh]
      rfl
    rw [List.foldl_cons, inserted, hypothesis _ (by simpa using apart)]
    simp

theorem insertEntry_fresh (stored : List (Value × Value)) (key value : Value)
    (fresh : ∀ entry ∈ stored, (key == entry.1) = false) : insertEntry stored key value = stored ++ [(key, value)] := by
  induction stored with
  | nil => rfl
  | cons entry stored hypothesis =>
    obtain ⟨different, others⟩ := List.forall_mem_cons.mp fresh
    simp [insertEntry, different, hypothesis others]

theorem foldl_insertEntry (entries stored : List (Value × Value))
    (apart : (stored ++ entries).Pairwise fun earlier later => (later.1 == earlier.1) = false) :
    entries.foldl (fun stored entry => insertEntry stored entry.1 entry.2) stored = stored ++ entries := by
  induction entries generalizing stored with
  | nil => simp
  | cons entry entries hypothesis =>
    have inserted := insertEntry_fresh stored entry.1 entry.2 fun earlier among =>
      (List.pairwise_append.mp apart).2.2 earlier among entry List.mem_cons_self
    rw [List.foldl_cons, inserted, hypothesis _ (by simpa using apart)]
    simp

theorem map_single_value (fits : ∀ element ∈ elements, element.Fits collection) (kind : collection.kind ≠ .mapping) :
    (elements.map Element.value).map Element.single = elements := by
  rw [List.map_map]
  refine (List.map_congr_left fun element among => ?_).trans (List.map_id elements)
  have form := fits element among
  cases element with
  | single value => rfl
  | entry key value => exact absurd form kind

theorem map_entry_pair (fits : ∀ element ∈ elements, element.Fits collection) (kind : collection.kind = .mapping) :
    (elements.map fun element => (element.key, element.value)).map (fun entry => Element.entry entry.1 entry.2) =
      elements := by
  rw [List.map_map]
  refine (List.map_congr_left fun element among => ?_).trans (List.map_id elements)
  have form := fits element among
  cases element with
  | single value => exact absurd kind form
  | entry key value => rfl

/-- A collection has the elements that it is made of. In a set and in a mapping no two keys may be equal for that. -/
theorem elements_like (collects : collection.isCollection = true)
    (fits : ∀ element ∈ elements, element.Fits collection)
    (apart : collection.kind = .set ∨ collection.kind = .mapping → AreApart elements) :
    (collection.like elements).elements = elements := by
  cases collection with
  | sequence items =>
    simp only [like, Value.elements]
    exact map_single_value fits (by simp [kind])
  | set items =>
    have same : elements.map Element.key = elements.map Element.value := by
      refine List.map_congr_left fun element among => ?_
      have form := fits element among
      cases element with
      | single value => rfl
      | entry key value => cases form
    have different : (elements.map Element.value).Pairwise fun earlier later => (later == earlier) = false := by
      rw [← same]
      exact List.pairwise_map.mpr (apart (.inl rfl))
    have kept := foldl_insertItem (elements.map Element.value) [] different
    simp only [like, setOf, kept, Value.elements]
    exact map_single_value fits (by simp [kind])
  | mapping entries =>
    have different : (elements.map fun element => (element.key, element.value)).Pairwise fun earlier later =>
        (later.1 == earlier.1) = false := List.pairwise_map.mpr (apart (.inr rfl))
    have kept := foldl_insertEntry _ [] different
    simp only [like, mappingOf, kept, Value.elements]
    exact map_entry_pair fits rfl
  | _ => simp [isCollection] at collects

/-- What is kept of elements, as it waits on a stack, makes the collection of them. -/
theorem collectLike_arguments (fits : ∀ element ∈ elements, element.Fits collection) :
    Machine.collectLike collection (elements.flatMap Machine.elementArguments) = collection.like elements := by
  by_cases kind : collection.kind = .mapping
  · have entries : entriesOf (elements.flatMap Machine.elementArguments) =
        elements.map fun element => (element.key, element.value) := by
      induction elements with
      | nil => rfl
      | cons element elements hypothesis =>
        obtain ⟨first, others⟩ := List.forall_mem_cons.mp fits
        cases element with
        | single value => exact absurd kind first
        | entry key value =>
          simp only [List.flatMap_cons, Machine.elementArguments, List.cons_append, List.nil_append, entriesOf,
            hypothesis others, List.map_cons]
          rfl
    cases collection with
    | mapping stored => simp only [Machine.collectLike, like, entries]
    | _ => cases kind
  · have values : elements.flatMap Machine.elementArguments = elements.map Element.value := by
      induction elements with
      | nil => rfl
      | cons element elements hypothesis =>
        obtain ⟨first, others⟩ := List.forall_mem_cons.mp fits
        cases element with
        | single value => exact congrArg (value :: ·) (hypothesis others)
        | entry key value => exact absurd first kind
    cases collection with
    | mapping stored => exact absurd rfl kind
    | _ => simp only [Machine.collectLike, like, values]

end

/-! ### What loops collect -/

/-- A truth value that is true. -/
def isTrue : Value → Bool
  | boolean value => value
  | _ => false

end Value

namespace HigherOrder

/-- What a loop collects of elements, given what the function produced for them: a map the elements with what was
produced as values, a filter those for which it was true. -/
def collected (op : HigherOrder) (elements : List Element) (results : List Value) : List Element :=
  match op with
  | map => List.zipWith Element.withValue elements results
  | filter => ((elements.zip results).filter fun pair => pair.2.isTrue).map Prod.fst
  | fold => []

/-- What a loop over a collection yields, given what the function produced for its elements: a fold what was produced
last, and without any element what it started from. -/
def outcome (op : HigherOrder) (collection initial : Value) (results : List Value) : Value :=
  match op with
  | fold => results.getLastD initial
  | _ => collection.like (op.collected collection.elements results)

section

variable {op : HigherOrder} {collection : Value} {elements : List Element} {results : List Value}

theorem collected_none (op : HigherOrder) (elements : List Element) : op.collected elements [] = [] := by
  cases op with
  | map => exact List.zipWith_nil_right
  | filter => simp [collected]
  | fold => rfl

theorem collected_cons {element : Element} {produced : Value} {more : List Value}
    (retains : Meaning.retained op element produced = .ok more) :
    (op.collected (element :: elements) (produced :: results)).flatMap Machine.elementArguments =
      more ++ (op.collected elements results).flatMap Machine.elementArguments := by
  cases op with
  | map => cases element <;> cases retains <;> rfl
  | fold => cases retains; rfl
  | filter =>
    cases produced with
    | boolean value => cases value <;> cases retains <;> rfl
    | _ => cases retains

theorem withValue_fits {element : Element} (fits : element.Fits collection) (produced : Value) :
    (element.withValue produced).Fits collection := by
  cases element <;> exact fits

theorem fits_collected (fits : ∀ element ∈ elements, element.Fits collection) :
    ∀ element ∈ op.collected elements results, element.Fits collection := by
  intro collected among
  cases op with
  | map =>
    simp only [HigherOrder.collected, ← List.map_uncurry_zip_eq_zipWith] at among
    obtain ⟨⟨element, produced⟩, there, rfl⟩ := List.mem_map.mp among
    exact withValue_fits (fits element (List.of_mem_zip there).1) produced
  | filter =>
    obtain ⟨pair, there, rfl⟩ := List.mem_map.mp among
    exact fits _ (List.of_mem_zip (List.mem_filter.mp there).1).1
  | fold => cases among

/-- A map of a mapping keeps its keys, and a filter adds none. -/
theorem sublist_keys (fits : ∀ element ∈ elements, element.Fits collection)
    (entries : op = .map → collection.kind = .mapping) :
    ((op.collected elements results).map Element.key).Sublist (elements.map Element.key) := by
  cases op with
  | map =>
    induction elements generalizing results with
    | nil => exact List.Sublist.refl _
    | cons element elements hypothesis =>
      obtain ⟨first, others⟩ := List.forall_mem_cons.mp fits
      cases results with
      | nil => exact List.nil_sublist _
      | cons produced results =>
        cases element with
        | single value => exact absurd (entries rfl) first
        | entry key value => exact (hypothesis others).cons_cons _
  | filter =>
    have among : ((elements.zip results).map Prod.fst).Sublist elements := by
      rw [List.zip_eq_zip_take_min, List.map_fst_zip (by simp)]
      exact List.take_sublist _ _
    exact ((List.filter_sublist.map Prod.fst).trans among).map Element.key
  | fold => exact List.nil_sublist _

/-- What a loop collects makes up the collection that it yields. For a map of a set that need not be: its results may
be equal. -/
theorem elements_outcome (collects : collection.isCollection = true) (proper : collection.IsProper)
    (loops : op ≠ .fold) (distinct : op = .map → collection.kind ≠ .set) (initial : Value) :
    (op.outcome collection initial results).elements = op.collected collection.elements results := by
  have is : op.outcome collection initial results = collection.like (op.collected collection.elements results) := by
    cases op with
    | fold => exact absurd rfl loops
    | _ => rfl
  rw [is]
  refine Value.elements_like collects (fits_collected Value.fits_elements) fun keyed => ?_
  have sublist := @sublist_keys op collection collection.elements results Value.fits_elements fun map =>
    keyed.resolve_left (distinct map)
  have apart : (collection.elements.map Element.key).Pairwise fun earlier later => (later == earlier) = false :=
    List.pairwise_map.mpr (proper keyed)
  exact List.pairwise_map.mp (apart.sublist sublist)

end

end HigherOrder

end Rivulet
