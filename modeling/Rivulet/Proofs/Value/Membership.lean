import Mathlib.Data.List.Induction
import Rivulet.Proofs.Value.Equivalence

/-!
Sets and mappings by what they are made of. A set keeps the items that equal none before them (`setOf_eq`); a mapping
keeps the keys that equal none before them, each with the value given last (`keys_gathered`,
`lastValue?_of_mem_gathered`).

Main statement: equality of the values that are made so is an equivalence; sets are equal if each item has an equal one
in the other, and mappings if each key has equal last values in both (`equality_of_built`).
-/

namespace Rivulet.Value

/-! ### First items -/

/-- The items that equal none before them, in order. -/
def firsts (items : List Value) : List Value :=
  (items.zipIdx.filter fun (item, place) => !(items.take place).any (item == ·)).map Prod.fst

variable {items others : List Value} {item key value : Value} {entries entries' : List (Value × Value)}
  {entry : Value × Value}

theorem firsts_concat (items : List Value) (item : Value) :
    firsts (items ++ [item]) = if items.any (item == ·) then firsts items else firsts items ++ [item] := by
  have before : ∀ place ∈ items.zipIdx, (items ++ [item]).take place.2 = items.take place.2 := by
    intro place among
    exact List.take_append_of_le_length (List.snd_lt_of_mem_zipIdx among).le
  have earlier : (items.zipIdx.filter fun place => !((items ++ [item]).take place.2).any (place.1 == ·)) =
      items.zipIdx.filter fun place => !(items.take place.2).any (place.1 == ·) :=
    List.filter_congr fun place among => by rw [before place among]
  unfold firsts
  rw [List.zipIdx_append, List.filter_append, earlier]
  split <;> simp_all

theorem firsts_subset : firsts items ⊆ items := by
  intro item among
  obtain ⟨place, kept, rfl⟩ := List.mem_map.mp among
  exact List.fst_mem_of_mem_zipIdx (List.mem_filter.mp kept).1

/-- Every item equals one of those that are kept. -/
theorem exists_first (among : item ∈ items) : ∃ first ∈ firsts items, equal item first = true := by
  induction items using List.reverseRecOn generalizing item with
  | nil => contradiction
  | append_singleton items last hypothesis =>
    rw [firsts_concat]
    rcases List.mem_append.mp among with earlier | here
    · obtain ⟨first, kept, same⟩ := hypothesis earlier
      refine ⟨first, ?_, same⟩
      split
      · exact kept
      · exact List.mem_append_left _ kept
    · rw [List.mem_singleton.mp here]
      split
      · rename_i known
        obtain ⟨other, earlier, same⟩ := List.any_eq_true.mp known
        rw [beq_eq_equal] at same
        obtain ⟨first, kept, same'⟩ := hypothesis earlier
        exact ⟨first, kept, equal_trans same same'⟩
      · exact ⟨last, by simp, equal_refl last⟩

theorem any_firsts (item : Value) (items : List Value) : (firsts items).any (item == ·) = items.any (item == ·) := by
  refine Bool.eq_iff_iff.mpr ?_
  simp only [List.any_eq_true, beq_eq_equal]
  constructor
  · rintro ⟨first, kept, same⟩
    exact ⟨first, firsts_subset kept, same⟩
  · rintro ⟨other, among, same⟩
    obtain ⟨first, kept, same'⟩ := exists_first among
    exact ⟨first, kept, equal_trans same same'⟩

theorem pairwise_firsts (items : List Value) :
    (firsts items).Pairwise fun first second => equal second first = false := by
  induction items using List.reverseRecOn with
  | nil => exact .nil
  | append_singleton items last hypothesis =>
    rw [firsts_concat]
    split
    · exact hypothesis
    · rename_i new
      refine List.pairwise_append.mpr ⟨hypothesis, List.pairwise_singleton _ _, fun first kept other here => ?_⟩
      rw [List.mem_singleton.mp here]
      have none := List.any_eq_false.mp (Bool.eq_false_iff.mpr new) first (firsts_subset kept)
      simpa using none

/-- To insert items one after the other is to keep the first of those that are equal. -/
theorem foldl_insertItem_nil (items : List Value) : items.foldl insertItem [] = firsts items := by
  induction items using List.reverseRecOn with
  | nil => rfl
  | append_singleton items last hypothesis =>
    rw [List.foldl_concat, hypothesis, firsts_concat, insertItem, any_firsts]

theorem setOf_eq (items : List Value) : setOf items = set (firsts items) :=
  congrArg set (foldl_insertItem_nil items)

theorem every_distinct_setOf (distinct : ∀ item ∈ items, item.Every Distinct) : (setOf items).Every Distinct := by
  rw [setOf_eq]
  exact .intro (pairwise_firsts items) fun item among => distinct item (firsts_subset among)

/-! ### Last values -/

/-- The value that is given last for a key. -/
def lastValue? (entries : List (Value × Value)) (key : Value) : Option Value :=
  (entries.reverse.find? fun entry => key == entry.1).map Prod.snd

/-- The entries that a mapping keeps of those that it is made of. -/
def gathered (entries : List (Value × Value)) : List (Value × Value) :=
  entries.foldl (fun stored entry => insertEntry stored entry.1 entry.2) []

theorem lastValue?_concat (entries : List (Value × Value)) (entry : Value × Value) (key : Value) :
    lastValue? (entries ++ [entry]) key = if equal key entry.1 then some entry.2 else lastValue? entries key := by
  unfold lastValue?
  rw [List.reverse_concat, List.find?_cons, beq_eq_equal]
  cases equal key entry.1 <;> rfl

theorem gathered_concat (entries : List (Value × Value)) (entry : Value × Value) :
    gathered (entries ++ [entry]) = insertEntry (gathered entries) entry.1 entry.2 := by
  rw [gathered, List.foldl_concat, gathered]

/-- The keys of a mapping are kept as the items of a set are. -/
theorem keys_insertEntry (stored : List (Value × Value)) (key value : Value) :
    (insertEntry stored key value).map Prod.fst = insertItem (stored.map Prod.fst) key := by
  induction stored with
  | nil => rfl
  | cons entry stored hypothesis =>
    unfold insertItem at hypothesis ⊢
    rw [insertEntry, List.map_cons, List.any_cons]
    split
    · rename_i here
      rw [here, Bool.true_or, if_pos rfl, List.map_cons]
    · rename_i other
      rw [List.map_cons, hypothesis, Bool.eq_false_iff.mpr other, Bool.false_or]
      split <;> rfl

theorem keys_gathered (entries : List (Value × Value)) :
    (gathered entries).map Prod.fst = firsts (entries.map Prod.fst) := by
  rw [← foldl_insertItem_nil]
  induction entries using List.reverseRecOn with
  | nil => rfl
  | append_singleton entries last hypothesis =>
    rw [gathered_concat, keys_insertEntry, hypothesis, List.map_append, List.map_singleton, List.foldl_concat]

theorem pairwise_gathered (entries : List (Value × Value)) :
    (gathered entries).Pairwise fun first second => equal second.1 first.1 = false := by
  have keys := pairwise_firsts (entries.map Prod.fst)
  rwa [← keys_gathered, List.pairwise_map] at keys

theorem key_mem_of_gathered (among : entry ∈ gathered entries) : entry.1 ∈ entries.map Prod.fst := by
  refine firsts_subset ?_
  rw [← keys_gathered]
  exact List.mem_map_of_mem among

theorem exists_gathered (among : key ∈ entries.map Prod.fst) :
    ∃ entry ∈ gathered entries, equal key entry.1 = true := by
  obtain ⟨first, kept, same⟩ := exists_first among
  rw [← keys_gathered] at kept
  obtain ⟨entry, there, rfl⟩ := List.mem_map.mp kept
  exact ⟨entry, there, same⟩

/-- An entry that is inserted into others takes the place of the one that has an equal key, and of no other. -/
theorem of_mem_insertEntry {stored : List (Value × Value)} (distinct : key.Every Distinct)
    (unequal : stored.Pairwise fun first second => equal second.1 first.1 = false)
    (among : entry ∈ insertEntry stored key value) :
    equal key entry.1 = true ∧ entry.2 = value ∨ equal key entry.1 = false ∧ entry ∈ stored := by
  induction stored with
  | nil =>
    rw [List.mem_singleton.mp among]
    exact .inl ⟨equal_refl key, rfl⟩
  | cons first stored hypothesis =>
    obtain ⟨here, others⟩ := List.pairwise_cons.mp unequal
    rw [insertEntry, beq_eq_equal] at among
    split at among
    · rename_i same
      rcases List.mem_cons.mp among with rfl | behind
      · exact .inl ⟨same, rfl⟩
      · refine .inr ⟨Bool.eq_false_iff.mpr fun same' => ?_, List.mem_cons_of_mem _ behind⟩
        have joined := equal_trans (equal_symm distinct same') same
        rw [here entry behind] at joined
        contradiction
    · rename_i differ
      rcases List.mem_cons.mp among with rfl | behind
      · exact .inr ⟨Bool.eq_false_iff.mpr differ, List.mem_cons_self⟩
      · exact (hypothesis others behind).imp_right fun elsewhere => ⟨elsewhere.1, List.mem_cons_of_mem _ elsewhere.2⟩

/-- A key is kept with the value that is given last for it. -/
theorem lastValue?_of_mem_gathered (distinct : ∀ key ∈ entries.map Prod.fst, key.Every Distinct)
    (among : entry ∈ gathered entries) : lastValue? entries entry.1 = some entry.2 := by
  induction entries using List.reverseRecOn with
  | nil => contradiction
  | append_singleton entries last hypothesis =>
    rw [List.map_append, List.forall_mem_append] at distinct
    obtain ⟨before, here⟩ := distinct
    have lastToo : last.1.Every Distinct := here last.1 (by simp)
    rw [gathered_concat] at among
    rw [lastValue?_concat]
    rcases of_mem_insertEntry lastToo (pairwise_gathered entries) among with ⟨same, is⟩ | ⟨differ, there⟩
    · rw [if_pos (equal_symm lastToo same), is]
    · rw [if_neg fun same => ?_, hypothesis before there]
      have turned := equal_symm (before _ (key_mem_of_gathered there)) same
      rw [differ] at turned
      contradiction

/-- Equal keys have the same last value. -/
theorem lastValue?_congr {key' : Value} (distinct : key.Every Distinct) (same : equal key key' = true)
    (entries : List (Value × Value)) : lastValue? entries key = lastValue? entries key' := by
  have alike (other : Value) : equal key other = equal key' other :=
    Bool.eq_iff_iff.mpr ⟨equal_trans (equal_symm distinct same), equal_trans same⟩
  simp only [lastValue?, beq_eq_equal, alike]

/-- A key with a last value equals one that is kept, with this value. -/
theorem exists_of_lastValue? (distinct : ∀ key ∈ entries.map Prod.fst, key.Every Distinct) (own : key.Every Distinct)
    (last : lastValue? entries key = some value) :
    ∃ entry ∈ gathered entries, equal key entry.1 = true ∧ entry.2 = value := by
  obtain ⟨given, found, -⟩ := Option.map_eq_some_iff.mp last
  have given' : given.1 ∈ entries.map Prod.fst :=
    List.mem_map_of_mem (List.mem_reverse.mp (List.mem_of_find?_eq_some found))
  have same : equal key given.1 = true := by simpa using List.find?_some found
  obtain ⟨entry, kept, same'⟩ := exists_gathered given'
  have joined := equal_trans same same'
  refine ⟨entry, kept, joined, ?_⟩
  rw [lastValue?_congr own joined, lastValue?_of_mem_gathered distinct kept] at last
  exact Option.some.inj last

theorem every_distinct_mappingOf (keys : ∀ key ∈ entries.map Prod.fst, key.Every Distinct)
    (values : ∀ value ∈ entries.map Prod.snd, value.Every Distinct) : (mappingOf entries).Every Distinct := by
  refine .intro (pairwise_gathered entries) fun part among => ?_
  obtain ⟨entry, kept, either⟩ := List.mem_flatMap.mp among
  have given (entry : Value × Value) (among : entry ∈ entries) : entry.1.Every Distinct ∧ entry.2.Every Distinct :=
    ⟨keys _ (List.mem_map_of_mem among), values _ (List.mem_map_of_mem among)⟩
  have both : entry.1.Every Distinct ∧ entry.2.Every Distinct := forall_insertEntries (by simp) given entry kept
  rcases List.mem_pair.mp either with rfl | rfl
  · exact both.1
  · exact both.2

/-! ### Equal sets and mappings -/

/-- Lists whose items all have partners in the other, and none in common, are of one length. -/
theorem length_eq_of_partners {α : Type} {related related' : α → α → Prop} {items others : List α}
    (each : ∀ item ∈ items, ∃ other ∈ others, related item other)
    (apart : items.Pairwise fun first second => ∀ other ∈ others, related first other → ¬ related second other)
    (each' : ∀ other ∈ others, ∃ item ∈ items, related' other item)
    (apart' : others.Pairwise fun first second => ∀ item ∈ items, related' first item → ¬ related' second item) :
    items.length = others.length :=
  Nat.le_antisymm (length_le_of_partners each apart) (length_le_of_partners each' apart')

/-- Sets are equal if each item of either equals one of the other. -/
theorem equal_setOf_iff (distinct : ∀ item ∈ items, item.Every Distinct)
    (distinct' : ∀ other ∈ others, other.Every Distinct) :
    equal (setOf items) (setOf others) = true ↔
      (∀ item ∈ items, ∃ other ∈ others, equal item other = true) ∧
        ∀ other ∈ others, ∃ item ∈ items, equal other item = true := by
  have onward {items others : List Value} (same : equal (setOf items) (setOf others) = true) :
      ∀ item ∈ items, ∃ other ∈ others, equal item other = true := by
    intro item among
    rw [setOf_eq, setOf_eq, equal_iff_matches] at same
    cases same with
    | set _ within =>
      obtain ⟨first, kept, here⟩ := exists_first among
      obtain ⟨other, kept', there⟩ := within first kept
      exact ⟨other, firsts_subset kept', equal_trans here there⟩
  constructor
  · intro same
    exact ⟨onward same, onward (equal_symm (every_distinct_setOf distinct) same)⟩
  · rintro ⟨each, each'⟩
    have partners {items others : List Value} (each : ∀ item ∈ items, ∃ other ∈ others, equal item other = true) :
        ∀ item ∈ firsts items, ∃ other ∈ firsts others, equal item other = true := by
      intro item kept
      obtain ⟨other, among, same⟩ := each item (firsts_subset kept)
      obtain ⟨first, kept', same'⟩ := exists_first among
      exact ⟨first, kept', equal_trans same same'⟩
    have apart {items others : List Value} (distinct : ∀ item ∈ items, item.Every Distinct) :=
      apart_of_unequal (fun item kept _ => equal_symm (distinct item (firsts_subset kept))) (pairwise_firsts items)
        (firsts others)
    rw [setOf_eq, setOf_eq, equal_iff_matches]
    exact .set (length_eq_of_partners (partners each) (apart distinct) (partners each') (apart distinct'))
      (partners each)

/-- Whether a key has equal last values among two lists of entries. -/
def AgreeOn (entries entries' : List (Value × Value)) (key : Value) : Prop :=
  ∃ value value', lastValue? entries key = some value ∧ lastValue? entries' key = some value' ∧
    value == value'

theorem AgreeOn.exists_entry {entry : Value × Value} (distinct : ∀ key ∈ entries.map Prod.fst, key.Every Distinct)
    (distinct' : ∀ key ∈ entries'.map Prod.fst, key.Every Distinct) (kept : entry ∈ gathered entries)
    (agree : AgreeOn entries entries' entry.1) :
    ∃ entry' ∈ gathered entries', equal entry.1 entry'.1 = true ∧ equal entry.2 entry'.2 = true := by
  obtain ⟨value, value', last, last', same⟩ := agree
  have own := lastValue?_of_mem_gathered distinct kept
  have key := distinct entry.1 (key_mem_of_gathered kept)
  obtain ⟨entry', kept', same', rfl⟩ := exists_of_lastValue? distinct' key last'
  rw [← Option.some.inj (own.symm.trans last), beq_eq_equal] at same
  exact ⟨entry', kept', same', same⟩

/-- Mappings are equal if each key of either has equal last values in both. -/
theorem equal_mappingOf_iff (keys : ∀ key ∈ entries.map Prod.fst, key.Every Distinct)
    (values : ∀ value ∈ entries.map Prod.snd, value.Every Distinct)
    (keys' : ∀ key ∈ entries'.map Prod.fst, key.Every Distinct) :
    equal (mappingOf entries) (mappingOf entries') = true ↔
      (∀ key ∈ entries.map Prod.fst, AgreeOn entries entries' key) ∧
        ∀ key ∈ entries'.map Prod.fst, AgreeOn entries' entries key := by
  have onward {entries entries' : List (Value × Value)} (keys : ∀ key ∈ entries.map Prod.fst, key.Every Distinct)
      (keys' : ∀ key ∈ entries'.map Prod.fst, key.Every Distinct)
      (same : equal (mappingOf entries) (mappingOf entries') = true) :
      ∀ key ∈ entries.map Prod.fst, AgreeOn entries entries' key := by
    intro key among
    have distinct := keys key among
    cases equal_iff_matches.mp same with
    | mapping _ within =>
      obtain ⟨entry, kept, here⟩ := exists_gathered among
      obtain ⟨entry', kept', there, value⟩ := within entry kept
      refine ⟨entry.2, entry'.2, ?_, ?_, by rwa [beq_eq_equal]⟩
      · rw [lastValue?_congr distinct here, lastValue?_of_mem_gathered keys kept]
      · rw [lastValue?_congr distinct (equal_trans here there), lastValue?_of_mem_gathered keys' kept']
  constructor
  · intro same
    exact ⟨onward keys keys' same, onward keys' keys (equal_symm (every_distinct_mappingOf keys values) same)⟩
  · rintro ⟨each, each'⟩
    have partners {entries entries' : List (Value × Value)} (keys : ∀ key ∈ entries.map Prod.fst, key.Every Distinct)
        (keys' : ∀ key ∈ entries'.map Prod.fst, key.Every Distinct)
        (each : ∀ key ∈ entries.map Prod.fst, AgreeOn entries entries' key) : ∀ entry ∈ gathered entries,
        ∃ entry' ∈ gathered entries', equal entry.1 entry'.1 = true ∧ equal entry.2 entry'.2 = true :=
      fun entry kept => (each entry.1 (key_mem_of_gathered kept)).exists_entry keys keys' kept
    have apart {entries : List (Value × Value)} (keys : ∀ key ∈ entries.map Prod.fst, key.Every Distinct)
        (entries' : List (Value × Value)) : (gathered entries).Pairwise fun first second => ∀ other ∈ gathered entries',
        equal first.1 other.1 = true ∧ equal first.2 other.2 = true →
          ¬ (equal second.1 other.1 = true ∧ equal second.2 other.2 = true) :=
      (apart_of_unequal (fun entry kept _ => equal_symm (keys entry.1 (key_mem_of_gathered kept)))
        (pairwise_gathered entries) (gathered entries')).imp
          fun differ other among both both' => differ other among both.1 both'.1
    refine equal_iff_matches.mpr (.mapping ?_ (partners keys keys' each))
    exact length_eq_of_partners (partners keys keys' each) (apart keys entries') (partners keys' keys each')
      (apart keys' entries)

/-! ### Values that are made -/

/-- The values that come about by making them, from plain ones on. -/
inductive Built : Value → Prop where
  | none : Built none
  | boolean (value : Bool) : Built (boolean value)
  | number (value : Quantity) : Built (number value)
  | text (value : String) : Built (text value)
  | function (value : Function) : Built (function value)
  | exception (value : Exception) : Built (exception value)
  | sequence {items : List Value} (each : ∀ item ∈ items, Built item) : Built (sequence items.toArray)
  | record (definition : NodeId) {fields : List (String × Value)} (each : ∀ field ∈ fields, Built field.2) :
      Built (record definition fields)
  | setOf {items : List Value} (each : ∀ item ∈ items, Built item) : Built (setOf items)
  | mappingOf {entries : List (Value × Value)} (keys : ∀ key ∈ entries.map Prod.fst, Built key)
      (values : ∀ value ∈ entries.map Prod.snd, Built value) : Built (mappingOf entries)

theorem Built.distinct (built : Built value) : value.Every Distinct := by
  induction built with
  | none | boolean | number | text | function | exception => exact every_of_no_parts trivial rfl
  | sequence _ hypothesis => exact .intro trivial hypothesis
  | record definition _ hypothesis =>
    refine .intro trivial fun part among => ?_
    obtain ⟨field, there, rfl⟩ := List.mem_map.mp among
    exact hypothesis field there
  | setOf _ hypothesis => exact every_distinct_setOf hypothesis
  | mappingOf _ _ keys values => exact every_distinct_mappingOf keys values

/-- Equality of the values that are made is an equivalence. A set keeps the items that equal none before them, and two
sets are equal if each item that either is made of equals one of the other. A mapping keeps the keys that equal none
before them, each with the value given last, and two mappings are equal if each key that either is made of has equal
last values in both. -/
theorem equality_of_built :
    (∀ value : Value, value == value) ∧
    (∀ first second : Value, Built first → first == second → second == first) ∧
    (∀ first second third : Value, first == second → second == third → first == third) ∧
    (∀ items : List Value, (∀ item ∈ items, Built item) → setOf items = set (firsts items) ∧
      (firsts items).Pairwise fun first second => (first == second) = false) ∧
    (∀ items others : List Value, (∀ item ∈ items, Built item) → (∀ other ∈ others, Built other) →
      (setOf items == setOf others ↔
        (∀ item ∈ items, ∃ other ∈ others, item == other) ∧ ∀ other ∈ others, ∃ item ∈ items, other == item)) ∧
    (∀ entries : List (Value × Value), (∀ key ∈ entries.map Prod.fst, Built key) →
      ∃ stored, mappingOf entries = mapping stored ∧ stored.map Prod.fst = firsts (entries.map Prod.fst) ∧
        (stored.Pairwise fun first second => (first.1 == second.1) = false) ∧
        ∀ entry ∈ stored, lastValue? entries entry.1 = some entry.2) ∧
    ∀ entries entries' : List (Value × Value), (∀ key ∈ entries.map Prod.fst, Built key) →
      (∀ value ∈ entries.map Prod.snd, Built value) → (∀ key ∈ entries'.map Prod.fst, Built key) →
      (mappingOf entries == mappingOf entries' ↔
        (∀ key ∈ entries.map Prod.fst, AgreeOn entries entries' key) ∧
          ∀ key ∈ entries'.map Prod.fst, AgreeOn entries' entries key) := by
  have turned {first second : Value} (built : Built first) (differ : equal second first = false) :
      equal first second = false :=
    Bool.eq_false_iff.mpr fun same => absurd (equal_symm built.distinct same) (by simp [differ])
  simp only [beq_eq_equal]
  refine ⟨equal_refl, fun first second built => equal_symm built.distinct, fun first second third => equal_trans,
    fun items built => ⟨setOf_eq items, ?_⟩, fun items others built built' => ?_, fun entries built => ?_,
    fun entries entries' keys values keys' => ?_⟩
  · exact (pairwise_firsts items).imp_of_mem fun kept _ => turned (built _ (firsts_subset kept))
  · exact equal_setOf_iff (fun item among => (built item among).distinct)
      fun other among => (built' other among).distinct
  · refine ⟨gathered entries, rfl, keys_gathered entries, ?_, fun entry kept => ?_⟩
    · exact (pairwise_gathered entries).imp_of_mem fun kept _ => turned (built _ (key_mem_of_gathered kept))
    · exact lastValue?_of_mem_gathered (fun key among => (built key among).distinct) kept
  · exact equal_mappingOf_iff (fun key among => (keys key among).distinct)
      (fun value among => (values value among).distinct) fun key among => (keys' key among).distinct

/-- Two sets that are made in different orders, and mappings that have them as keys. -/
theorem equality_of_truths :
    let first := setOf [boolean true, boolean false]
    let second := setOf [boolean false, boolean true, boolean false]
    Built first ∧ Built second ∧ first == second ∧ second == first ∧ second == second ∧
      second = set (firsts [boolean false, boolean true, boolean false]) ∧
      (∃ value, mappingOf [(first, boolean true), (second, none)] = mapping [(first, value)] ∧
        lastValue? [(first, boolean true), (second, none)] first = some value) ∧
      mappingOf [(first, boolean true), (second, none)] == mappingOf [(second, none)] := by
  intro first second
  obtain ⟨-, symm, trans, sets, equalSets, mappings, equalMappings⟩ := equality_of_built
  have truths {items : List Bool} : ∀ item ∈ items.map boolean, Built item := by
    intro item among
    obtain ⟨value, -, rfl⟩ := List.mem_map.mp among
    exact .boolean value
  have built : Built first := .setOf (@truths [true, false])
  have built' : Built second := .setOf (@truths [false, true, false])
  have same : first == second :=
    (equalSets _ _ (@truths [true, false]) (@truths [false, true, false])).mpr (by decide)
  have same' : second == first := symm first second built same
  have keys : ∀ key ∈ [(first, (boolean true : Value)), (second, none)].map Prod.fst, Built key :=
    List.forall_mem_cons.mpr ⟨built, List.forall_mem_singleton.mpr built'⟩
  have values : ∀ value ∈ [(first, (boolean true : Value)), (second, none)].map Prod.snd, Built value :=
    List.forall_mem_cons.mpr ⟨.boolean true, List.forall_mem_singleton.mpr .none⟩
  have keys' : ∀ key ∈ [(second, (none : Value))].map Prod.fst, Built key := List.forall_mem_singleton.mpr built'
  refine ⟨built, built', same, same', trans second first second same' same, (sets _ (@truths [false, true, false])).1,
    ?_, ?_⟩
  · obtain ⟨stored, is, kept, -, last⟩ := mappings _ keys
    obtain ⟨entry, rfl, key⟩ := List.map_eq_singleton_iff.mp (kept.trans (show _ = [first] from rfl))
    have only : entry = (first, entry.2) := Prod.ext key rfl
    rw [only] at is last
    exact ⟨entry.2, is, last _ List.mem_cons_self⟩
  · refine (equalMappings _ _ keys values keys').mpr ⟨?_, ?_⟩
    · exact List.forall_mem_cons.mpr ⟨⟨none, none, rfl, rfl, rfl⟩,
        List.forall_mem_singleton.mpr ⟨none, none, rfl, rfl, rfl⟩⟩
    · exact List.forall_mem_singleton.mpr ⟨none, none, rfl, rfl, rfl⟩

end Rivulet.Value
