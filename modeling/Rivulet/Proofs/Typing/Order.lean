import Rivulet.Line
import Rivulet.Proofs.Analysis.Concurrence
import Rivulet.Proofs.Typing.Memo

/-!
The order in which types are asked for. A type is kept once it has been given out, and while it is being computed its
node counts as unknown; so the type of a recursive function depends on where the recursion was entered
(`type_depends_on_order`). The type of a node follows from other types in any order if it follows from questions none of
which is left open, so that none comes back to where it was asked (`Context.settledType?`).

Main statement: after any two sequences of questions such a node has the same type, and whatever type was given out for
a node is given out for it from then on (`typeAfter_settled`).
-/

namespace Rivulet

open Typing

/-- Answers the same about a source whenever it is asked. -/
def SourceLookup.steady {σ : Type} (answer : String → SourceType) : SourceLookup σ :=
  fun source => pure (answer source)

namespace Context

/-! ### Types that are settled -/

/-- Answers a question if there is an answer, and notes otherwise that the question was left open. -/
def replying (answers : NodeId → Option Ty) (asked : NodeId) : TypeM Bool Ty := fun state =>
  match answers asked with
  | some type => (type, state)
  | none => (.any, { state with host := false })

/-- The type of a node that follows from types that are known, if nothing else is asked. -/
def typeFrom? (context : Context) (answer : String → SourceType) (answers : NodeId → Option Ty) (id : NodeId) :
    Option Ty :=
  let computed := (compute context (.steady answer) (replying answers) id).run ⟨#[], true⟩
  if computed.2.host then some computed.1 else none

/-- The type of a node that follows from questions, none of which is left open when they go down to a depth. -/
def settledType? (context : Context) (answer : String → SourceType) : Nat → NodeId → Option Ty
  | 0, _ => none
  | depth + 1, id => context.typeFrom? answer (context.settledType? answer depth) id

section

variable {context : Context} {answer : String → SourceType} {answers : NodeId → Option Ty} {σ : Type}
  {inv : TypeState σ → Prop} {ask : NodeId → TypeM σ Ty} {id : NodeId} {type type' : Ty} {depth depth' : Nat}

/-- A computation all of whose questions have answers has the same result wherever they are answered like that. -/
def echoing (inv : TypeState σ → Prop) : Comparison Bool σ where
  Holds first second := ∃ value complete,
    (∀ state, first.run state = (value, { state with host := state.host && complete })) ∧
      (complete = true → Answers inv second value)
  pure value := ⟨value, true, fun state => by rw [Bool.and_true]; rfl, fun _ => answers_pure value⟩
  bind := by
    rintro α β first second next next' ⟨value, complete, is, answers⟩ rest
    obtain ⟨value', complete', is', answers'⟩ := rest value
    refine ⟨value', complete && complete', fun state => ?_, fun all => ?_⟩
    · have run : (first >>= next).run state = (next (first.run state).1).run (first.run state).2 := rfl
      rw [run, is, is', Bool.and_assoc]
    · rw [Bool.and_eq_true] at all
      exact (answers all.1).bind (answers' all.2)

/-- A type that follows from known types is computed wherever these are the answers to questions. -/
theorem answers_of_typeFrom? (found : context.typeFrom? answer answers id = some type)
    (asks : ∀ asked type, answers asked = some type → Answers inv (ask asked) type) :
    Answers inv (compute context (.steady answer) ask id) type := by
  have echoes : (echoing inv).Holds (compute context (.steady answer) (replying answers) id)
      (compute context (.steady answer) ask id) := by
    refine (echoing inv).compute context.concurs_self (fun asked _ => ?_) (fun _ source _ _ => ?_) trivial
    · cases replies : answers asked with
      | some type =>
        refine ⟨type, true, fun state => ?_, fun _ => asks asked type replies⟩
        simp [replying, replies, StateT.run]
      | none =>
        refine ⟨.any, false, fun state => ?_, nofun⟩
        simp [replying, replies, StateT.run]
    · exact ⟨answer source, true, fun state => by rw [Bool.and_true]; rfl, fun _ _ kept => ⟨rfl, kept⟩⟩
  obtain ⟨value, complete, is, answers⟩ := echoes
  unfold typeFrom? at found
  rw [is] at found
  cases complete with
  | true =>
    cases found
    exact answers rfl
  | false => cases found

theorem settledType?_succ (settled : context.settledType? answer depth id = some type) :
    context.settledType? answer (depth + 1) id = some type := by
  induction depth generalizing id type with
  | zero => cases settled
  | succ depth hypothesis =>
    -- The answers that are known at a depth are the answers at the next one, and no question is left open by them.
    have same : Answers (· = ⟨#[], true⟩)
        (compute context (.steady answer) (replying (context.settledType? answer (depth + 1))) id) type := by
      refine answers_of_typeFrom? settled fun asked type known state start => ?_
      rw [start]
      simp [replying, hypothesis known, StateT.run]
    obtain ⟨is, still⟩ := same ⟨#[], true⟩ rfl
    unfold settledType? typeFrom?
    dsimp only
    rw [is, still]
    rfl

theorem settledType?_mono (settled : context.settledType? answer depth id = some type) (deeper : depth ≤ depth') :
    context.settledType? answer depth' id = some type := by
  induction deeper with
  | refl => exact settled
  | step _ hypothesis => exact settledType?_succ hypothesis

theorem settledType?_unique (settled : context.settledType? answer depth id = some type)
    (settled' : context.settledType? answer depth' id = some type') : type = type' := by
  have first := settledType?_mono settled (Nat.le_max_left depth depth')
  have second := settledType?_mono settled' (Nat.le_max_right depth depth')
  exact Option.some.inj (first.symm.trans second)

end

/-! ### Slots that are open -/

/-- How many of the first slots are unknown. -/
def openSlots (count : Nat) (slots : Array Slot) : Nat :=
  (slots.toList.take count).count .unknown

section

variable {slots : Array Slot} {slot : Slot} {index count : Nat}

theorem openSlots_le (count : Nat) (slots : Array Slot) : openSlots count slots ≤ count :=
  Nat.le_trans List.count_le_length (List.length_take_le _ _)

theorem openSlots_set_le (filled : slot ≠ .unknown) (index : Nat) :
    openSlots count (slots.setIfInBounds index slot) ≤ openSlots count slots := by
  have other : (slot == .unknown) = false := by simpa using filled
  unfold openSlots
  rw [Array.toList_setIfInBounds, List.take_set]
  by_cases bound : index < (slots.toList.take count).length
  · rw [List.count_set bound, other]
    simp
  · rw [List.set_eq_of_length_le (Nat.le_of_not_lt bound)]

/-- A slot that is filled is open no more. -/
theorem openSlots_set_lt (filled : slot ≠ .unknown) (unknown : slots[index]? = some .unknown) (within : index < count) :
    openSlots count (slots.setIfInBounds index slot) < openSlots count slots := by
  have found : (slots.toList.take count)[index]? = some .unknown := by
    rw [List.getElem?_take_of_lt within, Array.getElem?_toList, unknown]
  obtain ⟨bound, is⟩ := List.getElem?_eq_some_iff.mp found
  have some : 0 < (slots.toList.take count).count .unknown :=
    List.count_pos_iff.mpr (List.mem_of_getElem? found)
  have other : (slot == .unknown) = false := by simpa using filled
  unfold openSlots
  rw [Array.toList_setIfInBounds, List.take_set, List.count_set bound, is, other]
  simpa using Nat.sub_lt some Nat.one_pos

end

/-! ### Questions in some order -/

/-- A state gives out settled types only as they are, and only some nodes are under way; there are so many others that
were not asked for yet. -/
structure Honours {σ : Type} (context : Context) (answer : String → SourceType) (pending : NodeId → Prop) (count : Nat)
    (state : TypeState σ) : Prop where
  size : state.slots.size = context.tree.size
  known : ∀ index type depth type', state.slots[index]? = some (.known type) →
    context.settledType? answer depth (.node index) = some type' → type = type'
  inProgress : ∀ index, state.slots[index]? = some .inProgress → pending (.node index)
  unknown : openSlots context.tree.size state.slots ≤ count

section

variable {σ : Type} {context : Context} {answer : String → SourceType} {pending : NodeId → Prop}
  {state : TypeState σ} {index count depth : Nat} {id : NodeId} {type : Ty}

theorem honours_initial (host : σ) : context.Honours answer pending context.tree.size (initial context.tree host) where
  size := by simp [initial]
  known index type depth type' found := by
    simp only [initial, Array.getElem?_replicate] at found
    split at found <;> simp at found
  inProgress index found := by
    simp only [initial, Array.getElem?_replicate] at found
    split at found <;> simp at found
  unknown := openSlots_le _ _

/-- A node that is taken up is under way. -/
theorem Honours.begin (honours : context.Honours answer pending count state)
    (unknown : state.slots[index]? = some .unknown) :
    0 < count ∧ context.Honours answer (fun id => pending id ∨ id = .node index) (count - 1)
      { state with slots := state.slots.setIfInBounds index .inProgress } := by
  have bound : index < context.tree.size := honours.size ▸ (Array.getElem?_eq_some_iff.mp unknown).1
  have filled : Slot.inProgress ≠ .unknown := by simp
  have fewer := openSlots_set_lt filled unknown bound
  have before := honours.unknown
  refine ⟨by omega, by simpa using honours.size, fun other type depth type' found => ?_, fun other found => ?_, ?_⟩
  · rw [Array.getElem?_setIfInBounds] at found
    split at found
    · split at found <;> simp at found
    · exact honours.known other type depth type' found
  · rw [Array.getElem?_setIfInBounds] at found
    split at found
    · rename_i same
      exact .inr (by rw [same])
    · exact .inl (honours.inProgress other found)
  · exact Nat.le_sub_one_of_lt (Nat.lt_of_lt_of_le fewer before)

/-- Its type is kept when it has been computed. -/
theorem Honours.finish (honours : context.Honours answer (fun id => pending id ∨ id = .node index) (count - 1) state)
    (type : Ty) (settled : ∀ depth type', context.settledType? answer depth (.node index) = some type' → type = type') :
    context.Honours answer pending count { state with slots := state.slots.setIfInBounds index (.known type) } where
  size := by simpa using honours.size
  known other found depth type' is known := by
    rw [Array.getElem?_setIfInBounds] at is
    split at is
    · rename_i same
      subst same
      split at is
      · cases is
        exact settled depth type' known
      · simp at is
    · exact honours.known other found depth type' is known
  inProgress other found := by
    rw [Array.getElem?_setIfInBounds] at found
    split at found
    · split at found <;> simp at found
    · rename_i apart
      refine (honours.inProgress other found).resolve_right fun same => apart ?_
      simpa using same.symm
  unknown := Nat.le_trans (openSlots_set_le (by simp) index) (Nat.le_trans honours.unknown (Nat.sub_le _ _))

/-- A node that has no form has no type either. -/
theorem settledType?_of_none (none : context.tree.form? id = none)
    (settled : context.settledType? answer depth id = some type) : type = .any := by
  cases depth with
  | zero => cases settled
  | succ depth =>
    have answers : Answers (fun _ => True)
        (compute context (.steady answer) (replying (context.settledType? answer depth)) id) type := by
      refine answers_of_typeFrom? settled fun asked type known state _ => ?_
      simp [replying, known, StateT.run]
    have same := (answers ⟨#[], true⟩ trivial).1
    simp only [compute, none] at same
    exact same.symm

/-- A settled type is given out while no node is under way that it may lead to. -/
theorem answers_of_settledType? {fuel : Nat} (settled : context.settledType? answer depth id = some type)
    (enough : count < fuel) (apart : ∀ other, pending other → context.settledType? answer depth other = none) :
    Answers (context.Honours answer pending count)
      (Typing.typeTo context (.steady answer) fuel id : TypeM σ Ty) type := by
  induction depth generalizing id type pending count fuel with
  | zero => cases settled
  | succ depth hypothesis =>
    have below (other : NodeId) (under : pending other) : context.settledType? answer depth other = none := by
      cases known : context.settledType? answer depth other with
      | none => rfl
      | some type => exact absurd (settledType?_succ known) (by simp [apart other under])
    cases known : context.settledType? answer depth id with
    | some type' =>
      cases (settledType?_unique settled known)
      exact hypothesis known enough below
    | none =>
      intro state honours
      obtain ⟨fuel, rfl⟩ : ∃ less, fuel = less + 1 := ⟨fuel - 1, by omega⟩
      cases id with
      | missing => exact ⟨(settledType?_of_none Tree.form?_missing settled).symm, honours⟩
      | node index =>
        rw [run_typeTo]
        cases found : state.slots[index]? with
        | none =>
          refine ⟨(settledType?_of_none ?_ settled).symm, honours⟩
          cases is : context.tree.form? (.node index) with
          | none => rfl
          | some form =>
            have bound : index < context.tree.size := Tree.lt_size_of_form? (by simp [is])
            rw [← honours.size] at bound
            simp [bound] at found
        | some slot =>
          cases slot with
          | inProgress => simp [apart _ (honours.inProgress index found)] at settled
          | known type' => exact ⟨honours.known index type' _ type found settled, honours⟩
          | unknown =>
            obtain ⟨some, begun⟩ := honours.begin found
            have answers : Answers (context.Honours answer (fun id => pending id ∨ id = .node index) (count - 1))
                (compute context (.steady answer) (Typing.typeTo context (.steady answer) fuel) (.node index)) type :=
              answers_of_typeFrom? settled fun asked type is => hypothesis is (by omega) fun other either =>
                either.elim (below other) (· ▸ known)
            obtain ⟨same, kept⟩ := answers _ begun
            dsimp only
            rw [same]
            exact ⟨rfl, kept.finish type fun depth type' is => settledType?_unique settled is⟩

/-- What every question keeps, the computation of a type keeps. -/
theorem settles_compute {inv : TypeState σ → Prop} {ask : NodeId → TypeM σ Ty}
    (asks : ∀ asked, Settles inv (ask asked) fun _ => True) (id : NodeId) :
    Settles inv (compute context (.steady answer) ask id) fun _ => True := by
  let keeping : Comparison σ σ :=
    { Holds := fun computation _ => Settles inv computation fun _ => True
      pure := fun _ => settles_pure trivial
      bind := fun first rest => settles_bind first fun value _ => rest value }
  have computed : keeping.Holds (compute context (.steady answer) ask id) (compute context (.steady answer) ask id) :=
    keeping.compute context.concurs_self (fun asked _ => asks asked) (fun _ _ _ _ _ kept => ⟨trivial, kept⟩) trivial
  exact computed

/-- Any question keeps what is said of settled types, while all nodes under way are without one. -/
theorem settles_typeTo {fuel : Nat} (enough : count < fuel)
    (apart : ∀ other, pending other → ∀ depth, context.settledType? answer depth other = none) :
    Settles (context.Honours answer pending count)
      (Typing.typeTo context (.steady answer) fuel id : TypeM σ Ty) fun _ => True := by
  induction fuel generalizing id pending count with
  | zero => omega
  | succ fuel hypothesis =>
    by_cases settled : ∃ depth type, context.settledType? answer depth id = some type
    · obtain ⟨depth, type, settled⟩ := settled
      have answers : Answers (context.Honours answer pending count)
          (Typing.typeTo context (.steady answer) (fuel + 1) id : TypeM σ Ty) type :=
        answers_of_settledType? settled enough fun other under => apart other under depth
      exact fun state honours => ⟨trivial, (answers state honours).2⟩
    · have open' (depth : Nat) : context.settledType? answer depth id = none := by
        cases known : context.settledType? answer depth id with
        | none => rfl
        | some type => exact absurd ⟨depth, type, known⟩ settled
      intro state honours
      cases id with
      | missing => exact ⟨trivial, honours⟩
      | node index =>
        rw [run_typeTo]
        cases found : state.slots[index]? with
        | none => exact ⟨trivial, honours⟩
        | some slot =>
          cases slot with
          | inProgress | known type' => exact ⟨trivial, honours⟩
          | unknown =>
            obtain ⟨some, begun⟩ := honours.begin found
            have computed : Settles (context.Honours answer (fun id => pending id ∨ id = .node index) (count - 1))
                (compute context (.steady answer) (Typing.typeTo context (.steady answer) fuel) (.node index))
                fun _ => True :=
              settles_compute (fun _ => hypothesis (by omega) fun other either =>
                either.elim (apart other) (· ▸ open')) (.node index)
            exact ⟨trivial, (computed _ begun).2.finish _ fun depth type' is => by simp [open'] at is⟩

/-- A type that is known stays known. -/
theorem settles_known {other : Nat} (fuel : Nat) (id : NodeId) :
    Settles (fun state : TypeState σ => state.slots[other]? = some (.known type))
      (Typing.typeTo context (.steady answer) fuel id) fun _ => True := by
  induction fuel generalizing id with
  | zero => exact settles_pure trivial
  | succ fuel hypothesis =>
    intro state known
    cases id with
    | missing => exact ⟨trivial, known⟩
    | node index =>
      rw [run_typeTo]
      cases found : state.slots[index]? with
      | none => exact ⟨trivial, known⟩
      | some slot =>
        cases slot with
        | inProgress | known type' => exact ⟨trivial, known⟩
        | unknown =>
          have apart : index ≠ other := by
            rintro rfl
            simp [known] at found
          have computed : Settles (fun state : TypeState σ => state.slots[other]? = some (.known type))
              (compute context (.steady answer) (Typing.typeTo context (.steady answer) fuel) (.node index))
              fun _ => True :=
            settles_compute hypothesis (.node index)
          have kept := computed { state with slots := state.slots.setIfInBounds index .inProgress }
            ((Array.getElem?_setIfInBounds_ne apart).trans known)
          exact ⟨trivial, (Array.getElem?_setIfInBounds_ne apart).trans kept.2⟩

end

/-! ### Sequences of questions -/

/-- What is known when the types of some nodes were asked for, one after the other. -/
def stateAfter {σ : Type} (context : Context) (lookup : SourceLookup σ) (host : σ) (asked : List NodeId) : TypeState σ :=
  asked.foldl (fun state id => ((typeOf context lookup id).run state).2) (initial context.tree host)

/-- The type that is given out for a node when the types of others were asked for before. -/
def typeAfter {σ : Type} (context : Context) (lookup : SourceLookup σ) (host : σ) (asked : List NodeId) (id : NodeId) :
    Ty :=
  ((typeOf context lookup id).run (context.stateAfter lookup host asked)).1

section

variable {σ : Type} {context : Context} {answer : String → SourceType} {lookup : SourceLookup σ}

theorem stateAfter_append (host : σ) (asked later : List NodeId) :
    context.stateAfter lookup host (asked ++ later) =
      later.foldl (fun state id => ((typeOf context lookup id).run state).2) (context.stateAfter lookup host asked) :=
  List.foldl_append

/-- What every question keeps, a sequence of questions keeps. -/
theorem foldl_keeps {inv : TypeState σ → Prop} (keeps : ∀ id, Settles inv (typeOf context lookup id) fun _ => True)
    (asked : List NodeId) {state : TypeState σ} (holds : inv state) :
    inv (asked.foldl (fun state id => ((typeOf context lookup id).run state).2) state) := by
  induction asked generalizing state with
  | nil => exact holds
  | cons id asked hypothesis => exact hypothesis (keeps id state holds).2

theorem honours_stateAfter (host : σ) (asked : List NodeId) :
    context.Honours answer (fun _ => False) context.tree.size
      (context.stateAfter (.steady answer) host asked) :=
  foldl_keeps (fun _ => settles_typeTo (Nat.lt_succ_self _) fun _ under => under.elim) asked (honours_initial host)

/-- What is given out for a node is known from then on, unless there is no such node. -/
theorem known_of_typeOf {state : TypeState σ} {index : Nat}
    (honours : context.Honours answer (fun _ => False) context.tree.size state) :
    let given := (typeOf context (.steady answer) (.node index)).run state
    state.slots[index]? = none ∨ given.2.slots[index]? = some (.known given.1) := by
  intro given
  have run : given = _ := run_typeTo (.steady answer) context.tree.size
  have size : given.2.slots.size = context.tree.size :=
    (settles_typeTo (Nat.lt_succ_self _) (fun _ under => under.elim) state honours).2.size
  cases found : state.slots[index]? with
  | none => exact .inl rfl
  | some slot =>
    right
    have bound : index < given.2.slots.size := by
      rw [size, ← honours.size]
      exact (Array.getElem?_eq_some_iff.mp found).1
    rw [found] at run
    cases slot with
    | inProgress => exact (honours.inProgress index found).elim
    | known type =>
      rw [run]
      exact found
    | unknown =>
      rw [run] at bound ⊢
      exact Array.getElem?_setIfInBounds_self_of_lt (by simpa using bound)

theorem typeOf_of_slot {state : TypeState σ} {index : Nat} :
    (state.slots[index]? = none → ((typeOf context lookup (.node index)).run state).1 = .any) ∧
      ∀ type, state.slots[index]? = some (.known type) → ((typeOf context lookup (.node index)).run state).1 = type := by
  have run := @run_typeTo σ context state index lookup context.tree.size
  refine ⟨fun none => ?_, fun type known => ?_⟩
  · rw [none] at run
    exact congrArg Prod.fst run
  · rw [known] at run
    exact congrArg Prod.fst run

end

/-- Whoever else was asked about before, a node has the type that follows from questions none of which is left open; and
whatever type was given out for a node is given out for it from then on. -/
theorem typeAfter_settled {σ : Type} (context : Context) (answer : String → SourceType) (host : σ) (id : NodeId) :
    let typeAfter := context.typeAfter (.steady answer) host
    (∀ depth type, context.settledType? answer depth id = some type → ∀ asked, typeAfter asked id = type) ∧
      ∀ asked later, typeAfter (asked ++ id :: later) id = typeAfter asked id := by
  refine ⟨fun depth type settled asked => ?_, fun asked later => ?_⟩
  · exact (answers_of_settledType? settled (Nat.lt_succ_self _) (fun _ under => under.elim) _
      (honours_stateAfter host asked)).1
  · cases id with
    | missing => rfl
    | node index =>
      have honours := @honours_stateAfter σ context answer host asked
      have honours' := @honours_stateAfter σ context answer host (asked ++ .node index :: later)
      rcases known_of_typeOf honours with absent | known
      · have absent' : (context.stateAfter (.steady answer) host
            (asked ++ .node index :: later)).slots[index]? = none := by
          rw [Array.getElem?_eq_none_iff] at absent ⊢
          rwa [honours'.size, ← honours.size]
        exact (typeOf_of_slot.1 absent').trans (typeOf_of_slot.1 absent).symm
      · have kept := @foldl_keeps σ context (.steady answer) _ (settles_known context.tree.height) later _ known
        have after := @stateAfter_append σ context (.steady answer) host asked (.node index :: later)
        exact typeOf_of_slot.2 _ (after ▸ kept)

/-- A function that calls itself without an end, and a sum. -/
def endless : Tree where
  nodes := #[
    ⟨.bind "n" .missing none false, ⟨0, 1⟩⟩,
    ⟨.reference "f", ⟨1, 2⟩⟩,
    ⟨.reference "n", ⟨2, 3⟩⟩,
    ⟨.call (.node 1) ⟨0, 1⟩, ⟨1, 4⟩⟩,
    ⟨.function "" ⟨1, 1⟩ (.node 3) none, ⟨0, 5⟩⟩,
    ⟨.bind "f" (.node 4) none false, ⟨0, 6⟩⟩,
    ⟨.number "3" .unitless, ⟨6, 7⟩⟩,
    ⟨.number "4" .unitless, ⟨7, 8⟩⟩,
    ⟨.binary .add (.node 6) (.node 7), ⟨6, 9⟩⟩,
    ⟨.block ⟨2, 2⟩, ⟨0, 10⟩⟩,
    ⟨.program (.node 9), ⟨0, 11⟩⟩]
  lists := #[.node 2, .node 0, .node 5, .node 8]
  root := .node 10

/-- The sum is a number, whatever was asked about the function before. -/
theorem type_of_sum_settled :
    let context := ofTree endless .standard []
    context.settledType? (fun _ => .missing) 4 endless.root = some .plainNumber ∧
      ∀ asked, context.typeAfter (fun _ => pure .missing) () asked endless.root = .plainNumber := by
  intro context
  have settled : context.settledType? (fun _ => .missing) 4 endless.root = some .plainNumber := by decide +kernel
  exact ⟨settled, (typeAfter_settled context (fun _ => .missing) () endless.root).1 4 .plainNumber settled⟩

/-- What the type of the name is depends on whether the question starts there or at the function. -/
theorem type_depends_on_order :
    let context := ofTree endless .standard []
    Line.parse false "f: ƒ(n) f(n)\n3 + 4" = .ok endless ∧
      context.typeAfter .none () [.node 4] (.node 5) = .any ∧
      context.typeAfter .none () [.node 5] (.node 5) = .function [.any] .any := by
  refine ⟨?_, ?_, ?_⟩ <;> decide +kernel

end Context

end Rivulet
