import Rivulet.Proofs.Typing.Order

/-!
Questions for types come to an end. Every question that is not answered at once takes up a node whose slot was unknown,
so there are no more of them than unknown slots, however definitions refer to each other. What happens on the way is told
by a journal that is kept beside the computation (`journaledTo`).

Main statement: `typeOf_clean`.
-/

namespace Rivulet

namespace Typing

/-- What happens in the course of a question besides its answer: the nodes whose types are computed, by position and in
the order in which they are taken up, and whether a question was cut short. -/
structure Journal where
  computed : List Nat
  cutShort : Bool
deriving DecidableEq, Repr

/-- A journal in which nothing happened. -/
def Journal.empty : Journal :=
  ⟨[], false⟩

/-- A journal after a node was taken up. -/
def Journal.takeUp (journal : Journal) (index : Nat) : Journal :=
  { journal with computed := journal.computed ++ [index] }

end Typing

open Typing

/-- The same answers about sources, with a journal beside them. -/
def SourceLookup.journaled {σ : Type} (lookup : SourceLookup σ) : SourceLookup (Journal × σ) :=
  fun source host => ((lookup source host.2).1, host.1, (lookup source host.2).2)

namespace Typing

variable {σ : Type}

/-- The type of a node, asking for other types down to a depth, with a journal beside it. -/
def journaledTo (context : Context) (lookup : SourceLookup σ) : Nat → NodeId → TypeM (Journal × σ) Ty
  | 0, _ => fun state => (.any, { state with host := ({ state.host.1 with cutShort := true }, state.host.2) })
  | _ + 1, .missing => pure .any
  | depth + 1, .node index => do
    match (← get).slots[index]? with
    | none | some .inProgress => pure .any
    | some (.known type) => pure type
    | some .unknown =>
      modify fun state => { state with host := (state.host.1.takeUp index, state.host.2) }
      setSlot index .inProgress
      let type ← compute context lookup.journaled (journaledTo context lookup depth) (.node index)
      setSlot index (.known type)
      pure type

/-- A state without the journal. -/
def unjournaled (state : TypeState (Journal × σ)) : TypeState σ :=
  ⟨state.slots, state.host.2⟩

/-- A state with an empty journal. -/
def journaling (state : TypeState σ) : TypeState (Journal × σ) :=
  ⟨state.slots, .empty, state.host⟩

/-- A state in which a node is taken up. -/
def taking (index : Nat) (state : TypeState (Journal × σ)) : TypeState (Journal × σ) :=
  ⟨state.slots.setIfInBounds index .inProgress, state.host.1.takeUp index, state.host.2⟩

theorem run_journaledTo {context : Context} {state : TypeState (Journal × σ)} {index : Nat} (lookup : SourceLookup σ)
    (depth : Nat) :
    (journaledTo context lookup (depth + 1) (.node index)).run state =
      match state.slots[index]? with
      | none | some .inProgress => (.any, state)
      | some (.known type) => (type, state)
      | some .unknown =>
        let made := (compute context lookup.journaled (journaledTo context lookup depth) (.node index)).run
          (taking index state)
        (made.1, { made.2 with slots := made.2.slots.setIfInBounds index (.known made.1) }) := by
  rw [journaledTo]
  change (match state.slots[index]? with
    | none | some .inProgress => pure .any
    | some (.known type) => pure type
    | some .unknown => _ : TypeM (Journal × σ) Ty) state = _
  cases state.slots[index]? with
  | none => rfl
  | some slot => cases slot <;> rfl

/-! ### What a part of a question leaves behind -/

/-- One state follows another one in the course of a question: slots are only filled with types, no question was cut
short, and the nodes that were taken up in between are those that have a type now and had none, each once. -/
structure Follows (before after : TypeState (Journal × σ)) : Prop where
  size : after.slots.size = before.slots.size
  kept : ∀ (index : Nat) (slot : Slot), before.slots[index]? = some slot → slot ≠ .unknown →
    after.slots[index]? = some slot
  filled : ∀ index : Nat, before.slots[index]? = some .unknown →
    after.slots[index]? = some .unknown ∨ ∃ type, after.slots[index]? = some (.known type)
  fewer : ∀ count, Context.openSlots count after.slots ≤ Context.openSlots count before.slots
  cutShort : after.host.1.cutShort = before.host.1.cutShort
  computed : ∃ more : List Nat, after.host.1.computed = before.host.1.computed ++ more ∧ more.Nodup ∧
    ∀ index, index ∈ more ↔
      before.slots[index]? = some .unknown ∧ ∃ type, after.slots[index]? = some (.known type)

variable {before middle after state : TypeState (Journal × σ)} {index : Nat}

theorem Follows.refl (state : TypeState (Journal × σ)) : Follows state state where
  size := rfl
  kept _ _ found _ := found
  filled _ := .inl
  fewer _ := Nat.le_refl _
  cutShort := rfl
  computed := by
    refine ⟨[], (List.append_nil _).symm, List.nodup_nil, fun index => ⟨nofun, ?_⟩⟩
    rintro ⟨unknown, type, known⟩
    cases unknown.symm.trans known

/-- No slot is emptied. -/
theorem Follows.unknown (follows : Follows before after) (unknown : after.slots[index]? = some .unknown) :
    before.slots[index]? = some .unknown := by
  cases found : before.slots[index]? with
  | none =>
    rw [Array.getElem?_eq_none_iff, ← follows.size, ← Array.getElem?_eq_none_iff] at found
    cases found.symm.trans unknown
  | some slot =>
    by_cases other : slot = .unknown
    · rw [other]
    · cases (follows.kept index slot found other).symm.trans unknown
      exact absurd rfl other

/-- Where no type is being computed before, none is afterwards. -/
theorem Follows.idle (follows : Follows before after) (idle : ∀ index : Nat, before.slots[index]? ≠ some .inProgress)
    (index : Nat) : after.slots[index]? ≠ some .inProgress := by
  intro open'
  cases found : before.slots[index]? with
  | none =>
    rw [Array.getElem?_eq_none_iff, ← follows.size, ← Array.getElem?_eq_none_iff] at found
    cases found.symm.trans open'
  | some slot =>
    by_cases unknown : slot = .unknown
    · rcases follows.filled index (unknown ▸ found) with still | ⟨type, known⟩
      · cases still.symm.trans open'
      · cases known.symm.trans open'
    · cases (follows.kept index slot found unknown).symm.trans open'
      exact idle index found

theorem Follows.trans (first : Follows before middle) (second : Follows middle after) : Follows before after where
  size := second.size.trans first.size
  kept index slot found other := second.kept index slot (first.kept index slot found other) other
  filled index unknown := by
    rcases first.filled index unknown with still | ⟨type, known⟩
    · exact second.filled index still
    · exact .inr ⟨type, second.kept index _ known nofun⟩
  fewer count := Nat.le_trans (second.fewer count) (first.fewer count)
  cutShort := second.cutShort.trans first.cutShort
  computed := by
    obtain ⟨more, is, once, iff⟩ := first.computed
    obtain ⟨more', is', once', iff'⟩ := second.computed
    refine ⟨more ++ more', by rw [is', is, List.append_assoc], ?_, fun index => ?_⟩
    · refine List.nodup_append.mpr ⟨once, once', fun index among other among' same => ?_⟩
      subst same
      obtain ⟨-, type, known⟩ := (iff index).mp among
      cases known.symm.trans ((iff' index).mp among').1
    · rw [List.mem_append, iff, iff']
      constructor
      · rintro (⟨unknown, type, known⟩ | ⟨unknown, known⟩)
        · exact ⟨unknown, type, second.kept index _ known nofun⟩
        · exact ⟨first.unknown unknown, known⟩
      · rintro ⟨unknown, known⟩
        rcases first.filled index unknown with still | now
        · exact .inr ⟨still, known⟩
        · exact .inl ⟨unknown, now⟩

/-- A node whose type is computed in between was taken up before anything else, and has a type in the end. -/
theorem follows_taking {made : TypeState (Journal × σ)} (unknown : state.slots[index]? = some .unknown)
    (follows : Follows (taking index state) made) (type : Ty) :
    Follows state { made with slots := made.slots.setIfInBounds index (.known type) } := by
  have bound : index < state.slots.size := (Array.getElem?_eq_some_iff.mp unknown).1
  have bound' : index < made.slots.size := by simpa [follows.size, taking] using bound
  have other {index' : Nat} (apart : index' ≠ index) :
      (taking index state).slots[index']? = state.slots[index']? ∧
        (made.slots.setIfInBounds index (.known type))[index']? = made.slots[index']? :=
    ⟨Array.getElem?_setIfInBounds_ne apart.symm, Array.getElem?_setIfInBounds_ne apart.symm⟩
  have here : (taking index state).slots[index]? = some .inProgress := Array.getElem?_setIfInBounds_self_of_lt bound
  have here' : (made.slots.setIfInBounds index (.known type))[index]? = some (.known type) :=
    Array.getElem?_setIfInBounds_self_of_lt bound'
  refine ⟨by simpa [taking] using follows.size, fun index' slot found filled => ?_, fun index' unknown' => ?_,
    fun count => ?_, follows.cutShort, ?_⟩
  · by_cases same : index' = index
    · subst same
      cases found.symm.trans unknown
      exact absurd rfl filled
    · rw [(other same).2]
      exact follows.kept index' slot ((other same).1.trans found) filled
  · by_cases same : index' = index
    · subst same
      exact .inr ⟨type, here'⟩
    · rw [(other same).2]
      exact follows.filled index' ((other same).1.trans unknown')
  · have last := @Context.openSlots_set_le made.slots (.known type) count (by simp) index
    have first := @Context.openSlots_set_le state.slots .inProgress count (by simp) index
    exact Nat.le_trans last (Nat.le_trans (follows.fewer count) first)
  · obtain ⟨more, is, once, iff⟩ := follows.computed
    refine ⟨index :: more, by simp [is, taking, Journal.takeUp], List.nodup_cons.mpr ⟨fun among => ?_, once⟩, ?_⟩
    · cases here.symm.trans ((iff index).mp among).1
    · intro index'
      rw [List.mem_cons]
      by_cases same : index' = index
      · subst same
        exact ⟨fun _ => ⟨unknown, type, here'⟩, fun _ => .inl rfl⟩
      · rw [(other same).2, ← (other same).1, ← iff]
        exact or_iff_right same

/-! ### Questions with and without a journal -/

section

variable {context : Context} {lookup : SourceLookup σ}

/-- Where only so many slots are open a computation with a journal does what one without does, and leaves behind what
part of a question does. -/
def journals (context : Context) (count : Nat) : Comparison (Journal × σ) σ where
  Holds first second := ∀ state : TypeState (Journal × σ), Context.openSlots context.tree.size state.slots ≤ count →
    state.slots.size = context.tree.size →
    (first.run state).1 = (second.run (unjournaled state)).1 ∧
      unjournaled (first.run state).2 = (second.run (unjournaled state)).2 ∧ Follows state (first.run state).2
  pure _ state _ _ := ⟨rfl, rfl, .refl state⟩
  bind := by
    intro α β first second next next' holds rest state few size
    obtain ⟨same, still, follows⟩ := holds state few size
    obtain ⟨same', still', follows'⟩ :=
      rest (first.run state).1 (first.run state).2 (Nat.le_trans (follows.fewer _) few) (follows.size.trans size)
    have run : (first >>= next).run state = (next (first.run state).1).run (first.run state).2 := rfl
    have run' : (second >>= next').run (unjournaled state) =
        (next' (second.run (unjournaled state)).1).run (second.run (unjournaled state)).2 := rfl
    rw [run, run', ← same, ← still]
    exact ⟨same', still', follows.trans follows'⟩

/-- It does not matter how far down a question may go, as long as that is further than there are open slots. -/
theorem journals_typeTo {count depth depth' : Nat} (enough : count < depth) (enough' : count < depth') (id : NodeId) :
    (journals context count).Holds (journaledTo context lookup depth id) (typeTo context lookup depth' id) := by
  induction depth generalizing count depth' id with
  | zero => omega
  | succ depth hypothesis =>
    obtain ⟨depth', rfl⟩ : ∃ less, depth' = less + 1 := ⟨depth' - 1, by omega⟩
    intro state few size
    cases id with
    | missing => exact ⟨rfl, rfl, .refl state⟩
    | node index =>
      have run' := @Context.run_typeTo σ context (unjournaled state) index lookup depth'
      rw [run_journaledTo, run']
      have slots : (unjournaled state).slots = state.slots := rfl
      rw [slots]
      cases found : state.slots[index]? with
      | none => exact ⟨rfl, rfl, .refl state⟩
      | some slot =>
        cases slot with
        | inProgress | known type => exact ⟨rfl, rfl, .refl state⟩
        | unknown =>
          have bound : index < context.tree.size := size ▸ (Array.getElem?_eq_some_iff.mp found).1
          have fewer : Context.openSlots context.tree.size (taking index state).slots <
              Context.openSlots context.tree.size state.slots :=
            Context.openSlots_set_lt (by simp) found bound
          have computed : (journals context (count - 1)).Holds
              (compute context lookup.journaled (journaledTo context lookup depth) (.node index))
              (compute context lookup (typeTo context lookup depth') (.node index)) :=
            (journals context (count - 1)).compute context.concurs_self
              (fun asked _ => hypothesis (by omega) (by omega) asked)
              (fun _ source _ _ state _ _ => ⟨rfl, rfl, ⟨rfl, fun _ _ found _ => found, fun _ => .inl,
                fun _ => Nat.le_refl _, rfl, (Follows.refl state).computed⟩⟩) trivial
          obtain ⟨same, still, follows⟩ := computed (taking index state) (by omega) (by simpa [taking] using size)
          dsimp only
          refine ⟨same, ?_, follows_taking found follows _⟩
          let made := (compute context lookup.journaled (journaledTo context lookup depth) (.node index)).run
            (taking index state)
          change { unjournaled made.2 with slots := (unjournaled made.2).slots.setIfInBounds index (.known made.1) } = _
          rw [still, same]
          rfl

/-- What is answered for a node is known afterwards. -/
theorem known_of_answered {state : TypeState σ} (inside : index < state.slots.size)
    (idle : state.slots[index]? ≠ some .inProgress)
    (size : ((typeOf context lookup (.node index)).run state).2.slots.size = state.slots.size) :
    ((typeOf context lookup (.node index)).run state).2.slots[index]? =
      some (.known ((typeOf context lookup (.node index)).run state).1) := by
  have run : (typeOf context lookup (.node index)).run state = _ := Context.run_typeTo lookup context.tree.size
  have found : state.slots[index]? = some state.slots[index] := Array.getElem?_eq_getElem inside
  cases slot : state.slots[index] with
  | inProgress => exact absurd (slot ▸ found) idle
  | known type =>
    rw [slot] at found
    rw [found] at run
    rw [run]
    exact found
  | unknown =>
    rw [slot] at found
    rw [found] at run
    rw [run] at size ⊢
    rw [← size] at inside
    exact Array.getElem?_setIfInBounds_self_of_lt (by simpa using inside)

end

/-- A question for a type, asked when no type is being computed, comes to an end by itself, and to the same end however
deep it might go. It computes the type of a node once at most, and only if it was unknown before and is known
afterwards. It leaves no slot in progress and changes none that was known, and what it answers for a node is known
then. -/
theorem typeOf_clean {σ : Type} (context : Context) (lookup : SourceLookup σ) (id : NodeId) (state : TypeState σ)
    (size : state.slots.size = context.tree.size) (idle : ∀ index : Nat, state.slots[index]? ≠ some .inProgress) :
    let asked := (typeOf context lookup id).run state
    let journaled := (journaledTo context lookup context.tree.height id).run (journaling state)
    let journal := journaled.2.host.1
    (journaled.1 = asked.1 ∧ unjournaled journaled.2 = asked.2) ∧ journal.cutShort = false ∧
      (∀ depth, context.tree.height ≤ depth → (typeTo context lookup depth id).run state = asked) ∧
      journal.computed.Nodup ∧
      (∀ index, index ∈ journal.computed ↔
        state.slots[index]? = some .unknown ∧ ∃ type, asked.2.slots[index]? = some (.known type)) ∧
      (∀ index : Nat, asked.2.slots[index]? ≠ some .inProgress) ∧
      (∀ (index : Nat) (type : Ty), state.slots[index]? = some (.known type) →
        asked.2.slots[index]? = some (.known type)) ∧
      ∀ index, id = .node index → index < context.tree.size → asked.2.slots[index]? = some (.known asked.1) := by
  intro asked journaled journal
  have few : Context.openSlots context.tree.size state.slots ≤ context.tree.size := Context.openSlots_le _ _
  have each (depth : Nat) (deep : context.tree.height ≤ depth) :=
    @journals_typeTo σ context lookup context.tree.size context.tree.height depth (Nat.lt_succ_self _) deep id
      (journaling state) few size
  obtain ⟨same, still, follows⟩ := each context.tree.height (Nat.le_refl _)
  have slots : journaled.2.slots = asked.2.slots := congrArg TypeState.slots still
  obtain ⟨more, computed, once, iff⟩ := follows.computed
  have all : journal.computed = more := computed
  refine ⟨⟨same, still⟩, follows.cutShort, fun depth deep => ?_, all ▸ once, fun index => ?_, fun index => ?_,
    fun index type known => ?_, fun index is bound => ?_⟩
  · obtain ⟨same', still', -⟩ := each depth deep
    exact Prod.ext (same'.symm.trans same) (still'.symm.trans still)
  · rw [all, ← slots]
    exact iff index
  · rw [← slots]
    exact follows.idle idle index
  · rw [← slots]
    exact follows.kept index _ known nofun
  · subst is
    refine known_of_answered (size ▸ bound) (idle index) ?_
    exact (congrArg Array.size slots).symm.trans follows.size

/-- Two functions that call each other, one inside the other. -/
def entangled : Tree where
  nodes := #[
    ⟨.reference "f", ⟨0, 1⟩⟩,
    ⟨.call (.node 0) ⟨0, 0⟩, ⟨0, 2⟩⟩,
    ⟨.function "" ⟨0, 0⟩ (.node 1) none, ⟨0, 3⟩⟩,
    ⟨.bind "g" (.node 2) none false, ⟨0, 4⟩⟩,
    ⟨.reference "g", ⟨4, 5⟩⟩,
    ⟨.call (.node 4) ⟨0, 0⟩, ⟨4, 6⟩⟩,
    ⟨.block ⟨0, 2⟩, ⟨0, 7⟩⟩,
    ⟨.function "" ⟨2, 0⟩ (.node 6) none, ⟨0, 8⟩⟩,
    ⟨.bind "f" (.node 7) none false, ⟨0, 9⟩⟩,
    ⟨.block ⟨2, 1⟩, ⟨0, 10⟩⟩,
    ⟨.program (.node 9), ⟨0, 11⟩⟩]
  lists := #[.node 3, .node 5, .node 8]
  root := .node 10

/-- The question for the type of the outer function comes back to it by way of the inner one, and ends there. -/
theorem typeOf_entangled :
    let context := Context.ofTree entangled .standard []
    let state := initial entangled ()
    let asked := (typeOf context .none (.node 8)).run state
    let journal := ((journaledTo context .none context.tree.height (.node 8)).run (journaling state)).2.host.1
    journal = ⟨[8, 7, 6, 5, 4, 3, 2, 1, 0], false⟩ ∧ journal.computed.Nodup ∧
      (∀ index : Nat, asked.2.slots[index]? ≠ some .inProgress) ∧
      asked.2.slots[8]? = some (.known (.function [] .any)) := by
  intro context state
  have idle (index : Nat) : state.slots[index]? ≠ some .inProgress := by
    simp only [state, initial, Array.getElem?_replicate]
    split <;> simp
  have size : state.slots.size = context.tree.size := Array.size_replicate
  have type : ((typeOf context .none (.node 8)).run state).1 = .function [] .any := by decide +kernel
  obtain ⟨-, -, -, once, -, settled, -, known⟩ := typeOf_clean context .none (.node 8) state size idle
  exact ⟨by decide +kernel, once, settled, type ▸ known 8 rfl (by decide +kernel)⟩

end Typing

end Rivulet
