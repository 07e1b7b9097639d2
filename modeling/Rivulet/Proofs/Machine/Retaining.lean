import Rivulet.Proofs.Machine.Stepping

/-!
Scopes that an evaluation leaves alone. A frame starts in a new scope, goes into further ones, and comes back from no
more of them than it went into; and it only ever writes to the scope that it is in, unless it is that of a native, which
may also write to an outermost one. So if none of some scopes is one that a frame is in, or one that it may come back to,
or an outermost one, then none of them ever is, and all of them stay as they are (`retaining`).
-/

namespace Rivulet

namespace Store

/-- Whether neither a scope nor as many scopes around it are among some. -/
def Clear (kept : ScopeId → Prop) (store : Store) : Nat → ScopeId → Prop
  | 0, id => ¬ kept id
  | level + 1, id => ¬ kept id ∧ ∃ outer, store.parent? id = some outer ∧ store.Clear kept level outer

/-- A store that keeps some scopes of another one as they are, and may have more. -/
structure Retains (kept : ScopeId → Prop) (first store : Store) : Prop where
  size : first.scopes.size ≤ store.scopes.size
  older : ∀ id, kept id → id < first.scopes.size
  kept : ∀ id, kept id → store.scopes[id]? = first.scopes[id]?

variable {calm : Prop} {kept kept' : ScopeId → Prop} {first store store' : Store} {own id : ScopeId} {level : Nat}

theorem Clear.apart (clear : store.Clear kept level id) : ¬ kept id := by
  cases level with
  | zero => exact clear
  | succ level => exact clear.1

theorem Clear.evolves (clear : store.Clear kept level id) (evolves : store.Evolves calm own store') :
    store'.Clear kept level id := by
  induction level generalizing id with
  | zero => exact clear
  | succ level hypothesis =>
    obtain ⟨apart, outer, around, clear⟩ := clear
    obtain ⟨found, there, -⟩ := Option.bind_eq_some_iff.mp around
    exact ⟨apart, outer, (evolves.parent id (lt_size_of_getElem? there)).trans around, hypothesis clear⟩

/-- In nested scopes none is clear of more than it lies in, so new scopes are not in the way. -/
theorem Clear.with_later (nested : store.Nested) {bound : Nat} (clear : store.Clear kept level id) (older : id < bound)
    (same : ∀ id, id < bound → kept' id → kept id) : store.Clear kept' level id := by
  induction level generalizing id with
  | zero => exact fun there => clear (same id older there)
  | succ level hypothesis =>
    obtain ⟨apart, outer, around, clear⟩ := clear
    exact ⟨fun there => apart (same id older there), outer, around,
      hypothesis clear (Nat.lt_trans (nested id outer around) older)⟩

theorem Retains.fresh (retains : first.Retains kept store) : ¬ kept store.scopes.size :=
  fun among => Nat.not_lt.mpr retains.size (retains.older _ among)

/-- Only what is written to changes. -/
theorem Retains.written (retains : first.Retains kept store) (size : store.scopes.size ≤ store'.scopes.size)
    (others : store.KeepsOthers own store') (apart : ¬ kept own) : first.Retains kept store' where
  size := Nat.le_trans retains.size size
  older := retains.older
  kept id among := by
    have there := Array.getElem?_eq_getElem (Nat.lt_of_lt_of_le (retains.older id among) retains.size)
    have other : id ≠ own := by
      rintro rfl
      exact apart among
    rw [← retains.kept id among, there]
    exact others id _ other there

/-- Natives leave some scopes alone: they bind no names at all, or all of the scopes lie in others. -/
def Spares (calm : Prop) (first : Store) (kept : ScopeId → Prop) : Prop :=
  calm ∨ ∀ id, kept id → (first.parent? id).isSome

/-- A store that evolves keeps the scopes that natives leave alone and that are not written to. -/
theorem Retains.evolves (retains : first.Retains kept store) (spares : first.Spares calm kept)
    (evolves : store.Evolves calm own store') (apart : ¬ kept own) : first.Retains kept store' := by
  rcases spares with quiet | inner
  · exact retains.written evolves.size (evolves.others quiet) apart
  · refine ⟨Nat.le_trans retains.size evolves.size, retains.older, fun id among => ?_⟩
    have there := Array.getElem?_eq_getElem (Nat.lt_of_lt_of_le (retains.older id among) retains.size)
    have around := inner id among
    rw [Store.parent?, ← retains.kept id among, there, Option.bind_some] at around
    obtain ⟨found', there', -, same⟩ := evolves.inner id _ there
    have other : id ≠ own := by
      rintro rfl
      exact apart among
    rw [← retains.kept id among, there, there', same around other]

end Store

namespace Machine

/-- A frame that is clear of some scopes as far out as its steps have led in. -/
structure IsClear (tree : Tree) (natives : Natives) (kept : ScopeId → Prop) (store : Store) (frame : Frame) : Prop where
  sequence : tree.IsSequence natives frame.steps
  clear : ∃ level : Nat, tree.ascent (frame.steps.toList.take frame.cursor) = level ∧
    store.Clear kept level frame.scope

section

variable {tree : Tree} {natives : Natives} {law : Law tree natives} {limits : Limits} {kept : ScopeId → Prop}
  {own : ScopeId} {store store' : Store} {frame frame' : Frame} {step : Step} {flow : Flow} {depth level : Nat}

theorem IsClear.grown {calm : Prop} (clear : IsClear tree natives kept store frame)
    (evolves : store.Evolves calm own store') : IsClear tree natives kept store' frame := by
  obtain ⟨sequence, level, is, clear⟩ := clear
  exact ⟨sequence, level, is, clear.evolves evolves⟩

theorem IsClear.push (clear : IsClear tree natives kept store frame) (value : Value) :
    IsClear tree natives kept store (frame.push value) :=
  ⟨clear.sequence, clear.clear⟩

/-- Where a step leads is as deep as it rises. -/
theorem clear_scopeFrom (fresh : ∀ id, step = .enter id → ¬ kept store.scopes.size)
    (clear : store.Clear kept level frame.scope)
    (move : Move law limits step depth store frame store' frame' (.ok flow))
    (covered : 0 ≤ (level : Int) + step.rise tree) :
    ∃ level' : Nat, (level' : Int) = level + step.rise tree ∧ store'.Clear kept level' frame'.scope := by
  have evolves := move.evolves
  rw [move.scope]
  cases step with
  | enter id =>
    refine ⟨level + 1, by simp, fresh id rfl, frame.scope, ?_, clear.evolves evolves⟩
    rw [move.entered id rfl]
    exact Store.parent?_add_self store ⟨[], some frame.scope⟩
  | finish id =>
    cases leaves : (Step.finish id).leaves tree with
    | false =>
      have flat : (Step.finish id).rise tree = 0 := by simp [Step.rise, leaves]
      refine ⟨level, by simp [flat], ?_⟩
      rw [Step.scopeFrom_of_flat flat]
      exact clear.evolves evolves
    | true =>
      have down : (Step.finish id).rise tree = -1 := by simp [Step.rise, leaves]
      rw [down] at covered ⊢
      cases level with
      | zero => omega
      | succ level =>
        obtain ⟨-, outer, around, clear⟩ := clear
        refine ⟨level, by omega, ?_⟩
        show store'.Clear kept level (if (Step.finish id).leaves tree then (store.parent? frame.scope).getD frame.scope
          else frame.scope)
        rw [leaves, if_pos rfl, around]
        exact clear.evolves evolves
  | _ => exact ⟨level, by simp [Step.rise], clear.evolves evolves⟩

/-- A frame stays clear as far out as its steps lead in. -/
theorem IsClear.moved (fresh : ∀ id, step = .enter id → ¬ kept store.scopes.size)
    (clear : IsClear tree natives kept store frame) (current : frame.current? = some step)
    (move : Move law limits step depth store frame store' frame' (.ok flow)) :
    IsClear tree natives kept store' frame'.advance := by
  obtain ⟨sequence, level, is, clear⟩ := clear
  have there : frame.steps[frame.cursor]? = some step := current
  have next : tree.ascent (frame.steps.toList.take (frame.cursor + 1)) = level + step.rise tree := by
    rw [List.take_add_one, Array.getElem?_toList, there, Tree.ascent_append, is]
    simp
  have reached : tree.ascent (frame.steps.toList.take (frame'.cursor + 1)) = level + step.rise tree := by
    rcases move.cursor with same | ⟨distance, jumps, -, -, same⟩
    · rw [same, next]
    · rw [same, (sequence.lands frame.cursor step distance there jumps).2.2, next]
  have covered := sequence.covered (frame.cursor + 1)
  rw [next] at covered
  obtain ⟨level', is', clear'⟩ := clear_scopeFrom fresh clear move covered
  refine ⟨?_, level', ?_, clear'⟩
  · rw [Frame.advance, move.steps]
    exact sequence
  · rw [Frame.advance, move.steps, is']
    exact reached

/-- A fault leaves a frame where it is. -/
theorem IsClear.faulted {fault : Fault} (clear : IsClear tree natives kept store frame)
    (move : Move law limits step depth store frame store' frame' (.error fault)) :
    IsClear tree natives kept store' frame' := by
  obtain ⟨sequence, level, is, clear⟩ := clear
  obtain ⟨cursor, flat⟩ := move.faulted fault rfl
  refine ⟨?_, level, ?_, ?_⟩
  · rwa [move.steps]
  · rwa [move.steps, cursor]
  · rw [move.scope, Step.scopeFrom_of_flat flat]
    exact clear.evolves move.evolves

/-- A frame that has just been started is in a new scope. -/
theorem Opened.isClear {count : Nat} (opened : Opened tree natives limits depth count frame) (fresh : ¬ kept count) :
    IsClear tree natives kept store frame := by
  refine ⟨opened.sequence, 0, ?_, ?_⟩
  · rw [opened.cursor]
    rfl
  · rw [opened.scope]
    exact fresh

end

/-- An evaluation leaves scopes alone that no frame is in or may come back to, and that natives leave alone. -/
def retaining {tree : Tree} {natives : Natives} (law : Law tree natives) (limits : Limits) (kept : ScopeId → Prop)
    (first : Store) (spares : first.Spares natives.BindNothing kept) : Invariant law limits where
  scopes store := first.Retains kept store
  frame store frame := IsClear tree natives kept store frame
  written clear retains evolves := by
    obtain ⟨-, level, -, clear⟩ := clear
    exact retains.evolves spares evolves clear.apart
  grown clear evolves := clear.grown evolves
  pushed value clear := clear.push value
  moved retains clear current move := clear.moved (fun _ _ => retains.fresh) current move
  opened opened _ retains := opened.isClear retains.fresh

end Machine

end Rivulet
