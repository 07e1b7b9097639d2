import Rivulet.Proofs.Interference.States
import Rivulet.Proofs.Meaning.Computation

/-!
Evaluations of plain programs. In every state that an evaluation reaches, either the steps of the program follow their
plan, or natives run above a call (`Proceeds`). One step leads from such a state to another one, and if it completes
a node, the value that it leaves is settled (`Proceeds.step`); so this holds along the whole evaluation
(`Proceeds.settled_of_course`).
-/

namespace Rivulet

open Machine

/-- The values that a plan keeps on its stack for some nodes below others. -/
theorem forall₂_split {good : NodeId → Value → Prop} {operands stack : List NodeId} {values : List Value}
    (holds : List.Forall₂ good (operands.reverse ++ stack) values) :
    ∃ taken below, values = taken.reverse ++ below ∧ List.Forall₂ good operands taken ∧ List.Forall₂ good stack below := by
  refine ⟨(values.take operands.length).reverse, values.drop operands.length, by simp, ?_, ?_⟩
  · have first := List.forall₂_take operands.length holds
    rw [← List.length_reverse, List.take_left] at first
    simpa using List.forall₂_reverse_iff.mpr first
  · have rest := List.forall₂_drop operands.length holds
    rwa [← List.length_reverse, List.drop_left, List.length_reverse] at rest

/-- What an evaluation of a plain program has to do with a stream: the outermost scope binds names, and those that
nodes outside of the affected ones refer to are known. -/
structure Watched (machine : Machine) (context : Context) (stream : String) (affected : NodeId → Prop)
    (outer seen : String → Option Value) : Prop where
  tree : machine.tree = context.tree
  natives : machine.natives = context.natives
  unobserved : machine.observers = []
  formed : context.tree.WellFormed
  plain : context.tree.IsPlain
  pure : context.natives.ArePure
  shields : context.Shields stream affected
  sees : ∀ id name value, context.tree.form? id = some (.reference name) → context.visible? id name = none →
    ¬ affected id → outer name = some value → seen name = some value

section

variable {machine : Machine} {context : Context} {stream : String} {affected : NodeId → Prop}
  {outer seen : String → Option Value} {home : ScopeId} (watched : Watched machine context stream affected outer seen)
  {store : Store} {frame : Frame} {rest : List Frame} {taken : Nat} {id : NodeId} {form : Form}

/-! ### What nodes are completed with -/

include watched

/-- Completing a node takes the values of its operands off the stack, and leaves what the node makes of them. -/
theorem exists_push_of_operands {operands : List NodeId} {values below : List Value}
    (is : context.tree.form? id = some form) (takes : form.operands? context.tree = some operands)
    (length : operands.length = values.length) (holds : frame.values = values.reverse ++ below) :
    Halts ((machine.inState store (frame :: rest) taken).execute frame (.finish id)) ∨
      ∃ value, (machine.inState store (frame :: rest) taken).execute frame (.finish id) =
          (machine.inState store ({ frame with values := below } :: rest) taken, .ok (.push value)) ∧
        ((∀ asked, form ≠ .changed asked) → context.Makes seen id (operands.zip values) value form) := by
  have is' : machine.tree.form? id = some form := watched.tree ▸ is
  simp only [execute, finish, inState_tree, is']
  have unread (none : operands = []) : { frame with values := below } = frame := by
    subst none
    obtain rfl := List.eq_nil_of_length_eq_zero length.symm
    rw [← show frame.values = below from holds]
  cases form with
  | number literal measure =>
    cases takes
    rw [unread rfl]
    dsimp only
    cases readable : Quantity.ofText? literal measure with
    | none => exact .inl (halts_fail _ _ _)
    | some number => exact .inr ⟨_, rfl, fun _ => ⟨rfl, number, readable, rfl⟩⟩
  | boolean value =>
    cases takes
    rw [unread rfl]
    exact .inr ⟨_, rfl, fun _ => ⟨rfl, rfl⟩⟩
  | text value =>
    cases takes
    rw [unread rfl]
    exact .inr ⟨_, rfl, fun _ => ⟨rfl, rfl⟩⟩
  | none =>
    cases takes
    rw [unread rfl]
    exact .inr ⟨_, rfl, fun _ => ⟨rfl, rfl⟩⟩
  | changed asked =>
    cases takes
    rw [unread rfl]
    exact .inr ⟨_, rfl, fun other => absurd rfl (other asked)⟩
  | placeholder => exact .inl (halts_fail _ _ _)
  | sequence items =>
    cases takes
    have many := watched.formed.length_list is
      (show items ∈ (Form.sequence items : Form).childLists by simp [Form.childLists])
    dsimp only
    rw [collect, popMany?_reverse holds (length.symm.trans many)]
    refine .inr ⟨_, rfl, fun _ => ⟨List.map_fst_zip (Nat.le_of_eq length), ?_⟩⟩
    rw [List.map_snd_zip (Nat.le_of_eq length.symm)]
  | property owner name =>
    cases takes
    obtain ⟨value, rfl⟩ := List.length_eq_one_iff.mp length.symm
    dsimp only
    rw [finishProperty, consume, pop?_cons holds]
    dsimp only
    cases value with
    | record definition fields =>
      dsimp only
      cases there : Value.field? fields name with
      | none => exact .inl (halts_fail _ _ _)
      | some field => exact .inr ⟨field, rfl, fun _ => ⟨definition, fields, rfl, there⟩⟩
    | _ => exact .inl (halts_fail _ _ _)
  | unary op operand =>
    cases takes
    obtain ⟨value, rfl⟩ := List.length_eq_one_iff.mp length.symm
    dsimp only
    rw [consume, pop?_cons holds]
    dsimp only
    cases yields : Operators.unary op value with
    | error failure => exact .inl (halts_fail _ _ _)
    | ok result => exact .inr ⟨result, rfl, fun _ => ⟨value, rfl, yields⟩⟩
  | binary op left right =>
    by_cases logical : op.isLogical = true
    · simp [Form.operands?, logical] at takes
    · simp only [Form.operands?, logical, Bool.false_eq_true, if_false, Option.some.injEq] at takes
      subst takes
      obtain ⟨first, second, rfl⟩ := List.length_eq_two.mp length.symm
      have popped := @popMany?_reverse frame [first, second] below 2 holds rfl
      simp only [finishBinary, logical, Bool.false_eq_true, if_false, popped]
      cases yields : Operators.binary op first second with
      | error failure => exact .inl (halts_fail _ _ _)
      | ok result =>
        refine .inr ⟨result, rfl, fun _ => ?_⟩
        simp only [Context.Makes, logical, Bool.false_eq_true, if_false]
        exact ⟨first, second, rfl, yields⟩
  | _ => simp [Form.operands?] at takes

/-- What a reference is completed with is settled. -/
theorem exists_push_of_reference {name : String} {binds : Option (List NodeId)}
    (is : context.tree.form? id = some (.reference name))
    (sees : context.visible? id name = ((binds.getD []).find? fun bind => context.declares bind name).map .bind)
    (surroundings : Surroundings context (context.Settled seen affected) outer machine.root home store frame.scope binds) :
    Halts ((machine.inState store (frame :: rest) taken).execute frame (.finish id)) ∨
      ∃ value, (machine.inState store (frame :: rest) taken).execute frame (.finish id) =
          (machine.inState store (frame :: rest) taken, .ok (.push value)) ∧
        context.Settled seen affected id value := by
  have is' : machine.tree.form? id = some (.reference name) := watched.tree ▸ is
  simp only [execute, finish, inState_tree, is', inState_store]
  cases found : (binds.getD []).find? fun bind => context.declares bind name with
  | none =>
    rw [found, Option.map_none] at sees
    rw [surroundings.lookup_of_unbound found]
    cases bound : outer name with
    | none => exact .inl (halts_fail _ _ _)
    | some value =>
      refine .inr ⟨value, rfl, by simp [is], fun unaffected => @Context.Determined.node _ _ _ _ [] _ is ?_ (by simp)⟩
      simp only [Context.Makes, sees, true_and]
      exact watched.sees id name value is sees unaffected bound
  | some bind =>
    rw [found, Option.map_some] at sees
    obtain ⟨value, bound, settled⟩ := surroundings.lookup_of_bound found
    rw [bound]
    refine .inr ⟨_, rfl, @Context.settled_of_makes _ _ _ _ [(bind, value)] _ _ _ watched.shields is ?_
      (by simpa using settled)⟩
    simp only [Context.Makes, sees]
    exact ⟨value, rfl, rfl⟩

end

/-! ### States along the way -/

/-- The state of an evaluation of a plain program. -/
inductive Proceeds (machine : Machine) (context : Context) (good : NodeId → Value → Prop)
    (outer : String → Option Value) (home : ScopeId) : Store → List Frame → Nat → Prop where
  /-- The steps of the program follow their plan. -/
  | own {store : Store} {frame : Frame} {taken : Nat} {binds : Option (List NodeId)} {stack : List NodeId}
      {steps : List Step} (plan : Plan context good binds stack steps) (ahead : frame.Ahead steps) (more : steps ≠ [])
      (holds : List.Forall₂ good stack frame.values)
      (surroundings : Surroundings context good outer machine.root home store frame.scope binds) :
      Proceeds machine context good outer home store [frame] taken
  /-- Natives run above a call. The value that they hand to it, if any, is good. -/
  | serving {store : Store} {natives : List Frame} {caller : Frame} {taken : Nat} {base : ScopeId}
      {binds : Option (List NodeId)} {stack : List NodeId} {steps : List Step} {id : NodeId} (some : natives ≠ [])
      (stacked : Stacked base store natives) (plan : Plan context good binds (id :: stack) (.finish id :: steps))
      (ahead : caller.Ahead (.finish id :: steps)) (holds : List.Forall₂ good stack caller.values)
      (surroundings : Surroundings context good outer machine.root home store caller.scope binds)
      (older : caller.scope < base)
      (serves : ∀ value, Serves machine caller store natives taken value → good id value) :
      Proceeds machine context good outer home store (natives ++ [caller]) taken

/-- The next step leaves good values only, and it ends the evaluation or leads to another state of it. -/
structure Advances (machine : Machine) (context : Context) (good : NodeId → Value → Prop) (outer : String → Option Value)
    (home : ScopeId) (store : Store) (frames : List Frame) (taken : Nat) : Prop where
  leaves : ∀ id value, (machine.inState store frames taken).left? = some (id, value) → good id value
  goesOn : Over (machine.inState store frames taken) ∨ ∃ store' frames' outcome,
    (machine.inState store frames taken).step = (machine.inState store' frames' (taken + 1), .ok outcome) ∧
      Proceeds machine context good outer home store' frames' (taken + 1)

section

variable {machine : Machine} {context : Context} {good : NodeId → Value → Prop} {outer : String → Option Value}
  {home : ScopeId} {store store' : Store} {frame frame' : Frame} {taken : Nat} {step : Step} {steps : List Step}
  {binds : Option (List NodeId)} {stack : List NodeId} {id : NodeId} {value : Value}

theorem advances_of_halts {rest : List Frame} (current : frame.current? = some step)
    (halts : Halts ((machine.inState store (frame :: rest) (taken + 1)).execute frame step)) :
    Advances machine context good outer home store (frame :: rest) taken where
  leaves id value left := by simp [left?_of_halts current halts] at left
  goesOn := .inl (over_of_halts current halts)

/-- What follows a step of the program that leaves its frame in front of the rest of a plan. -/
theorem goesOn_of_step {outcome : StepOutcome}
    (stepped : (machine.inState store [frame] taken).step =
      ((machine.inState store' [frame'] (taken + 1)).completeFrames, .ok outcome))
    (plan : Plan context good binds stack steps) (ahead : frame'.Ahead steps)
    (holds : List.Forall₂ good stack frame'.values)
    (surroundings : Surroundings context good outer machine.root home store' frame'.scope binds) :
    Over (machine.inState store [frame] taken) ∨ ∃ store' frames' outcome,
      (machine.inState store [frame] taken).step = (machine.inState store' frames' (taken + 1), .ok outcome) ∧
        Proceeds machine context good outer home store' frames' (taken + 1) := by
  by_cases finished : steps = []
  · left
    subst finished
    intro second outcome' stepped'
    rw [stepped] at stepped'
    cases stepped'
    exact isSome_completeFrames ahead.isExhausted_eq_true
  · right
    rw [completeFrames_of_going (ahead.going finished)] at stepped
    exact ⟨store', [frame'], outcome, stepped, .own plan ahead finished holds surroundings⟩

variable (unobserved : machine.observers = []) (ahead : frame.Ahead (step :: steps))

include unobserved ahead

/-- A step that completes a node with a good value. -/
theorem advances_of_push {values : List Value} {scope : ScopeId} (completes : frame.completes? step = some id)
    (executed : (machine.inState store [frame] (taken + 1)).execute frame step =
      (machine.inState store' [{ frame with scope, values }] (taken + 1), .ok (.push value)))
    (plan : Plan context good binds (id :: stack) steps) (fits : good id value) (holds : List.Forall₂ good stack values)
    (surroundings : Surroundings context good outer machine.root home store' scope binds) :
    Advances machine context good outer home store [frame] taken where
  leaves id' value' left := by
    rw [left?_of_push ahead.current? completes executed] at left
    cases left
    exact fits
  goesOn := by
    obtain ⟨outcome, stepped⟩ := step_of_push unobserved ahead.current? executed
    exact goesOn_of_step stepped plan (@Frame.Ahead.after_one frame _ _ values ahead) (.cons fits holds) surroundings

/-- A step that changes the frame only. The value on top belongs to the node that the step completes, if any. -/
theorem advances_of_proceed {following : List Step}
    (completed : ∀ id, frame.completes? step = some id → ∃ below, stack = id :: below)
    (executed : (machine.inState store [frame] (taken + 1)).execute frame step =
      (machine.inState store' [frame'] (taken + 1), .ok .proceed))
    (plan : Plan context good binds stack following) (onwards : frame'.advance.Ahead following)
    (holds : List.Forall₂ good stack frame'.values)
    (surroundings : Surroundings context good outer machine.root home store' frame'.scope binds) :
    Advances machine context good outer home store [frame] taken where
  leaves id value left := by
    cases completes : frame.completes? step with
    | none => simp [left?_of_incomplete ahead.current? completes] at left
    | some id' =>
      obtain ⟨below, rfl⟩ := completed id' completes
      obtain ⟨first, others, fits, -, same⟩ := List.forall₂_cons_left_iff.mp holds
      rw [left?_of_proceed ahead.current? completes executed, Frame.peek?, same] at left
      cases left
      exact fits
  goesOn := by
    obtain ⟨outcome, stepped⟩ := step_of_proceed unobserved ahead.current? executed
    exact goesOn_of_step stepped plan onwards holds surroundings

end

/-! ### Single steps -/

section

variable {machine : Machine} {context : Context} {stream : String} {affected : NodeId → Prop}
  {outer seen : String → Option Value} {home : ScopeId} (watched : Watched machine context stream affected outer seen)
  {store : Store} {frame : Frame} {taken : Nat} {binds : Option (List NodeId)} {stack : List NodeId}
  {code : List Step} {id : NodeId} {form : Form}
  (surroundings : Surroundings context (context.Settled seen affected) outer machine.root home store frame.scope binds)

include watched surroundings

/-- A node is completed with the values of its operands. -/
theorem advances_of_operands {operands : List NodeId} (is : context.tree.form? id = some form)
    (takes : form.operands? context.tree = some operands)
    (plan : Plan context (context.Settled seen affected) binds (id :: stack) code)
    (ahead : frame.Ahead (.finish id :: code))
    (holds : List.Forall₂ (context.Settled seen affected) (operands.reverse ++ stack) frame.values) :
    Advances machine context (context.Settled seen affected) outer home store [frame] taken := by
  obtain ⟨values, below, same, fits, rest⟩ := forall₂_split holds
  rcases exists_push_of_operands watched is takes fits.length_eq same with halts | ⟨value, executed, makes⟩
  · exact advances_of_halts ahead.current? halts
  · refine advances_of_push watched.unobserved ahead rfl executed plan ?_ rest surroundings
    by_cases asks : ∃ asked, form = .changed asked
    · obtain ⟨asked, rfl⟩ := asks
      exact ⟨by simp [is], fun unaffected => absurd (watched.shields.changed id asked is) unaffected⟩
    · refine Context.settled_of_makes watched.shields is (makes fun asked same => asks ⟨asked, same⟩) ?_
      exact fun read among => (List.forall₂_iff_zip.mp fits).2 among

theorem advances_of_reference {name : String} (is : context.tree.form? id = some (.reference name))
    (sees : context.visible? id name = ((binds.getD []).find? fun bind => context.declares bind name).map .bind)
    (plan : Plan context (context.Settled seen affected) binds (id :: stack) code)
    (ahead : frame.Ahead (.finish id :: code))
    (holds : List.Forall₂ (context.Settled seen affected) stack frame.values) :
    Advances machine context (context.Settled seen affected) outer home store [frame] taken := by
  rcases exists_push_of_reference watched is sees surroundings with halts | ⟨value, executed, settled⟩
  · exact advances_of_halts ahead.current? halts
  · exact advances_of_push watched.unobserved ahead rfl executed plan settled holds surroundings

/-- The left operand of a logical operator decides it, or it is dropped. -/
theorem advances_of_branch {skipped : List Step} {left right : NodeId} {op : BinaryOp}
    (is : context.tree.form? id = some (.binary op left right)) (logical : op.isLogical = true)
    (decided : Plan context (context.Settled seen affected) binds (id :: stack) code)
    (undecided : ∀ first, context.Settled seen affected left (.boolean first) → (first == (op == .or)) = false →
      Plan context (context.Settled seen affected) binds stack (skipped ++ code))
    (ahead : frame.Ahead ((.branch id (op == .or) skipped.length :: skipped) ++ code))
    (holds : List.Forall₂ (context.Settled seen affected) (left :: stack) frame.values) :
    Advances machine context (context.Settled seen affected) outer home store [frame] taken := by
  obtain ⟨value, below, settled, rest, same⟩ := List.forall₂_cons_left_iff.mp holds
  have popped : frame.pop? = some (value, { frame with values := below }) := pop?_cons same
  by_cases truth : ∃ first, value = .boolean first
  · obtain ⟨first, rfl⟩ := truth
    by_cases decides : (first == (op == .or)) = true
    · have executed : (machine.inState store [frame] (taken + 1)).execute frame (.branch id (op == .or) skipped.length) =
          (machine.inState store [{ frame with cursor := frame.cursor + skipped.length }] (taken + 1), .ok .proceed) := by
        simp only [execute, branch, popped, decides, if_true]
        have inside : skipped.length < ((.branch id (op == .or) skipped.length :: skipped) ++ code).length := by
          simp only [List.cons_append, List.length_cons, List.length_append]
          omega
        exact jumpTop_of_ahead ahead inside
      have completed : context.Settled seen affected id (.boolean first) := by
        refine @Context.settled_of_makes _ _ _ _ [(left, .boolean first)] _ _ _ watched.shields is ?_ (by simpa using settled)
        simp only [Context.Makes, logical, if_true]
        exact ⟨first, by rw [if_pos decides]; exact ⟨rfl, rfl⟩⟩
      refine advances_of_proceed watched.unobserved ahead ?_ executed decided ?_ ?_ surroundings
      · intro id' completes
        simp only [Frame.completes?, Frame.peek?, same, List.head?_cons, decides, if_true, Option.some.injEq] at completes
        exact ⟨stack, by rw [completes]⟩
      · exact Frame.Ahead.after ahead
      · rw [show ({ frame with cursor := frame.cursor + skipped.length } : Frame).values = _ from same]
        exact .cons completed rest
    · have executed : (machine.inState store [frame] (taken + 1)).execute frame (.branch id (op == .or) skipped.length) =
          (machine.inState store [{ frame with values := below }] (taken + 1), .ok .proceed) := by
        simp only [execute, branch, popped, decides]
        rfl
      refine advances_of_proceed watched.unobserved ahead ?_ executed
        (undecided first settled (by simpa using decides)) (Frame.Ahead.after_one ahead) rest surroundings
      intro id' completes
      simp [Frame.completes?, Frame.peek?, same, decides] at completes
  · refine advances_of_halts ahead.current? ?_
    simp only [execute, branch, popped]
    cases value with
    | boolean first => exact absurd ⟨first, rfl⟩ truth
    | _ => exact halts_fail _ _ _

/-- The right operand of a logical operator decides it alone. -/
theorem advances_of_logical {left right : NodeId} {op : BinaryOp} {first : Bool}
    (is : context.tree.form? id = some (.binary op left right)) (logical : op.isLogical = true)
    (before : context.Settled seen affected left (.boolean first)) (undecided : (first == (op == .or)) = false)
    (plan : Plan context (context.Settled seen affected) binds (id :: stack) code)
    (ahead : frame.Ahead (.finish id :: code))
    (holds : List.Forall₂ (context.Settled seen affected) (right :: stack) frame.values) :
    Advances machine context (context.Settled seen affected) outer home store [frame] taken := by
  obtain ⟨value, below, settled, rest, same⟩ := List.forall₂_cons_left_iff.mp holds
  have popped : frame.pop? = some (value, { frame with values := below }) := pop?_cons same
  have is' : machine.tree.form? id = some (.binary op left right) := watched.tree ▸ is
  by_cases truth : ∃ second, value = .boolean second
  · obtain ⟨second, rfl⟩ := truth
    have executed : (machine.inState store [frame] (taken + 1)).execute frame (.finish id) =
        (machine.inState store [{ frame with values := below }] (taken + 1), .ok (.push (.boolean second))) := by
      simp only [execute, finish, inState_tree, is', finishBinary, logical, if_true, consume, popped]
      rfl
    refine advances_of_push watched.unobserved ahead rfl executed plan ?_ rest surroundings
    refine @Context.settled_of_makes _ _ _ _ [(left, .boolean first), (right, .boolean second)] _ _ _ watched.shields is ?_
      (by simpa using ⟨before, settled⟩)
    simp only [Context.Makes, logical, if_true]
    exact ⟨first, by rw [if_neg (by simp [undecided])]; exact ⟨second, rfl, rfl⟩⟩
  · refine advances_of_halts ahead.current? ?_
    simp only [execute, finish, inState_tree, is', finishBinary, logical, if_true, consume, popped]
    cases value with
    | boolean second => exact absurd ⟨second, rfl⟩ truth
    | _ => exact halts_fail _ _ _

/-- A call starts a native, whose value, if any, is that of the call. -/
theorem advances_of_call {callee : NodeId} {arguments : ChildList} (is : context.tree.form? id = some (.call callee arguments))
    (plan : Plan context (context.Settled seen affected) binds (id :: stack) (.finish id :: code))
    (ahead : frame.Ahead (.call id (context.tree.list arguments).length :: .finish id :: code))
    (holds : List.Forall₂ (context.Settled seen affected) ((context.tree.list arguments).reverse ++ callee :: stack)
      frame.values) :
    Advances machine context (context.Settled seen affected) outer home store [frame] taken := by
  obtain ⟨values, others, same, fits, others_fit⟩ := forall₂_split holds
  obtain ⟨value, below, settled, rest, rfl⟩ := List.forall₂_cons_left_iff.mp others_fit
  have popped := popMany?_reverse same fits.length_eq.symm
  by_cases callable : ∃ function, value = .function function
  · obtain ⟨function, rfl⟩ := callable
    have executed : (machine.inState store [frame] (taken + 1)).execute frame
        (.call id (context.tree.list arguments).length) =
        (machine.inState store [{ frame with values := below }] (taken + 1)).startCall function values id := by
      simp only [execute, callTop, popped, Frame.pop?]
      rfl
    have plain : machine.tree.IsPlain := watched.tree ▸ watched.plain
    rcases startCall_cases plain store [{ frame with values := below }] (taken + 1) function values id with
      halts | ⟨opening, opens, started⟩
    · exact advances_of_halts ahead.current? (executed ▸ halts)
    · obtain ⟨outcome, stepped⟩ := step_of_start watched.unobserved ahead.current? (executed.trans started)
      rw [completeFrames_of_going (isNative_of_opening? opens _ _).going] at stepped
      have onwards : ({ frame with values := below } : Frame).advance.Ahead (.finish id :: code) := ahead.after_one
      refine ⟨fun id' value' left => ?_, .inr ⟨_, _, outcome, stepped, ?_⟩⟩
      · simp [left?_of_incomplete ahead.current? rfl] at left
      · refine .serving (by simp) (stacked_opening opens id store machine.root) plan onwards rest
          (surroundings.untouched (Surroundings.untouched_add store _) surroundings.scope_bound) surroundings.scope_bound ?_
        intro value serves
        refine @Context.settled_of_makes _ _ _ _ ((callee, .function function) :: (context.tree.list arguments).zip values)
          _ _ _ watched.shields is ⟨function, _, rfl, List.map_fst_zip (Nat.le_of_eq fits.length_eq), ?_⟩ ?_
        · rw [List.map_snd_zip (Nat.le_of_eq fits.length_eq.symm)]
          exact ⟨machine, _, store, _, opening, watched.natives, watched.unobserved, plain, watched.natives ▸ watched.pure,
            onwards.isExhausted_eq_false, watched.natives ▸ opens, serves⟩
        · intro read among
          rcases List.mem_cons.mp among with rfl | argument
          · exact settled
          · exact (List.forall₂_iff_zip.mp fits).2 argument
  · refine advances_of_halts ahead.current? ?_
    simp only [execute, callTop, popped, Frame.pop?]
    cases value with
    | function function => exact absurd ⟨function, rfl⟩ callable
    | _ => exact halts_fail _ _ _

/-- A node that keeps the value on top of the stack. -/
theorem advances_of_kept (is : context.tree.form? id = some form)
    (keeps : (∃ body, form = .program body) ∨ ∃ callee arguments, form = .call callee arguments)
    (plan : Plan context (context.Settled seen affected) binds (id :: stack) code)
    (ahead : frame.Ahead (.finish id :: code))
    (holds : List.Forall₂ (context.Settled seen affected) (id :: stack) frame.values) :
    Advances machine context (context.Settled seen affected) outer home store [frame] taken := by
  have is' : machine.tree.form? id = some form := watched.tree ▸ is
  have executed : (machine.inState store [frame] (taken + 1)).execute frame (.finish id) =
      (machine.inState store [frame] (taken + 1), .ok .proceed) := by
    obtain ⟨value, below, -, -, same⟩ := List.forall₂_cons_left_iff.mp holds
    rcases keeps with ⟨body, rfl⟩ | ⟨callee, arguments, rfl⟩
    · simp only [execute, finish, inState_tree, is', same]
      rfl
    · simp only [execute, finish, inState_tree, is', same]
      rfl
  refine advances_of_proceed watched.unobserved ahead ?_ executed plan (Frame.Ahead.after_one ahead) holds surroundings
  intro id' completes
  cases completes
  exact ⟨stack, rfl⟩

end

section

variable {machine : Machine} {context : Context} {stream : String} {affected : NodeId → Prop}
  {outer seen : String → Option Value} {home : ScopeId} (watched : Watched machine context stream affected outer seen)
  {store : Store} {frame : Frame} {taken : Nat} {stack : List NodeId} {code : List Step} {id : NodeId}

include watched

theorem advances_of_enter
    (surroundings : Surroundings context (context.Settled seen affected) outer machine.root home store frame.scope none)
    (plan : Plan context (context.Settled seen affected) (some []) stack code)
    (ahead : frame.Ahead (.enter id :: code))
    (holds : List.Forall₂ (context.Settled seen affected) stack frame.values) :
    Advances machine context (context.Settled seen affected) outer home store [frame] taken := by
  have executed : (machine.inState store [frame] (taken + 1)).execute frame (.enter id) =
      (machine.inState (store.child frame.scope).2 [{ frame with scope := (store.child frame.scope).1 }] (taken + 1),
        .ok .proceed) := rfl
  refine advances_of_proceed watched.unobserved ahead ?_ executed plan (Frame.Ahead.after_one ahead) holds surroundings.enter
  intro id' completes
  simp [Frame.completes?] at completes

/-- A bind keeps the value on top of the stack and binds it. -/
theorem advances_of_bind {binds : List NodeId} {name : String} {value : NodeId} {declared : Option Ty} {variadic : Bool}
    (surroundings : Surroundings context (context.Settled seen affected) outer machine.root home store frame.scope
      (some binds))
    (is : context.tree.form? id = some (.bind name value declared variadic))
    (plan : Plan context (context.Settled seen affected) (some (id :: binds)) (id :: stack) code)
    (ahead : frame.Ahead (.bind id :: code))
    (holds : List.Forall₂ (context.Settled seen affected) (value :: stack) frame.values) :
    Advances machine context (context.Settled seen affected) outer home store [frame] taken := by
  obtain ⟨bound, below, settled, rest, same⟩ := List.forall₂_cons_left_iff.mp holds
  have is' : machine.tree.form? id = some (.bind name value declared variadic) := watched.tree ▸ is
  have executes : (machine.inState store [frame] (taken + 1)).execute frame (.bind id) =
      (machine.inState store [frame] (taken + 1)).bindName frame.scope name (Meaning.named name bound) id .proceed := by
    simp only [execute, bindTop, inState_tree, is', Frame.peek?, same]
    cases bound <;> rfl
  by_cases twice : store.bindsLocally frame.scope name = true
  · refine advances_of_halts ahead.current? ?_
    rw [executes, bindName, inState_store, if_pos twice]
    exact halts_fail _ _ _
  · have executed : (machine.inState store [frame] (taken + 1)).execute frame (.bind id) =
        (machine.inState (store.bindNew frame.scope name (Meaning.named name bound)) [frame] (taken + 1), .ok .proceed) := by
      rw [executes, bindName, inState_store, if_neg twice]
      rfl
    have completed : context.Settled seen affected id bound :=
      @Context.settled_of_makes _ _ _ _ [(value, bound)] _ _ _ watched.shields is rfl (by simpa using settled)
    refine advances_of_proceed watched.unobserved ahead ?_ executed plan (Frame.Ahead.after_one ahead) ?_
      (surroundings.bind (by simp [is, Form.declaredName?]) completed)
    · intro id' completes
      cases completes
      exact ⟨stack, rfl⟩
    · rw [same]
      exact .cons completed rest

/-- A block yields the value of its last statement. -/
theorem advances_of_block {binds : Option (List NodeId)} {statements : ChildList}
    (surroundings : Surroundings context (context.Settled seen affected) outer machine.root home store frame.scope binds)
    (is : context.tree.form? id = some (.block statements))
    (leaves : context.tree.declaresNames (context.tree.list statements) = binds.isSome)
    (plan : Plan context (context.Settled seen affected) none (id :: stack) code)
    (ahead : frame.Ahead (.finish id :: code))
    (holds : List.Forall₂ (context.Settled seen affected) ((context.tree.list statements).reverse ++ stack) frame.values) :
    Advances machine context (context.Settled seen affected) outer home store [frame] taken := by
  obtain ⟨values, below, same, fits, rest⟩ := forall₂_split holds
  have popped := popMany?_reverse same fits.length_eq.symm
  have is' : machine.tree.form? id = some (.block statements) := watched.tree ▸ is
  obtain ⟨scope, left, home⟩ : ∃ scope,
      (if context.tree.declaresNames (context.tree.list statements) then
        (machine.inState store [frame] (taken + 1)).exitScope { frame with values := below }
      else { frame with values := below }) = { frame with values := below, scope } ∧
        Surroundings context (context.Settled seen affected) outer machine.root home store scope none := by
    by_cases entered : binds.isSome = true
    · obtain ⟨parent, home⟩ := surroundings.leave entered
      refine ⟨_, ?_, home⟩
      simp only [leaves, entered, if_true, exitScope, inState_store, parent]
    · obtain rfl : binds = none := by simpa using entered
      exact ⟨frame.scope, by simp [leaves], surroundings⟩
  have executes : (machine.inState store [frame] (taken + 1)).execute frame (.finish id) =
      values.getLast?.elim
        ((machine.inState store [{ frame with values := below, scope }] (taken + 1)).fail .expectedValue id)
        fun last => (machine.inState store [{ frame with values := below, scope }] (taken + 1)).flow (.push last) := by
    have list : machine.tree.list statements = context.tree.list statements := by rw [watched.tree]
    have names : machine.tree.declaresNames (context.tree.list statements) =
        context.tree.declaresNames (context.tree.list statements) := by rw [watched.tree]
    simp only [execute, finish, inState_tree, is', finishBlock, list, popped, names, Option.map_some, Option.getD_some,
      Option.bind_some, left]
    cases values.getLast? <;> rfl
  cases ends : values.getLast? with
  | none =>
    rw [ends] at executes
    exact advances_of_halts ahead.current? (executes ▸ halts_fail _ _ _)
  | some last =>
    rw [ends] at executes
    refine advances_of_push watched.unobserved ahead rfl executes plan ?_ rest home
    obtain ⟨statement, ending, settled⟩ := Meaning.getLast?_of_forall₂ fits ends
    exact @Context.settled_of_makes _ _ _ _ [(statement, last)] _ _ _ watched.shields is ⟨statement, ending, rfl⟩
      (by simpa using settled)

/-- The program goes on by itself. -/
theorem advances_of_plan {binds : Option (List NodeId)} {steps : List Step}
    (plan : Plan context (context.Settled seen affected) binds stack steps) (ahead : frame.Ahead steps)
    (more : steps ≠ []) (holds : List.Forall₂ (context.Settled seen affected) stack frame.values)
    (surroundings : Surroundings context (context.Settled seen affected) outer machine.root home store frame.scope binds) :
    Advances machine context (context.Settled seen affected) outer home store [frame] taken := by
  cases plan with
  | finished => exact absurd rfl more
  | complete is takes rest => exact advances_of_operands watched surroundings is takes rest ahead holds
  | reference is sees rest => exact advances_of_reference watched surroundings is sees rest ahead holds
  | branch is logical decided undecided =>
    exact advances_of_branch watched surroundings is logical decided undecided ahead holds
  | logical is logical before undecided rest =>
    exact advances_of_logical watched surroundings is logical before undecided rest ahead holds
  | call is rest => exact advances_of_call watched surroundings is rest ahead holds
  | called is rest => exact advances_of_kept watched surroundings is (.inr ⟨_, _, rfl⟩) rest ahead holds
  | enter rest => exact advances_of_enter watched surroundings rest ahead holds
  | bind is rest => exact advances_of_bind watched surroundings is rest ahead holds
  | block is leaves rest => exact advances_of_block watched surroundings is leaves rest ahead holds
  | @program stack code id body is rest =>
    obtain ⟨value, below, settled, others, same⟩ := List.forall₂_cons_left_iff.mp holds
    have completed : context.Settled seen affected id value :=
      @Context.settled_of_makes _ _ _ _ [(body, value)] _ _ _ watched.shields is rfl (by simpa using settled)
    exact advances_of_kept watched surroundings is (.inl ⟨_, rfl⟩) rest ahead (same ▸ .cons completed others)

/-- Natives go on above a call. -/
theorem advances_of_serving {natives : List Frame} {caller : Frame} {base : ScopeId} {binds : Option (List NodeId)}
    (some : natives ≠ []) (stacked : Stacked base store natives)
    (plan : Plan context (context.Settled seen affected) binds (id :: stack) (.finish id :: code))
    (ahead : caller.Ahead (.finish id :: code)) (holds : List.Forall₂ (context.Settled seen affected) stack caller.values)
    (surroundings : Surroundings context (context.Settled seen affected) outer machine.root home store caller.scope binds)
    (older : caller.scope < base)
    (serves : ∀ value, Serves machine caller store natives taken value → context.Settled seen affected id value) :
    Advances machine context (context.Settled seen affected) outer home store (natives ++ [caller]) taken where
  leaves id value left := by
    obtain ⟨frame, rest, rfl⟩ := List.exists_cons_of_ne_nil some
    obtain ⟨step, current, incomplete⟩ := (stacked.native frame List.mem_cons_self).exists_current
    rw [List.cons_append, left?_of_incomplete current incomplete] at left
    simp at left
  goesOn := by
    refine (stacked.step watched.unobserved (watched.tree ▸ watched.plain) (watched.natives ▸ watched.pure) some
      ahead.isExhausted_eq_false taken).imp_right ?_
    rintro ⟨store', outcome, untouched, ⟨value, stepped⟩ | ⟨natives', more, stacked', stepped⟩⟩
    · refine ⟨store', _, outcome, stepped, .own plan ahead (by simp) ?_ (surroundings.untouched untouched older)⟩
      exact .cons (serves value (.back some stepped)) holds
    · refine ⟨store', _, outcome, stepped, .serving more stacked' plan ahead holds
        (surroundings.untouched untouched older) older fun value served => ?_⟩
      exact serves value (.on some more stepped served)

/-- One step leads from state to state. -/
theorem Proceeds.advances {frames : List Frame}
    (proceeds : Proceeds machine context (context.Settled seen affected) outer home store frames taken) :
    Advances machine context (context.Settled seen affected) outer home store frames taken := by
  cases proceeds with
  | own plan ahead more holds surroundings => exact advances_of_plan watched plan ahead more holds surroundings
  | serving some stacked plan ahead holds surroundings older serves =>
    exact advances_of_serving watched some stacked plan ahead holds surroundings older serves

/-- Whatever node is completed after a state of an evaluation, its value is settled. -/
theorem settled_of_course {count : Nat} {visits : List Visit} {first last : Machine}
    (course : Course machine count visits first last)
    (state : first.result.isSome ∨ ∃ store frames taken, first = machine.inState store frames taken ∧
      Proceeds machine context (context.Settled seen affected) outer home store frames taken)
    {value : Value} (left : last.left? = some (id, value)) : context.Settled seen affected id value := by
  induction course with
  | here last =>
    rcases state with finished | ⟨store, frames, taken, rfl, proceeds⟩
    · simp [left?_of_result finished] at left
    · exact (proceeds.advances watched).leaves id value left
  | @step count visits store frames taken second last outcome stepped rest hypothesis =>
    refine hypothesis ?_ left
    rcases state with finished | ⟨store', frames', taken', same, proceeds⟩
    · simp at finished
    · rw [same] at stepped
      rcases (proceeds.advances watched).goesOn with ended | ⟨store'', frames'', outcome', goes, later⟩
      · exact .inl (ended _ _ stepped)
      · rw [goes] at stepped
        cases stepped
        exact .inr ⟨store'', frames'', _, rfl, later⟩

end

end Rivulet
