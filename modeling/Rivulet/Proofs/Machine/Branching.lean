import Rivulet.Proofs.Machine.Completion

/-!
Jumps. A conditional runs the steps of one branch and jumps over those of the other, and a logical
operator jumps over its right operand if the left one decides. A jump adds its distance before the
cursor advances, so a jump over some steps leads from the step in front of them to the one behind.
-/

namespace Rivulet.Machine

open Meaning

/-! ### Jumps -/

section

variable {machine : Machine} {frame : Frame} {rest : List Frame} {taken : Nat}
  {steps skipped following : List Step} {step : Step}

theorem jumpTop_of_ahead {top : Frame} {store : Store} (ahead : frame.Ahead steps) {distance : Nat}
    (inside : distance < steps.length) :
    (machine.inState store (top :: rest) taken).jumpTop frame distance =
      (machine.inState store ({ frame with cursor := frame.cursor + distance } :: rest) taken,
        .ok .proceed) := by
  simp only [jumpTop, ahead.jump inside, inState_setTop]
  rfl

/-- A silent step that only changes the frame and does not exhaust it. -/
theorem course_of_change (unobserved : machine.observers = []) {store store' : Store}
    (frame' : Frame) (current : frame.current? = some step) (silent : Silent machine.tree step)
    (executed : (machine.inState store (frame :: rest) (taken + 1)).execute frame step =
      (machine.inState store' (frame' :: rest) (taken + 1), .ok .proceed))
    (ahead : frame'.advance.Ahead following) (more : following ≠ []) :
    Course machine 1 [] (machine.inState store (frame :: rest) taken)
      (machine.inState store' (frame'.advance :: rest) (taken + 1)) := by
  have course := course_of_proceed unobserved current silent executed
  rwa [completeFrames_of_going (ahead.going more)] at course

/-- A silent step that jumps over the rest of some steps, of which it is the first, and takes some
values off the stack. -/
theorem course_of_jump (unobserved : machine.observers = []) {store : Store}
    (values : List Value) (silent : Silent machine.tree step)
    (ahead : frame.Ahead ((step :: skipped) ++ following))
    (executed : (machine.inState store (frame :: rest) (taken + 1)).execute frame step =
      (machine.inState store (frame :: rest) (taken + 1)).jumpTop { frame with values }
        skipped.length) :
    Course machine 1 [] (machine.inState store (frame :: rest) taken)
      (machine.inState store (frame.after (skipped.length + 1) values :: rest)
        (taken + 1)).completeFrames := by
  have inside : skipped.length < ((step :: skipped) ++ following).length := by
    simp only [List.cons_append, List.length_cons, List.length_append]
    omega
  have unmoved : ({ frame with values } : Frame).Ahead ((step :: skipped) ++ following) := ahead
  rw [jumpTop_of_ahead unmoved inside] at executed
  exact course_of_proceed unobserved ahead.current? silent executed

/-- A jump that does not exhaust its frame. -/
theorem course_of_jump_inside (unobserved : machine.observers = []) {store : Store}
    (values : List Value) (silent : Silent machine.tree step)
    (ahead : frame.Ahead ((step :: skipped) ++ following)) (more : following ≠ [])
    (executed : (machine.inState store (frame :: rest) (taken + 1)).execute frame step =
      (machine.inState store (frame :: rest) (taken + 1)).jumpTop { frame with values }
        skipped.length) :
    Course machine 1 [] (machine.inState store (frame :: rest) taken)
      (machine.inState store (frame.after (skipped.length + 1) values :: rest) (taken + 1)) := by
  have course := course_of_jump unobserved values silent ahead executed
  have going : (frame.after (skipped.length + 1) values).isExhausted = false :=
    Frame.Ahead.going (Frame.Ahead.after ahead) more
  rwa [completeFrames_of_going going] at course

end

section

variable {machine : Machine} {id : NodeId}

theorem silent_of_form {form : Form} (is : machine.tree.form? id = some form)
    (other : form.readsScope = false) : Silent machine.tree (.finish id) := by
  rintro node ⟨⟩
  simp [is, other]

theorem silent_of_node {step : Step} (other : ∀ node, step ≠ .finish node) :
    Silent machine.tree step :=
  fun node same => absurd same (other node)

end

/-! ### Branches -/

section

variable {machine : Machine} {calls : Nat} {id : NodeId} (unobserved : machine.observers = [])

include unobserved

omit unobserved in
/-- A step that needs a truth value, before what it decides is tracked. -/
theorem tracks_truth {α : Type} {frame : Frame} {rest : List Frame} {world : World} {taken : Nat}
    {step : Step} {decider : Value} {next : Bool → Eval α} {reached : α → Store → Machine → Prop}
    (current : frame.current? = some step) (silent : Silent machine.tree step)
    (executed : (∀ holds, decider ≠ .boolean holds) →
      ((machine.inState world.store (frame :: rest) (taken + 1)).execute frame step).2 =
        .ok (.throw (.failed (.typeMismatch .boolean decider.kind) id)))
    (decided : ∀ holds, decider = .boolean holds →
      Tracks machine (machine.inState world.store (frame :: rest) taken) world (next holds) reached) :
    Tracks machine (machine.inState world.store (frame :: rest) taken) world
      (truth decider id >>= next) reached := by
  cases decider with
  | boolean holds => exact decided holds rfl
  | _ => exact tracks_of_throw rfl rfl current silent (executed (by simp))

/-- The branch of a conditional that holds is entered. -/
theorem course_of_holding {frame : Frame} {rest : List Frame} {store : Store} {taken : Nat}
    {values : List Value} {distance : Int} {following : List Step}
    (holds : frame.values = .boolean true :: values)
    (ahead : frame.Ahead (.jumpUnless id distance :: following)) (more : following ≠ []) :
    Course machine 1 [] (machine.inState store (frame :: rest) taken)
      (machine.inState store (frame.after 1 values :: rest) (taken + 1)) := by
  refine course_of_change unobserved { frame with values } ahead.current? (silent_of_node (by simp))
    ?_ ahead.after_one more
  simp only [execute, jumpUnless, Frame.pop?, holds]
  rfl

/-- The branch of a conditional that does not hold is jumped over. -/
theorem course_of_failing {frame : Frame} {rest : List Frame} {store : Store} {taken : Nat}
    {values : List Value} {skipped following : List Step}
    (holds : frame.values = .boolean false :: values)
    (ahead : frame.Ahead ((.jumpUnless id skipped.length :: skipped) ++ following))
    (more : following ≠ []) :
    Course machine 1 [] (machine.inState store (frame :: rest) taken)
      (machine.inState store (frame.after (skipped.length + 1) values :: rest) (taken + 1)) := by
  refine course_of_jump_inside unobserved values (silent_of_node (by simp)) ahead more ?_
  simp only [execute, jumpUnless, Frame.pop?, holds]

/-- A jump over the one or the other branch. -/
theorem leaves_conditional {conditionCode yesCode noCode : List Step}
    {conditionValue yesValue noValue : ScopeId → Eval Value}
    (conditionComputes : Computes machine calls conditionCode conditionValue)
    (yesComputes : Computes machine calls yesCode yesValue)
    (noComputes : Computes machine calls noCode noValue) :
    Leaves machine calls
      (conditionCode ++ [.jumpUnless id (yesCode.length + 1)] ++ yesCode ++ [.jump noCode.length] ++
        noCode)
      (fun scope => do
        if ← truth (← conditionValue scope) id then yesValue scope else noValue scope)
      fun value => [value] := by
  intro frame rest step following world taken ahead depth
  simp only [List.append_assoc, List.singleton_append] at ahead
  refine tracks_bind (conditionComputes.leaves frame rest _ _ world taken ahead depth) ?_
  rintro decider world' second - ⟨taken', rfl⟩
  have decides : (frame.after conditionCode.length ([decider] ++ frame.values)).Ahead _ := ahead.after
  refine tracks_truth decides.current? (silent_of_node (by simp)) (fun other => ?_) ?_
  · cases decider with
    | boolean holds => exact absurd rfl (other holds)
    | _ => rfl
  · rintro holds rfl
    cases holds with
    | true =>
      have goesOn : (frame.after (conditionCode.length + 1) frame.values).Ahead _ := decides.after_one
      refine tracks_after (course_of_holding unobserved rfl decides (by simp)) ?_
      refine tracks_before (yesComputes.leaves _ rest _ _ world' _ goesOn depth) ?_
      rintro value store last ⟨taken'', rfl⟩
      refine ⟨1, _, course_of_jump_inside unobserved _ (silent_of_node (by simp)) goesOn.after
        (by simp) rfl, ?_⟩
      refine ⟨taken'' + 1, ?_⟩
      simp only [Frame.after_after]
      refine inState_after_congr ?_
      simp only [List.length_append, List.length_cons, List.length_nil]
      omega
    | false =>
      let skipped := yesCode ++ [.jump noCode.length]
      have jumps : (frame.after conditionCode.length ([.boolean false] ++ frame.values)).Ahead
          ((.jumpUnless id skipped.length :: skipped) ++ (noCode ++ step :: following)) := by
        simpa [skipped] using decides
      refine tracks_after (course_of_failing unobserved rfl jumps (by simp)) ?_
      have goesOn := @Frame.Ahead.after _ _ _ frame.values jumps
      refine tracks_mono (noComputes.leaves _ rest _ _ world' _ goesOn depth) ?_
      rintro value store last ⟨taken'', rfl⟩
      refine ⟨taken'', ?_⟩
      simp only [Frame.after_after]
      refine inState_after_congr ?_
      simp only [skipped, List.length_append, List.length_cons, List.length_nil]
      omega

/-- A left operand that decides stays, and the right operand is jumped over. -/
theorem course_of_decided {frame : Frame} {rest : List Frame} {store : Store} {taken : Nat}
    {value whenValue : Bool} {values : List Value} {skipped following : List Step}
    (holds : frame.values = .boolean value :: values) (decided : (value == whenValue) = true)
    (ahead : frame.Ahead ((.branch id whenValue skipped.length :: skipped) ++ following)) :
    Course machine 1 [] (machine.inState store (frame :: rest) taken)
      (machine.inState store (frame.after (skipped.length + 1) frame.values :: rest)
        (taken + 1)).completeFrames := by
  refine course_of_jump unobserved frame.values (silent_of_node (by simp)) ahead ?_
  simp only [execute, branch, Frame.pop?, holds, decided, if_true]
  rw [← holds]

/-- A left operand that does not decide is dropped. -/
theorem course_of_undecided {frame : Frame} {rest : List Frame} {store : Store} {taken : Nat}
    {value whenValue : Bool} {values : List Value} {distance : Int} {following : List Step}
    (holds : frame.values = .boolean value :: values) (undecided : ¬(value == whenValue) = true)
    (ahead : frame.Ahead (.branch id whenValue distance :: following)) (more : following ≠ []) :
    Course machine 1 [] (machine.inState store (frame :: rest) taken)
      (machine.inState store (frame.after 1 values :: rest) (taken + 1)) := by
  refine course_of_change unobserved { frame with values } ahead.current? (silent_of_node (by simp))
    ?_ ahead.after_one more
  simp only [execute, branch, Frame.pop?, holds, undecided]
  rfl

/-- A logical operator, which jumps over its right operand if the left one decides. -/
theorem computes_logical {op : BinaryOp} {left right : NodeId}
    (is : machine.tree.form? id = some (.binary op left right)) (logical : op.isLogical = true)
    {leftCode rightCode : List Step} {leftValue rightValue : ScopeId → Eval Value}
    (leftComputes : Computes machine calls leftCode leftValue)
    (rightComputes : Computes machine calls rightCode rightValue) :
    Computes machine calls
      (leftCode ++ [.branch id (op == .or) (rightCode.length + 1)] ++ rightCode ++ [.finish id])
      (fun scope => do
        let first ← truth (← leftValue scope) id
        if first == (op == .or) then pure (.boolean first)
        else return .boolean (← truth (← rightValue scope) id)) := by
  have rightDecides := rightComputes.leaves.performs unobserved (silent_of_form is rfl)
    fun _ _ value _ _ => performs_logical is logical value
  intro frame rest following world taken ahead depth
  simp only [List.append_assoc, List.singleton_append] at ahead
  refine tracks_bind (leftComputes.leaves frame rest _ _ world taken ahead depth) ?_
  rintro decider world' second - ⟨taken', rfl⟩
  have decides : (frame.after leftCode.length ([decider] ++ frame.values)).Ahead _ := ahead.after
  refine tracks_truth decides.current? (silent_of_node (by simp)) (fun other => ?_) ?_
  · cases decider with
    | boolean holds => exact absurd rfl (other holds)
    | _ => rfl
  · rintro holds rfl
    by_cases decided : (holds == (op == .or)) = true
    · let skipped := rightCode ++ [.finish id]
      have jumps : (frame.after leftCode.length ([.boolean holds] ++ frame.values)).Ahead
          ((.branch id (op == .or) skipped.length :: skipped) ++ following) := by
        simpa [skipped] using decides
      simp only [decided, if_true]
      refine tracks_after (course_of_decided unobserved rfl decided jumps)
        (tracks_pure ⟨taken' + 1, congrArg completeFrames ?_⟩)
      simp only [Frame.after_after]
      refine inState_after_congr ?_
      simp only [skipped, List.length_append, List.length_cons, List.length_nil]
      omega
    · have goesOn : (frame.after (leftCode.length + 1) frame.values).Ahead
          ((rightCode ++ [.finish id]) ++ following) := by
        simpa using decides.after_one
      simp only [decided]
      refine tracks_after (course_of_undecided unobserved rfl decided decides (by simp)) ?_
      refine tracks_mono (rightDecides _ rest following world' _ goesOn depth) ?_
      rintro value store last ⟨taken'', rfl⟩
      refine ⟨taken'', congrArg completeFrames ?_⟩
      simp only [Frame.after_after]
      refine inState_after_congr ?_
      simp only [List.length_append, List.length_cons, List.length_nil]
      omega

end

end Rivulet.Machine
