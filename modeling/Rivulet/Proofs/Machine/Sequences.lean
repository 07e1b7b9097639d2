import Rivulet.Machine
import Mathlib.Algebra.BigOperators.Group.List.Basic
import Mathlib.Algebra.Order.Group.Unbundled.Int
import Mathlib.Data.Int.Order.Basic

/-!
The sequences that frames run. Wherever a step stands in a compiled sequence, the steps behind it are such that it
can run: a jump lands among them, and what it jumps over leaves every scope that it enters; a call is followed by
another step; and the node that a step names has the form that the step is for (`Step.Fits`).

Main statements: what a program, a definition and a native run is such a sequence (`isSequence_code`,
`isSequence_entry`, `isSequence_native`).
-/

namespace Rivulet

namespace Step

/-- How far a step may jump. -/
def distance? : Step → Option Int
  | jump distance | jumpUnless _ distance | branch _ _ distance | skipIfBound _ distance => some distance
  | loop _ .next => some 1
  | loop _ .collect => some (-2)
  | _ => none

/-- Whether a step may start a frame above its own. -/
def opens : Step → Bool
  | call .. | loop _ .next => true
  | _ => false

/-- Whether a step leaves the scope of a block. -/
def leaves (tree : Tree) : Step → Bool
  | finish id =>
    match tree.form? id with
    | some (.block statements) => tree.declaresNames (tree.list statements)
    | _ => false
  | _ => false

/-- How many scopes deeper a step leads. -/
def rise (tree : Tree) : Step → Int
  | enter _ => 1
  | finish id => if (finish id).leaves tree then -1 else 0
  | _ => 0

/-- Whether the node or the native that a step names is one that the step is for. -/
def Suits (tree : Tree) (natives : Natives) : Step → Prop
  | finish id => ∀ form, tree.form? id = some form → ¬ (∃ name value declared variadic,
      form = .bind name value declared variadic) ∧ ¬ ∃ key value, form = .pair key value
  | bind id | skipIfBound id _ => ∃ name value declared variadic,
      tree.form? id = some (.bind name value declared variadic)
  | instantiate id => ∃ name inputs, tree.form? id = some (.record name inputs)
  | apply index => ∃ native run, natives.get? index = some native ∧ native.body = .apply run
  | _ => True

end Step

@[simp]
theorem Step.rise_enter (tree : Tree) (id : NodeId) : (Step.enter id).rise tree = 1 :=
  rfl

/-- How many scopes deeper some steps lead. -/
def Tree.ascent (tree : Tree) : List Step → Int
  | [] => 0
  | step :: steps => step.rise tree + tree.ascent steps

/-- A step can run in front of others. -/
structure Step.Fits (tree : Tree) (natives : Natives) (step : Step) (behind : List Step) : Prop where
  suits : step.Suits tree natives
  lands : ∀ distance, step.distance? = some distance →
    0 ≤ distance ∧ distance ≤ behind.length ∧ tree.ascent (behind.take distance.toNat) = 0
  followed : step.opens = true → behind ≠ []

/-- Every one of some steps can run in front of those behind it. -/
inductive Tree.Laid (tree : Tree) (natives : Natives) : List Step → Prop where
  | nil : Laid tree natives []
  | cons {step : Step} {behind : List Step} (fits : step.Fits tree natives behind)
      (rest : Laid tree natives behind) : Laid tree natives (step :: behind)

/-- Some steps that can run one after the other, and leave exactly the scopes that they enter. -/
structure Tree.Balanced (tree : Tree) (natives : Natives) (steps : List Step) : Prop where
  laid : tree.Laid natives steps
  level : tree.ascent steps = 0
  covered : ∀ count, 0 ≤ tree.ascent (steps.take count)

variable {tree : Tree} {natives : Natives} {step : Step} {steps steps' behind more : List Step} {id : NodeId}

/-! ### Ascents -/

@[simp]
theorem Tree.ascent_nil : tree.ascent [] = 0 :=
  rfl

@[simp]
theorem Tree.ascent_cons : tree.ascent (step :: steps) = step.rise tree + tree.ascent steps :=
  rfl

@[simp]
theorem Tree.ascent_append : tree.ascent (steps ++ steps') = tree.ascent steps + tree.ascent steps' := by
  induction steps with
  | nil => simp
  | cons step rest hypothesis => simp [hypothesis, Int.add_assoc]

/-! ### Putting sequences together -/

theorem Step.Fits.append (fits : step.Fits tree natives behind) (more : List Step) :
    step.Fits tree natives (behind ++ more) where
  suits := fits.suits
  lands distance jumps := by
    obtain ⟨ahead, within, even⟩ := fits.lands distance jumps
    have short : distance.toNat ≤ behind.length := by omega
    refine ⟨ahead, ?_, ?_⟩
    · rw [List.length_append]
      omega
    · rwa [List.take_append_of_le_length short]
  followed opens := by
    have some := fits.followed opens
    simp [some]

/-- A step that neither jumps nor calls can run anywhere. -/
theorem Step.fits_of_suits (suits : step.Suits tree natives) (stays : step.distance? = none)
    (quiet : step.opens = false) : step.Fits tree natives behind :=
  ⟨suits, by simp [stays], by simp [quiet]⟩

/-- A step that jumps over some of the steps behind it. -/
theorem Step.fits_of_jump {skipped : List Step} (suits : step.Suits tree natives)
    (jumps : step.distance? = some (skipped.length : Int)) (quiet : step.opens = false)
    (even : tree.ascent skipped = 0) : step.Fits tree natives (skipped ++ behind) := by
  refine ⟨suits, fun distance is => ?_, by simp [quiet]⟩
  rw [jumps, Option.some.injEq] at is
  subst is
  refine ⟨by omega, by simp, ?_⟩
  rwa [Int.toNat_natCast, List.take_left]

theorem Tree.Laid.append (laid : tree.Laid natives steps) (laid' : tree.Laid natives steps') :
    tree.Laid natives (steps ++ steps') := by
  induction laid with
  | nil => exact laid'
  | cons fits _ hypothesis => exact .cons (fits.append steps') hypothesis

/-- The steps behind a place in a sequence. -/
theorem Tree.Laid.fits (laid : tree.Laid natives steps) {cursor : Nat} (there : steps[cursor]? = some step) :
    step.Fits tree natives (steps.drop (cursor + 1)) := by
  induction laid generalizing cursor with
  | nil => simp at there
  | cons fits rest hypothesis =>
    cases cursor with
    | zero =>
      cases there
      exact fits
    | succ cursor => exact hypothesis there

namespace Tree.Balanced

theorem nil : tree.Balanced natives [] :=
  ⟨.nil, rfl, by simp⟩

theorem append (balanced : tree.Balanced natives steps) (balanced' : tree.Balanced natives steps') :
    tree.Balanced natives (steps ++ steps') where
  laid := balanced.laid.append balanced'.laid
  level := by rw [Tree.ascent_append, balanced.level, balanced'.level, Int.add_zero]
  covered count := by
    rw [List.take_append, Tree.ascent_append]
    exact Int.add_nonneg (balanced.covered _) (balanced'.covered _)

/-- A step that stays at its level, in front of others. -/
theorem cons (fits : step.Fits tree natives behind) (flat : step.rise tree = 0)
    (balanced : tree.Balanced natives behind) : tree.Balanced natives (step :: behind) where
  laid := .cons fits balanced.laid
  level := by rw [Tree.ascent_cons, flat, balanced.level, Int.add_zero]
  covered count := by
    cases count with
    | zero => simp
    | succ count =>
      rw [List.take_succ_cons, Tree.ascent_cons, flat, Int.zero_add]
      exact balanced.covered count

/-- A step by itself. -/
theorem single (fits : step.Fits tree natives []) (flat : step.rise tree = 0) : tree.Balanced natives [step] :=
  cons fits flat nil

theorem flatMap {elements : List NodeId} {code : NodeId → List Step}
    (each : ∀ element ∈ elements, tree.Balanced natives (code element)) :
    tree.Balanced natives (elements.flatMap code) := by
  induction elements with
  | nil => exact nil
  | cons element rest hypothesis =>
    rw [List.flatMap_cons]
    exact (each element (by simp)).append (hypothesis fun other among => each other (by simp [among]))

/-- A step that leaves a scope, behind the one that enters it. -/
theorem enclosed {last : Step} (balanced : tree.Balanced natives steps) (fits : last.Fits tree natives [])
    (leaves : last.rise tree = -1) : tree.Balanced natives (.enter id :: steps ++ [last]) where
  laid :=
    (Tree.Laid.cons (@Step.fits_of_suits _ _ (.enter id) _ trivial rfl rfl) balanced.laid).append (.cons fits .nil)
  level := by simp [balanced.level, leaves]
  covered count := by
    rw [List.take_append, Tree.ascent_append]
    have first : 0 ≤ tree.ascent ((Step.enter id :: steps).take count) := by
      cases count with
      | zero => simp
      | succ count =>
        have inner := balanced.covered count
        rw [List.take_succ_cons, Tree.ascent_cons, Step.rise_enter]
        omega
    cases beyond : count - (Step.enter id :: steps).length with
    | zero => simpa using first
    | succ rest =>
      have whole : (Step.enter id :: steps).take count = .enter id :: steps := List.take_of_length_le (by omega)
      simp [whole, balanced.level, leaves]

end Tree.Balanced

/-! ### Compiled nodes -/

theorem balanced_expected (id : NodeId) : tree.Balanced natives [.expected id] :=
  .single (Step.fits_of_suits trivial rfl rfl) rfl

/-- Only a block is completed by leaving its scope. -/
theorem rise_finish {form : Form} (is : tree.form? id = some form) (plain : ∀ statements, form ≠ .block statements) :
    (Step.finish id).rise tree = 0 := by
  have stays : (Step.finish id).leaves tree = false := by
    unfold Step.leaves
    dsimp only
    rw [is]
    cases form with
    | block statements => exact absurd rfl (plain statements)
    | _ => rfl
  simp [Step.rise, stays]

section

variable {code : NodeId → List Step} (compiled : ∀ id, tree.Balanced natives (code id))

include compiled

theorem balanced_child (parent child : NodeId) : tree.Balanced natives (tree.childCode code parent child) := by
  unfold Tree.childCode
  split
  · exact compiled child
  · exact balanced_expected parent

theorem balanced_children (parent : NodeId) (children : List NodeId) :
    tree.Balanced natives (tree.childrenCode code parent children) :=
  .flatMap fun child _ => balanced_child compiled parent child

/-- The sequence of a node is balanced if those of its children are. -/
theorem balanced_codeWith (id : NodeId) : tree.Balanced natives (tree.codeWith code id) := by
  have child := balanced_child compiled id
  have children := balanced_children compiled id
  unfold Tree.codeWith
  cases is : tree.form? id with
  | none => exact balanced_expected id
  | some form =>
    -- All nodes but binds and pairs are completed by a step of their own.
    have completes (suits : (Step.finish id).Suits tree natives) (plain : ∀ statements, form ≠ .block statements) :
        tree.Balanced natives [.finish id] :=
      .single (Step.fits_of_suits suits rfl rfl) (rise_finish is plain)
    have suits (other : (∀ name value declared variadic, form ≠ .bind name value declared variadic) ∧
        ∀ key value, form ≠ .pair key value) : (Step.finish id).Suits tree natives := by
      intro found there
      rw [is, Option.some.injEq] at there
      subst there
      exact ⟨fun ⟨_, _, _, _, same⟩ => other.1 _ _ _ _ same, fun ⟨_, _, same⟩ => other.2 _ _ same⟩
    cases form with
    | block statements =>
      have finish : (Step.finish id).Fits tree natives [] := Step.fits_of_suits (suits (by simp)) rfl rfl
      dsimp only
      split
      · rename_i declares
        refine Tree.Balanced.enclosed (children _) finish ?_
        simp [Step.rise, Step.leaves, is, declares]
      · rename_i declares
        refine (children _).append (.single finish ?_)
        simp [Step.rise, Step.leaves, is, declares]
    | bind name value declared variadic =>
      refine (child value).append (.single (Step.fits_of_suits ?_ rfl rfl) rfl)
      exact ⟨_, _, _, _, is⟩
    | pair key value => exact (child key).append (child value)
    | binary op left right =>
      have finish := completes (suits (by simp)) (by simp)
      dsimp only
      split
      · have decided : (Step.branch id (op == .or) ((tree.childCode code id right).length + 1)).Fits tree natives
            ((tree.childCode code id right ++ [.finish id]) ++ []) :=
          Step.fits_of_jump trivial (by simp [Step.distance?]) rfl ((child right).append finish).level
        simpa using (child left).append (.cons decided rfl (by simpa using (child right).append finish))
      · exact ((child left).append (child right)).append finish
    | conditional condition yes no =>
      have finish := completes (suits (by simp)) (by simp)
      have jump : (Step.jump (tree.childCode code id no).length).Fits tree natives
          (tree.childCode code id no ++ [.finish id]) :=
        Step.fits_of_jump trivial rfl rfl (child no).level
      have behind := Tree.Balanced.cons jump rfl ((child no).append finish)
      -- A false condition jumps over the first branch and the jump behind it.
      have between : tree.ascent (tree.childCode code id yes ++ [.jump (tree.childCode code id no).length]) = 0 := by
        simp [(child yes).level, Step.rise]
      have jumpUnless : (Step.jumpUnless id ((tree.childCode code id yes).length + 1)).Fits tree natives
          ((tree.childCode code id yes ++ [.jump (tree.childCode code id no).length]) ++
            (tree.childCode code id no ++ [.finish id])) :=
        Step.fits_of_jump trivial (by simp [Step.distance?]) rfl between
      simpa using (child condition).append (.cons jumpUnless rfl (by simpa using (child yes).append behind))
    | call callee arguments =>
      have finish := completes (suits (by simp)) (by simp)
      dsimp only
      rw [List.append_assoc]
      refine (child callee).append ((children _).append (.cons ⟨trivial, by simp [Step.distance?], by simp⟩ rfl finish))
    | program body => exact (child body).append (completes (suits (by simp)) (by simp))
    | property owner name => exact (child owner).append (completes (suits (by simp)) (by simp))
    | unary op operand => exact (child operand).append (completes (suits (by simp)) (by simp))
    | sequence items => exact (children _).append (completes (suits (by simp)) (by simp))
    | set items => exact (children _).append (completes (suits (by simp)) (by simp))
    | mapping entries => exact (children _).append (completes (suits (by simp)) (by simp))
    | _ => exact completes (suits (by simp)) (by simp)

end

/-- The sequence of every node is balanced. -/
theorem balanced_code (tree : Tree) (natives : Natives) (id : NodeId) : tree.Balanced natives (tree.code id) := by
  have compiled (depth : Nat) (id : NodeId) : tree.Balanced natives (tree.codeTo depth id) := by
    induction depth generalizing id with
    | zero => exact .nil
    | succ depth hypothesis => exact balanced_codeWith hypothesis id
  rw [Tree.code]
  exact compiled _ id

/-! ### Entries of definitions -/

theorem balanced_defaultCode (tree : Tree) (natives : Natives) (input : NodeId) :
    tree.Balanced natives (tree.defaultCode input) := by
  unfold Tree.defaultCode Tree.defaultWith
  cases default : tree.default? input with
  | none => exact .nil
  | some value =>
    have isBind : ∃ name value declared variadic, tree.form? input = some (.bind name value declared variadic) := by
      unfold Tree.default? at default
      split at default
      · exact ⟨_, _, _, _, ‹_›⟩
      · simp at default
    have evaluated : tree.Balanced natives (tree.code value ++ [.bind input]) :=
      (balanced_code tree natives value).append (.single (Step.fits_of_suits isBind rfl rfl) rfl)
    have skip : (Step.skipIfBound input ((tree.code value).length + 1)).Fits tree natives
        ((tree.code value ++ [.bind input]) ++ []) :=
      Step.fits_of_jump isBind (by simp [Step.distance?]) rfl evaluated.level
    exact .cons (by simpa using skip) rfl evaluated

/-- What a call of a definition runs is balanced. -/
theorem balanced_entryCode (tree : Tree) (natives : Natives) (definition : NodeId) :
    tree.Balanced natives (tree.entryCode definition) := by
  unfold Tree.entryCode Tree.entryWith
  split
  · refine .append (.flatMap fun input _ => balanced_defaultCode tree natives input) ?_
    split
    · exact balanced_expected definition
    · exact balanced_code tree natives _
  · rename_i name inputs is
    refine .append (.flatMap fun input _ => balanced_defaultCode tree natives input) (.single ?_ rfl)
    exact Step.fits_of_suits ⟨_, _, is⟩ rfl rfl
  · exact balanced_expected definition

/-! ### Sequences of frames -/

/-- A sequence that a frame can run, wherever its cursor stands. -/
structure Tree.IsSequence (tree : Tree) (natives : Natives) (steps : Array Step) : Prop where
  suits : ∀ (cursor : Nat) (step : Step), steps[cursor]? = some step → step.Suits tree natives
  /-- A jump lands in the sequence, and at the level where it starts. -/
  lands : ∀ (cursor : Nat) (step : Step) (distance : Int), steps[cursor]? = some step →
    step.distance? = some distance → 0 ≤ cursor + distance ∧ cursor + distance < steps.size ∧
      tree.ascent (steps.toList.take ((cursor + distance).toNat + 1)) = tree.ascent (steps.toList.take (cursor + 1))
  followed : ∀ (cursor : Nat) (step : Step), steps[cursor]? = some step → step.opens = true → cursor + 1 < steps.size
  /-- No scope is left that was not entered. -/
  covered : ∀ count, 0 ≤ tree.ascent (steps.toList.take count)

theorem Tree.Balanced.isSequence (balanced : tree.Balanced natives steps) :
    tree.IsSequence natives steps.toArray where
  suits cursor step there := (balanced.laid.fits (by simpa using there)).suits
  lands cursor step distance there jumps := by
    obtain ⟨ahead, within, even⟩ := (balanced.laid.fits (by simpa using there)).lands distance jumps
    have bound : cursor < steps.length := by
      have := (Array.getElem?_eq_some_iff.mp there).1
      simpa using this
    rw [List.length_drop] at within
    have target : (cursor + distance).toNat + 1 = cursor + 1 + distance.toNat := by omega
    refine ⟨by omega, by rw [List.size_toArray]; omega, ?_⟩
    rw [target, List.take_add, Tree.ascent_append, even, Int.add_zero]
  followed cursor step there opens := by
    have some := (balanced.laid.fits (by simpa using there)).followed opens
    have longer : 0 < (steps.drop (cursor + 1)).length := List.length_pos_iff.mpr some
    rw [List.length_drop] at longer
    simp
    omega
  covered count := by simpa using balanced.covered count

theorem isSequence_code (tree : Tree) (natives : Natives) (id : NodeId) :
    tree.IsSequence natives (tree.code id).toArray :=
  (balanced_code tree natives id).isSequence

theorem isSequence_entry (tree : Tree) (natives : Natives) (definition : NodeId) :
    tree.IsSequence natives (tree.entryCode definition).toArray :=
  (balanced_entryCode tree natives definition).isSequence

/-- Steps that neither enter nor leave a scope stay at their level. -/
theorem Tree.ascent_eq_zero (flat : ∀ step ∈ steps, step.rise tree = 0) : tree.ascent steps = 0 := by
  induction steps with
  | nil => rfl
  | cons step steps hypothesis =>
    rw [Tree.ascent_cons, flat step (by simp), hypothesis fun other among => flat other (by simp [among])]
    rfl

/-- The steps of a native are a sequence of their own. -/
theorem isSequence_native (tree : Tree) {index : Nat} {native : Native} (known : natives.get? index = some native) :
    tree.IsSequence natives (natives.steps index).toArray := by
  have flat (count : Nat) : tree.ascent ((natives.steps index).toArray.toList.take count) = 0 := by
    refine Tree.ascent_eq_zero fun step among => ?_
    have among := List.mem_of_mem_take among
    unfold Natives.steps at among
    split at among
    · simp only [HigherOrder.steps, List.mem_cons, List.not_mem_nil, or_false] at among
      rcases among with rfl | rfl | rfl | rfl <;> rfl
    · rw [List.mem_singleton] at among
      subst among
      rfl
  obtain ⟨name, inputs, signature, body⟩ := native
  cases body with
  | apply run =>
    have steps : natives.steps index = [.apply index] := by simp [Natives.steps, known]
    have only {cursor : Nat} {step : Step} (there : (natives.steps index).toArray[cursor]? = some step) :
        step = .apply index := by
      have among := List.mem_of_getElem? (show (natives.steps index)[cursor]? = some step by simpa using there)
      rw [steps] at among
      exact List.mem_singleton.mp among
    refine ⟨fun cursor step there => ?_, fun cursor step distance there jumps => ?_, fun cursor step there opens => ?_,
      fun count => by rw [flat]⟩
    · rw [only there]
      exact ⟨_, run, known, rfl⟩
    · simp [only there, Step.distance?] at jumps
    · simp [only there, Step.opens] at opens
  | loop op =>
    have steps : natives.steps index = op.steps := by simp [Natives.steps, known]
    have phases {cursor : Nat} {step : Step} (there : (natives.steps index).toArray[cursor]? = some step) :
        cursor = 0 ∧ step = .loop op .init ∨ cursor = 1 ∧ step = .loop op .next ∨
          cursor = 2 ∧ step = .loop op .collect ∨ cursor = 3 ∧ step = .loop op .done := by
      simp only [steps, HigherOrder.steps, List.getElem?_toArray] at there
      match cursor, there with
      | 0, there => simpa using there.symm
      | 1, there => simpa using there.symm
      | 2, there => simpa using there.symm
      | 3, there => simpa using there.symm
    have four : (natives.steps index).toArray.size = 4 := by simp [steps, HigherOrder.steps]
    refine ⟨fun cursor step there => ?_, fun cursor step distance there jumps => ?_, fun cursor step there opens => ?_,
      fun count => by rw [flat]⟩
    · rcases phases there with ⟨-, rfl⟩ | ⟨-, rfl⟩ | ⟨-, rfl⟩ | ⟨-, rfl⟩ <;> trivial
    · rw [flat, flat, four]
      rcases phases there with ⟨rfl, rfl⟩ | ⟨rfl, rfl⟩ | ⟨rfl, rfl⟩ | ⟨rfl, rfl⟩ <;>
        simp [Step.distance?] at jumps <;> omega
    · rw [four]
      rcases phases there with ⟨rfl, rfl⟩ | ⟨rfl, rfl⟩ | ⟨rfl, rfl⟩ | ⟨rfl, rfl⟩ <;> simp [Step.opens] at opens ⊢

end Rivulet
