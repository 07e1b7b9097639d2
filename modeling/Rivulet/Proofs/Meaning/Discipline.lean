import Rivulet.Proofs.Meaning.Computation
import Rivulet.Proofs.Meaning.Opening
import Rivulet.Proofs.Tree.Shape
import Rivulet.Proofs.Value.Bindings

/-!
Disciplines: properties of values that evaluations keep. Plain values and closures have such a property,
and so does whatever is made of values that have it; so everything that is evaluated comes to a value of
which the property holds all the way down, or to an exception, and to a fault only where the discipline
lets faults happen.

Main statements: `Discipline.node_safe`, and for whole programs `Discipline.program_safe`.
-/

namespace Rivulet.Meaning

open Store Value

variable {α β : Type} {setting : Setting}

/-! ### Disciplined values and stores -/

/-- A function that can be called: its callee exists. -/
structure Callable (setting : Setting) (function : Function) : Prop where
  definition : ∀ id, function.callee = .definition id →
    (Machine.definitionOf? setting.tree id).isSome
  native : ∀ index, function.callee = .native index → (setting.natives.get? index).isSome

/-- A property of values that evaluations keep. -/
structure Discipline (setting : Setting) where
  /-- What holds of every part of a value. -/
  kind : Value → Prop
  /-- The scope from which on all scopes bind such values only. -/
  base : ScopeId
  /-- Whether misuses of the host may happen. -/
  lax : Prop
  inside : base ≤ setting.root
  plain : ∀ value, value.isPlain = true → kind value
  native : ∀ index, (setting.natives.get? index).isSome → kind (Natives.valueOf index)
  closure : ∀ id context name, (Machine.definitionOf? setting.tree id).isSome → base ≤ context →
    kind (.function ⟨.definition id, some context, name⟩)
  renamed : ∀ function name, kind (.function function) → kind (.function { function with name })
  context : ∀ function scope, kind (.function function) → function.context = some scope → base ≤ scope
  callable : ∀ function, kind (.function function) → lax ∨ Callable setting function

variable {discipline : Discipline setting}

/-- A value that keeps to a discipline all the way down. -/
def Sound (discipline : Discipline setting) (value : Value) : Prop :=
  value.Every discipline.kind

/-- A store whose scopes from some place on bind sound values. -/
structure SoundStore (discipline : Discipline setting) (store : Store) : Prop where
  root : setting.root < store.scopes.size
  holds : store.Holds discipline.base (Sound discipline)

/-- A computation that takes a sound store to a value as required and a sound store, or to an
exception, or to a fault if faults may happen. -/
def Safe (discipline : Discipline setting) (computation : Eval α) (required : α → Prop) : Prop :=
  ∀ world, SoundStore discipline world.store →
    match computation world with
    | .ok value world' => SoundStore discipline world'.store ∧ required value
    | .error (.exception value) _ => value.isException = true
    | .error (.fault _) _ => discipline.lax

theorem SoundStore.bound {store : Store} (sound : SoundStore discipline store) :
    discipline.base < store.scopes.size :=
  Nat.lt_of_le_of_lt discipline.inside sound.root

theorem sound_function {function : Function} (kind : discipline.kind (.function function)) :
    Sound discipline (.function function) :=
  every_of_no_parts kind rfl

theorem sound_named (name : String) {value : Value} (sound : Sound discipline value) :
    Sound discipline (named name value) := by
  unfold named
  split
  · split
    · exact sound_function (discipline.renamed _ name sound.own)
    · exact sound
  · exact sound

/-! ### Rules -/

section

variable {computation : Eval α} {required : α → Prop}

theorem safe_pure {value : α} (meets : required value) : Safe discipline (pure value) required :=
  fun _ sound => ⟨sound, meets⟩

theorem safe_throwValue {value : Value} (exception : value.isException = true) :
    Safe discipline (throwValue value) required :=
  fun _ _ => exception

theorem safe_fail (failure : Failure) (id : NodeId) : Safe discipline (fail failure id) required :=
  fun _ _ => rfl

theorem safe_misuse (fault : Fault) (lax : discipline.lax) : Safe discipline (misuse fault) required :=
  fun _ _ => lax

theorem safe_bind {next : α → Eval β} {required' : β → Prop}
    (first : Safe discipline computation required)
    (later : ∀ value, required value → Safe discipline (next value) required') :
    Safe discipline (computation >>= next) required' := by
  intro world sound
  have outcome := first world sound
  cases computed : computation world with
  | ok value world' =>
    rw [computed] at outcome
    rw [bind_of_ok computed]
    exact later value outcome.2 world' outcome.1
  | error halt world' =>
    rw [computed] at outcome
    rw [bind_of_error computed]
    cases halt <;> exact outcome

theorem safe_mapM {elements : List β} {each : β → Eval α}
    (first : ∀ element ∈ elements, Safe discipline (each element) required) :
    Safe discipline (elements.mapM each) fun values => ∀ value ∈ values, required value := by
  induction elements with
  | nil =>
    rw [List.mapM_nil]
    exact safe_pure (by simp)
  | cons element rest hypothesis =>
    rw [List.mapM_cons]
    refine safe_bind (first element (by simp)) fun value meets => ?_
    refine safe_bind (hypothesis fun other inRest => first other (by simp [inRest])) fun values all => ?_
    refine safe_pure ?_
    intro other among
    rcases List.mem_cons.mp among with rfl | inRest
    · exact meets
    · exact all other inRest

theorem safe_forM {elements : List β} {each : β → Eval PUnit}
    (first : ∀ element ∈ elements, Safe discipline (each element) fun _ => True) :
    Safe discipline (elements.forM each) fun _ => True := by
  induction elements with
  | nil => exact safe_pure trivial
  | cons element rest hypothesis =>
    refine safe_bind (first element (by simp)) fun _ _ => ?_
    exact hypothesis fun other inRest => first other (by simp [inRest])

end

/-! ### Scopes -/

theorem safe_addScope {added : Scope} (holds : added.Holds discipline.base (Sound discipline)) :
    Safe discipline (addScope added) fun scope => discipline.base ≤ scope := by
  intro world sound
  have size : setting.root < (world.store.add added).2.scopes.size := by
    rw [size_add]
    exact Nat.lt_succ_of_lt sound.root
  exact ⟨⟨size, sound.holds.add holds⟩, Nat.le_of_lt sound.bound⟩

theorem safe_capture {scope : ScopeId} (inside : discipline.base ≤ scope) :
    Safe discipline (capture scope) fun context => discipline.base ≤ context := by
  intro world sound
  have size : setting.root < (world.store.capture scope).2.scopes.size := by
    rw [Store.capture, size_add]
    exact Nat.lt_succ_of_lt sound.root
  exact ⟨⟨size, sound.holds.capture inside⟩, Nat.le_of_lt sound.bound⟩

theorem safe_bindsLocally (scope : ScopeId) (name : String) :
    Safe discipline (bindsLocally scope name) fun _ => True :=
  fun _ sound => ⟨sound, trivial⟩

theorem safe_localValue {scope : ScopeId} (inside : discipline.base ≤ scope) (name : String) :
    Safe discipline (localValue scope name) (Sound discipline) := by
  intro world sound
  refine ⟨sound, ?_⟩
  cases bound : world.store.local? scope name with
  | none => exact every_none discipline.plain
  | some value => exact sound.holds.local? inside bound

theorem safe_bindName (scope : ScopeId) (name : String) {value : Value} (sound : Sound discipline value)
    (id : NodeId) : Safe discipline (bindName scope name value id) fun _ => True := by
  refine safe_bind (safe_bindsLocally scope name) fun bound _ => ?_
  split
  · exact safe_fail _ _
  · intro world before
    refine ⟨⟨?_, before.holds.bindNew sound⟩, trivial⟩
    simpa [bindNew] using before.root

theorem safe_rebind (scope : ScopeId) (name : String) {value : Value} (sound : Sound discipline value) :
    Safe discipline (rebind scope name value) fun _ => True := by
  intro world before
  refine ⟨⟨?_, before.holds.rebind sound⟩, trivial⟩
  simpa using before.root

theorem safe_visit (id : NodeId) (scope : ScopeId) :
    Safe discipline (visit id scope) fun _ => True :=
  fun _ sound => ⟨sound, trivial⟩

theorem safe_lookUp {scope : ScopeId} (inside : discipline.base ≤ scope) (reference : NodeId)
    (name : String) : Safe discipline (lookUp reference scope name) (Sound discipline) := by
  intro world sound
  rw [lookUp_eq]
  cases found : world.store.lookup scope name with
  | none => rfl
  | some value => exact ⟨sound, sound.holds.lookup inside found⟩

theorem safe_truth (value : Value) (id : NodeId) : Safe discipline (truth value id) fun _ => True := by
  unfold truth
  split
  · exact safe_pure trivial
  · exact safe_fail _ _

theorem safe_yield {result : Except Failure Value} (id : NodeId)
    (sound : ∀ value, result = .ok value → Sound discipline value) :
    Safe discipline (yield result id) (Sound discipline) := by
  cases result with
  | ok value => exact safe_pure (sound value rfl)
  | error failure => exact safe_fail _ _

/-! ### Nodes -/

section

variable {required : Value → Prop} {node : NodeId → Eval Value}

theorem safe_childWith {parent child : NodeId}
    (nodes : (setting.tree.form? child).isSome → Safe discipline (node child) required) :
    Safe discipline (childWith setting.tree node parent child) required := by
  unfold childWith
  split
  · rename_i there
    exact nodes there
  · exact safe_fail _ _

theorem safe_entryWith {parent entry : NodeId}
    (nodes : ∀ part, setting.tree.Child part entry → setting.tree.isPair entry = true →
      Safe discipline (node part) required) :
    Safe discipline (entryWith setting.tree node parent entry) fun both =>
      required both.1 ∧ required both.2 := by
  unfold entryWith
  split
  · rename_i key value is
    have pair : setting.tree.isPair entry = true := by simp [Tree.isPair, is]
    have parts (part : NodeId) (among : part ∈ [key, value]) : setting.tree.Child part entry :=
      ⟨_, is, by simpa [Form.links] using among⟩
    refine safe_bind (safe_childWith fun _ => nodes key (parts key (by simp)) pair) fun key' keyToo => ?_
    refine safe_bind (safe_childWith fun _ => nodes value (parts value (by simp)) pair) fun _ valueToo => ?_
    exact safe_pure ⟨keyToo, valueToo⟩
  · exact safe_fail _ _

end

theorem safe_field {owner : Value} (sound : Sound discipline owner) (name : String) (id : NodeId) :
    Safe discipline (field owner name id) (Sound discipline) := by
  unfold field
  split
  · split
    · rename_i found
      exact safe_pure (every_field sound found)
    · exact safe_fail _ _
  · exact safe_fail _ _

theorem safe_define {scope : ScopeId} (inside : discipline.base ≤ scope) {id : NodeId} (name : String)
    (defined : (Machine.definitionOf? setting.tree id).isSome) :
    Safe discipline (define scope id name) (Sound discipline) := by
  refine safe_bind (safe_capture inside) fun context within => ?_
  have sound : Sound discipline (.function ⟨.definition id, some context, name⟩) :=
    sound_function (discipline.closure id context name defined within)
  dsimp only
  split
  · exact safe_pure sound
  · exact safe_bind (safe_bindName _ _ sound _) fun _ _ => safe_pure sound

section

variable {node : Evaluator} {call : Caller} {scope : ScopeId} {id : NodeId}

theorem safe_blockWith (inside : discipline.base ≤ scope) {statements : List NodeId}
    (nodes : ∀ scope, discipline.base ≤ scope → ∀ child ∈ statements,
      (setting.tree.form? child).isSome → Safe discipline (node scope child) (Sound discipline)) :
    Safe discipline (blockWith setting.tree node scope id statements) (Sound discipline) := by
  have evaluated (scope : ScopeId) (inside : discipline.base ≤ scope) :
      Safe discipline (statementsWith setting.tree (node scope) id statements) (Sound discipline) := by
    refine safe_bind (safe_mapM fun child among => safe_childWith (nodes scope inside child among)) ?_
    intro values sound
    split
    · rename_i last is
      exact safe_pure (sound last (List.mem_of_getLast? is))
    · exact safe_fail _ _
  unfold blockWith
  split
  · have empty : (⟨[], some scope⟩ : Scope).Holds discipline.base (Sound discipline) := by
      refine ⟨by simp, ?_⟩
      rintro _ ⟨⟩
      exact inside
    exact safe_bind (safe_addScope empty) evaluated
  · rw [pure_bind]
    exact evaluated scope inside

theorem nodeWith_safe (formed : setting.tree.WellFormed) (inside : discipline.base ≤ scope)
    (regular : setting.tree.isPair id = false)
    (borrowed : ∀ borrow ∈ setting.borrowed, Sound discipline borrow.2)
    (calls : ∀ function arguments origin, Sound discipline (.function function) →
      (∀ argument ∈ arguments, Sound discipline argument) →
      Safe discipline (call function arguments origin) (Sound discipline))
    (children : ∀ scope, discipline.base ≤ scope → ∀ child, setting.tree.Child child id →
      setting.tree.isPair child = false → Safe discipline (node scope child) (Sound discipline))
    (entries : ∀ entry part, setting.tree.Child entry id → setting.tree.Child part entry →
      setting.tree.isPair part = false → Safe discipline (node scope part) (Sound discipline)) :
    Safe discipline (nodeWith setting node call scope id) (Sound discipline) := by
  unfold nodeWith
  dsimp only
  cases is : setting.tree.form? id with
  | none => exact safe_fail _ _
  | some form =>
    dsimp only
    have nodes (scope : ScopeId) (inside : discipline.base ≤ scope) (child : NodeId)
        (link : child ∈ form.links setting.tree.list) (other : form.isMapping = false) :
        Safe discipline (node scope child) (Sound discipline) :=
      children scope inside child ⟨form, is, link⟩ (formed.isPair_eq_false is link other)
    have child (child : NodeId) (link : child ∈ form.links setting.tree.list)
        (other : form.isMapping = false) :
        Safe discipline (childWith setting.tree (node scope) id child) (Sound discipline) :=
      safe_childWith fun _ => nodes scope inside child link other
    have list (list : List NodeId) (links : ∀ child ∈ list, child ∈ form.links setting.tree.list)
        (other : form.isMapping = false) :
        Safe discipline (list.mapM (childWith setting.tree (node scope) id))
          fun values => ∀ value ∈ values, Sound discipline value :=
      safe_mapM fun element among => child element (links element among) other
    cases form with
    | program body => exact child body (by simp [Form.links]) rfl
    | block statements =>
      refine safe_blockWith inside fun scope inside child among _ => ?_
      exact nodes scope inside child (by simpa [Form.links] using among) rfl
    | bind name value =>
      refine safe_bind (child value (by simp [Form.links]) rfl) fun value sound => ?_
      exact safe_bind (safe_bindName _ _ (sound_named name sound) _) fun _ _ => safe_pure sound
    | number literal measure =>
      dsimp only
      split
      · exact safe_pure (every_number discipline.plain _)
      · exact safe_fail _ _
    | boolean value => exact safe_pure (every_boolean discipline.plain _)
    | text value => exact safe_pure (every_text discipline.plain _)
    | none => exact safe_pure (every_none discipline.plain)
    | sequence items =>
      refine safe_bind (list _ (by simp [Form.links]) rfl) fun values sound => ?_
      exact safe_pure (every_sequence discipline.plain sound)
    | set items =>
      refine safe_bind (list _ (by simp [Form.links]) rfl) fun values sound => ?_
      exact safe_pure (every_setOf discipline.plain sound)
    | mapping entries' =>
      have each : ∀ entry ∈ setting.tree.list entries',
          Safe discipline (entryWith setting.tree (node scope) id entry)
            fun both => Sound discipline both.1 ∧ Sound discipline both.2 := by
        intro entry among
        have link : setting.tree.Child entry id := ⟨_, is, by simpa [Form.links] using among⟩
        refine safe_entryWith fun part below pair => entries entry part link below ?_
        obtain ⟨form, is', link'⟩ := below
        exact formed.isPair_eq_false is' link' (Tree.isMapping_of_isPair is' pair)
      refine safe_bind (safe_mapM each) fun values sound => ?_
      exact safe_pure (every_mappingOf discipline.plain sound)
    | reference name => exact safe_bind (safe_visit _ _) fun _ _ => safe_lookUp inside _ _
    | property owner name =>
      exact safe_bind (child owner (by simp [Form.links]) rfl) fun _ sound => safe_field sound _ _
    | binary op left right =>
      have leftSafe := child left (by simp [Form.links]) rfl
      have rightSafe := child right (by simp [Form.links]) rfl
      dsimp only
      split
      · refine safe_bind leftSafe fun left _ => safe_bind (safe_truth _ _) fun first _ => ?_
        split
        · exact safe_pure (every_boolean discipline.plain _)
        · refine safe_bind rightSafe fun right _ => safe_bind (safe_truth _ _) fun second _ => ?_
          exact safe_pure (every_boolean discipline.plain _)
      · refine safe_bind leftSafe fun left leftSound => safe_bind rightSafe fun right rightSound => ?_
        exact safe_yield _ fun _ made => every_binary discipline.plain leftSound rightSound made
    | unary op operand =>
      refine safe_bind (child operand (by simp [Form.links]) rfl) fun _ _ => ?_
      exact safe_yield _ fun _ made => every_unary discipline.plain made
    | conditional condition yes no =>
      refine safe_bind (child condition (by simp [Form.links]) rfl) fun _ _ => ?_
      refine safe_bind (safe_truth _ _) fun holds _ => ?_
      split
      · exact child yes (by simp [Form.links]) rfl
      · exact child no (by simp [Form.links]) rfl
    | function name =>
      refine safe_bind (safe_visit _ _) fun _ _ => ?_
      exact safe_define inside _ (by simp [Machine.definitionOf?, is])
    | record name =>
      refine safe_bind (safe_visit _ _) fun _ _ => ?_
      exact safe_define inside _ (by simp [Machine.definitionOf?, is])
    | call callee arguments =>
      refine safe_bind (child callee (by simp [Form.links]) rfl) fun callee sound => ?_
      refine safe_bind (list _ (fun _ among => by simp [Form.links, among]) rfl) fun values sounds => ?_
      split
      · exact calls _ _ _ sound sounds
      · exact safe_fail _ _
    | changed stream => exact safe_pure (every_boolean discipline.plain _)
    | borrow source =>
      dsimp only
      split
      · exact safe_fail _ _
      · rename_i value found
        have sound := borrowed _ (mem_of_lookup found)
        exact safe_bind (safe_bindName _ _ sound _) fun _ _ => safe_pure sound
    | placeholder => exact safe_fail _ _
    | unparsable text => exact safe_fail _ _
    | pair key value => simp [Tree.isPair, is] at regular

end

section

variable {call : Caller} (formed : setting.tree.WellFormed)
  (borrowed : ∀ borrow ∈ setting.borrowed, Sound discipline borrow.2)

include formed borrowed

/-- A node that is no pair is safe to evaluate down to a depth that its descendants do not reach. -/
theorem nodeTo_safe (calls : ∀ function arguments origin, Sound discipline (.function function) →
      (∀ argument ∈ arguments, Sound discipline argument) →
      Safe discipline (call function arguments origin) (Sound discipline))
    {rank : NodeId → Nat}
    (lower : ∀ child parent, setting.tree.Child child parent → rank child < rank parent)
    {depth : Nat} {scope : ScopeId} {id : NodeId} (enough : rank id < depth)
    (inside : discipline.base ≤ scope) (regular : setting.tree.isPair id = false) :
    Safe discipline (nodeTo setting call depth scope id) (Sound discipline) := by
  induction depth generalizing scope id with
  | zero => omega
  | succ depth hypothesis =>
    refine nodeWith_safe formed inside regular borrowed calls ?_ ?_
    · intro scope inside child link other
      have := lower child id link
      exact hypothesis (by omega) inside other
    · intro entry part link below other
      have := lower entry id link
      have := lower part entry below
      exact hypothesis (by omega) inside other

end

/-! ### Calls -/

theorem safe_handOver {value : Value} {required : Value → Prop}
    (meets : value.isException = false → required value) : Safe discipline (handOver value) required := by
  unfold handOver
  split
  · rename_i exception
    exact safe_throwValue exception
  · rename_i regular
    exact safe_pure (meets (by simpa using regular))

section

variable {node : Evaluator} {scope : ScopeId}

theorem safe_defaultWith (formed : setting.tree.WellFormed)
    (nodes : ∀ id, setting.tree.isPair id = false → Safe discipline (node scope id) (Sound discipline))
    (input : NodeId) : Safe discipline (defaultWith setting.tree node scope input) fun _ => True := by
  unfold defaultWith
  split
  · rename_i name value declared variadic is
    split
    · exact safe_pure trivial
    · refine safe_bind (safe_bindsLocally _ _) fun bound _ => ?_
      split
      · exact safe_pure trivial
      · have regular : setting.tree.isPair value = false :=
          formed.isPair_eq_false is (by simp [Form.links]) rfl
        refine safe_bind (nodes value regular) fun default sound => ?_
        exact safe_bindName _ _ (sound_named _ sound) _
  · exact safe_pure trivial

theorem safe_instanceOf (inside : discipline.base ≤ scope) (definition : NodeId)
    (inputs : List NodeId) :
    Safe discipline (instanceOf setting.tree scope definition inputs) (Sound discipline) := by
  refine safe_bind (@safe_mapM _ _ _ _ (fun field : String × Value => Sound discipline field.2) _ _ fun name _ => ?_) ?_
  · exact safe_bind (safe_localValue inside name) fun value sound => safe_pure sound
  · intro fields sound
    exact safe_pure (every_record discipline.plain sound)

theorem safe_bodyWith (formed : setting.tree.WellFormed) (inside : discipline.base ≤ scope)
    (nodes : ∀ id, setting.tree.isPair id = false → Safe discipline (node scope id) (Sound discipline))
    (definition : NodeId) :
    Safe discipline (bodyWith setting.tree node scope definition) (Sound discipline) := by
  unfold bodyWith
  split
  · rename_i name inputs body output is
    split
    · exact safe_fail _ _
    · exact nodes body (formed.isPair_eq_false is (by simp [Form.links]) rfl)
  · exact safe_instanceOf inside _ _
  · exact safe_fail _ _

end

section

variable {call : List Value → Eval Value}
  (calls : ∀ arguments, (∀ argument ∈ arguments, Sound discipline argument) →
    Safe discipline (call arguments) (Sound discipline))

include calls

theorem safe_eachWith (op : HigherOrder) (collection : Value) (scope : ScopeId) (origin : NodeId)
    (index : Nat) {result : Value} (resultSound : Sound discipline result) {kept : List Value}
    (keptSound : ∀ value ∈ kept, Sound discipline value) {elements : List Element}
    (elementsSound : ∀ element ∈ elements, ∀ argument ∈ Machine.elementArguments element,
      Sound discipline argument) :
    Safe discipline (eachWith call op collection scope origin index result kept elements)
      (Sound discipline) := by
  induction elements generalizing index result kept with
  | nil =>
    unfold eachWith
    split
    · exact safe_pure resultSound
    · exact safe_pure (every_collectLike discipline.plain collection keptSound)
  | cons element rest hypothesis =>
    have elementSound := elementsSound element (by simp)
    have restSound := fun other inRest => elementsSound other (List.mem_cons_of_mem element inRest)
    refine safe_bind (calls _ ?_) fun produced sound => ?_
    · intro argument among
      rcases List.mem_append.mp among with first | own
      · split at first
        · rwa [List.mem_singleton.mp first]
        · simp at first
      · exact elementSound argument own
    · split
      · exact safe_fail _ _
      · rename_i more is
        have moreSound : ∀ value ∈ kept ++ more, Sound discipline value := by
          intro value among
          rcases List.mem_append.mp among with old | new
          · exact keptSound value old
          · exact every_retained elementSound sound is value new
        have goesOn {result : Value} (resultSound : Sound discipline result) :=
          safe_bind (safe_rebind scope Natives.indexName (every_number discipline.plain (.ofNat (index + 1))))
            fun _ _ => hypothesis (index + 1) resultSound moreSound restSound
        split
        · exact safe_bind (safe_rebind _ _ sound) fun _ _ => goesOn sound
        · exact goesOn resultSound

end

section

variable {call : Caller}
  (calls : ∀ function arguments origin, Sound discipline (.function function) →
    (∀ argument ∈ arguments, Sound discipline argument) →
    Safe discipline (call function arguments origin) (Sound discipline))

include calls

theorem safe_loopWith (op : HigherOrder) {collection function initial : Value}
    (collectionSound : Sound discipline collection) (functionSound : Sound discipline function)
    (initialSound : Sound discipline initial) (scope : ScopeId) (origin : NodeId) :
    Safe discipline (loopWith call op collection function initial scope origin) (Sound discipline) := by
  unfold loopWith
  split
  · exact safe_fail _ _
  · split
    · rename_i function
      have each := safe_eachWith (fun arguments => calls function arguments origin functionSound)
        op collection scope origin 0 initialSound
        (show ∀ value ∈ [], Sound discipline value by simp) (fun element among => every_element collectionSound among)
      refine safe_bind (safe_rebind _ _ (every_number discipline.plain _)) fun _ _ => ?_
      dsimp only
      split
      · exact safe_bind (safe_rebind _ _ initialSound) fun _ _ => each
      · exact each
    · exact safe_fail _ _

theorem safe_nativeWith (standard : setting.natives = .standard) {native : Native}
    (registered : native ∈ setting.natives.definitions) {inputs : List (String × Value)}
    (sound : ∀ input ∈ inputs, Sound discipline input.2) (scope : ScopeId) (origin : NodeId) :
    Safe discipline (do handOver (← nativeWith call native inputs scope origin)) (Sound discipline) := by
  have inputSound (name : String) : Sound discipline ((inputs.lookup name).getD .none) := by
    cases found : inputs.lookup name with
    | none => exact every_none discipline.plain
    | some value => exact sound _ (mem_of_lookup found)
  cases is : native.body with
  | apply run =>
    obtain ⟨value, is, -⟩ := Natives.standard_arePure _ (standard ▸ registered) _ is
    rw [nativeWith_of_pure is, pure_bind]
    refine safe_handOver fun regular => ?_
    refine every_standard discipline.plain (standard ▸ registered) is ?_ regular
    intro input among
    obtain ⟨name, _, rfl⟩ := List.mem_map.mp among
    exact inputSound name
  | loop op =>
    unfold nativeWith
    rw [is]
    refine safe_bind (safe_loopWith calls _ (inputSound _) (inputSound _) (inputSound _) _ _) ?_
    exact fun value sound => safe_handOver fun _ => sound

theorem callWith_safe (standard : setting.natives = .standard) {node : Evaluator}
    (formed : setting.tree.WellFormed)
    (nodes : ∀ scope, discipline.base ≤ scope → ∀ id, setting.tree.isPair id = false →
      Safe discipline (node scope id) (Sound discipline))
    {function : Function} {arguments : List Value} (origin : NodeId)
    (functionSound : Sound discipline (.function function))
    (sound : ∀ argument ∈ arguments, Sound discipline argument) :
    Safe discipline (callWith setting node call function arguments origin) (Sound discipline) := by
  have callable := discipline.callable function functionSound.own
  unfold callWith
  dsimp only
  cases called : function.callee with
  | definition definition =>
    dsimp only
    split
    · rename_i unknown
      refine safe_misuse _ (callable.elim id fun callable => ?_)
      have defined := callable.definition definition called
      simp [unknown] at defined
    · rename_i kind inputs known
      split
      · rename_i thrown is
        exact safe_throwValue (Value.isException_of_bindInputs is)
      · rename_i bound is
        have added : Scope.Holds discipline.base (Sound discipline)
            ⟨Machine.callBindings setting.tree function inputs bound,
              some (function.context.getD setting.root)⟩ := by
          refine ⟨every_callBindings functionSound inputs (every_bindInputs discipline.plain sound (by simp) is), ?_⟩
          rintro _ ⟨⟩
          cases captured : function.context with
          | none => exact discipline.inside
          | some context => exact discipline.context function context functionSound.own captured
        refine safe_bind (safe_addScope added) fun scope inside => ?_
        have inScope := nodes scope inside
        refine safe_bind (safe_forM fun input _ => safe_defaultWith formed inScope input) fun _ _ => ?_
        refine safe_bind (safe_bodyWith formed inside inScope definition) fun value valueSound => ?_
        exact safe_handOver fun _ => valueSound
  | native index =>
    dsimp only
    split
    · rename_i unknown
      refine safe_misuse _ (callable.elim id fun callable => ?_)
      have registered := callable.native index called
      simp [unknown] at registered
    · rename_i native known
      split
      · exact safe_fail _ _
      · split
        · exact safe_fail _ _
        · have bindings := every_inputs native.inputs sound
          refine safe_bind (safe_addScope ⟨bindings, ?_⟩) fun scope _ => ?_
          · rintro _ ⟨⟩
            exact discipline.inside
          · exact safe_nativeWith calls standard (List.mem_of_getElem? known) bindings scope origin

end

section

variable (formed : setting.tree.WellFormed) (standard : setting.natives = .standard)
  (borrowed : ∀ borrow ∈ setting.borrowed, Sound discipline borrow.2)

include formed standard borrowed

/-- A call of a function that can be called is safe. -/
theorem callTo_safe (calls : Nat) {function : Function} {arguments : List Value} (origin : NodeId)
    (functionSound : Sound discipline (.function function))
    (sound : ∀ argument ∈ arguments, Sound discipline argument) :
    Safe discipline (callTo setting calls function arguments origin) (Sound discipline) := by
  induction calls generalizing function arguments origin with
  | zero => exact safe_fail _ _
  | succ calls hypothesis =>
    obtain ⟨rank, lower, bounded⟩ := Tree.exists_rank formed.acyclic
    have inner : ∀ function arguments origin, Sound discipline (.function function) →
        (∀ argument ∈ arguments, Sound discipline argument) →
        Safe discipline (callTo setting calls function arguments origin) (Sound discipline) :=
      fun _ _ origin functionSound sound => hypothesis origin functionSound sound
    refine callWith_safe inner standard formed (fun scope inside id regular => ?_) origin functionSound sound
    exact nodeTo_safe formed borrowed inner lower (bounded id) inside regular

/-- A node that is no pair is safe to evaluate in a scope inside the outermost one. -/
theorem node_safe (calls : Nat) {scope : ScopeId} {id : NodeId} (inside : discipline.base ≤ scope)
    (regular : setting.tree.isPair id = false) :
    Safe discipline (node setting calls scope id) (Sound discipline) := by
  obtain ⟨rank, lower, bounded⟩ := Tree.exists_rank formed.acyclic
  have inner : ∀ function arguments origin, Sound discipline (.function function) →
      (∀ argument ∈ arguments, Sound discipline argument) →
      Safe discipline (callTo setting calls function arguments origin) (Sound discipline) :=
    fun _ _ origin functionSound sound => callTo_safe formed standard borrowed calls origin functionSound sound
  exact nodeTo_safe formed borrowed inner lower (bounded id) inside regular

end

/-! ### Programs -/

/-- What all scopes of a program hold and what it comes to, if its inputs and the scopes before it are sound. -/
theorem program_safe {tree : Tree} (maxDepth : Nat) (store : Store) {inputs : Inputs}
    (discipline : Discipline ⟨tree, .standard, store.scopes.size, inputs.trigger, inputs.borrowed.reverse⟩)
    (formed : tree.WellFormed) (before : store.Holds discipline.base (Sound discipline))
    (streams : ∀ stream ∈ inputs.streams, Sound discipline stream.2)
    (borrowed : ∀ borrow ∈ inputs.borrowed, Sound discipline borrow.2) :
    match program tree .standard maxDepth store inputs with
    | .ok value world => SoundStore discipline world.store ∧ Sound discipline value
    | .error (.exception value) _ => value.isException = true
    | .error (.fault _) _ => discipline.lax := by
  have values : ∀ binding ∈ Natives.standard.values, Sound discipline binding.2 := every_values discipline.native
  have held := holds_outermostStore .standard inputs store before fun binding among =>
    (List.mem_append.mp among).elim (values binding) (streams binding)
  have size := size_outermostStore .standard inputs store
  have start : SoundStore discipline (outerScopes Natives.standard inputs.streams store).2.2 := by
    refine ⟨?_, held.add ⟨by simp, by rintro _ ⟨⟩; exact discipline.inside⟩⟩
    rw [outerScopes_eq, size_add, size]
    exact Nat.lt_succ_of_lt (Nat.lt_succ_self _)
  have inside : discipline.base ≤ (outerScopes Natives.standard inputs.streams store).2.1 := by
    rw [outerScopes_eq, size]
    exact Nat.le_succ_of_le discipline.inside
  have safe := node_safe formed rfl (fun borrow among => borrowed borrow (List.mem_reverse.mp among))
    (maxDepth - 1) inside formed.root_no_pair ⟨_, []⟩ start
  have same : node ⟨tree, .standard, store.scopes.size, inputs.trigger, inputs.borrowed.reverse⟩ (maxDepth - 1)
      (outerScopes Natives.standard inputs.streams store).2.1 tree.root
      ⟨(outerScopes Natives.standard inputs.streams store).2.2, []⟩ =
    program tree .standard maxDepth store inputs := rfl
  rw [same] at safe
  cases computed : program tree .standard maxDepth store inputs with
  | ok value world =>
    rw [computed] at safe
    exact safe
  | error halt world =>
    rw [computed] at safe
    cases halt <;> exact safe

end Rivulet.Meaning
