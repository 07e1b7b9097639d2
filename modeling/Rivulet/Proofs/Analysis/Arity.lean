import Rivulet.Machine.Call
import Rivulet.Proofs.Typing.Operators

/-!
Numbers of arguments. Where the inputs of a definition are in order (`Checking.Ordered`), the rule of a call and the
call itself come to the same: the first required input without an argument is missing (`missing?`), too many arguments
are not expected (`exceeds`), and otherwise all inputs that arguments reach are bound (`boundBy`).

Main statement: `arity_agrees`.
-/

namespace Rivulet

/-- Whether a problem is one of the number of arguments of a call. -/
def Problem.isArity : Problem → Bool
  | missingInput _ | unexpectedInput => true
  | _ => false

/-- What a callee is known to call: a definition in its place, or what its name refers to. -/
inductive Context.Calls (context : Context) (callee : NodeId) : CallTarget → Prop where
  | here (is : (Machine.definitionOf? context.tree callee).isSome) : Calls context callee (.definition callee)
  | named {name : String} {definition : Definition} {node : NodeId}
    (is : context.tree.form? callee = some (.reference name))
    (resolved : context.resolve? callee name = some definition)
    (callable : context.callable? definition = some node) : Calls context callee (.definition node)
  | native {name : String} {index : Nat} (is : context.tree.form? callee = some (.reference name))
    (resolved : context.resolve? callee name = some (.native index)) : Calls context callee (.native index)

namespace Checking

open Machine (bindInputs)

/-! ### Inputs in order -/

/-- Inputs are binds of names of their own that differ from the names seen, and only the last may be variadic. -/
inductive Ordered (tree : Tree) : List String → List NodeId → Prop where
  | nil (seen : List String) : Ordered tree seen []
  | single {seen : List String} {input : NodeId} {inputs : List NodeId} {name : String} {value : NodeId}
    {declared : Option Ty} (is : tree.form? input = some (.bind name value declared false)) (fresh : name ∉ seen)
    (rest : Ordered tree (name :: seen) inputs) : Ordered tree seen (input :: inputs)
  | variadic {seen : List String} {input : NodeId} {name : String} {value : NodeId} {declared : Option Ty}
    (is : tree.form? input = some (.bind name value declared true)) (fresh : name ∉ seen) : Ordered tree seen [input]

/-- Inputs whose list gets no complaint are in order. -/
theorem ordered_of_checkInputs {tree : Tree} {seen : List (String × NodeId)} {optional : Option NodeId}
    {inputs : List NodeId} (clean : checkInputs tree seen optional inputs = []) :
    Ordered tree (seen.map Prod.fst) inputs := by
  induction inputs generalizing seen optional with
  | nil => exact .nil _
  | cons input inputs hypothesis =>
    unfold checkInputs at clean
    split at clean
    · rename_i name value declared variadic is
      cases known : seen.lookup name with
      | some earlier => simp [known] at clean
      | none =>
        simp only [known, List.nil_append, Option.isSome_none, Bool.false_eq_true, if_false, List.append_eq_nil_iff]
          at clean
        have fresh : name ∉ seen.map Prod.fst := by
          intro among
          obtain ⟨earlier, there, rfl⟩ := List.mem_map.mp among
          simpa using List.lookup_eq_none_iff.mp known earlier there
        cases variadic with
        | false => exact .single is fresh (hypothesis clean.2)
        | true =>
          have last : inputs = [] := by simpa [reportIf] using clean.1.1
          exact last ▸ .variadic is fresh
    · simp at clean

/-! ### Arguments and inputs -/

section

variable {tree : Tree} {seen : List String} {input : NodeId} {inputs : List NodeId} {name : String} {value : NodeId}
  {declared : Option Ty}

/-- The first input that gets none of a number of arguments but needs one. -/
def missing? (tree : Tree) (inputs : List NodeId) (count : Nat) : Option String :=
  (((inputs.take ((inputs.findIdx? (isVariadic tree)).getD inputs.length)).drop count).find? (isRequired tree)).map
    fun input => (declaredName? tree input).getD ""

/-- Whether there are arguments that no input takes. -/
def exceeds (tree : Tree) (inputs : List NodeId) (count : Nat) : Bool :=
  (inputs.findIdx? (isVariadic tree)).isNone && inputs.length < count

/-- What arguments bind inputs to, one after the other. -/
def boundBy (tree : Tree) : List NodeId → List Value → List (String × Value)
  | [], _ => []
  | input :: inputs, arguments =>
    match tree.form? input with
    | some (.bind name _ _ true) => [(name, .sequence arguments.toArray)]
    | some (.bind name _ _ false) =>
      match arguments with
      | [] => boundBy tree inputs []
      | argument :: rest => (name, argument) :: boundBy tree inputs rest
    | _ => boundBy tree inputs arguments

theorem missing?_single (is : tree.form? input = some (.bind name value declared false)) (count : Nat) :
    missing? tree (input :: inputs) count =
      match count with
      | 0 => if value.isMissing then some name else missing? tree inputs 0
      | count + 1 => missing? tree inputs count := by
  have plain : isVariadic tree input = false := by simp [isVariadic, is]
  have required : isRequired tree input = value.isMissing := by simp [isRequired, is]
  have named : declaredName? tree input = some name := by simp [declaredName?, is, Form.declaredName?]
  have fixed : ((input :: inputs).findIdx? (isVariadic tree)).getD (input :: inputs).length =
      (inputs.findIdx? (isVariadic tree)).getD inputs.length + 1 := by
    rw [List.findIdx?_cons, plain]
    cases inputs.findIdx? (isVariadic tree) <;> simp
  unfold missing?
  rw [fixed, List.take_succ_cons]
  cases count with
  | zero =>
    rw [List.drop_zero, List.find?_cons, required]
    cases value.isMissing with
    | true => simp [named]
    | false => simp
  | succ count => rw [List.drop_succ_cons]

theorem exceeds_single (is : tree.form? input = some (.bind name value declared false)) (count : Nat) :
    exceeds tree (input :: inputs) count =
      match count with
      | 0 => false
      | count + 1 => exceeds tree inputs count := by
  have plain : isVariadic tree input = false := by simp [isVariadic, is]
  unfold exceeds
  rw [List.findIdx?_cons, plain]
  cases count with
  | zero => simp
  | succ count => simp

theorem missing?_variadic (is : tree.form? input = some (.bind name value declared true)) (count : Nat) :
    missing? tree [input] count = none := by
  simp [missing?, List.findIdx?_cons, isVariadic, is]

theorem exceeds_variadic (is : tree.form? input = some (.bind name value declared true)) (count : Nat) :
    exceeds tree [input] count = false := by
  simp [exceeds, List.findIdx?_cons, isVariadic, is]

/-- No input is missing if there are too many arguments. -/
theorem missing?_eq_none_of_exceeds {count : Nat} (surplus : exceeds tree inputs count = true) :
    missing? tree inputs count = none := by
  simp only [exceeds, Bool.and_eq_true, Option.isNone_iff_eq_none, decide_eq_true_eq] at surplus
  unfold missing?
  rw [surplus.1, Option.getD_none, List.take_length, List.drop_eq_nil_of_le (by omega)]
  rfl

/-- Arguments are bound to inputs in order, unless one is missing or there are too many. -/
theorem bindInputs_eq (ordered : Ordered tree seen inputs) (origin : NodeId) (arguments : List Value)
    {bound : List (String × Value)} (known : ∀ name, (bound.lookup name).isSome → name ∈ seen) :
    bindInputs tree origin inputs arguments bound =
      match missing? tree inputs arguments.length with
      | some name => .error (.failed (.missingInput name) origin)
      | none =>
        if exceeds tree inputs arguments.length then .error (.failed .unexpectedInput origin)
        else .ok (bound ++ boundBy tree inputs arguments) := by
  induction ordered generalizing arguments bound with
  | nil =>
    cases arguments with
    | nil => simp [bindInputs, missing?, exceeds, boundBy]
    | cons => simp [bindInputs, missing?, exceeds]
  | @single seen input inputs name value declared is fresh rest hypothesis =>
    have unbound : (bound.lookup name).isSome = false := Bool.eq_false_iff.mpr fun some => fresh (known name some)
    cases arguments with
    | nil =>
      have later := hypothesis [] fun other some => List.mem_cons_of_mem _ (known other some)
      cases missing : value.isMissing with
      | true => simp [bindInputs, is, missing, missing?_single is]
      | false => simpa [bindInputs, is, missing, missing?_single is, exceeds_single is, exceeds, boundBy] using later
    | cons argument others =>
      have knownThen (other : String) (some : ((bound ++ [(name, argument)]).lookup other).isSome) :
          other ∈ name :: seen := by
        rw [List.lookup_append, Option.isSome_or, Bool.or_eq_true] at some
        rcases some with old | new
        · exact List.mem_cons_of_mem _ (known other old)
        · by_cases same : other = name
          · exact same ▸ List.mem_cons_self
          · simp [List.lookup_cons, beq_eq_false_iff_ne.mpr same] at new
      have later := hypothesis others knownThen
      simpa [bindInputs, is, unbound, missing?_single is, exceeds_single is, boundBy] using later
  | @variadic seen input name value declared is fresh =>
    have unbound : (bound.lookup name).isSome = false := Bool.eq_false_iff.mpr fun some => fresh (known name some)
    simp [bindInputs, is, unbound, missing?_variadic is, exceeds_variadic is, boundBy]

theorem bindInputs_nil_eq (ordered : Ordered tree [] inputs) (origin : NodeId) (arguments : List Value) :
    bindInputs tree origin inputs arguments [] =
      match missing? tree inputs arguments.length with
      | some name => .error (.failed (.missingInput name) origin)
      | none =>
        if exceeds tree inputs arguments.length then .error (.failed .unexpectedInput origin)
        else .ok (boundBy tree inputs arguments) := by
  have unbound (name : String) (some : (([] : List (String × Value)).lookup name).isSome) : name ∈ [] := by simp at some
  simpa using bindInputs_eq ordered origin arguments unbound

/-- Arguments bind no other names than those of inputs. -/
theorem lookup_boundBy_of_mem (ordered : Ordered tree seen inputs) (arguments : List Value) {name : String}
    (among : name ∈ seen) : (boundBy tree inputs arguments).lookup name = none := by
  induction ordered generalizing arguments with
  | nil => rfl
  | @single seen input inputs other value declared is fresh rest hypothesis =>
    have apart : (name == other) = false := beq_eq_false_iff_ne.mpr fun same => fresh (same ▸ among)
    have later (arguments : List Value) := hypothesis arguments (List.mem_cons_of_mem _ among)
    cases arguments with
    | nil => simpa [boundBy, is] using later []
    | cons argument others => simpa [boundBy, is, List.lookup_cons, apart] using later others
  | @variadic seen input other value declared is fresh =>
    have apart : (name == other) = false := beq_eq_false_iff_ne.mpr fun same => fresh (same ▸ among)
    simp [boundBy, is, List.lookup_cons, apart]

/-- No input in order has a name that was seen before. -/
theorem notMem_of_ordered (ordered : Ordered tree seen inputs) {position : Nat} (there : inputs[position]? = some input)
    {variadic : Bool} (is : tree.form? input = some (.bind name value declared variadic)) : name ∉ seen := by
  induction ordered generalizing position with
  | nil => simp at there
  | @single seen first inputs other _ _ first_is fresh rest hypothesis =>
    cases position with
    | zero =>
      obtain rfl : first = input := by simpa using there
      obtain ⟨rfl, -⟩ : other = name ∧ _ := by simpa using first_is.symm.trans is
      exact fresh
    | succ position =>
      have later : inputs[position]? = some input := by simpa using there
      exact fun among => hypothesis later (List.mem_cons_of_mem _ among)
  | @variadic seen first other _ _ first_is fresh =>
    cases position with
    | zero =>
      obtain rfl : first = input := by simpa using there
      obtain ⟨rfl, -⟩ : other = name ∧ _ := by simpa using first_is.symm.trans is
      exact fresh
    | succ position => simp at there

/-- An input holds the argument in its place, and a variadic input all that remain. -/
theorem lookup_boundBy (ordered : Ordered tree seen inputs) (arguments : List Value) {position : Nat}
    (there : inputs[position]? = some input) {variadic : Bool}
    (is : tree.form? input = some (.bind name value declared variadic)) :
    (boundBy tree inputs arguments).lookup name =
      if variadic then some (.sequence (arguments.drop position).toArray) else arguments[position]? := by
  induction ordered generalizing arguments position with
  | nil => simp at there
  | @single seen first inputs other _ _ first_is fresh rest hypothesis =>
    cases position with
    | zero =>
      obtain rfl : first = input := by simpa using there
      obtain ⟨rfl, -, -, rfl⟩ : other = name ∧ _ = value ∧ _ = declared ∧ false = variadic := by
        simpa using first_is.symm.trans is
      cases arguments with
      | nil => simpa [boundBy, is] using lookup_boundBy_of_mem rest [] List.mem_cons_self
      | cons argument others => simp [boundBy, is]
    | succ position =>
      have later : inputs[position]? = some input := by simpa using there
      have apart : (name == other) = false :=
        beq_eq_false_iff_ne.mpr fun same => notMem_of_ordered rest later is (same ▸ List.mem_cons_self)
      cases arguments with
      | nil => simpa [boundBy, first_is] using hypothesis [] later
      | cons argument others => simpa [boundBy, first_is, List.lookup_cons, apart] using hypothesis others later
  | @variadic seen first other _ _ first_is fresh =>
    cases position with
    | zero =>
      obtain rfl : first = input := by simpa using there
      obtain ⟨rfl, -, -, rfl⟩ : other = name ∧ _ = value ∧ _ = declared ∧ true = variadic := by
        simpa using first_is.symm.trans is
      simp [boundBy, is]
    | succ position => simp at there

/-- If none is missing, the inputs behind the last argument have defaults. -/
theorem isPresent_of_missing? (ordered : Ordered tree seen inputs) {count position : Nat}
    (none : missing? tree inputs count = none) (there : inputs[position]? = some input)
    (is : tree.form? input = some (.bind name value declared false)) (behind : count ≤ position) :
    value.isPresent = true := by
  induction ordered generalizing count position with
  | nil => simp at there
  | @single seen first inputs _ _ _ first_is fresh rest hypothesis =>
    rw [missing?_single first_is] at none
    cases count with
    | zero =>
      dsimp only at none
      split at none
      · simp at none
      · rename_i supplied
        cases position with
        | zero =>
          obtain rfl : first = input := by simpa using there
          obtain ⟨-, rfl, -⟩ : _ ∧ _ = value ∧ _ := by simpa using first_is.symm.trans is
          simpa [NodeId.isPresent] using supplied
        | succ position => exact hypothesis none (by simpa using there) (Nat.zero_le position)
    | succ count =>
      obtain ⟨position, rfl⟩ : ∃ before, position = before + 1 := ⟨position - 1, by omega⟩
      exact hypothesis none (by simpa using there) (by omega)
  | @variadic seen first other _ _ first_is fresh =>
    cases position with
    | zero =>
      obtain rfl : first = input := by simpa using there
      simp [first_is] at is
    | succ position => simp at there

end

/-! ### What calls are checked for -/

section

variable {σ : Type} {checking : Checking σ} {node callee : NodeId} {state : TypeState σ}

/-- The complaints about the number of arguments of a call. -/
def arityConflicts (context : Context) (node callee : NodeId) (arguments : List NodeId) : List Conflict :=
  match signature? context callee with
  | some (.inputs inputs) => (checkArity context.tree node inputs arguments).1
  | some (.native names) => checkNativeArity node names arguments
  | none => []

/-- Whatever the state, arguments are checked for their types only. -/
theorem settles_checkArguments (arguments : List NodeId) (types : List Ty) :
    Settles (fun _ => True) (checking.checkArguments node arguments types)
      fun found => ∀ conflict ∈ found, conflict.problem.isArity = false := by
  induction arguments generalizing types with
  | nil => exact settles_pure (by simp)
  | cons argument arguments hypothesis =>
    cases types with
    | nil => exact settles_pure (by simp)
    | cons type types =>
      have after {found : List Conflict} (first : ∀ conflict ∈ found, conflict.problem.isArity = false) :
          Settles (fun _ => True)
            (checking.checkArguments node arguments types >>= fun others => pure (found ++ others))
            fun found => ∀ conflict ∈ found, conflict.problem.isArity = false :=
        settles_bind (hypothesis types) fun others rest => settles_pure fun conflict among =>
          (List.mem_append.mp among).elim (first conflict) (rest conflict)
      unfold checkArguments
      split
      · exact after (by simp)
      · have first : Settles (fun _ => True) (checking.expectType type argument node)
            fun found => ∀ conflict ∈ found, conflict.problem.isArity = false := by
          intro state _
          rw [run_expectType]
          unfold reportIf
          split <;> simp [Conflict.between, Problem.isArity]
        exact settles_bind first fun _ first => after first

theorem checkCall_eq {types : List Ty} {output : Ty} (typed : checking.foundType callee state = .function types output)
    (node : NodeId) (arguments : List NodeId) : ∃ others,
      ((checking.checkCall node callee arguments).run state).1 =
        arityConflicts checking.context node callee arguments ++ others ∧
      ∀ conflict ∈ others, conflict.problem.isArity = false := by
  unfold foundType at typed
  unfold checkCall arityConflicts
  rw [run_bind, typed]
  cases signature? checking.context callee with
  | none => exact ⟨_, rfl, (settles_checkArguments _ types _ trivial).1⟩
  | some signature =>
    cases signature with
    | inputs => exact ⟨_, rfl, (settles_checkArguments _ types _ trivial).1⟩
    | native => exact ⟨_, rfl, (settles_checkArguments _ types _ trivial).1⟩

theorem isMissing_of_foundType {types : List Ty} {output : Ty}
    (typed : checking.foundType callee state = .function types output) : callee.isMissing = false := by
  cases callee with
  | missing =>
    have unknown : checking.foundType .missing state = .any := rfl
    simp [unknown] at typed
  | node => rfl

/-- A call whose callee is a function is checked for the number of its arguments. -/
theorem mem_problems_call {run : ChildList} {types : List Ty} {output : Ty} {problem : Problem}
    (is : checking.context.tree.form? node = some (.call callee run))
    (typed : checking.foundType callee state = .function types output) (arity : problem.isArity = true) :
    problem ∈ checking.problems node state ↔
      problem ∈ (arityConflicts checking.context node callee (checking.context.tree.list run)).map (·.problem) := by
  obtain ⟨others, found, apart⟩ := checkCall_eq typed node (checking.context.tree.list run)
  have there := isMissing_of_foundType typed
  have problems : checking.problems node state =
      (require node [callee] ++ require node (checking.context.tree.list run) ++
        (arityConflicts checking.context node callee (checking.context.tree.list run) ++ others)).map (·.problem) := by
    rw [← found]
    simp only [problems, check, is, there, Bool.false_eq_true, if_false]
    rfl
  have required (children : List NodeId) : problem ∉ (require node children).map (·.problem) := by
    unfold require reportIf
    split
    · rintro among
      obtain rfl : problem = .missingValue := by simpa [Conflict.alone] using among
      simp [Problem.isArity] at arity
    · simp
  have other : problem ∉ others.map (·.problem) := by
    rintro among
    obtain ⟨conflict, there, rfl⟩ := List.mem_map.mp among
    simp [apart conflict there] at arity
  rw [problems, List.map_append, List.map_append, List.map_append]
  simp [-List.mem_map, required, other]

/-- A definition is a function or a record. -/
theorem form?_of_definitionOf? {tree : Tree} {definition : NodeId} {kind : FrameKind} {inputs : List NodeId}
    (of : Machine.definitionOf? tree definition = some (kind, inputs)) : ∃ run, tree.list run = inputs ∧
      ((∃ own body output, tree.form? definition = some (.function own run body output)) ∨
        ∃ own, tree.form? definition = some (.record own run)) := by
  unfold Machine.definitionOf? at of
  split at of
  · rename_i is
    cases of
    exact ⟨_, rfl, .inl ⟨_, _, _, is⟩⟩
  · rename_i is
    cases of
    exact ⟨_, rfl, .inr ⟨_, is⟩⟩
  · cases of

/-- A call of a definition is checked against its inputs. -/
theorem signature?_of_calls {context : Context} {definition : NodeId} {kind : FrameKind} {inputs : List NodeId}
    (calls : context.Calls callee (.definition definition))
    (of : Machine.definitionOf? context.tree definition = some (kind, inputs)) :
    signature? context callee = some (.inputs inputs) := by
  obtain ⟨run, rfl, ⟨_, _, _, form⟩ | ⟨_, form⟩⟩ := form?_of_definitionOf? of
  all_goals
    unfold signature?
    cases calls with
    | here => simp only [form]
    | @named name resolvent _ is resolved callable =>
      simp only [is, resolved, bind, Option.bind]
      cases resolvent with
      | native => simp [Context.callable?] at callable
      | _ => simp only [callable, form]

theorem signature?_of_calls_native {context : Context} {index : Nat} {native : Native}
    (calls : context.Calls callee (.native index)) (registered : context.natives.get? index = some native) :
    signature? context callee = some (.native native.inputs) := by
  cases calls with
  | native is resolved => simp [signature?, is, resolved, registered]

/-- What is found about the number of arguments of a call of a definition. -/
theorem problems_checkArity (tree : Tree) (node : NodeId) (inputs arguments : List NodeId) :
    (checkArity tree node inputs arguments).1.map (·.problem) =
      (missing? tree inputs arguments.length).toList.map .missingInput ++
        if exceeds tree inputs arguments.length then [.unexpectedInput] else [] := by
  unfold checkArity missing? exceeds
  dsimp only
  rw [List.map_append]
  congr 1
  · split
    · rename_i input found
      simp [found, Conflict.between]
    · rename_i found
      simp [found]
  · cases variadic : inputs.findIdx? (isVariadic tree) with
    | some position => simp
    | none =>
      by_cases surplus : inputs.length < arguments.length
      · simp [surplus, Conflict.between]
      · simp [surplus]

/-- What is found about the number of arguments of a call of a native. -/
theorem problems_checkNativeArity (node : NodeId) (names : List String) (arguments : List NodeId) :
    (checkNativeArity node names arguments).map (·.problem) =
      (names[arguments.length]?).toList.map .missingInput ++
        if names.length < arguments.length then [.unexpectedInput] else [] := by
  unfold checkNativeArity
  rw [List.map_append]
  congr 1
  · cases names[arguments.length]? <;> simp [Conflict.alone]
  · by_cases surplus : names.length < arguments.length
    · simp [surplus, Conflict.between]
    · simp [surplus]

end

/-! ### Agreement -/

/-- What is found wrong with the number of arguments of a call is what the call fails with. -/
structure ArityAgrees {α : Type} (problems : List Problem) (fails : Failure → α) (succeeds : α → Prop) (result : α) :
    Prop where
  missing : ∀ name, .missingInput name ∈ problems ↔ result = fails (.missingInput name)
  unexpected : .unexpectedInput ∈ problems ↔ result = fails .unexpectedInput
  neither : ((∀ name, .missingInput name ∉ problems) ∧ .unexpectedInput ∉ problems) ↔ succeeds result

theorem arityAgrees_of_found {α : Type} {problems : List Problem} {fails : Failure → α} {succeeds : α → Prop}
    {result : α} (distinct : Function.Injective fails) (fatal : ∀ failure, ¬succeeds (fails failure))
    (missing : Option String) (surplus : Bool) (apart : surplus = true → missing = none)
    (found : ∀ problem : Problem, problem.isArity = true →
      (problem ∈ problems ↔ problem ∈ missing.toList.map .missingInput ++ if surplus then [.unexpectedInput] else []))
    (is : match missing with
      | some name => result = fails (.missingInput name)
      | none => if surplus then result = fails .unexpectedInput else succeeds result) :
    ArityAgrees problems fails succeeds result := by
  have missingFound (name : String) := found (.missingInput name) rfl
  have unexpectedFound := found .unexpectedInput rfl
  have injective {first second : Failure} : fails first = fails second ↔ first = second := distinct.eq_iff
  cases missing with
  | some name =>
    cases surplus with
    | true => simp at apart
    | false =>
      obtain rfl : result = fails (.missingInput name) := is
      refine ⟨fun other => ?_, ?_, ?_⟩
      · simp [missingFound, injective, eq_comm]
      · simp [unexpectedFound, injective]
      · simp [missingFound, fatal]
  | none =>
    cases surplus with
    | true =>
      obtain rfl : result = fails .unexpectedInput := is
      refine ⟨fun other => ?_, ?_, ?_⟩
      · simp [missingFound, injective]
      · simp [unexpectedFound]
      · simp [unexpectedFound, fatal]
    | false =>
      have succeeded : succeeds result := by simpa using is
      have never (failure : Failure) : result ≠ fails failure := fun same => fatal failure (same ▸ succeeded)
      refine ⟨fun other => ?_, ?_, ?_⟩
      · simp [missingFound, never]
      · simp [unexpectedFound, never]
      · simp [missingFound, unexpectedFound, succeeded]

section

variable {σ : Type} {checking : Checking σ} {node callee : NodeId} {run : ChildList} {state : TypeState σ}
  (is : checking.context.tree.form? node = some (.call callee run)) {types : List Ty} {output : Ty}
  (typed : checking.foundType callee state = .function types output) {values : List Value}
  (count : values.length = (checking.context.tree.list run).length)

include is typed count

theorem arityAgrees_definition {definition : NodeId} {kind : FrameKind} {inputs : List NodeId}
    (calls : checking.context.Calls callee (.definition definition))
    (of : Machine.definitionOf? checking.context.tree definition = some (kind, inputs))
    (clean : checkInputs checking.context.tree [] none inputs = []) :
    ArityAgrees (checking.problems node state) (fun failure => .error (.failed failure node))
      (fun result => ∃ bound, result = .ok bound) (bindInputs checking.context.tree node inputs values []) := by
  have bound := bindInputs_nil_eq (ordered_of_checkInputs clean) node values
  refine arityAgrees_of_found ?_ (by simp) (missing? checking.context.tree inputs values.length)
    (exceeds checking.context.tree inputs values.length) missing?_eq_none_of_exceeds (fun problem arity => ?_) ?_
  · intro first second same
    simpa [Value.failed] using same
  · rw [mem_problems_call is typed arity, arityConflicts, signature?_of_calls calls of, count]
    exact iff_of_eq (congrArg _ (problems_checkArity ..))
  · rw [bound]
    cases missing? checking.context.tree inputs values.length with
    | some name => rfl
    | none =>
      cases exceeds checking.context.tree inputs values.length with
      | true => rfl
      | false => exact ⟨_, rfl⟩

theorem arityAgrees_native {index : Nat} {native : Native} (calls : checking.context.Calls callee (.native index))
    (registered : checking.context.natives.get? index = some native) {machine : Machine}
    (same : machine.natives = checking.context.natives) (shallow : machine.depth < machine.limits.maxDepth)
    {function : Function} (of : function.callee = .native index) :
    ArityAgrees (checking.problems node state) (fun failure => machine.fail failure node)
      (fun result => ∃ after frame, result = (after, .ok (.start frame)) ∧ frame.kind = .native index)
      (machine.startCall function values node) := by
  have there : machine.natives.get? index = some native := by rw [same, registered]
  refine arityAgrees_of_found ?_ (by simp [Machine.fail]) native.inputs[values.length]?
    (decide (native.inputs.length < values.length)) (fun surplus => ?_) (fun problem arity => ?_) ?_
  · intro first second same
    simpa [Machine.fail, Value.failed] using same
  · simp only [decide_eq_true_eq] at surplus
    exact List.getElem?_eq_none (Nat.le_of_lt surplus)
  · rw [mem_problems_call is typed arity, arityConflicts, signature?_of_calls_native calls registered, count]
    simpa using iff_of_eq (congrArg (problem ∈ ·) (problems_checkNativeArity node native.inputs _))
  · have deep : ¬machine.limits.maxDepth ≤ machine.depth := Nat.not_le.mpr shallow
    unfold Machine.startCall Machine.startNative
    simp only [deep, if_false, of, there]
    cases native.inputs[values.length]? with
    | some name => rfl
    | none =>
      by_cases surplus : native.inputs.length < values.length
      · simp [surplus]
      · simp only [surplus, decide_false, Bool.false_eq_true, if_false]
        exact ⟨_, _, rfl, rfl⟩

end

/-- The number of arguments of a call is checked as the call itself checks it. If the callee is known to be a function
or record whose inputs get no complaint, then the rule of the call reports the failures of binding the inputs, and if
there is none, every variadic input holds the arguments that remain, every other input the argument in its place, and
the inputs behind the last argument have defaults. If the callee is known to be a native, then the rule reports the
failures of the call. -/
theorem arity_agrees {σ : Type} (checking : Checking σ) {node callee : NodeId} {run : ChildList} (state : TypeState σ)
    (is : checking.context.tree.form? node = some (.call callee run)) {types : List Ty} {output : Ty}
    (typed : checking.foundType callee state = .function types output) (values : List Value)
    (count : values.length = (checking.context.tree.list run).length) :
    (∀ definition kind inputs, checking.context.Calls callee (.definition definition) →
      Machine.definitionOf? checking.context.tree definition = some (kind, inputs) →
      checkInputs checking.context.tree [] none inputs = [] →
      ArityAgrees (checking.problems node state) (fun failure => .error (.failed failure node))
        (fun result => ∃ bound, result = .ok bound) (bindInputs checking.context.tree node inputs values []) ∧
      ∀ bound, bindInputs checking.context.tree node inputs values [] = .ok bound →
        ∀ position input name value declared variadic, inputs[position]? = some input →
          checking.context.tree.form? input = some (.bind name value declared variadic) →
          bound.lookup name =
            (if variadic then some (.sequence (values.drop position).toArray) else values[position]?) ∧
          (variadic = false → values.length ≤ position → value.isPresent = true)) ∧
    ∀ index native (machine : Machine) (function : Function), checking.context.Calls callee (.native index) →
      checking.context.natives.get? index = some native → machine.natives = checking.context.natives →
      machine.depth < machine.limits.maxDepth → function.callee = .native index →
      ArityAgrees (checking.problems node state) (fun failure => machine.fail failure node)
        (fun result => ∃ after frame, result = (after, .ok (.start frame)) ∧ frame.kind = .native index)
        (machine.startCall function values node) := by
  constructor
  · intro definition kind inputs calls of clean
    refine ⟨arityAgrees_definition is typed count calls of clean, ?_⟩
    intro bound succeeded position input name value declared variadic there bind
    have ordered := ordered_of_checkInputs clean
    rw [bindInputs_nil_eq ordered node values] at succeeded
    cases missing : missing? checking.context.tree inputs values.length with
    | some other => simp [missing] at succeeded
    | none =>
      rw [missing] at succeeded
      dsimp only at succeeded
      split at succeeded
      · simp at succeeded
      obtain rfl : boundBy checking.context.tree inputs values = bound := by simpa using succeeded
      refine ⟨lookup_boundBy ordered values there bind, fun plain behind => ?_⟩
      exact isPresent_of_missing? ordered missing there (plain ▸ bind) behind
  · intro index native machine function calls registered same shallow of
    exact arityAgrees_native is typed count calls registered same shallow of

/-- A call that leaves the input with a default and the variadic one without arguments, and a call of a native without
any. -/
def invocations : Tree where
  nodes := #[
    ⟨.bind "first" .missing none false, ⟨3, 8⟩⟩,
    ⟨.number "1" .unitless, ⟨17, 18⟩⟩,
    ⟨.bind "second" (.node 1) none false, ⟨9, 18⟩⟩,
    ⟨.bind "rest" .missing none true, ⟨19, 23⟩⟩,
    ⟨.reference "rest", ⟨25, 29⟩⟩,
    ⟨.function "f" ⟨0, 3⟩ (.node 4) none, ⟨0, 29⟩⟩,
    ⟨.number "7" .unitless, ⟨32, 33⟩⟩,
    ⟨.reference "f", ⟨30, 31⟩⟩,
    ⟨.call (.node 7) ⟨3, 1⟩, ⟨30, 34⟩⟩,
    ⟨.reference "length", ⟨35, 41⟩⟩,
    ⟨.call (.node 9) ⟨0, 0⟩, ⟨35, 43⟩⟩,
    ⟨.block ⟨4, 3⟩, ⟨0, 43⟩⟩,
    ⟨.program (.node 11), ⟨0, 43⟩⟩]
  lists := #[.node 0, .node 2, .node 3, .node 6, .node 5, .node 8, .node 10]
  root := .node 12

theorem invocations_agree :
    let checking : Checking Unit := ⟨.ofTree invocations .standard [], ⟨#[], []⟩, .none⟩
    let state := Typing.initial invocations ()
    let machine := Machine.create (.ofTree invocations) .standard ⟨10, 10⟩ .empty
    let values : List Value := [.number (.ofInt 7 .unitless)]
    (ArityAgrees (checking.problems (.node 8) state) (fun failure => .error (.failed failure (.node 8)))
      (fun result => ∃ bound, result = .ok bound)
      (bindInputs invocations (.node 8) [.node 0, .node 2, .node 3] values []) ∧
      bindInputs invocations (.node 8) [.node 0, .node 2, .node 3] values [] =
        .ok [("first", .number (.ofInt 7 .unitless)), ("rest", .sequence #[])]) ∧
    ArityAgrees (checking.problems (.node 10) state) (fun failure => machine.fail failure (.node 10))
      (fun result => ∃ after frame, result = (after, .ok (.start frame)) ∧ frame.kind = .native 0)
      (machine.startCall ⟨.native 0, none, ""⟩ [] (.node 10)) := by
  intro checking state machine values
  have first : checking.foundType (.node 7) state =
      .function [.any, .number .unitless, .sequence .any] (.sequence .any) := by decide +kernel
  have second : checking.foundType (.node 9) state = .function [.any] .plainNumber := by decide +kernel
  have calls : checking.context.Calls (.node 7) (.definition (.node 5)) :=
    .named rfl (by decide +kernel : _ = some (.function (.node 5))) rfl
  have callsNative : checking.context.Calls (.node 9) (.native 0) := .native rfl (by decide +kernel)
  refine ⟨⟨?_, rfl⟩, ?_⟩
  · exact ((arity_agrees checking state rfl first values rfl).1 (.node 5) (.function (.node 5)) _ calls rfl rfl).1
  · exact (arity_agrees checking state rfl second [] rfl).2 0 _ machine ⟨.native 0, none, ""⟩ callsNative rfl rfl
      (by decide) rfl

end Checking

end Rivulet
