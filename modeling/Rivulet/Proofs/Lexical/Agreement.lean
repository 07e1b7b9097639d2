import Rivulet.Proofs.Lexical.Programs
import Rivulet.Proofs.Machine.Reached

/-!
What references come to. A name means what it was declared as, in the activation of a function where an
input declares it, unless a call around the reference is one of a closure that has this very name
(`Stage.agrees`): that closure hides what the name means outside of it.
-/

namespace Rivulet

open Meaning

/-! ### Places -/

/-- A place lies in a call of a closure that was made at a visit: the function around the place was
visited there, and the scope of the call lies inside what was captured there. -/
structure Context.MadeAt (context : Context) (visits : List Visit) (place made : Visit) : Prop where
  among : made ∈ visits
  enclosing : context.enclosing? place.node = some made.node
  around : place.store.parent? place.scope = some made.store.scopes.size

/-- An outer place is the place itself, or one around the closure whose call the place lies in. -/
inductive Context.Around (context : Context) (visits : List Visit) : Visit → Visit → Prop where
  | here (place : Visit) : context.Around visits place place
  | outside {place made outer : Visit} (made_at : context.MadeAt visits place made)
      (around : context.Around visits made outer) : context.Around visits place outer

/-- The value that the declaration of a name gives it at a place: the value that the statements have bound
it to, the argument in the call of the function whose input it is, the value of a stream, or a native
unless a stream of that name hides it. -/
def Context.Gives (context : Context) (streams : List (String × Value)) (visits : List Visit) (place : Visit)
    (name : String) : Definition → Value → Prop
  | .input _ function, value => ∃ outer, context.Around visits place outer ∧
      context.enclosing? outer.node = some function ∧ outer.store.local? outer.scope name = some value
  | .stream _, value => streams.reverse.lookup name = some value
  | .native index, value => (streams.reverse.lookup name).getD (Natives.valueOf index) = value
  | _, value => ∃ outer, context.Around visits place outer ∧ context.enclosing? outer.node = none ∧
      place.store.local? outer.scope name = some value

/-- A place lies in a call of a closure of this very name, which is not the name of an input, and which the
function does not have from the bind that it stands in. -/
def Context.Hides (context : Context) (visits : List Visit) (place : Visit) (name : String)
    (value : Value) : Prop :=
  ∃ outer made inputs, context.Around visits place outer ∧ context.MadeAt visits outer made ∧
    Machine.definitionOf? context.tree made.node = some (.function made.node, inputs) ∧
    name ∉ declaredNames context.tree inputs ∧ ¬ context.tree.IsLiteral made.node name ∧
    value = .function ⟨.definition made.node, some made.store.scopes.size, name⟩ ∧
    outer.store.local? outer.scope name = some value

section

variable {context : Context} {visits visits' : List Visit} {place made outer : Visit}

theorem Context.MadeAt.mono (made_at : context.MadeAt visits place made) (more : visits ⊆ visits') :
    context.MadeAt visits' place made :=
  { made_at with among := more made_at.among }

theorem Context.Around.mono (around : context.Around visits place outer) (more : visits ⊆ visits') :
    context.Around visits' place outer := by
  induction around with
  | here place => exact .here place
  | outside made_at _ hypothesis => exact .outside (made_at.mono more) hypothesis

theorem Context.Around.eq_or_mem (around : context.Around visits place outer) :
    outer = place ∨ outer ∈ visits := by
  induction around with
  | here => exact .inl rfl
  | outside made_at _ hypothesis =>
    rcases hypothesis with rfl | among
    · exact .inr made_at.among
    · exact .inr among

end

/-! ### Literals -/

section

variable {context : Context} {id start : NodeId} {name : String}

/-- An expression, or the block of a program, is all that stands below a node that passes on what it sees. -/
theorem below_passing (written : context.tree.Written) {form : Form}
    (is : context.tree.form? start = some form) (passes : form.opensScope = false)
    (link : id ∈ context.tree.children start) :
    context.tree.isTerm id = true ∨ ∃ statements, context.tree.form? id = some (.block statements) := by
  have present := Tree.isPresent_of_mem_children link
  obtain ⟨form', is', link⟩ := Tree.child_of_mem_children link
  rw [is] at is'
  cases is'
  have fits := written.fits start form is
  cases form with
  | program body =>
    simp only [Form.links, List.mem_singleton] at link
    subst link
    exact .inr fits
  | bind name value declared variadic =>
    simp only [Form.links, List.mem_singleton] at link
    subst link
    rcases fits with missing | term
    · simp [missing, NodeId.isPresent, NodeId.isMissing] at present
    · exact .inl term
  | sequence items => exact .inl (fits.2 id link)
  | property owner name => exact .inl (fits.2 id link)
  | binary op left right => exact .inl (fits.2 id link)
  | unary op operand => exact .inl (fits.2 id link)
  | call callee arguments => exact .inl (fits.2 id link)
  | changed stream => exact .inl (fits.2 id link)
  | block | function | record => simp [Form.opensScope] at passes
  | number | boolean | text | none | reference | borrow | placeholder | unparsable => simp [Form.links] at link
  | set | mapping | pair | conditional => simp [Tree.Fits, Form.isTerm] at fits

/-- Nothing but a bind lies around the function that it names. -/
theorem start_of_within_literal (written : context.tree.Written) (within : context.tree.Within start id)
    (literal : context.tree.IsLiteral id name) :
    start = id ∨ ∃ declared variadic, context.tree.form? start = some (.bind name id declared variadic) := by
  obtain ⟨defined, bind, declared, variadic, is⟩ := literal
  have present : (context.tree.form? id).isSome := by
    cases there : context.tree.form? id with
    | none => simp [there] at defined
    | some form => rfl
  have link : id ∈ context.tree.children bind :=
    Tree.mem_children_iff.mpr ⟨⟨_, is, by simp [Form.links]⟩, Context.isPresent_of_isSome present⟩
  cases within with
  | here => exact .inl rfl
  | inside within _ _ link' =>
    obtain rfl := written.single id _ bind link' link
    cases within with
    | here => exact .inr ⟨declared, variadic, is⟩
    | inside within is' passes link'' =>
      rcases below_passing written is' passes link'' with term | ⟨statements, block⟩
      · simp [Tree.isTerm, is, Form.isTerm] at term
      · simp [is] at block

end

namespace Stage

variable {stage : Stage} {visits : List Visit} {store : Store} {scope : ScopeId} {id : NodeId}
  {name : String} {value : Value}

theorem Situated.enclosing? (situated : stage.Situated visits store scope id) :
    (stage.context.enclosing? id = none ∧ scope = stage.scope) ∨
      ∃ visit inputs body, stage.context.enclosing? id = some visit.node ∧
        stage.InBody visits store scope id visit inputs body := by
  cases situated with
  | top place =>
    rw [Context.enclosing?_of_within stage.written stage.indexed place.within,
      Context.enclosing?_statement stage.written stage.indexed stage.is_program stage.is_block place.there]
    exact .inl ⟨rfl, rfl⟩
  | @body _ _ visit inputs body place =>
    refine .inr ⟨visit, inputs, body, ?_, place⟩
    rw [Context.enclosing?_of_within stage.written stage.indexed place.within,
      Context.enclosing?_body stage.written stage.indexed place.is_function]

theorem InBody.madeAt {visit : Visit} {inputs : ChildList} {body : NodeId}
    (place : stage.InBody visits store scope id visit inputs body) :
    stage.context.MadeAt visits ⟨id, scope, store⟩ visit where
  among := place.made
  enclosing := by
    rw [Context.enclosing?_of_within stage.written stage.indexed place.within,
      Context.enclosing?_body stage.written stage.indexed place.is_function]
  around := place.around

/-- The function that a bind names at once stands in a statement, and its name refers to the bind. -/
theorem Situated.resolve?_literal (situated : stage.Situated visits store scope id)
    (literal : stage.tree.IsLiteral id name) :
    (∃ bind, stage.context.resolve? id name = some (.bind bind)) ∧
      stage.context.enclosing? id = none ∧ scope = stage.scope := by
  have apart (parent : NodeId) (link : id ∈ stage.tree.children parent) :
      ∃ declared variadic, stage.tree.form? parent = some (.bind name id declared variadic) := by
    obtain ⟨-, bind, declared, variadic, is⟩ := literal
    have link' : id ∈ stage.tree.children bind :=
      Tree.mem_children_iff.mpr ⟨⟨_, is, by simp [Form.links]⟩, Tree.isPresent_of_mem_children link⟩
    obtain rfl := stage.written.single id parent bind link link'
    exact ⟨declared, variadic, is⟩
  cases situated with
  | @top _ position statement place =>
    rcases start_of_within_literal stage.written place.within literal with rfl | ⟨declared, variadic, is⟩
    · have link := Context.statement_mem_children stage.written stage.is_block place.there
      obtain ⟨declared, variadic, is⟩ := apart _ link
      rw [tree, stage.is_block] at is
      cases is
    · obtain ⟨inputs, body, function⟩ := form?_of_isFunction literal.1
      have function' : stage.context.tree.form? id = _ := function
      have declares : stage.context.declares statement name = true := by
        simp [Context.declares_iff, is, Form.declaredName?]
      have recursive : stage.context.mayRecurse statement = true := by
        simp [Context.mayRecurse, is, function']
      refine ⟨⟨statement, ?_⟩, ?_, rfl⟩
      · rw [resolve?_of_atTop place, declares, recursive]
        simp [Context.definitionOf, is]
      · rw [Context.enclosing?_of_within stage.written stage.indexed place.within,
          Context.enclosing?_statement stage.written stage.indexed stage.is_program stage.is_block place.there]
  | @body _ _ visit inputs body place =>
    have term := (stage.written.fits visit.node _ place.is_function).2.2.2
    rcases start_of_within_literal stage.written place.within literal with rfl | ⟨declared, variadic, is⟩
    · have link : body ∈ stage.tree.children visit.node := Context.body_mem_children stage.written place.is_function
      obtain ⟨declared, variadic, is⟩ := apart _ link
      rw [place.is_function] at is
      cases is
    · simp [Tree.isTerm, is, Form.isTerm] at term

end Stage

/-! ### Outermost names -/

theorem lookup_values (natives : Natives) (name : String) :
    natives.values.reverse.lookup name = (natives.find? name).map Natives.valueOf := by
  have only (value : Value) (among : (name, value) ∈ natives.values) :
      (natives.find? name).map Natives.valueOf = some value := by
    obtain ⟨index, -, is⟩ := List.mem_filterMap.mp among
    cases known : natives.get? index with
    | none => simp [known] at is
    | some native =>
      simp only [known] at is
      split at is
      · rename_i found
        cases is
        rw [found, Option.map_some]
      · simp at is
  cases found : natives.values.reverse.lookup name with
  | some value => exact (only value (List.mem_reverse.mp (mem_of_lookup found))).symm
  | none =>
    cases known : natives.find? name with
    | none => rfl
    | some index =>
      have among : name ∈ natives.values.reverse.map Prod.fst :=
        List.mem_map.mpr ⟨_, List.mem_reverse.mpr (mem_values_of_find? known), rfl⟩
      rw [← isSome_lookup_iff, found] at among
      simp at among

/-- What the outermost scope binds is what streams and natives are declared as. -/
theorem gives_outermost {context : Context} {inputs : Inputs} {visits : List Visit} {place : Visit}
    {name : String} {definition : Definition} {value : Value}
    (supplied : ∀ signature ∈ context.streams, signature.name ∈ inputs.streams.map Prod.fst)
    (bound : outermostBinding context.natives inputs name = some value)
    (resolved : context.outermost? name = some definition) :
    context.Gives inputs.streams visits place name definition value := by
  rw [outermostBinding, List.reverse_append, List.lookup_append, lookup_values] at bound
  unfold Context.outermost? at resolved
  cases among : Context.lastIndex? (fun stream : StreamSignature => stream.name == name) context.streams with
  | some index =>
    rw [among] at resolved
    cases resolved
    obtain ⟨position, found, -⟩ := Option.map_eq_some_iff.mp among
    obtain ⟨inside, named, -⟩ := List.findIdx?_eq_some_iff_getElem.mp found
    have same : (context.streams.reverse[position]).name = name := by simpa using named
    have there : name ∈ inputs.streams.reverse.map Prod.fst := by
      have := supplied _ (List.mem_reverse.mp (List.getElem_mem inside))
      rwa [same, ← List.mem_reverse, ← List.map_reverse] at this
    obtain ⟨value', is⟩ := Option.isSome_iff_exists.mp (isSome_lookup_iff.mpr there)
    rw [is] at bound
    cases bound
    exact is
  | none =>
    obtain ⟨index, known, rfl⟩ : ∃ index, context.natives.find? name = some index ∧ .native index = definition := by
      simpa [among] using resolved
    rw [known] at bound
    change (inputs.streams.reverse.lookup name).getD _ = value
    cases found : inputs.streams.reverse.lookup name with
    | some value' => simpa [found] using bound
    | none => simpa [found] using bound

/-! ### Agreement -/

namespace Stage

variable {stage : Stage} {visits before : List Visit} {place made outer : Visit} {name : String}
  {value : Value} {definition : Definition} {inputs : Inputs}

/-- A place outside of all functions is evaluated in the scope of the statements. -/
theorem scope_of_outside (recorded : stage.Recorded visits)
    (situated : stage.Situated visits place.store place.scope place.node)
    (around : stage.context.Around visits place outer) (outside : stage.context.enclosing? outer.node = none) :
    outer.scope = stage.scope := by
  have at_top {visits : List Visit} (situated : stage.Situated visits outer.store outer.scope outer.node) :
      outer.scope = stage.scope := by
    rcases situated.enclosing? with ⟨-, inside⟩ | ⟨visit, _, _, within, -⟩
    · exact inside
    · simp [outside] at within
  rcases around.eq_or_mem with rfl | among
  · exact at_top situated
  · obtain ⟨earlier, later, rfl⟩ := List.append_of_mem among
    exact at_top (recorded earlier outer later rfl).2

/-- What a declaration gives where a closure was made, it gives in the calls of the closure. -/
theorem gives_in_call (consistent : stage.Consistent visits place.store) (recorded : stage.Recorded before)
    (situated : stage.Situated before made.store made.scope made.node)
    (made_at : stage.context.MadeAt visits place made) (more : before ⊆ visits)
    (gives : stage.context.Gives inputs.streams before made name definition value) :
    stage.context.Gives inputs.streams visits place name definition value := by
  have outwards {outer : Visit} (around : stage.context.Around before made outer) :
      stage.context.Around visits place outer := .outside made_at (around.mono more)
  have statement (is : ∃ outer, stage.context.Around before made outer ∧
        stage.context.enclosing? outer.node = none ∧ made.store.local? outer.scope name = some value) :
      ∃ outer, stage.context.Around visits place outer ∧ stage.context.enclosing? outer.node = none ∧
        place.store.local? outer.scope name = some value := by
    obtain ⟨outer, around, outside, bound⟩ := is
    refine ⟨outer, outwards around, outside, ?_⟩
    rw [scope_of_outside recorded situated around outside] at bound ⊢
    exact consistent.remembers made made_at.among name value bound
  cases definition with
  | input input function =>
    obtain ⟨outer, around, within, bound⟩ := gives
    exact ⟨outer, outwards around, within, bound⟩
  | stream => exact gives
  | native => exact gives
  | _ => exact statement gives

theorem hides_in_call (made_at : stage.context.MadeAt visits place made) (more : before ⊆ visits)
    (hides : stage.context.Hides before made name value) :
    stage.context.Hides visits place name value := by
  obtain ⟨outer, inner, inputs, around, made_at', rest⟩ := hides
  exact ⟨outer, inner, inputs, .outside made_at (around.mono more), made_at'.mono more, rest⟩

section

variable (same : ∀ name, stage.outer name = outermostBinding stage.context.natives inputs name)
  (supplied : ∀ signature ∈ stage.context.streams, signature.name ∈ inputs.streams.map Prod.fst)

include same supplied

/-- In a statement a lookup gives what the name was declared as. -/
theorem gives_of_atTop {position : Nat} {statement : NodeId} 
    (consistent : stage.Consistent visits place.store) (inside : place.scope = stage.scope)
    (at_top : stage.AtTop place.store place.node position statement)
    (unbound : ¬ stage.tree.IsLiteral place.node name) (term : stage.tree.isTerm place.node = true)
    (found : place.store.lookup place.scope name = some value)
    (resolved : stage.context.resolve? place.node name = some definition) :
    stage.context.Gives inputs.streams visits place name definition value := by
  rw [inside, consistent.lookup_scope] at found
  rw [resolve?_of_atTop at_top] at resolved
  have own : (stage.context.declares statement name && stage.context.mayRecurse statement) = false := by
    rw [← Bool.not_eq_true, Bool.and_eq_true]
    rintro ⟨declares, recursive⟩
    exact unbound (literal_of_mayRecurse at_top.fits at_top.within term declares recursive)
  rw [own, if_neg Bool.false_ne_true] at resolved
  have outside : stage.context.enclosing? place.node = none := by
    rw [Context.enclosing?_of_within stage.written stage.indexed at_top.within,
      Context.enclosing?_statement stage.written stage.indexed stage.is_program stage.is_block at_top.there]
  cases earlier : (stage.statements.take position).reverse.find? fun earlier =>
      stage.context.declares earlier name with
  | some declaring =>
    rw [earlier] at resolved
    cases resolved
    have among : name ∈ declaredNames stage.tree (stage.statements.take position) :=
      mem_declaredNames_iff.mpr
        ⟨declaring, by simpa using List.mem_of_find?_eq_some earlier, by simpa using List.find?_some earlier⟩
    obtain ⟨value', is⟩ := Option.isSome_iff_exists.mp ((at_top.bound name).mpr among)
    rw [is] at found
    obtain rfl : value' = value := by simpa using found
    have given : ∃ outer, stage.context.Around visits place outer ∧
        stage.context.enclosing? outer.node = none ∧ place.store.local? outer.scope name = some value' :=
      ⟨place, .here place, outside, inside ▸ is⟩
    unfold Context.definitionOf
    split <;> exact given
  | none =>
    rw [earlier] at resolved
    have free : place.store.local? stage.scope name = none := by
      rw [← Option.not_isSome_iff_eq_none, at_top.bound, mem_declaredNames_iff]
      rintro ⟨declaring, among, declares⟩
      have := List.find?_eq_none.mp earlier declaring (by simpa using among)
      exact this (by simpa using declares)
    rw [free, Option.none_or, same] at found
    exact gives_outermost supplied found (by simpa using resolved)

/-- A lookup gives what the name was declared as, or a closure of that name that hides it. -/
theorem gives_or_hides (consistent : stage.Consistent visits place.store) (recorded : stage.Recorded visits)
    (situated : stage.Situated visits place.store place.scope place.node)
    (term : stage.tree.isTerm place.node = true) (spelled : name ≠ "")
    (unbound : ¬ stage.tree.IsLiteral place.node name)
    (found : place.store.lookup place.scope name = some value)
    (resolved : stage.context.resolve? place.node name = some definition) :
    stage.context.Gives inputs.streams visits place name definition value ∨
      stage.context.Hides visits place name value := by
  induction size : visits.length using Nat.strong_induction_on generalizing visits place with
  | _ count hypothesis =>
    obtain ⟨id, scope, store⟩ := place
    cases situated with
    | top at_top => exact .inl (gives_of_atTop same supplied consistent rfl at_top unbound term found resolved)
    | @body _ _ made inputs body in_body =>
      have made_at := in_body.madeAt
      have there : stage.tree.form? made.node = _ := in_body.is_function
      obtain ⟨before, after, split⟩ := List.append_of_mem in_body.made
      obtain ⟨then_, situated⟩ := recorded before made after split
      have earlier : stage.Recorded before := by
        intro first other rest same
        exact recorded first other (rest ++ made :: after) (by simp [split, same])
      have more : before ⊆ visits := by
        rw [split]
        exact List.subset_append_left _ _
      rw [consistent.lookup_body recorded in_body] at found
      rw [resolve?_of_inBody in_body spelled] at resolved
      by_cases input : name ∈ declaredNames stage.tree (stage.tree.list inputs)
      · obtain ⟨bound, is⟩ := Option.isSome_iff_exists.mp (in_body.inputs_bound name input)
        obtain ⟨declaring, named⟩ := Option.isSome_iff_exists.mp (isSome_inputNamed?_iff.mpr input)
        rw [named] at resolved
        rw [is] at found
        cases resolved
        obtain rfl : bound = value := by simpa using found
        exact .inl ⟨⟨id, scope, store⟩, .here _, made_at.enclosing, is⟩
      · have unnamed : stage.context.inputNamed? (stage.tree.list inputs) name = none := by
          rw [← Option.not_isSome_iff_eq_none, isSome_inputNamed?_iff]
          exact input
        rw [unnamed] at resolved
        have resolved' : stage.context.resolve? made.node name = some definition := by simpa using resolved
        cases is : store.local? scope name with
        | some bound =>
          rw [is] at found
          obtain rfl : bound = value := by simpa using found
          have closure := in_body.own_bound name bound input is
          by_cases literal : stage.tree.IsLiteral made.node name
          · -- The closure has the name from the bind that it stands in, so the name means the closure.
            obtain ⟨⟨bind, refers⟩, outside, inside⟩ := situated.resolve?_literal literal
            obtain ⟨value', here, there⟩ := in_body.literal_bound name spelled literal input
            rw [refers] at resolved'
            cases resolved'
            obtain rfl : value' = bound := by simpa [here] using is
            exact .inl ⟨made, .outside made_at (.here made), outside, inside ▸ there⟩
          · refine .inr ⟨_, made, stage.tree.list inputs, .here _, made_at, ?_, input, literal, closure, is⟩
            simp [Machine.definitionOf?, in_body.is_function]
        | none =>
          rw [is] at found
          have unbound' : ¬ stage.tree.IsLiteral made.node name := by
            intro literal
            obtain ⟨value', here, -⟩ := in_body.literal_bound name spelled literal input
            simp [is] at here
          have term' : stage.tree.isTerm made.node = true :=
            isTerm_of_isFunction (by simp [there, Form.isFunction])
          have less : before.length < count := by
            rw [← size, split]
            simp
          rcases hypothesis _ less then_ earlier situated term' unbound' (by simpa using found) resolved' rfl with
            gives | hides
          · exact .inl (gives_in_call consistent earlier situated made_at more gives)
          · exact .inr (hides_in_call made_at more hides)

end

end Stage

/-! ### Sources -/

namespace Machine

section

variable {text : String} {tree : Tree} {signatures : List StreamSignature} {σ : Type} {lookup : SourceLookup σ}
  {host : σ}

/-- In a source without a blocking conflict every reference that is completed has the value that the
declaration of its name gives, unless it lies in a call of a closure that hides the name. -/
theorem reference_gives_or_hides (read : Line.parse false text = .ok tree)
    (unblocked : (Analysis.analyze tree .standard signatures lookup host).1.isBlocked = false)
    {inputs : Inputs} (supplied : ∀ signature ∈ signatures, signature.name ∈ inputs.streams.map Prod.fst)
    (streams : ∀ stream ∈ inputs.streams, Value.Every (Value.Foreign True) stream.2)
    (borrowed : ∀ borrow ∈ inputs.borrowed, Value.Every (Value.Foreign True) borrow.2)
    (limits : Limits) (before : Store) {count taken : Nat} {visits : List Visit} {store : Store}
    {frame : Frame} {rest : List Frame} {id : NodeId} {name : String}
    (course : Course ((create (.ofTree tree) .standard limits before).prepared inputs) count visits
      ((create (.ofTree tree) .standard limits before).start inputs)
      (((create (.ofTree tree) .standard limits before).prepared inputs).inState store (frame :: rest) taken))
    (next : frame.current? = some (.finish id)) (is : tree.form? id = some (.reference name)) :
    let state := ((create (.ofTree tree) .standard limits before).prepared inputs).inState store (frame :: rest) taken
    let context := Context.ofTree tree .standard signatures
    let place : Visit := ⟨id, frame.scope, store⟩
    ∃ definition value, context.resolve? id name = some definition ∧
      state.finish frame id = (state, .ok (.push value)) ∧
      (context.Gives inputs.streams visits place name definition value ∨
        context.Hides visits place name value) := by
  intro state context place
  have written := Line.written_of_parse read
  have accepted := accepted_of_analyze written unblocked
  obtain ⟨block, is_program⟩ := written.root
  obtain ⟨list, is_block⟩ := written.fits tree.root _ is_program
  have admits : context.Admits True inputs := {
    derive := derive_standard
    strict := .inl trivial
    supplied := supplied
    streams := streams
    borrowed := fun id source _ value found =>
      borrowed _ (List.mem_reverse.mp (mem_of_lookup found)) }
  let machine := create (.ofTree tree) .standard limits before
  let stage := Stage.opening context written rfl accepted is_program is_block admits before.root.2
  have finishes : stage.Finishes (machine.meaning inputs) :=
    Stage.finishes_program context written rfl accepted is_program is_block admits
      before.root.2 limits.maxDepth
  have recorded : stage.Recorded (visitsOf (machine.meaning inputs)) := by
    cases computed : machine.meaning inputs with
    | ok value world =>
      rw [computed] at finishes
      exact finishes.1.recorded
    | error halt world =>
      rw [computed] at finishes
      exact finishes.1
  obtain ⟨total, last, whole, ended⟩ := exists_course machine rfl written.wellFormed inputs
  obtain ⟨later, made⟩ := mem_visits_of_reference whole ended course next is
  obtain ⟨consistent, situated⟩ := recorded visits place later made
  have earlier : stage.Recorded visits := by
    intro first other after same
    exact recorded first other (after ++ place :: later) (by simp [made, same, place])
  have resolved := accepted.references id name is
  have spelled : name ≠ "" := written.fits id _ is
  have term : context.tree.isTerm id = true := by
    have is' : context.tree.form? id = _ := is
    simp [Tree.isTerm, is', Form.isTerm]
  have unbound : ¬ context.tree.IsLiteral id name := by
    have is' : context.tree.form? id = _ := is
    simp [Tree.IsLiteral, is', Form.isFunction]
  obtain ⟨definition, refers⟩ := Option.isSome_iff_exists.mp resolved
  have bound : (store.lookup frame.scope name).isSome :=
    (Stage.isSome_lookup_or_literal consistent earlier situated term spelled resolved).resolve_right unbound
  obtain ⟨value, found⟩ := Option.isSome_iff_exists.mp bound
  have pushes : state.finish frame id = (state, .ok (.push value)) := by
    have is' : state.tree.form? id = _ := is
    simp only [finish, is', show state.store = store from rfl, found]
    rfl
  exact ⟨definition, value, refers, pushes,
    Stage.gives_or_hides (fun _ => rfl) supplied consistent earlier situated term spelled unbound found refers⟩

end

/-- A source that calls a function which yields its input. -/
def callSource : Tree where
  nodes := #[
    ⟨.bind "x" .missing none false, ⟨0, 1⟩⟩,
    ⟨.reference "x", ⟨1, 2⟩⟩,
    ⟨.function "" ⟨0, 1⟩ (.node 1) none, ⟨0, 3⟩⟩,
    ⟨.bind "f" (.node 2) none false, ⟨0, 4⟩⟩,
    ⟨.reference "f", ⟨4, 5⟩⟩,
    ⟨.number "5" .unitless, ⟨5, 6⟩⟩,
    ⟨.call (.node 4) ⟨1, 1⟩, ⟨4, 7⟩⟩,
    ⟨.block ⟨2, 2⟩, ⟨0, 8⟩⟩,
    ⟨.program (.node 7), ⟨0, 9⟩⟩]
  lists := #[.node 0, .node 5, .node 3, .node 6]
  root := .node 8

/-- After six steps the reference in the body is next, in the frame of the call. -/
theorem reference_gives_argument :
    let machine := create (.ofTree callSource) .standard ⟨100, 10⟩ .empty
    let context := Context.ofTree callSource .standard []
    ∃ visits store frame caller taken,
      let state := (machine.prepared {}).inState store [frame, caller] taken
      Course (machine.prepared {}) 6 visits (machine.start {}) state ∧
        frame.current? = some (.finish (.node 1)) ∧
        ∃ definition value, context.resolve? (.node 1) "x" = some definition ∧
          state.finish frame (.node 1) = (state, .ok (.push value)) ∧
          (context.Gives [] visits ⟨.node 1, frame.scope, store⟩ "x" definition value ∨
            context.Hides visits ⟨.node 1, frame.scope, store⟩ "x" value) := by
  intro machine context
  have read : Line.parse false "f: ƒ(x) x\nf(5)" = .ok callSource := by decide +kernel
  have unblocked : (Analysis.analyze callSource .standard [] .none ()).1.isBlocked = false := by decide +kernel
  have goes : ∀ count < 7, ((machine.start {}).stepped count).result.isNone = true ∧
      ((machine.start {}).stepped count).step.2.isOk = true := by decide +kernel
  obtain ⟨total, last, whole, ended⟩ := exists_course machine rfl (Line.written_of_parse read).wellFormed {}
  have longer : 7 ≤ total := by
    by_contra less
    obtain ⟨going, fine⟩ := goes total (by omega)
    rw [whole.stepped] at going fine
    rcases ended with finished | ⟨fault, _, _, _, _, _, rfl, stepped⟩
    · simp_all
    · rw [stepped] at fine
      cases fine
  obtain ⟨more, rfl⟩ : ∃ more, total = 6 + (more + 1) := ⟨total - 7, by omega⟩
  obtain ⟨visits, store, frames, taken, course⟩ := whole.exists_middle
  have reached : frames = ((machine.start {}).stepped 6).frames := by rw [course.stepped]; rfl
  have two : frames.length = 2 := by
    rw [reached]
    decide +kernel
  obtain ⟨frame, caller, rfl⟩ := List.length_eq_two.mp two
  have next : frame.current? = some (.finish (.node 1)) := by
    have first : [frame, caller].head?.bind Frame.current? = some (.finish (.node 1)) := by
      rw [reached]
      decide +kernel
    exact first
  exact ⟨visits, store, frame, caller, taken, course, next,
    reference_gives_or_hides read unblocked (by decide) (by simp) (by simp) ⟨100, 10⟩ .empty course next rfl⟩

/-! ### Names that closures hide -/

/-- A closure over an input is bound to the name of that input. -/
def hiddenInput : Tree where
  nodes := #[
    ⟨.bind "n" .missing none false, ⟨0, 1⟩⟩,
    ⟨.reference "n", ⟨1, 2⟩⟩,
    ⟨.function "" ⟨0, 0⟩ (.node 1) none, ⟨1, 3⟩⟩,
    ⟨.function "" ⟨0, 1⟩ (.node 2) none, ⟨0, 4⟩⟩,
    ⟨.bind "make" (.node 3) none false, ⟨0, 5⟩⟩,
    ⟨.reference "make", ⟨5, 6⟩⟩,
    ⟨.number "5" .unitless, ⟨6, 7⟩⟩,
    ⟨.call (.node 5) ⟨1, 1⟩, ⟨5, 8⟩⟩,
    ⟨.bind "n" (.node 7) none false, ⟨5, 9⟩⟩,
    ⟨.reference "n", ⟨9, 10⟩⟩,
    ⟨.call (.node 9) ⟨2, 0⟩, ⟨9, 11⟩⟩,
    ⟨.block ⟨2, 3⟩, ⟨0, 12⟩⟩,
    ⟨.program (.node 11), ⟨0, 13⟩⟩]
  lists := #[.node 0, .node 6, .node 4, .node 8, .node 10]
  root := .node 12

/-- The reference in the body means the input, which is five, but has the closure itself for its value. -/
theorem hidden_input_is_not_given :
    Line.parse false "make: ƒ(n) ƒ() n\nn: make(5)\nn()" = .ok hiddenInput ∧
      (Analysis.analyze hiddenInput .standard [] .none ()).1.isBlocked = false ∧
      (Context.ofTree hiddenInput .standard []).resolve? (.node 1) "n" = some (.input (.node 0) (.node 3)) ∧
      (match (((create (.ofTree hiddenInput) .standard ⟨1000, 10⟩ .empty).start {}).run 100).2 with
        | .ok (.finished (.function closure)) => some (closure.callee, closure.name)
        | _ => none) = some (.definition (.node 2), "n") := by
  refine ⟨?_, ?_, ?_, ?_⟩ <;> decide +kernel

end Machine

end Rivulet
