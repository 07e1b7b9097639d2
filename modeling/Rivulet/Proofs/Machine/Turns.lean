import Rivulet.Proofs.Machine.Natives

/-!
Evaluations of natives. A native runs in frames above its caller until it hands a value down (`Serves`). While it
does, the caller and the scopes that were there before stay as they are (`Stacked.turn`), and the value depends on
the function and its arguments only, whatever else differs between two evaluations (`answers_unique`).
-/

namespace Rivulet

namespace Machine

/-! ### Turns -/

/-- Where the evaluation of a native leads. -/
inductive Turn where
  /-- Back to the caller, with a value. -/
  | back (value : Value)
  /-- To other frames above the caller. -/
  | on (natives : List Frame)

/-- The frames of a turn. -/
def Turn.frames (caller : Frame) : Turn → List Frame
  | back value => [caller.push value]
  | on natives => natives ++ [caller]

/-- Where a response of the topmost of some natives leads, given the next free scope. -/
def Response.turn (frame : Frame) (rest : List Frame) (next : ScopeId) : Response → Turn
  | hand value =>
    match rest with
    | [] => .back value
    | below :: others => .on (below.push value :: others)
  | go cursor values _ => .on ({ frame with cursor := cursor + 1, values } :: rest)
  | call opening => .on (opening.frame frame.origin next :: frame.advance :: rest)

/-- The scopes after a response in a scope. -/
def Response.store (root scope : ScopeId) (store : Store) : Response → Store
  | hand _ => store
  | go _ _ bindings => bindings.foldl (fun store binding => store.rebind scope binding.1 binding.2) store
  | call opening => (store.add ⟨opening.bindings, some root⟩).2

/-- A state whose next step does not go on to another state. -/
def Over (machine : Machine) : Prop :=
  ∀ second outcome, machine.step = (second, .ok outcome) → second.result.isSome

theorem over_of_halts {machine : Machine} {store : Store} {frame : Frame} {rest : List Frame} {taken : Nat}
    {step : Step} (current : frame.current? = some step)
    (halts : Halts ((machine.inState store (frame :: rest) (taken + 1)).execute frame step)) :
    Over (machine.inState store (frame :: rest) taken) := by
  intro second outcome stepped
  rcases halts with ⟨fault, faulty⟩ | ⟨exception, thrown⟩
  · rw [step_of_fault current (Prod.ext rfl faulty)] at stepped
    simp at stepped
  · obtain ⟨finished, outcome', stepped', ended⟩ :=
      @step_of_throw machine store frame rest taken step current _ _ (Prod.ext rfl thrown)
    rw [stepped'] at stepped
    cases stepped
    simp [ended]

theorem not_over_of_inState {machine machine' : Machine} {store : Store} {frames : List Frame} {taken : Nat}
    {outcome : StepOutcome} (stepped : machine.step = (machine'.inState store frames taken, .ok outcome)) :
    ¬ Over machine := by
  intro ended
  simpa using ended _ _ stepped

/-- What a response leads to. -/
theorem step_of_response {machine : Machine} (unobserved : machine.observers = []) {store : Store} {frame caller : Frame}
    {rest : List Frame} {taken : Nat} {step : Step} {response : Response} (current : frame.current? = some step)
    (going : ∀ waiting ∈ rest ++ [caller], waiting.isExhausted = false)
    (describes : response.Describes machine store frame (rest ++ [caller]) (taken + 1)
      ((machine.inState store (frame :: (rest ++ [caller])) (taken + 1)).execute frame step)) :
    Over (machine.inState store (frame :: (rest ++ [caller])) taken) ∨
      ∃ outcome, (machine.inState store (frame :: (rest ++ [caller])) taken).step =
        (machine.inState (response.store machine.root frame.scope store)
          ((response.turn frame rest store.scopes.size).frames caller) (taken + 1), .ok outcome) := by
  cases response with
  | hand value =>
    obtain ⟨last, values, executed⟩ := describes
    obtain ⟨outcome, stepped⟩ := step_of_push unobserved current executed
    have done : (({ frame with values } : Frame).push value).advance.isExhausted = true := by
      simp [Frame.isExhausted, Frame.push, Frame.advance, last]
    by_cases exception : value.isException = true
    · left
      intro second outcome' stepped'
      rw [stepped] at stepped'
      cases stepped'
      rw [completeFrames_of_exception done rfl exception]
      rfl
    · have regular : value.isException = false := by simpa using exception
      right
      refine ⟨outcome, ?_⟩
      rw [stepped]
      cases rest with
      | nil =>
        exact congrArg (·, _) (completeFrames_of_caller done rfl regular (going caller (by simp)))
      | cons below others =>
        exact congrArg (·, _) (completeFrames_of_caller done rfl regular (going below (by simp)))
  | go cursor values bindings =>
    obtain ⟨within, executed⟩ := describes
    obtain ⟨outcome, stepped⟩ := step_of_proceed unobserved current executed
    right
    refine ⟨outcome, ?_⟩
    have goesOn : ({ frame with cursor, values } : Frame).advance.isExhausted = false :=
      decide_eq_false (Nat.not_le_of_lt within)
    rw [stepped, completeFrames_of_going goesOn]
    rfl
  | call opening =>
    obtain ⟨within, ⟨function, arguments, opens⟩, executed⟩ := describes
    obtain ⟨outcome, stepped⟩ := step_of_start unobserved current executed
    right
    refine ⟨outcome, ?_⟩
    rw [stepped, completeFrames_of_going (isNative_of_opening? opens _ _).going]
    rfl

/-! ### Natives above a caller -/

/-- Scopes below a limit are left alone. -/
def Untouched (base : ScopeId) (store store' : Store) : Prop :=
  store.scopes.size ≤ store'.scopes.size ∧ ∀ id < base, store'.scopes[id]? = store.scopes[id]?

/-- Some frames run natives, in scopes of their own from a limit on. -/
structure Stacked (base : ScopeId) (store : Store) (natives : List Frame) : Prop where
  native : ∀ frame ∈ natives, frame.IsNative
  apart : natives.Pairwise fun above below => below.scope < above.scope
  within : ∀ frame ∈ natives, base ≤ frame.scope ∧ frame.scope < store.scopes.size

/-- A response moves the cursor of its frame inside the steps. -/
def Response.Fits (natives : Natives) (frame : Frame) : Response → Prop
  | hand _ => True
  | go cursor _ _ => cursor + 1 < frame.steps.size
  | call opening => frame.cursor + 1 < frame.steps.size ∧
      ∃ function arguments, opening? natives function arguments = some opening

theorem Response.Describes.fits {machine : Machine} {store : Store} {frame : Frame} {rest : List Frame} {taken : Nat}
    {effect : Effect} {response : Response} (describes : response.Describes machine store frame rest taken effect) :
    response.Fits machine.natives frame := by
  cases response with
  | hand value => trivial
  | go cursor values bindings => exact describes.1
  | call opening => exact ⟨describes.1, describes.2.1⟩

theorem IsNative.move {frame : Frame} (native : frame.IsNative) {cursor : Nat} (values : List Value)
    (within : cursor < frame.steps.size) : ({ frame with cursor, values } : Frame).IsNative := by
  rcases native with ⟨index, steps, -⟩ | ⟨op, steps, -⟩
  · refine .inl ⟨index, steps, ?_⟩
    simpa [steps] using within
  · refine .inr ⟨op, steps, ?_⟩
    simpa [steps, HigherOrder.steps] using within

section

variable {response : Response} {root scope base id : ScopeId} {store : Store} {frame : Frame}
  {rest natives' : List Frame}

theorem size_le_store (response : Response) (root scope : ScopeId) (store : Store) :
    store.scopes.size ≤ (response.store root scope store).scopes.size := by
  cases response with
  | hand => exact Nat.le_refl _
  | go cursor values bindings => exact Nat.le_of_eq (Store.size_rebinds scope bindings store).symm
  | call opening =>
    rw [Response.store, Store.size_add]
    exact Nat.le_succ _

/-- A response leaves the other scopes alone. -/
theorem getElem?_store_of_ne (apart : id ≠ scope) (bound : id < store.scopes.size) :
    (response.store root scope store).scopes[id]? = store.scopes[id]? := by
  cases response with
  | hand => rfl
  | go cursor values bindings =>
    dsimp only [Response.store]
    induction bindings generalizing store with
    | nil => rfl
    | cons binding bindings hypothesis =>
      rw [List.foldl_cons, hypothesis (by simpa using bound), Store.getElem?_rebind]
      simp [Ne.symm apart]
  | call opening =>
    have there := Array.getElem?_eq_getElem bound
    rw [there]
    exact Store.getElem?_add_of_old _ there

theorem local?_store_of_ne (apart : id ≠ scope) (bound : id < store.scopes.size) (name : String) :
    (response.store root scope store).local? id name = store.local? id name := by
  simp only [Store.local?, getElem?_store_of_ne apart bound]

theorem Stacked.untouched (stacked : Stacked base store (frame :: rest)) :
    Untouched base store (response.store root frame.scope store) := by
  obtain ⟨inside, bound⟩ := stacked.within frame List.mem_cons_self
  refine ⟨size_le_store _ _ _ _, fun id below => ?_⟩
  exact getElem?_store_of_ne (Nat.ne_of_lt (Nat.lt_of_lt_of_le below inside))
    (Nat.lt_trans (Nat.lt_of_lt_of_le below inside) bound)

/-- The frames above the caller stay natives in scopes of their own. -/
theorem Stacked.turn {natives : Natives} (stacked : Stacked base store (frame :: rest))
    (fits : response.Fits natives frame)
    (leads : response.turn frame rest store.scopes.size = .on natives') :
    natives' ≠ [] ∧ Stacked base (response.store root frame.scope store) natives' := by
  have more := size_le_store response root frame.scope store
  have native := stacked.native frame List.mem_cons_self
  have within := stacked.within frame List.mem_cons_self
  obtain ⟨above, apart⟩ := List.pairwise_cons.mp stacked.apart
  cases response with
  | hand value =>
    cases rest with
    | nil => simp [Response.turn] at leads
    | cons below others =>
      cases leads
      refine ⟨by simp, ?_, ?_, ?_⟩
      · intro other among
        rcases List.mem_cons.mp among with rfl | later
        · have below := stacked.native below (by simp)
          exact IsNative.move below _ (by simpa [Frame.isExhausted] using below.going)
        · exact stacked.native other (by simp [later])
      · exact List.pairwise_cons.mpr (List.pairwise_cons.mp apart)
      · intro other among
        rcases List.mem_cons.mp among with rfl | later
        · exact stacked.within below (by simp)
        · exact stacked.within other (by simp [later])
  | go cursor values bindings =>
    cases leads
    refine ⟨by simp, ?_, List.pairwise_cons.mpr ⟨above, apart⟩, ?_⟩
    · intro other among
      rcases List.mem_cons.mp among with rfl | later
      · exact IsNative.move native values fits
      · exact stacked.native other (by simp [later])
    · intro other among
      rcases List.mem_cons.mp among with rfl | later
      · exact ⟨within.1, Nat.lt_of_lt_of_le within.2 more⟩
      · have := stacked.within other (by simp [later])
        exact ⟨this.1, Nat.lt_of_lt_of_le this.2 more⟩
  | call opening =>
    cases leads
    obtain ⟨goesOn, function, arguments, opens⟩ := fits
    have bounds (other : Frame) (among : other ∈ frame.advance :: rest) :
        base ≤ other.scope ∧ other.scope < store.scopes.size := by
      rcases List.mem_cons.mp among with rfl | later
      · exact within
      · exact stacked.within other (by simp [later])
    refine ⟨by simp, ?_, ?_, ?_⟩
    · intro other among
      rcases List.mem_cons.mp among with rfl | waiting
      · exact isNative_of_opening? opens _ _
      · rcases List.mem_cons.mp waiting with rfl | later
        · exact IsNative.move native _ goesOn
        · exact stacked.native other (by simp [later])
    · refine List.pairwise_cons.mpr ⟨fun other among => (bounds other among).2, ?_⟩
      exact List.pairwise_cons.mpr ⟨above, apart⟩
    · intro other among
      rcases List.mem_cons.mp among with rfl | waiting
      · exact ⟨Nat.le_of_lt (Nat.lt_of_le_of_lt within.1 within.2), by simp [Response.store, Opening.frame, Frame.start]⟩
      · exact ⟨(bounds other waiting).1, Nat.lt_of_lt_of_le (bounds other waiting).2 more⟩

end

/-- What the next step of the topmost native does, in all states that show the same. -/
theorem exists_turn {natives : Natives} (pure : natives.ArePure) (binds : String → Option Value) {frame : Frame}
    (native : frame.IsNative) :
    ∃ response : Response, ∀ (machine : Machine) (store : Store) (scope : ScopeId) (rest : List Frame) (caller : Frame)
      (taken : Nat), machine.observers = [] → Shows natives machine store scope binds →
      (∀ waiting ∈ rest ++ [caller], waiting.isExhausted = false) →
      Over (machine.inState store ({ frame with scope } :: (rest ++ [caller])) taken) ∨
        response.Fits natives { frame with scope } ∧ ∃ outcome,
          (machine.inState store ({ frame with scope } :: (rest ++ [caller])) taken).step =
            (machine.inState (response.store machine.root scope store)
              ((response.turn { frame with scope } rest store.scopes.size).frames caller) (taken + 1),
              .ok outcome) := by
  obtain ⟨step, current⟩ : ∃ step, frame.current? = some step := by
    have bound : frame.cursor < frame.steps.size := by simpa [Frame.isExhausted] using native.going
    exact ⟨_, Array.getElem?_eq_getElem bound⟩
  obtain ⟨response, responds⟩ := exists_response pure binds native current
  refine ⟨response, fun machine store scope rest caller taken unobserved shows going => ?_⟩
  have current' : ({ frame with scope } : Frame).current? = some step := current
  rcases responds machine store scope (rest ++ [caller]) (taken + 1) shows with halts | describes
  · exact .inl (over_of_halts current' halts)
  · have fits := describes.fits
    rw [shows.natives] at fits
    exact (step_of_response unobserved current' going describes).imp_right fun stepped => ⟨fits, stepped⟩

/-- As long as natives run above a caller, a step keeps them apart from what was there before, or hands the caller
a value. -/
theorem Stacked.step {machine : Machine} (unobserved : machine.observers = []) (plain : machine.tree.IsPlain)
    (pure : machine.natives.ArePure) {base : ScopeId} {store : Store} {natives : List Frame}
    (stacked : Stacked base store natives)
    (some : natives ≠ []) {caller : Frame} (going : caller.isExhausted = false) (taken : Nat) :
    Over (machine.inState store (natives ++ [caller]) taken) ∨
      ∃ store' outcome, Untouched base store store' ∧
        ((∃ value, (machine.inState store (natives ++ [caller]) taken).step =
            (machine.inState store' [caller.push value] (taken + 1), .ok outcome)) ∨
          ∃ natives', natives' ≠ [] ∧ Stacked base store' natives' ∧
            (machine.inState store (natives ++ [caller]) taken).step =
              (machine.inState store' (natives' ++ [caller]) (taken + 1), .ok outcome)) := by
  obtain ⟨frame, rest, rfl⟩ := List.exists_cons_of_ne_nil some
  obtain ⟨response, turns⟩ := exists_turn pure (store.local? frame.scope ·)
    (stacked.native frame List.mem_cons_self)
  have waiting (frame : Frame) (among : frame ∈ rest ++ [caller]) : frame.isExhausted = false := by
    rcases List.mem_append.mp among with native | last
    · exact (stacked.native frame (by simp [native])).going
    · rwa [List.mem_singleton.mp last]
  have shows : Shows machine.natives machine store frame.scope (store.local? frame.scope ·) :=
    ⟨rfl, plain, (stacked.within frame List.mem_cons_self).2, fun _ => rfl⟩
  refine (turns machine store frame.scope rest caller taken unobserved shows waiting).imp_right ?_
  rintro ⟨fits, outcome, stepped⟩
  refine ⟨_, outcome, @Stacked.untouched response machine.root _ _ _ _ stacked, ?_⟩
  cases leads : response.turn frame rest store.scopes.size with
  | back value =>
    rw [show response.turn _ _ _ = _ from leads] at stepped
    exact .inl ⟨value, stepped⟩
  | on natives' =>
    rw [show response.turn _ _ _ = _ from leads] at stepped
    obtain ⟨nonempty, stacked'⟩ := @Stacked.turn response machine.root _ _ _ _ _ _ stacked fits leads
    exact .inr ⟨natives', nonempty, stacked', stepped⟩

/-! ### The value of a call -/

/-- The natives above a caller run until they hand it a value. -/
inductive Serves (machine : Machine) (caller : Frame) : Store → List Frame → Nat → Value → Prop where
  | back {store store' : Store} {natives : List Frame} {taken : Nat} {value : Value} {outcome : StepOutcome}
      (some : natives ≠ [])
      (stepped : (machine.inState store (natives ++ [caller]) taken).step =
        (machine.inState store' [caller.push value] (taken + 1), .ok outcome)) :
      Serves machine caller store natives taken value
  | on {store store' : Store} {natives natives' : List Frame} {taken : Nat} {value : Value} {outcome : StepOutcome}
      (some : natives ≠ []) (more : natives' ≠ [])
      (stepped : (machine.inState store (natives ++ [caller]) taken).step =
        (machine.inState store' (natives' ++ [caller]) (taken + 1), .ok outcome))
      (rest : Serves machine caller store' natives' (taken + 1) value) :
      Serves machine caller store natives taken value

/-- Two rows of frames differ in their scopes only, which bind the same. -/
def Alike (store store' : Store) (natives natives' : List Frame) : Prop :=
  List.Forall₂ (fun frame frame' => frame' = { frame with scope := frame'.scope } ∧
    ∀ name, store'.local? frame'.scope name = store.local? frame.scope name) natives natives'

section

variable {machine machine' : Machine} {caller caller' : Frame} {base base' : ScopeId} {store store' : Store}
  {natives natives' : List Frame} {taken taken' : Nat} {value value' : Value}

theorem inState_inj {frames frames' : List Frame} {outcome outcome' : Except Fault StepOutcome}
    (same : (machine.inState store frames taken, outcome) = (machine.inState store' frames' taken', outcome')) :
    store = store' ∧ frames = frames' := by
  have states := congrArg Prod.fst same
  exact ⟨congrArg Machine.store states, congrArg Machine.frames states⟩

/-- Frames stay alike when the scopes of neither change. -/
theorem Alike.congr {later later' : Store} (alike : Alike store store' natives natives')
    (same : ∀ frame ∈ natives, ∀ name, later.local? frame.scope name = store.local? frame.scope name)
    (same' : ∀ frame ∈ natives', ∀ name, later'.local? frame.scope name = store'.local? frame.scope name) :
    Alike later later' natives natives' := by
  induction alike with
  | nil => exact .nil
  | cons first _ hypothesis =>
    refine .cons ⟨first.1, fun name => ?_⟩ (hypothesis (fun other among => same other (by simp [among]))
      fun other among => same' other (by simp [among]))
    rw [same _ (by simp), same' _ (by simp), first.2]

/-- After the same response frames that were alike still are. -/
theorem Alike.turn {frame frame' : Frame} {rest rest' : List Frame} (response : Response) {root root' : ScopeId}
    (alike : Alike store store' (frame :: rest) (frame' :: rest')) (stacked : Stacked base store (frame :: rest))
    (stacked' : Stacked base' store' (frame' :: rest')) :
    (∃ value, response.turn frame rest store.scopes.size = .back value ∧
        response.turn frame' rest' store'.scopes.size = .back value) ∨
      ∃ natives natives', response.turn frame rest store.scopes.size = .on natives ∧
        response.turn frame' rest' store'.scopes.size = .on natives' ∧
        Alike (response.store root frame.scope store) (response.store root' frame'.scope store') natives natives' := by
  obtain ⟨⟨same, shows⟩, others⟩ := List.forall₂_cons.mp alike
  have kept : Alike (response.store root frame.scope store) (response.store root' frame'.scope store') rest rest' := by
    refine Alike.congr others (fun other among name => ?_) fun other among name => ?_
    · exact local?_store_of_ne (Nat.ne_of_lt (List.rel_of_pairwise_cons stacked.apart among))
        (stacked.within other (by simp [among])).2 name
    · exact local?_store_of_ne (Nat.ne_of_lt (List.rel_of_pairwise_cons stacked'.apart among))
        (stacked'.within other (by simp [among])).2 name
  have bound := (stacked.within frame List.mem_cons_self).2
  have bound' := (stacked'.within frame' List.mem_cons_self).2
  cases response with
  | hand value =>
    cases kept with
    | nil => exact .inl ⟨value, rfl, rfl⟩
    | cons below later =>
      refine .inr ⟨_, _, rfl, rfl, .cons ⟨?_, below.2⟩ later⟩
      rw [Frame.push, below.1]
      rfl
  | go cursor values bindings =>
    refine .inr ⟨_, _, rfl, rfl, .cons ⟨?_, fun name => ?_⟩ kept⟩
    · rw [same]
    · simp only [Response.store, Store.local?_rebinds bound, Store.local?_rebinds bound', shows]
  | call opening =>
    refine .inr ⟨_, _, rfl, rfl, .cons ⟨?_, fun name => ?_⟩ (.cons ⟨?_, fun name => ?_⟩ kept)⟩
    · rw [same]
      rfl
    · simp [Response.store, Opening.frame, Frame.start]
    · rw [Frame.advance, same]
      rfl
    · simp only [Response.store, Frame.advance]
      rw [(Store.keeps_add store _).local? bound, (Store.keeps_add store' _).local? bound', shows]

/-- One step of natives that are alike hands the same value to both callers, or leaves natives that are alike. -/
theorem Alike.step (unobserved : machine.observers = []) (unobserved' : machine'.observers = [])
    (plain : machine.tree.IsPlain) (plain' : machine'.tree.IsPlain) (pure : machine.natives.ArePure)
    (known : machine'.natives = machine.natives)
    (going : caller.isExhausted = false) (going' : caller'.isExhausted = false)
    (alike : Alike store store' natives natives') (stacked : Stacked base store natives)
    (stacked' : Stacked base' store' natives') (some : natives ≠ []) {later later' : Store}
    {frames frames' : List Frame} {outcome outcome' : StepOutcome}
    (stepped : (machine.inState store (natives ++ [caller]) taken).step =
      (machine.inState later frames (taken + 1), .ok outcome))
    (stepped' : (machine'.inState store' (natives' ++ [caller']) taken').step =
      (machine'.inState later' frames' (taken' + 1), .ok outcome')) :
    (∃ value, frames = [caller.push value] ∧ frames' = [caller'.push value]) ∨
      ∃ more more', more ≠ [] ∧ frames = more ++ [caller] ∧ frames' = more' ++ [caller'] ∧
        Alike later later' more more' ∧ Stacked base later more ∧ Stacked base' later' more' := by
  cases alike with
  | nil => exact absurd rfl some
  | @cons frame frame' rest rest' first others =>
    have alike : Alike store store' (frame :: rest) (frame' :: rest') := .cons first others
    obtain ⟨same, shown⟩ := first
    obtain ⟨response, turns⟩ := exists_turn pure (store.local? frame.scope ·)
      (stacked.native frame List.mem_cons_self)
    have waiting {natives : List Frame} {caller : Frame} (native : ∀ frame ∈ natives, frame.IsNative)
        (going : caller.isExhausted = false) (frame : Frame) (among : frame ∈ natives ++ [caller]) :
        frame.isExhausted = false := by
      rcases List.mem_append.mp among with native' | last
      · exact (native frame native').going
      · rwa [List.mem_singleton.mp last]
    have turned := turns machine store frame.scope rest caller taken unobserved
      ⟨rfl, plain, (stacked.within frame List.mem_cons_self).2, fun _ => rfl⟩
      (waiting (fun other among => stacked.native other (by simp [among])) going)
    have turned' := turns machine' store' frame'.scope rest' caller' taken' unobserved'
      ⟨known, plain', (stacked'.within frame' List.mem_cons_self).2, shown⟩
      (waiting (fun other among => stacked'.native other (by simp [among])) going')
    rw [← same] at turned'
    obtain ⟨fits, _, turned⟩ := turned.resolve_left (not_over_of_inState stepped)
    obtain ⟨fits', _, turned'⟩ := turned'.resolve_left (not_over_of_inState stepped')
    obtain ⟨rfl, rfl⟩ := inState_inj (stepped.symm.trans turned)
    obtain ⟨rfl, rfl⟩ := inState_inj (stepped'.symm.trans turned')
    rcases @Alike.turn _ _ _ _ _ _ _ _ response machine.root machine'.root alike stacked stacked' with
      ⟨value, leads, leads'⟩ | ⟨more, more', leads, leads', alike⟩
    · left
      exact ⟨value, by rw [show response.turn _ _ _ = _ from leads]; rfl,
        by rw [show response.turn _ _ _ = _ from leads']; rfl⟩
    · right
      obtain ⟨nonempty, stays⟩ := stacked.turn fits leads
      exact ⟨more, more', nonempty, by rw [show response.turn _ _ _ = _ from leads]; rfl,
        by rw [show response.turn _ _ _ = _ from leads']; rfl, alike, stays, (stacked'.turn fits' leads').2⟩

omit machine machine' base base' store store' natives natives' taken taken' value value' in
theorem back_ne_on {natives : List Frame} (some : natives ≠ []) (value : Value) :
    [caller.push value] ≠ natives ++ [caller'] := by
  intro same
  exact some (by simpa using congrArg List.length same)

/-- Natives that are alike hand the same value to their callers, whatever else differs. -/
theorem serves_unique (unobserved : machine.observers = []) (unobserved' : machine'.observers = [])
    (plain : machine.tree.IsPlain) (plain' : machine'.tree.IsPlain) (pure : machine.natives.ArePure)
    (known : machine'.natives = machine.natives)
    (going : caller.isExhausted = false) (going' : caller'.isExhausted = false)
    (serves : Serves machine caller store natives taken value)
    (serves' : Serves machine' caller' store' natives' taken' value')
    (alike : Alike store store' natives natives') (stacked : Stacked base store natives)
    (stacked' : Stacked base' store' natives') : value = value' := by
  have step {store store' : Store} {natives natives' : List Frame} {taken taken' : Nat} :=
    @Alike.step machine machine' caller caller' base base' store store' natives natives' taken taken' unobserved
      unobserved' plain plain' pure known going going'
  induction serves generalizing store' natives' taken' with
  | back some stepped =>
    cases serves' with
    | back _ stepped' =>
      rcases step alike stacked stacked' some stepped stepped' with ⟨value, frames, frames'⟩ | ⟨_, _, more, frames, -⟩
      · simp only [Frame.push, List.cons.injEq, Frame.mk.injEq, and_true, true_and] at frames frames'
        rw [frames, frames']
      · exact absurd frames (back_ne_on more _)
    | on _ nonempty stepped' =>
      rcases step alike stacked stacked' some stepped stepped' with ⟨value, -, frames'⟩ | ⟨_, _, more, frames, -⟩
      · exact absurd frames'.symm (back_ne_on nonempty _)
      · exact absurd frames (back_ne_on more _)
  | on some nonempty stepped _ hypothesis =>
    cases serves' with
    | back _ stepped' =>
      rcases step alike stacked stacked' some stepped stepped' with
        ⟨value, frames, -⟩ | ⟨more, more', also, -, frames', alike', -⟩
      · exact absurd frames.symm (back_ne_on nonempty _)
      · refine absurd frames' (back_ne_on ?_ _)
        rintro rfl
        cases alike'
        exact also rfl
    | on _ _ stepped' later =>
      rcases step alike stacked stacked' some stepped stepped' with
        ⟨value, frames, -⟩ | ⟨more, more', -, frames, frames', alike', still, still'⟩
      · exact absurd frames.symm (back_ne_on nonempty _)
      · obtain rfl := List.append_cancel_right frames
        obtain rfl := List.append_cancel_right frames'
        exact hypothesis later alike' still still'

end

/-- A call of a function with arguments may hand a value to its caller, in some evaluation. -/
def Answers (natives : Natives) (function : Function) (arguments : List Value) (origin : NodeId) (value : Value) :
    Prop :=
  ∃ (machine : Machine) (caller : Frame) (store : Store) (taken : Nat) (opening : Opening),
    machine.natives = natives ∧ machine.observers = [] ∧ machine.tree.IsPlain ∧ machine.natives.ArePure ∧
      caller.isExhausted = false ∧
      opening? natives function arguments = some opening ∧
      Serves machine caller (store.add ⟨opening.bindings, some machine.root⟩).2
        [opening.frame origin store.scopes.size] taken value

theorem stacked_opening {natives : Natives} {function : Function} {arguments : List Value} {opening : Opening}
    (opens : opening? natives function arguments = some opening) (origin : NodeId) (store : Store) (root : ScopeId) :
    Stacked store.scopes.size (store.add ⟨opening.bindings, some root⟩).2 [opening.frame origin store.scopes.size] := by
  refine ⟨fun frame among => ?_, by simp, fun frame among => ?_⟩
  · rw [List.mem_singleton.mp among]
    exact isNative_of_opening? opens _ _
  · rw [List.mem_singleton.mp among]
    simp [Opening.frame, Frame.start]

/-- A call of a native has one value at most. -/
theorem answers_unique {natives : Natives} {function : Function} {arguments : List Value} {origin : NodeId}
    {value value' : Value} (answers : Answers natives function arguments origin value)
    (answers' : Answers natives function arguments origin value') : value = value' := by
  obtain ⟨machine, caller, store, taken, opening, rfl, unobserved, plain, pure, going, opens, serves⟩ := answers
  obtain ⟨machine', caller', store', taken', opening', known, unobserved', plain', -, going', opens', serves'⟩ := answers'
  rw [opens] at opens'
  cases opens'
  refine serves_unique unobserved unobserved' plain plain' pure known going going' serves serves' ?_
    (stacked_opening opens origin store _) (stacked_opening opens origin store' _)
  refine .cons ⟨rfl, fun name => ?_⟩ .nil
  simp [Opening.frame, Frame.start]

end Machine

end Rivulet
