import Rivulet.Proofs.Line.Derivation

/-!
What is read from the tokens of a line is what they derive. An expression that is read has a derivation in which the
bodies of functions stop where nothing goes on (`soundTo`), and what has such a derivation is read (`Derives.isRead`).
So there is only one such derivation, and its bodies reach furthest (`furthest_of_stopping`).

Main statement: a statement is read from some tokens if and only if it is what they derive with bodies that reach
furthest (`statement_eq_ok_iff`), and that is the case for some statement if they derive any (`exists_statement`).
-/

namespace Rivulet.Line

/-! ### Readings that succeed -/

section

variable {α β : Type} {tokens rest : Tokens} {symbol : Symbol}

theorem bind_eq_ok_iff {reading : Reading (α × Tokens)} {next : α × Tokens → Reading β} {result : β} :
    reading >>= next = .ok result ↔ ∃ value rest, reading = .ok (value, rest) ∧ next (value, rest) = .ok result := by
  cases reading with
  | error failure => exact ⟨nofun, nofun⟩
  | ok found =>
    refine ⟨fun read => ⟨found.1, found.2, rfl, read⟩, ?_⟩
    rintro ⟨value, rest, ⟨⟩, read⟩
    exact read

theorem after_eq_ok_iff {pieces : List Piece} {reading : Reading α} {result : α} :
    after pieces reading = .ok result ↔ reading = .ok result := by
  cases reading <;> simp [after]

theorem nextSymbol?_eq_some_iff :
    nextSymbol? tokens = some symbol ↔ ∃ column rest, tokens = (.symbol symbol, column) :: rest := by
  unfold nextSymbol?
  split
  · simp
  · rename_i other
    refine ⟨nofun, ?_⟩
    rintro ⟨column, rest, rfl⟩
    exact absurd rfl (other _ _ _)

theorem expect_eq_ok_iff {result : Unit} :
    expect symbol tokens = .ok (result, rest) ↔ ∃ column, tokens = (.symbol symbol, column) :: rest := by
  unfold expect failAt
  split
  · rename_i next
    obtain ⟨column, rest, rfl⟩ := nextSymbol?_eq_some_iff.mp next
    simp
  · rename_i next
    refine ⟨nofun, ?_⟩
    rintro ⟨column, rfl⟩
    exact absurd rfl next

theorem after_expect {pieces : List Piece} {column : Nat} :
    after pieces (expect symbol ((.symbol symbol, column) :: rest)) = .ok ((), rest) :=
  after_eq_ok_iff.mpr (expect_eq_ok_iff.mpr ⟨_, rfl⟩)

theorem derivesNames_of_inputNames {names : List String} (read : inputNames tokens = .ok (names, rest)) :
    ∃ column, DerivesNames names tokens ((.symbol .closeParen, column) :: rest) := by
  induction tokens using inputNames.induct generalizing names with
  | case1 name column comma tokens hypothesis =>
    rw [inputNames, after_eq_ok_iff, bind_eq_ok_iff] at read
    obtain ⟨others, middle, read, ⟨⟩⟩ := read
    obtain ⟨column, derives⟩ := hypothesis read
    exact ⟨column, .next derives⟩
  | case2 name column tokens other =>
    rw [inputNames, after_eq_ok_iff, bind_eq_ok_iff] at read
    · obtain ⟨_, middle, read, ⟨⟩⟩ := read
      obtain ⟨column, rfl⟩ := expect_eq_ok_iff.mp read
      exact ⟨column, .last⟩
    · exact other
  | case3 tokens first second =>
    rw [inputNames] at read
    · cases read
    · exact first
    · exact second

theorem derivesInputs_of_inputs {names : List String} (read : inputs tokens = .ok (names, rest)) :
    ∃ column, DerivesInputs names tokens ((.symbol .closeParen, column) :: rest) := by
  unfold inputs at read
  split at read
  · rename_i next
    obtain ⟨column, rest, rfl⟩ := nextSymbol?_eq_some_iff.mp next
    cases read
    exact ⟨column, .none⟩
  · obtain ⟨column, derives⟩ := derivesNames_of_inputNames read
    exact ⟨column, .some derives⟩

end

/-! ### What is derived is read -/

/-- The unit of every number among some tokens is a measure of one dimension. -/
def AllMeasured (tokens : Tokens) : Prop :=
  ∀ digits unit column, (.number digits unit, column) ∈ tokens → Measure.ofText? unit = some (.dimension unit)

theorem AllMeasured.suffix {tokens rest : Tokens} (measured : AllMeasured tokens) (ends : rest <:+ tokens) :
    AllMeasured rest :=
  fun digits unit column among => measured digits unit column (ends.subset among)

/-- The symbols that close a list. -/
def IsClosing (symbol : Symbol) : Prop :=
  symbol = .closeParen ∨ symbol = .closeBracket

theorem closed_of_binaryOp {symbol : Symbol} {op : BinaryOp} {column : Nat} {rest : Tokens}
    (is : symbol.binaryOp? = some op) : Closed ((.symbol symbol, column) :: rest) := by
  constructor <;> rintro ⟨⟩ <;> simp [Symbol.binaryOp?] at is

theorem IsClosing.stops {symbol : Symbol} {column : Nat} {rest : Tokens} (closing : IsClosing symbol) :
    Stops ((.symbol symbol, column) :: rest) := by
  rcases closing with rfl | rfl <;> exact stops_cons (by simp)

section

variable {ends : Tokens → Tokens → Prop} {phrase : Phrase} {before after rest : Tokens}

theorem inputNames_of_derives {names : List String} {column : Nat}
    (derives : DerivesNames names before ((.symbol .closeParen, column) :: rest)) :
    inputNames before = .ok (names, rest) := by
  generalize is : (.symbol .closeParen, column) :: rest = after at derives
  induction derives with
  | last =>
    subst is
    rw [inputNames]
    · rfl
    · rintro _ _ ⟨⟩
  | next _ hypothesis =>
    rw [inputNames, after_eq_ok_iff, bind_eq_ok_iff]
    exact ⟨_, _, hypothesis is, rfl⟩

theorem inputs_of_derives {names : List String} {column : Nat}
    (derives : DerivesInputs names before ((.symbol .closeParen, column) :: rest)) :
    inputs before = .ok (names, rest) := by
  unfold inputs
  cases derives with
  | none => rfl
  | some listed =>
    rw [inputNames_of_derives listed, if_neg]
    cases listed <;> nofun

/-- No phrase but arguments starts with a closing symbol, and no operand without a sign starts with one. -/
def Phrase.Opens (before : Tokens) : Phrase → Prop
  | arguments _ => True
  | suffixed _ | primary _ => ∀ symbol, nextSymbol? before = some symbol → ¬ IsClosing symbol ∧ symbol.unaryOp? = none
  | _ => ∀ symbol, nextSymbol? before = some symbol → ¬ IsClosing symbol

theorem Derives.opens (derives : Derives ends phrase before after) : phrase.Opens before := by
  induction derives with
  | operand _ only => exact only
  | binary _ _ _ first => exact first
  | sign is => rintro _ ⟨⟩ (rfl | rfl) <;> simp [Symbol.unaryOp?] at is
  | unsigned _ only => exact fun symbol next => (only symbol next).1
  | bare _ only => exact only
  | call _ _ first => exact first
  | property _ first => exact first
  | atom is =>
    intro symbol next
    cases is <;> cases next
    exact ⟨fun closing => closing.elim nofun nofun, rfl⟩
  | sequence =>
    rintro _ ⟨⟩
    exact ⟨fun closing => closing.elim nofun nofun, rfl⟩
  | group =>
    rintro _ ⟨⟩
    exact ⟨fun closing => closing.elim nofun nofun, rfl⟩
  | function => nofun
  | changed => nofun
  | noArguments => trivial
  | someArguments => trivial
  | lastItem _ only => exact only
  | nextItem _ _ first => exact first

/-- The functions for expressions read a phrase down to every depth that its tokens allow for. Where a phrase can go on
with what follows, it is read along with that. -/
def Phrase.IsRead (before after : Tokens) : Phrase → Prop
  | primary value => ∀ depth, 6 * before.length + 1 ≤ depth → Line.primary depth before = .ok (value, after)
  | suffixed value => ∀ result,
      (∀ depth, 6 * after.length + 1 ≤ depth → suffixes depth value after = .ok result) →
        ∀ depth, 6 * before.length + 1 ≤ depth →
          (Line.primary depth before >>= fun read => suffixes depth read.1 read.2) = .ok result
  | unary value => Closed after → ∀ depth, 6 * before.length + 2 ≤ depth → Line.unary depth before = .ok (value, after)
  | expression value => Closed after → ∀ result,
      (∀ depth, 6 * after.length + 1 ≤ depth → operators depth value after = .ok result) →
        ∀ depth, 6 * before.length + 2 ≤ depth →
          (Line.unary depth before >>= fun read => operators depth read.1 read.2) = .ok result
  | items values => ∀ close column rest, IsClosing close → after = (.symbol close, column) :: rest →
      ∀ depth, 6 * before.length + 4 ≤ depth → Line.items depth close before = .ok (values, rest)
  | arguments values => ∀ close column rest, IsClosing close → after = (.symbol close, column) :: rest →
      ∀ depth, 6 * before.length + 5 ≤ depth → list depth close before = .ok (values, rest)

theorem suffixes_of_closed {value : Expr} {depth : Nat} (closed : Closed after) (deep : 0 < depth) :
    suffixes depth value after = .ok (value, after) := by
  obtain ⟨depth, rfl⟩ := Nat.exists_eq_add_of_le' deep
  unfold suffixes
  split
  · exact absurd rfl closed.1
  · exact absurd rfl closed.2
  · exact absurd rfl closed.2
  · rfl

theorem operators_of_stops {value : Expr} {depth : Nat} (stops : Stops after) (deep : 0 < depth) :
    operators depth value after = .ok (value, after) := by
  obtain ⟨depth, rfl⟩ := Nat.exists_eq_add_of_le' deep
  unfold operators
  rw [stops.2]

theorem Phrase.IsRead.expression {value : Expr} {depth : Nat} (isRead : (Phrase.expression value).IsRead before after)
    (stops : Stops after) (deep : 6 * before.length + 3 ≤ depth) :
    Line.expression depth before = .ok (value, after) := by
  obtain ⟨depth, rfl⟩ := Nat.exists_eq_add_of_le' (show 1 ≤ depth by omega)
  exact isRead stops.1 _ (fun depth deep => operators_of_stops stops (by omega)) depth (by omega)

theorem IsAtom.isRead {token : Token} {value : Expr} {column : Nat} (is : IsAtom token after value)
    (measured : AllMeasured ((token, column) :: after)) (depth : Nat) :
    Line.primary (depth + 1) ((token, column) :: after) = .ok (value, after) := by
  unfold Line.primary
  cases is with
  | number =>
    dsimp only
    rw [Line.number, measured _ _ _ List.mem_cons_self]
  | text => rfl
  | truth => rfl
  | falsehood => rfl
  | nothing => rfl
  | placeholder => rfl
  | @reference name _ plain =>
    obtain ⟨⟨notTrue, notFalse, notNone⟩, apart⟩ := plain
    dsimp only
    split
    case h_3 same => exact absurd (Token.name.inj same) notTrue
    case h_4 same => exact absurd (Token.name.inj same) notFalse
    case h_5 same => exact absurd (Token.name.inj same) notNone
    case h_6 same =>
      cases same
      rw [if_neg, if_neg]
      all_goals
        intro marked
        simp only [Bool.and_eq_true, decide_eq_true_eq, Bool.or_eq_true, beq_iff_eq] at marked
      · exact apart (.inr marked.2) marked.1
      · exact apart (.inl marked.2) marked.1
    all_goals contradiction

/-! ### Reading one level deeper -/

theorem forall_deeper {property : Nat → Prop} {bound : Nat} (each : ∀ depth, bound ≤ depth → property (depth + 1)) :
    ∀ depth, bound + 1 ≤ depth → property depth := by
  rintro (_ | depth) deep
  · exact absurd deep (Nat.not_succ_le_zero _)
  · exact each depth (Nat.le_of_succ_le_succ deep)

section

variable {depth column column' : Nat} {symbol : Symbol} {value left node : Expr} {values : List Expr} {middle : Tokens}

theorem operators_binary {op : BinaryOp} {right : Expr} {result : Expr × Tokens} (is : symbol.binaryOp? = some op)
    (second : Line.unary depth rest = .ok (right, middle))
    (goesOn : operators depth (.binary op left right) middle = .ok result) :
    operators (depth + 1) left ((.symbol symbol, column) :: rest) = .ok result := by
  unfold operators
  simp only [nextSymbol?, Option.bind_some, is, List.tail_cons]
  exact bind_eq_ok_iff.mpr ⟨_, _, after_eq_ok_iff.mpr second, goesOn⟩

theorem unary_sign {op : UnaryOp} (is : symbol.unaryOp? = some op)
    (inner : Line.unary depth rest = .ok (value, after)) :
    Line.unary (depth + 1) ((.symbol symbol, column) :: rest) = .ok (.unary op value, after) := by
  unfold Line.unary
  simp only [nextSymbol?, Option.bind_some, is, List.tail_cons]
  exact bind_eq_ok_iff.mpr ⟨_, _, inner, rfl⟩

theorem suffixes_call {result : Expr × Tokens} (inner : list depth .closeParen rest = .ok (values, middle))
    (goesOn : suffixes depth (.call node values) middle = .ok result) :
    suffixes (depth + 1) node ((.symbol .openParen, column) :: rest) = .ok result := by
  unfold suffixes
  exact bind_eq_ok_iff.mpr ⟨_, _, after_eq_ok_iff.mpr inner, goesOn⟩

theorem primary_sequence (inner : list depth .closeBracket rest = .ok (values, after)) :
    Line.primary (depth + 1) ((.symbol .openBracket, column) :: rest) = .ok (.sequence values, after) := by
  unfold Line.primary
  exact bind_eq_ok_iff.mpr ⟨_, _, inner, rfl⟩

theorem primary_group (inner : Line.expression depth rest = .ok (value, (.symbol .closeParen, column') :: after)) :
    Line.primary (depth + 1) ((.symbol .openParen, column) :: rest) = .ok (value, after) := by
  unfold Line.primary
  exact bind_eq_ok_iff.mpr ⟨_, _, inner, bind_eq_ok_iff.mpr ⟨(), _, after_expect, rfl⟩⟩

theorem primary_changed {column'' : Nat}
    (inner : Line.expression depth rest = .ok (value, (.symbol .closeParen, column'') :: after)) :
    Line.primary (depth + 1) ((.name "changed", column) :: (.symbol .openParen, column') :: rest) =
      .ok (.changed value, after) := by
  unfold Line.primary
  exact bind_eq_ok_iff.mpr ⟨_, _, inner, bind_eq_ok_iff.mpr ⟨(), _, after_expect, rfl⟩⟩

theorem primary_function {mark : String} {names : List String} (marked : mark = "ƒ" ∨ mark = "fun")
    (listed : inputs rest = .ok (names, middle)) (inner : Line.expression depth middle = .ok (value, after)) :
    Line.primary (depth + 1) ((.name mark, column) :: (.symbol .openParen, column') :: rest) =
      .ok (.function names value, after) := by
  have whole : (inputs rest >>= fun found => Line.after (found.1.map .input) (Line.expression depth found.2) >>=
      fun body => .ok (Expr.function found.1 body.1, body.2)) = .ok (.function names value, after) :=
    bind_eq_ok_iff.mpr ⟨_, _, listed, bind_eq_ok_iff.mpr ⟨_, _, after_eq_ok_iff.mpr inner, rfl⟩⟩
  unfold Line.primary
  rcases marked with rfl | rfl <;> exact whole

theorem list_none : list (depth + 1) symbol ((.symbol symbol, column) :: rest) = .ok ([], rest) := by
  unfold list
  rw [if_pos (show nextSymbol? ((.symbol symbol, column) :: rest) = some symbol from rfl)]
  rfl

theorem items_last (closing : IsClosing symbol)
    (only : Line.expression depth before = .ok (value, (.symbol symbol, column) :: rest)) :
    Line.items (depth + 1) symbol before = .ok ([value], rest) := by
  unfold Line.items
  refine bind_eq_ok_iff.mpr ⟨_, _, only, ?_⟩
  dsimp only
  rw [if_neg]
  · exact bind_eq_ok_iff.mpr ⟨(), _, after_expect, rfl⟩
  · rintro ⟨⟩
    rcases closing with is | is <;> cases is

theorem items_next (first : Line.expression depth before = .ok (value, (.symbol .comma, column) :: middle))
    (others : Line.items depth symbol middle = .ok (values, rest)) :
    Line.items (depth + 1) symbol before = .ok (value :: values, rest) := by
  unfold Line.items
  refine bind_eq_ok_iff.mpr ⟨_, _, first, ?_⟩
  dsimp only
  rw [if_pos (by rfl)]
  exact bind_eq_ok_iff.mpr ⟨_, _, after_eq_ok_iff.mpr others, rfl⟩

end

/-- What is derived with bodies that stop is read. -/
theorem Derives.isRead (derives : Derives Stopping phrase before after) (measured : AllMeasured before) :
    phrase.IsRead before after := by
  induction derives with
  | operand derives only =>
    intro closed result goesOn depth deep
    have shorter := derives.length_le
    exact bind_eq_ok_iff.mpr ⟨_, _, only measured closed depth deep, goesOn depth (by omega)⟩
  | binary derives is derives' first second =>
    intro closed result goesOn
    have shorter := derives'.length_le
    have second := second (measured.suffix ((List.suffix_cons _ _).trans derives.suffix)) closed
    refine first measured (closed_of_binaryOp is) result (forall_deeper fun depth deep => ?_)
    rw [List.length_cons] at deep
    exact operators_binary is (second depth (by omega)) (goesOn depth (by omega))
  | sign is _ inner =>
    intro closed
    have inner := inner (measured.suffix (List.suffix_cons _ _)) closed
    refine forall_deeper fun depth deep => ?_
    rw [List.length_cons] at deep
    exact unary_sign is (inner depth (by omega))
  | @unsigned _ before after derives only =>
    intro closed
    refine forall_deeper fun depth deep => ?_
    have noSign : (nextSymbol? before).bind Symbol.unaryOp? = none := by
      cases next : nextSymbol? before with
      | none => rfl
      | some symbol => exact (derives.opens symbol next).2
    unfold Line.unary
    rw [noSign]
    exact only measured _ (fun depth deep => suffixes_of_closed closed (by omega)) depth (by omega)
  | bare derives only =>
    intro result goesOn depth deep
    have shorter := derives.length_le
    exact bind_eq_ok_iff.mpr ⟨_, _, only measured depth deep, goesOn depth (by omega)⟩
  | call derives derives' first inner =>
    intro result goesOn
    have shorter := derives'.length_le
    have inner := inner (measured.suffix ((List.suffix_cons _ _).trans derives.suffix)) _ _ _ (.inl rfl) rfl
    refine first measured result (forall_deeper fun depth deep => ?_)
    rw [List.length_cons] at deep shorter
    exact suffixes_call (inner depth (by omega)) (goesOn depth (by omega))
  | property _ first =>
    intro result goesOn
    refine first measured result (forall_deeper fun depth deep => ?_)
    simp only [List.length_cons] at deep
    unfold suffixes
    exact goesOn depth (by omega)
  | atom is => exact forall_deeper fun depth _ => is.isRead measured depth
  | sequence _ inner =>
    have inner := inner (measured.suffix (List.suffix_cons _ _)) _ _ _ (.inr rfl) rfl
    refine forall_deeper fun depth deep => ?_
    rw [List.length_cons] at deep
    exact primary_sequence (inner depth (by omega))
  | group _ inner =>
    have inner := inner (measured.suffix (List.suffix_cons _ _))
    refine forall_deeper fun depth deep => ?_
    rw [List.length_cons] at deep
    exact primary_group (inner.expression (stops_cons (by simp)) (by omega))
  | @function mark names body column column' column'' opened middle after marked listed derives stops inner =>
    have ends : middle <:+ opened := (List.suffix_cons _ _).trans listed.suffix
    have inner := inner (measured.suffix (ends.trans ((List.suffix_cons _ _).trans (List.suffix_cons _ _))))
    have shorter := ends.length_le
    refine forall_deeper fun depth deep => ?_
    simp only [List.length_cons] at deep
    exact primary_function marked (inputs_of_derives listed) (inner.expression stops (by omega))
  | changed _ inner =>
    have inner := inner (measured.suffix ((List.suffix_cons _ _).trans (List.suffix_cons _ _)))
    refine forall_deeper fun depth deep => ?_
    simp only [List.length_cons] at deep
    exact primary_changed (inner.expression (stops_cons (by simp)) (by omega))
  | noArguments =>
    rintro close column rest closing rfl
    exact forall_deeper fun depth _ => list_none
  | someArguments derives inner =>
    rintro close column rest closing rfl
    refine forall_deeper fun depth deep => ?_
    unfold list
    rw [if_neg fun next => derives.opens close next closing]
    exact inner measured close column rest closing rfl depth (by omega)
  | lastItem _ only =>
    rintro close column rest closing rfl
    refine forall_deeper fun depth deep => ?_
    exact items_last closing ((only measured).expression closing.stops (by omega))
  | nextItem derives _ first others =>
    rintro close column rest closing rfl
    have shorter := derives.length_le
    rw [List.length_cons] at shorter
    have others := others (measured.suffix ((List.suffix_cons _ _).trans derives.suffix)) close column rest closing rfl
    refine forall_deeper fun depth deep => ?_
    exact items_next ((first measured).expression (stops_cons (by simp)) (by omega)) (others depth (by omega))

theorem Derives.expression_eq_ok {value : Expr} {depth : Nat}
    (derives : Derives Stopping (.expression value) before after) (measured : AllMeasured before) (stops : Stops after)
    (deep : 6 * before.length + 3 ≤ depth) :
    Line.expression depth before = .ok (value, after) :=
  (derives.isRead measured).expression stops deep

/-- An expression that stops is derived in one way only, if all bodies stop. -/
theorem Derives.unique {value value' : Expr} {after' : Tokens}
    (derives : Derives Stopping (.expression value) before after)
    (derives' : Derives Stopping (.expression value') before after') (measured : AllMeasured before)
    (stops : Stops after) (stops' : Stops after') : value = value' ∧ after = after' := by
  have read := derives.expression_eq_ok measured stops (Nat.le_refl _)
  rw [derives'.expression_eq_ok measured stops' (Nat.le_refl _)] at read
  simpa [eq_comm] using read

/-! ### Bodies that reach furthest -/

/-- Where an expression with bodies that stop stops, no expression reaches further. -/
theorem furthest_of_stopping {value : Expr} (derives : Derives Stopping (.expression value) before after)
    (measured : AllMeasured before) (stops : Stops after) : Furthest before after := by
  intro value' after' derives'
  refine Nat.not_lt.mp fun further => ?_
  -- The longer expression is looked at alone. With bodies that stop it is read to its end, but also only up to `after`.
  obtain ⟨word', rfl, alone⟩ := derives'.replace fun _ _ _ _ _ _ => trivial
  obtain ⟨value'', whole⟩ := exists_stopping (alone [] (.inr rfl)) stops_nil
  rw [List.append_nil] at whole
  obtain ⟨word, same, part⟩ := derives.replace fun _ _ _ _ stops alike => Stops.alike stops alike
  have ends : after' <:+ after := List.suffix_of_suffix_length_le (same ▸ List.suffix_append word' after')
    (List.suffix_append word after) (Nat.le_of_lt further)
  obtain ⟨more, rfl⟩ := ends
  obtain rfl : word' = word ++ more := by simpa only [← List.append_assoc, List.append_left_inj] using same
  cases more with
  | nil => exact Nat.lt_irrefl _ further
  | cons first more =>
    have alike : Alike (first :: (more ++ after')) (first :: more) := alike_cons _ _
    have measured' : AllMeasured (word ++ first :: more) :=
      fun digits unit column among => measured digits unit column (List.mem_append_left _ among)
    have both := (part _ alike).unique whole measured' (Stops.alike stops alike) stops_nil
    cases both.2

end

/-! ### What is read is derived -/

/-- What the functions for expressions read down to a depth is derived, with bodies that reach
furthest. -/
structure SoundTo (depth : Nat) : Prop where
  expression {tokens rest : Tokens} {value : Expr} (measured : AllMeasured tokens)
    (read : expression depth tokens = .ok (value, rest)) :
    Derives Furthest (.expression value) tokens rest ∧ Stops rest
  operators {tokens rest before : Tokens} {left value : Expr} (measured : AllMeasured tokens)
    (first : Derives Furthest (.expression left) before tokens) (closed : Closed tokens)
    (read : operators depth left tokens = .ok (value, rest)) :
    Derives Furthest (.expression value) before rest ∧ Stops rest
  unary {tokens rest : Tokens} {value : Expr} (measured : AllMeasured tokens)
    (read : unary depth tokens = .ok (value, rest)) : Derives Furthest (.unary value) tokens rest ∧ Closed rest
  suffixes {tokens rest before : Tokens} {node value : Expr} (measured : AllMeasured tokens)
    (first : Derives Furthest (.suffixed node) before tokens)
    (read : suffixes depth node tokens = .ok (value, rest)) :
    Derives Furthest (.suffixed value) before rest ∧ Closed rest
  list {tokens rest : Tokens} {close : Symbol} {values : List Expr} (measured : AllMeasured tokens)
    (read : list depth close tokens = .ok (values, rest)) :
    ∃ column, Derives Furthest (.arguments values) tokens ((.symbol close, column) :: rest)
  items {tokens rest : Tokens} {close : Symbol} {values : List Expr} (measured : AllMeasured tokens)
    (read : items depth close tokens = .ok (values, rest)) :
    ∃ column, Derives Furthest (.items values) tokens ((.symbol close, column) :: rest)
  primary {tokens rest : Tokens} {value : Expr} (measured : AllMeasured tokens)
    (read : primary depth tokens = .ok (value, rest)) : Derives Furthest (.primary value) tokens rest

theorem soundTo_zero : SoundTo 0 where
  expression _ read := nomatch read
  operators _ _ _ read := nomatch read
  unary _ read := nomatch read
  suffixes _ _ read := nomatch read
  list _ read := nomatch read
  items _ read := nomatch read
  primary _ read := nomatch read

namespace SoundTo

variable {depth : Nat} {tokens rest before : Tokens} {value left node : Expr} {values : List Expr} {close : Symbol}
  (lower : SoundTo depth) (measured : AllMeasured tokens)

include lower measured

theorem expression_succ (read : Line.expression (depth + 1) tokens = .ok (value, rest)) :
    Derives Furthest (.expression value) tokens rest ∧ Stops rest := by
  rw [Line.expression, bind_eq_ok_iff] at read
  obtain ⟨left, middle, first, read⟩ := read
  obtain ⟨derives, closed⟩ := lower.unary measured first
  exact lower.operators (measured.suffix derives.suffix) (.operand derives) closed read

theorem operators_succ (first : Derives Furthest (.expression left) before tokens) (closed : Closed tokens)
    (read : Line.operators (depth + 1) left tokens = .ok (value, rest)) :
    Derives Furthest (.expression value) before rest ∧ Stops rest := by
  unfold Line.operators at read
  split at read
  · rename_i ends
    cases read
    exact ⟨first, closed, ends⟩
  · rename_i op is
    obtain ⟨symbol, next, is⟩ := Option.bind_eq_some_iff.mp is
    obtain ⟨column, tail, rfl⟩ := nextSymbol?_eq_some_iff.mp next
    rw [bind_eq_ok_iff] at read
    obtain ⟨right, middle, second, read⟩ := read
    have measured' : AllMeasured tail := measured.suffix (List.suffix_cons _ _)
    obtain ⟨derives, closed'⟩ := lower.unary measured' (after_eq_ok_iff.mp second)
    exact lower.operators (measured'.suffix derives.suffix) (.binary first is derives) closed' read

theorem unary_succ (read : Line.unary (depth + 1) tokens = .ok (value, rest)) :
    Derives Furthest (.unary value) tokens rest ∧ Closed rest := by
  unfold Line.unary at read
  split at read
  · rename_i op is
    obtain ⟨symbol, next, is⟩ := Option.bind_eq_some_iff.mp is
    obtain ⟨column, tail, rfl⟩ := nextSymbol?_eq_some_iff.mp next
    rw [bind_eq_ok_iff] at read
    obtain ⟨operand, middle, inner, ⟨⟩⟩ := read
    obtain ⟨derives, closed⟩ := lower.unary (measured.suffix (List.suffix_cons _ _)) inner
    exact ⟨.sign is derives, closed⟩
  · rw [bind_eq_ok_iff] at read
    obtain ⟨node, middle, first, read⟩ := read
    have derives := lower.primary measured first
    obtain ⟨derives, closed⟩ := lower.suffixes (measured.suffix derives.suffix) (.bare derives) read
    exact ⟨.unsigned derives, closed⟩

theorem suffixes_succ (first : Derives Furthest (.suffixed node) before tokens)
    (read : Line.suffixes (depth + 1) node tokens = .ok (value, rest)) :
    Derives Furthest (.suffixed value) before rest ∧ Closed rest := by
  unfold Line.suffixes at read
  split at read
  · rename_i tail
    rw [bind_eq_ok_iff] at read
    obtain ⟨arguments, middle, inner, read⟩ := read
    obtain ⟨column, derives⟩ := lower.list (measured.suffix (List.suffix_cons _ _)) (after_eq_ok_iff.mp inner)
    have ends : middle <:+ tail := (List.suffix_cons _ _).trans derives.suffix
    exact lower.suffixes (measured.suffix (ends.trans (List.suffix_cons _ _))) (.call first derives) read
  · exact lower.suffixes (measured.suffix ((List.suffix_cons _ _).trans (List.suffix_cons _ _))) (.property first) read
  · cases read
  · rename_i notParen notProperty notPoint
    cases read
    refine ⟨first, fun next => ?_, fun next => ?_⟩
    all_goals obtain ⟨column, tail, rfl⟩ := nextSymbol?_eq_some_iff.mp next
    · exact notParen _ _ rfl
    · exact notPoint _ _ rfl

theorem list_succ (read : Line.list (depth + 1) close tokens = .ok (values, rest)) :
    ∃ column, Derives Furthest (.arguments values) tokens ((.symbol close, column) :: rest) := by
  unfold Line.list at read
  split at read
  · rename_i next
    obtain ⟨column, tail, rfl⟩ := nextSymbol?_eq_some_iff.mp next
    cases read
    exact ⟨column, .noArguments⟩
  · obtain ⟨column, derives⟩ := lower.items measured read
    exact ⟨column, .someArguments derives⟩

theorem items_succ (read : Line.items (depth + 1) close tokens = .ok (values, rest)) :
    ∃ column, Derives Furthest (.items values) tokens ((.symbol close, column) :: rest) := by
  rw [Line.items, bind_eq_ok_iff] at read
  obtain ⟨item, middle, first, read⟩ := read
  obtain ⟨derives, -⟩ := lower.expression measured first
  dsimp only at read
  split at read
  · rename_i next
    obtain ⟨column, tail, rfl⟩ := nextSymbol?_eq_some_iff.mp next
    rw [bind_eq_ok_iff] at read
    obtain ⟨more, middle, others, ⟨⟩⟩ := read
    have ends : tail <:+ tokens := (List.suffix_cons _ _).trans derives.suffix
    obtain ⟨column, derives'⟩ := lower.items (measured.suffix ends) (after_eq_ok_iff.mp others)
    exact ⟨column, .nextItem derives derives'⟩
  · rw [bind_eq_ok_iff] at read
    obtain ⟨_, middle, closed, ⟨⟩⟩ := read
    obtain ⟨column, rfl⟩ := expect_eq_ok_iff.mp (after_eq_ok_iff.mp closed)
    exact ⟨column, .lastItem derives⟩

/-- What stands between parentheses is an expression. -/
theorem enclosed_succ {make : Expr → Expr} (read : (Line.expression depth tokens >>= fun inner =>
      Line.after [.ofExpr inner.1] (expect .closeParen inner.2) >>= fun closed => .ok (make inner.1, closed.2)) =
        .ok (value, rest)) :
    ∃ inner column, value = make inner ∧
      Derives Furthest (.expression inner) tokens ((.symbol .closeParen, column) :: rest) := by
  rw [bind_eq_ok_iff] at read
  obtain ⟨inner, after, first, read⟩ := read
  rw [bind_eq_ok_iff] at read
  obtain ⟨_, rest, closed, ⟨⟩⟩ := read
  obtain ⟨column, rfl⟩ := expect_eq_ok_iff.mp (after_eq_ok_iff.mp closed)
  exact ⟨inner, column, rfl, (lower.expression measured first).1⟩

theorem function_succ {mark : String} {column column' : Nat} (marked : mark = "ƒ" ∨ mark = "fun")
    (read : (inputs tokens >>= fun found => Line.after (found.1.map .input) (Line.expression depth found.2) >>=
      fun body => .ok (Expr.function found.1 body.1, body.2)) = .ok (value, rest)) :
    Derives Furthest (.primary value) ((.name mark, column) :: (.symbol .openParen, column') :: tokens) rest := by
  rw [bind_eq_ok_iff] at read
  obtain ⟨names, middle, listed, read⟩ := read
  rw [bind_eq_ok_iff] at read
  obtain ⟨body, after, inner, ⟨⟩⟩ := read
  obtain ⟨column'', names⟩ := derivesInputs_of_inputs listed
  have measured' : AllMeasured middle := measured.suffix ((List.suffix_cons _ _).trans names.suffix)
  obtain ⟨derives, stops⟩ := lower.expression measured' (after_eq_ok_iff.mp inner)
  have bound := furthest_of_stopping (derives.stopping_of_furthest (.inl stops)) measured' stops
  exact .function marked names derives bound

theorem primary_succ (read : Line.primary (depth + 1) tokens = .ok (value, rest)) :
    Derives Furthest (.primary value) tokens rest := by
  cases tokens with
  | nil => cases read
  | cons first tokens =>
    obtain ⟨token, column⟩ := first
    have measured' : AllMeasured tokens := measured.suffix (List.suffix_cons _ _)
    unfold Line.primary at read
    dsimp only at read
    split at read
    case h_1 digits unit =>
      rw [number, measured digits unit column List.mem_cons_self] at read
      cases read
      exact .atom .number
    case h_2 =>
      cases read
      exact .atom .text
    case h_3 =>
      cases read
      exact .atom .truth
    case h_4 =>
      cases read
      exact .atom .falsehood
    case h_5 =>
      cases read
      exact .atom .nothing
    case h_6 name notTrue notFalse notNone =>
      split at read
      · rename_i is
        simp only [Bool.and_eq_true, decide_eq_true_eq, Bool.or_eq_true, beq_iff_eq] at is
        obtain ⟨next, marked⟩ := is
        obtain ⟨column', opened, rfl⟩ := nextSymbol?_eq_some_iff.mp next
        exact lower.function_succ (measured'.suffix (List.suffix_cons _ _)) marked read
      · rename_i notFunction
        split at read
        · rename_i is
          simp only [Bool.and_eq_true, decide_eq_true_eq, beq_iff_eq] at is
          obtain ⟨next, rfl⟩ := is
          obtain ⟨column', middle, rfl⟩ := nextSymbol?_eq_some_iff.mp next
          obtain ⟨stream, column'', rfl, derives⟩ := @enclosed_succ depth middle rest value lower
            (measured'.suffix (List.suffix_cons _ _)) .changed read
          exact .changed derives
        · rename_i notChanged
          cases read
          refine .atom (.reference ⟨⟨notTrue, notFalse, notNone⟩, fun mark next => ?_⟩)
          simp only [Bool.and_eq_true, decide_eq_true_eq, Bool.or_eq_true, beq_iff_eq, not_and]
            at notFunction notChanged
          rcases mark with marked | is
          · exact notFunction next marked
          · exact notChanged next is
    case h_7 =>
      cases read
      exact .atom .placeholder
    case h_8 =>
      rw [bind_eq_ok_iff] at read
      obtain ⟨items, after, inner, ⟨⟩⟩ := read
      obtain ⟨column', derives⟩ := lower.list measured' inner
      exact .sequence derives
    case h_9 =>
      obtain ⟨inner, column', rfl, derives⟩ := @enclosed_succ depth tokens rest value lower measured' id read
      exact .group derives
    case h_10 => cases read

end SoundTo

theorem soundTo (depth : Nat) : SoundTo depth := by
  induction depth with
  | zero => exact soundTo_zero
  | succ depth lower =>
    exact {
      expression := fun measured => lower.expression_succ measured
      operators := fun measured => lower.operators_succ measured
      unary := fun measured => lower.unary_succ measured
      suffixes := fun measured => lower.suffixes_succ measured
      list := fun measured => lower.list_succ measured
      items := fun measured => lower.items_succ measured
      primary := fun measured => lower.primary_succ measured }

/-! ### Statements -/

section

variable {after tokens : Tokens} {value : Statement}

/-- A name in front of something other than a parenthesis is an expression. -/
theorem exists_derives_name (name : String) (column : Nat) (apart : nextSymbol? after ≠ some .openParen) :
    ∃ value, Derives Stopping (.expression value) ((.name name, column) :: after) after := by
  have atom {value : Expr} (is : IsAtom (.name name) after value) :
      Derives Stopping (.expression value) ((.name name, column) :: after) after :=
    .operand (.unsigned (.bare (.atom is)))
  by_cases isTrue : name = "true"
  · subst isTrue
    exact ⟨_, atom .truth⟩
  by_cases isFalse : name = "false"
  · subst isFalse
    exact ⟨_, atom .falsehood⟩
  by_cases isNone : name = "none"
  · subst isNone
    exact ⟨_, atom .nothing⟩
  · exact ⟨_, atom (.reference ⟨⟨isTrue, isFalse, isNone⟩, fun _ => apart⟩)⟩

theorem statement_eq_ok_iff_leading : statement tokens = .ok value ↔ leadingStatement tokens = .ok (value, []) := by
  unfold statement
  rw [bind_eq_ok_iff]
  constructor
  · rintro ⟨value', rest, leading, read⟩
    cases rest with
    | nil =>
      cases read
      exact leading
    | cons first rest => cases read
  · exact fun leading => ⟨value, [], leading, rfl⟩

variable (measured : AllMeasured tokens)

include measured

theorem derives_of_statement (read : statement tokens = .ok value) : DerivesStatement Furthest value tokens := by
  rw [statement_eq_ok_iff_leading] at read
  unfold leadingStatement at read
  split at read
  · cases read
    exact .borrow
  · obtain ⟨value, rest, read, ⟨⟩⟩ := bind_eq_ok_iff.mp read
    have measured' := measured.suffix ((List.suffix_cons _ _).trans (List.suffix_cons _ _))
    exact .bind ((soundTo _).expression measured' read).1
  · obtain ⟨value, rest, read, ⟨⟩⟩ := bind_eq_ok_iff.mp read
    exact .expression ((soundTo _).expression measured read).1

/-- A line that is an expression does not go on after a name with another name or a colon. -/
theorem name_not_first {value : Expr} {name : String} {column : Nat} {rest : Tokens}
    (derives : Derives Stopping (.expression value) tokens []) (stops : Stops rest) (more : rest ≠ []) :
    tokens ≠ (.name name, column) :: rest := by
  rintro rfl
  obtain ⟨value', derives'⟩ := exists_derives_name name column stops.1.1
  exact more (derives'.unique derives measured stops stops_nil).2

theorem statement_of_derives (derives : DerivesStatement Stopping value tokens) : statement tokens = .ok value := by
  rw [statement_eq_ok_iff_leading]
  cases derives with
  | borrow => rfl
  | @bind name value column column' rest inner =>
    have measured' := measured.suffix ((List.suffix_cons _ _).trans (List.suffix_cons _ _))
    have read := inner.expression_eq_ok measured' stops_nil (show _ ≤ depthOf rest by unfold depthOf; omega)
    unfold leadingStatement
    split
    case h_1 same => cases same
    case h_2 same =>
      cases same
      exact bind_eq_ok_iff.mpr ⟨_, _, read, rfl⟩
    case h_3 other => exact absurd rfl (other _ _ _ _)
  | expression only =>
    have read := only.expression_eq_ok measured stops_nil (show _ ≤ depthOf tokens by unfold depthOf; omega)
    unfold leadingStatement
    split
    case h_1 source column rest => exact absurd rfl (name_not_first measured only ⟨⟨nofun, nofun⟩, rfl⟩ nofun)
    case h_2 name column rest => exact absurd rfl (name_not_first measured only ⟨⟨nofun, nofun⟩, rfl⟩ nofun)
    case h_3 => exact bind_eq_ok_iff.mpr ⟨_, _, read, rfl⟩

/-- A statement is read from the tokens of a line if and only if they derive it with bodies that reach furthest. -/
theorem statement_eq_ok_iff : statement tokens = .ok value ↔ DerivesStatement Furthest value tokens := by
  refine ⟨derives_of_statement measured, fun derives => statement_of_derives measured ?_⟩
  cases derives with
  | borrow => exact .borrow
  | bind inner => exact .bind (inner.stopping_of_furthest (.inl stops_nil))
  | expression only => exact .expression (only.stopping_of_furthest (.inl stops_nil))

/-- Some statement is read if the tokens derive any. -/
theorem exists_statement (derives : DerivesStatement Anywhere value tokens) :
    ∃ value, statement tokens = .ok value := by
  cases derives with
  | borrow => exact ⟨_, statement_of_derives measured .borrow⟩
  | bind inner =>
    obtain ⟨value, derives⟩ := exists_stopping inner stops_nil
    exact ⟨_, statement_of_derives measured (.bind derives)⟩
  | expression only =>
    obtain ⟨value, derives⟩ := exists_stopping only stops_nil
    exact ⟨_, statement_of_derives measured (.expression derives)⟩

end

end Rivulet.Line
