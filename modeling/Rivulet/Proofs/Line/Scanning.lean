import Rivulet.Proofs.Line.Lexemes
import Rivulet.Proofs.Text.Numerals

/-!
How a text is cut into tokens, said without cutting it. A token starts a text if it can be cut out and stands at the
front of the text. From left to right blanks are skipped, and elsewhere the longest token that starts there comes next
(`Scans`); a place is stray if it has neither.

Main statements: the tokens of a text are those that are scanned up to its end (`tokenizeFrom_eq_ok_iff`), and cutting
fails at a place if and only if that is the first stray one (`tokenizeFrom_eq_error_iff`). Blanks around a text only
shift the columns (`Scans.between`).
-/

namespace Rivulet.Line

/-! ### Tokens at the front of a text -/

/-- A token stands at the front of a text. -/
def Token.Starts (token : Token) (text : List Char) : Prop :=
  token.Lexical ∧ token.chars <+: text

/-- A token is the longest of those that stand at the front of a text. -/
def Token.IsLongest (token : Token) (text : List Char) : Prop :=
  token.Starts text ∧ ∀ other : Token, other.Starts text → other.chars.length ≤ token.chars.length

/-- A text begins with a character that is no blank and starts no token. -/
def Stray (text : List Char) : Prop :=
  ∃ c rest, text = c :: rest ∧ Text.isBlank c = false ∧ ∀ token : Token, ¬ token.Starts text

/-- From a text at a column some tokens are cut off one after another, which leaves a text at a later column. -/
inductive Scans : Nat → List Char → Tokens → Nat → List Char → Prop where
  | stop {column : Nat} {text : List Char} : Scans column text [] column text
  | blank {column column' : Nat} {c : Char} {text rest : List Char} {tokens : Tokens} (blank : Text.isBlank c = true)
      (later : Scans (column + 1) text tokens column' rest) : Scans column (c :: text) tokens column' rest
  | token {column column' : Nat} {token : Token} {text more rest : List Char} {tokens : Tokens}
      (is : text = token.chars ++ more) (longest : token.IsLongest text)
      (later : Scans (column + token.chars.length) more tokens column' rest) :
      Scans column text ((token, column) :: tokens) column' rest

section

variable {token other : Token} {first c : Char} {text rest front : List Char} {extra : Nat} {condition : Char → Bool}

theorem length_le_takeWhile (starts : front <+: text) (all : ∀ c ∈ front, condition c = true) :
    front.length ≤ (text.takeWhile condition).length := by
  obtain ⟨rest, rfl⟩ := starts
  rw [List.takeWhile_append_of_pos all, List.length_append]
  exact Nat.le_add_right _ _

/-- A symbol is written with the character that it starts at, and maybe the next one. -/
theorem chars_of_ofChars? {symbol : Symbol} {second : Option Char} (is : Symbol.ofChars? first second = some symbol) :
    symbol.text.toList = [first] ∨ ∃ c ∈ second, symbol.text.toList = [first, c] := by
  unfold Symbol.ofChars? at is
  split at is <;> cases is <;> first | exact .inl rfl | exact .inr ⟨_, rfl, rfl⟩

/-- A lexeme is what its token is written with. -/
theorem chars_of_lexeme (cut : lexeme first rest = .ok (some token, extra)) :
    first :: rest = token.chars ++ rest.drop extra ∧ token.chars.length = extra + 1 := by
  unfold lexeme at cut
  split at cut
  · cases cut
  split at cut
  · cases cut
    let digits := rest.takeWhile continuesNumber
    let unit := (rest.drop digits.length).takeWhile Text.isLetter
    have front : digits ++ rest.drop digits.length = rest := List.prefix_iff_eq_append.mp (List.takeWhile_prefix _)
    have back : unit ++ (rest.drop digits.length).drop unit.length = rest.drop digits.length :=
      List.prefix_iff_eq_append.mp (List.takeWhile_prefix _)
    rw [List.drop_drop] at back
    simp only [Token.chars, String.toList_ofList, List.cons_append, List.append_assoc, List.length_cons,
      List.length_append, and_true]
    exact congrArg (first :: ·) ((congrArg (digits ++ ·) back).trans front).symm
  split at cut
  · rename_i quote
    obtain rfl := beq_iff_eq.mp quote
    dsimp only at cut
    generalize found : Text.cutAt (· == '"') rest = parts at cut
    obtain ⟨content, _ | after⟩ := parts
    · cases cut
    · cases cut
      obtain ⟨mark, separates, rfl⟩ := Text.exists_of_cutAt_some found
      obtain rfl := beq_iff_eq.mp separates
      simp [Token.chars]
  split at cut
  · cases cut
    have front := List.prefix_iff_eq_append.mp (List.takeWhile_prefix continuesName (l := rest))
    simp only [Token.chars, String.toList_ofList, List.cons_append, List.length_cons, and_true]
    exact congrArg (first :: ·) front.symm
  · split at cut
    · rename_i symbol starts
      cases cut
      obtain single | ⟨c, second, double⟩ := chars_of_ofChars? starts
      · simp [Token.chars, single, ← String.length_toList]
      · obtain ⟨tail, rfl⟩ := List.head?_eq_some_iff.mp second
        simp [Token.chars, double, ← String.length_toList]
    · cases cut

/-- Where a symbol stands at the front of a text, it is cut off, or one that is longer. -/
theorem exists_ofChars? {symbol : Symbol} (starts : symbol.text.toList <+: first :: rest) :
    ∃ symbol', Symbol.ofChars? first rest.head? = some symbol' ∧ symbol.text.length ≤ symbol'.text.length := by
  obtain ⟨tail, is⟩ := starts
  cases symbol
  case less | greater =>
    obtain ⟨rfl, rfl⟩ := List.cons.inj is
    unfold Symbol.ofChars?
    split <;> first | exact ⟨_, rfl, by decide⟩ | contradiction
  all_goals
    cases is
    exact ⟨_, rfl, Nat.le_refl _⟩

theorem plain_of_ofChars? {symbol : Symbol} {second : Option Char} (is : Symbol.ofChars? first second = some symbol) :
    IsPlainStart first ∧ startsName first = false := by
  unfold Symbol.ofChars? at is
  split at is <;> cases is <;> exact ⟨⟨rfl, rfl, by decide⟩, rfl⟩

theorem lexeme_of_ofChars? {symbol : Symbol} (is : Symbol.ofChars? first rest.head? = some symbol) :
    lexeme first rest = .ok (some (.symbol symbol), symbol.text.length - 1) := by
  obtain ⟨⟨notBlank, notDigit, notQuote⟩, notName⟩ := plain_of_ofChars? is
  simp [lexeme, notBlank, notDigit, notQuote, notName, is]

theorem length_number_le {digits unit : List Char} (allDigits : ∀ c ∈ digits, continuesNumber c = true)
    (letters : ∀ c ∈ unit, Text.isLetter c = true) (starts : digits ++ unit <+: text) :
    (digits ++ unit).length ≤ (text.takeWhile continuesNumber).length +
      ((text.drop (text.takeWhile continuesNumber).length).takeWhile Text.isLetter).length := by
  obtain ⟨rest, rfl⟩ := starts
  cases unit with
  | nil =>
    rw [List.append_nil]
    exact Nat.le_trans (length_le_takeWhile (List.prefix_append _ _) allDigits) (Nat.le_add_right _ _)
  | cons c unit =>
    -- The unit starts with a letter, so all digits are in front of it.
    have ends := continuesNumber_of_isLetter (letters c List.mem_cons_self)
    rw [List.append_assoc, List.cons_append, takeWhile_append allDigits ends, List.drop_left, List.length_append,
      ← List.cons_append]
    exact Nat.add_le_add_left (length_le_takeWhile (List.prefix_append _ _) letters) _

/-- Where a token stands at the front of a text, one is cut off that is no shorter. -/
theorem lexeme_of_starts (starts : token.Starts (first :: rest)) :
    ∃ found extra, lexeme first rest = .ok (some found, extra) ∧ token.chars.length ≤ extra + 1 := by
  obtain ⟨lexical, starts⟩ := starts
  cases token with
  | number digits unit =>
    obtain ⟨⟨first', more, is, notBlank, digit, all⟩, letters⟩ := lexical
    simp only [Token.chars, is, List.cons_append, List.cons_prefix_cons] at starts ⊢
    obtain ⟨rfl, starts⟩ := starts
    let digits' := rest.takeWhile continuesNumber
    let unit' := (rest.drop digits'.length).takeWhile Text.isLetter
    refine ⟨.number (String.ofList (first' :: digits')) (String.ofList unit'), digits'.length + unit'.length, ?_,
      Nat.succ_le_succ (length_number_le all letters starts)⟩
    simp [lexeme, notBlank, digit, digits', unit']
  | text value =>
    simp only [Token.chars, List.cons_prefix_cons] at starts ⊢
    obtain ⟨rfl, rest, rfl⟩ := starts
    have cut := Text.cutAt_append lexical (show ('"' == '"') = true from rfl) rest
    rw [List.append_assoc, List.singleton_append]
    refine ⟨.text value, value.toList.length + 1, ?_, by simp⟩
    simp [lexeme, cut, show Text.isBlank '"' = false from rfl, show Text.isDigit '"' = false from rfl]
  | name value =>
    obtain ⟨first', more, is, ⟨notBlank, notDigit, notQuote⟩, starts', all⟩ := lexical
    simp only [Token.chars, is, List.cons_prefix_cons] at starts ⊢
    obtain ⟨rfl, starts⟩ := starts
    refine ⟨.name (String.ofList (first' :: rest.takeWhile continuesName)), _, ?_,
      Nat.succ_le_succ (length_le_takeWhile starts all)⟩
    simp [lexeme, notBlank, notDigit, notQuote, starts']
  | symbol value =>
    obtain ⟨symbol, is, longer⟩ := exists_ofChars? starts
    refine ⟨.symbol symbol, _, lexeme_of_ofChars? is, ?_⟩
    rw [Token.chars, String.length_toList]
    omega

theorem starts_of_lexeme (cut : lexeme first rest = .ok (some token, extra)) : token.Starts (first :: rest) := by
  refine ⟨lexical_of_lexeme cut, ?_⟩
  rw [(chars_of_lexeme cut).1]
  exact List.prefix_append _ _

/-- Tokens that are written alike are the same. -/
theorem Token.eq_of_chars (lexical : token.Lexical) (lexical' : other.Lexical) (same : token.chars = other.chars) :
    token = other := by
  obtain ⟨first, more, is, cut⟩ := lexeme_chars lexical
  obtain ⟨first', more', is', cut'⟩ := lexeme_chars lexical'
  rw [is, is'] at same
  obtain ⟨rfl, rfl⟩ := List.cons.inj same
  have both := (cut []).symm.trans (cut' [])
  simpa using both

/-- The longest token at the front of a text is the one that is cut off. -/
theorem isLongest_iff : token.IsLongest (first :: rest) ↔ ∃ extra, lexeme first rest = .ok (some token, extra) := by
  constructor
  · rintro ⟨starts, longest⟩
    obtain ⟨found, extra, cut, longer⟩ := lexeme_of_starts starts
    have starts' := starts_of_lexeme cut
    have shorter := longest found starts'
    rw [(chars_of_lexeme cut).2] at shorter
    have same : token.chars.length = found.chars.length := by
      rw [(chars_of_lexeme cut).2]
      omega
    obtain rfl := Token.eq_of_chars starts.1 starts'.1 ((List.prefix_of_prefix_length_le starts.2 starts'.2
      (Nat.le_of_eq same)).eq_of_length same)
    exact ⟨extra, cut⟩
  · rintro ⟨extra, cut⟩
    refine ⟨starts_of_lexeme cut, fun other starts => ?_⟩
    obtain ⟨found, extra', cut', longer⟩ := lexeme_of_starts starts
    rw [cut] at cut'
    cases cut'
    rw [(chars_of_lexeme cut).2]
    exact longer

theorem lexeme_blank (blank : Text.isBlank first = true) : lexeme first rest = .ok (none, 0) := by
  rw [lexeme, if_pos blank]

theorem blank_of_lexeme (cut : lexeme first rest = .ok (none, extra)) : Text.isBlank first = true ∧ extra = 0 := by
  unfold lexeme at cut
  split at cut
  · rename_i blank
    cases cut
    exact ⟨blank, rfl⟩
  split at cut
  · cases cut
  split at cut
  · dsimp only at cut
    split at cut <;> cases cut
  split at cut
  · cases cut
  · split at cut <;> cases cut

/-- A text is stray where nothing can be cut off. -/
theorem stray_cons_iff : Stray (first :: rest) ↔ ∃ problem, lexeme first rest = .error problem := by
  constructor
  · rintro ⟨c, rest, ⟨⟩, notBlank, nothing⟩
    cases cut : lexeme first rest with
    | error problem => exact ⟨problem, rfl⟩
    | ok found =>
      obtain ⟨_ | token, extra⟩ := found
      · rw [(blank_of_lexeme cut).1] at notBlank
        cases notBlank
      · exact absurd (starts_of_lexeme cut) (nothing token)
  · rintro ⟨problem, cut⟩
    refine ⟨first, rest, rfl, Bool.eq_false_iff.mpr fun blank => ?_, fun token starts => ?_⟩
    · rw [lexeme_blank blank] at cut
      cases cut
    · obtain ⟨found, extra, cut', -⟩ := lexeme_of_starts starts
      rw [cut] at cut'
      cases cut'

end

/-! ### Scanning -/

section

variable {column column' : Nat} {text rest : List Char} {tokens : Tokens} {problem : Problem}

theorem Scans.trans {tokens' : Tokens} {rest' : List Char} {column'' : Nat}
    (scans : Scans column text tokens column' rest) (later : Scans column' rest tokens' column'' rest') :
    Scans column text (tokens ++ tokens') column'' rest' := by
  induction scans with
  | stop => exact later
  | blank blank _ hypothesis => exact .blank blank (hypothesis later)
  | token is longest _ hypothesis => exact .token is longest (hypothesis later)

/-- A lexeme is scanned, whether it is a token or a blank. -/
theorem scans_of_lexeme {first : Char} {token? : Option Token} {extra : Nat}
    (cut : lexeme first rest = .ok (token?, extra)) {rest' : List Char}
    (later : Scans (column + 1 + extra) (rest.drop extra) tokens column' rest') :
    Scans column (first :: rest) ((token?.map (·, column)).toList ++ tokens) column' rest' := by
  cases token? with
  | none =>
    obtain ⟨blank, rfl⟩ := blank_of_lexeme cut
    exact .blank blank later
  | some token =>
    obtain ⟨is, length⟩ := chars_of_lexeme cut
    refine .token is (isLongest_iff.mpr ⟨extra, cut⟩) ?_
    rw [length, Nat.add_comm extra, ← Nat.add_assoc]
    exact later

theorem scans_of_tokenizeFrom (cut : tokenizeFrom column text = .ok tokens) :
    ∃ column', Scans column text tokens column' [] := by
  fun_induction tokenizeFrom column text generalizing tokens with
  | case1 column =>
    cases cut
    exact ⟨column, .stop⟩
  | case2 | case3 => cases cut
  | case4 column first rest extra later laterCut token cut' hypothesis
  | case5 column first rest extra later laterCut cut' hypothesis =>
    cases cut
    obtain ⟨column', scans⟩ := hypothesis laterCut
    exact ⟨column', scans_of_lexeme cut' scans⟩

theorem scans_of_error (cut : tokenizeFrom column text = .error (problem, column')) :
    ∃ tokens rest, Scans column text tokens column' rest ∧ Stray rest := by
  fun_induction tokenizeFrom column text with
  | case1 column => cases cut
  | case2 column first rest problem' cut' =>
    cases cut
    exact ⟨[], first :: rest, .stop, stray_cons_iff.mpr ⟨_, cut'⟩⟩
  | case3 column first rest token? extra cut' failure laterCut hypothesis =>
    cases cut
    obtain ⟨tokens, rest', scans, stray⟩ := hypothesis laterCut
    exact ⟨_, rest', scans_of_lexeme cut' scans, stray⟩
  | case4 | case5 => cases cut

theorem tokenizeFrom_of_lexeme {first : Char} {token? : Option Token} {extra : Nat}
    (cut : lexeme first rest = .ok (token?, extra)) :
    tokenizeFrom column (first :: rest) =
      (tokenizeFrom (column + 1 + extra) (rest.drop extra)).map ((token?.map (·, column)).toList ++ ·) := by
  cases later : tokenizeFrom (column + 1 + extra) (rest.drop extra) with
  | ok tokens => exact tokenizeFrom_cons cut later
  | error failure =>
    unfold tokenizeFrom
    rw [cut]
    dsimp only
    rw [later]
    rfl

/-- What is scanned is cut off, and the rest is cut from where scanning comes to. -/
theorem Scans.tokenizeFrom_eq (scans : Scans column text tokens column' rest) :
    tokenizeFrom column text = (tokenizeFrom column' rest).map (tokens ++ ·) := by
  induction scans with
  | @stop column text => cases tokenizeFrom column text <;> rfl
  | blank blank _ hypothesis =>
    rw [tokenizeFrom_of_lexeme (lexeme_blank blank), Nat.add_zero, List.drop_zero, hypothesis]
    cases tokenizeFrom _ _ <;> rfl
  | @token column column' token text more rest tokens is longest _ hypothesis =>
    cases text with
    | nil =>
      obtain ⟨first, more', written, -⟩ := lexeme_chars longest.1.1
      rw [written] at is
      cases is
    | cons first text =>
      obtain ⟨extra, cut⟩ := isLongest_iff.mp longest
      obtain ⟨is', length⟩ := chars_of_lexeme cut
      obtain rfl := List.append_cancel_left (is.symm.trans is')
      rw [length, Nat.add_comm extra, ← Nat.add_assoc] at hypothesis
      rw [tokenizeFrom_of_lexeme cut, hypothesis]
      cases tokenizeFrom _ _ <;> rfl

/-- The tokens of a text are those that are scanned up to its end. -/
theorem tokenizeFrom_eq_ok_iff :
    tokenizeFrom column text = .ok tokens ↔ ∃ column', Scans column text tokens column' [] := by
  refine ⟨scans_of_tokenizeFrom, ?_⟩
  rintro ⟨column', scans⟩
  rw [scans.tokenizeFrom_eq, tokenizeFrom_nil]
  exact congrArg Except.ok (List.append_nil tokens)

/-- Cutting fails at the first place that is stray. -/
theorem tokenizeFrom_eq_error_iff : (∃ problem, tokenizeFrom column text = .error (problem, column')) ↔
    ∃ tokens rest, Scans column text tokens column' rest ∧ Stray rest := by
  constructor
  · rintro ⟨problem, cut⟩
    exact scans_of_error cut
  · rintro ⟨tokens, rest, scans, first, more, rfl, stray⟩
    obtain ⟨problem, cut⟩ := stray_cons_iff.mp ⟨first, more, rfl, stray⟩
    refine ⟨problem, ?_⟩
    rw [scans.tokenizeFrom_eq]
    unfold tokenizeFrom
    rw [cut]
    rfl

theorem Scans.unique {tokens' : Tokens} {ending : Nat} (scans : Scans column text tokens column' [])
    (scans' : Scans column text tokens' ending []) : tokens = tokens' := by
  have cut := tokenizeFrom_eq_ok_iff.mpr ⟨column', scans⟩
  rw [tokenizeFrom_eq_ok_iff.mpr ⟨ending, scans'⟩] at cut
  exact (Except.ok.inj cut).symm

/-- A text with a stray character is not scanned to its end. -/
theorem Scans.not_stray {tokens' : Tokens} {ending : Nat} (scans : Scans column text tokens ending [])
    (scans' : Scans column text tokens' column' rest) : ¬ Stray rest := by
  intro stray
  obtain ⟨problem, cut⟩ := tokenizeFrom_eq_error_iff.mpr ⟨tokens', rest, scans', stray⟩
  rw [tokenizeFrom_eq_ok_iff.mpr ⟨ending, scans⟩] at cut
  cases cut

/-! ### Blanks around a text -/

/-- A token further along a line. -/
def shifted (distance : Nat) (token : Token × Nat) : Token × Nat :=
  (token.1, token.2 + distance)

theorem words_shifted (distance : Nat) (tokens : Tokens) :
    (tokens.map (shifted distance)).map Prod.fst = tokens.map Prod.fst := by
  rw [List.map_map]
  rfl

theorem Scans.shift (scans : Scans column text tokens column' rest) (distance : Nat) :
    Scans (column + distance) text (tokens.map (shifted distance)) (column' + distance) rest := by
  induction scans with
  | stop => exact .stop
  | blank blank _ hypothesis =>
    rw [Nat.add_right_comm] at hypothesis
    exact .blank blank hypothesis
  | token is longest _ hypothesis =>
    rw [Nat.add_right_comm] at hypothesis
    exact .token is longest hypothesis

theorem scans_blanks {blanks : List Char} (blank : ∀ c ∈ blanks, Text.isBlank c = true)
    (scans : Scans (column + blanks.length) text tokens column' rest) :
    Scans column (blanks ++ text) tokens column' rest := by
  induction blanks generalizing column with
  | nil => exact scans
  | cons c blanks hypothesis =>
    obtain ⟨here, others⟩ := List.forall_mem_cons.mp blank
    rw [List.length_cons, Nat.add_comm blanks.length, ← Nat.add_assoc] at scans
    exact .blank here (hypothesis others scans)

theorem isBlank_of_continuesName {c : Char} (continues : continuesName c = true) : Text.isBlank c = false := by
  simp only [continuesName, Bool.or_eq_true, beq_iff_eq] at continues
  rcases continues with (letter | numeral) | rfl
  · exact Text.isBlank_of_isLetter letter
  · exact Text.isBlank_of_isNumeral numeral
  · rfl

theorem isBlank_of_continuesNumber {c : Char} (continues : continuesNumber c = true) : Text.isBlank c = false := by
  simp only [continuesNumber, Bool.or_eq_true, beq_iff_eq] at continues
  rcases continues with digit | rfl
  · exact Text.isBlank_of_isDigit digit
  · rfl

/-- No token ends with a blank. -/
theorem solid_of_getLast? {token : Token} (lexical : token.Lexical) :
    ∀ c ∈ token.chars.getLast?, Text.isBlank c = false := by
  intro c last
  cases token with
  | text value =>
    rw [Token.chars, ← List.cons_append, List.getLast?_concat, Option.mem_some_iff] at last
    subst last
    rfl
  | number digits unit =>
    obtain ⟨⟨first, more, is, -, digit, all⟩, letters⟩ := lexical
    have among := List.mem_of_getLast? last
    simp only [Token.chars, is, List.mem_append, List.mem_cons] at among
    rcases among with (rfl | inside) | inside
    · exact Text.isBlank_of_isDigit digit
    · exact isBlank_of_continuesNumber (all c inside)
    · exact Text.isBlank_of_isLetter (letters c inside)
  | name value =>
    obtain ⟨first, more, is, ⟨notBlank, -, -⟩, -, all⟩ := lexical
    have among := List.mem_of_getLast? last
    simp only [Token.chars, is, List.mem_cons] at among
    rcases among with rfl | inside
    · exact notBlank
    · exact isBlank_of_continuesName (all c inside)
  | symbol value =>
    cases value <;> cases last <;> rfl

/-- Blanks behind a text change nothing about what starts it. -/
theorem starts_append_iff {token : Token} {blanks : List Char} (blank : ∀ c ∈ blanks, Text.isBlank c = true) :
    token.Starts (text ++ blanks) ↔ token.Starts text := by
  refine ⟨fun ⟨lexical, tail, is⟩ => ⟨lexical, ?_⟩,
    fun ⟨lexical, starts⟩ => ⟨lexical, starts.trans (List.prefix_append _ _)⟩⟩
  rcases List.append_eq_append_iff.mp is with ⟨more, rfl, -⟩ | ⟨end', chars, rfl⟩
  · exact List.prefix_append _ _
  · rcases List.eq_nil_or_concat end' with rfl | ⟨front, c, rfl⟩
    · rw [List.append_nil] at chars
      exact chars ▸ List.prefix_refl _
    · have last : c ∈ token.chars.getLast? := by simp [chars]
      have solid := solid_of_getLast? lexical c last
      rw [blank c (by simp)] at solid
      cases solid

variable {blanks blanks' : List Char} (blank : ∀ c ∈ blanks, Text.isBlank c = true)
  (blank' : ∀ c ∈ blanks', Text.isBlank c = true)

include blank in
theorem Scans.append_blanks (scans : Scans column text tokens column' rest) :
    Scans column (text ++ blanks) tokens column' (rest ++ blanks) := by
  induction scans with
  | stop => exact .stop
  | blank here _ hypothesis => exact .blank here hypothesis
  | token is longest _ hypothesis =>
    refine .token (by rw [is, List.append_assoc]) ?_ hypothesis
    unfold Token.IsLongest at longest ⊢
    simpa only [starts_append_iff blank] using longest

include blank in
theorem Stray.append_blanks (stray : Stray text) : Stray (text ++ blanks) := by
  obtain ⟨c, rest, rfl, notBlank, nothing⟩ := stray
  refine ⟨c, rest ++ blanks, rfl, notBlank, fun token => ?_⟩
  rw [starts_append_iff blank]
  exact nothing token

include blank blank' in
/-- Between blanks a text is scanned as it is alone, further along the line. -/
theorem Scans.between (scans : Scans column text tokens column' rest) :
    Scans column (blanks ++ (text ++ blanks')) (tokens.map (shifted blanks.length)) (column' + blanks.length)
      (rest ++ blanks') :=
  scans_blanks blank ((scans.append_blanks blank').shift blanks.length)

end

/-! ### Lines and the blanks around them -/

/-- How many blanks a line starts with. -/
def indentation (line : List Char) : Nat :=
  (line.takeWhile Text.isBlank).length

section

variable {line rest : List Char} {tokens : Tokens} {column : Nat} {problem : Problem}

/-- A line is scanned as it is without the blanks around it, but for the indentation. -/
theorem Scans.untrim (scans : Scans 1 (Text.trim line) tokens column rest) :
    ∃ after, (∀ c ∈ after, Text.isBlank c = true) ∧
      Scans 1 line (tokens.map (shifted (indentation line))) (column + indentation line) (rest ++ after) := by
  obtain ⟨after, is, blank⟩ := Text.exists_behind_trim line
  have leading : ∀ c ∈ line.takeWhile Text.isBlank, Text.isBlank c = true := fun c => List.mem_takeWhile_imp
  have whole := scans.between leading blank
  rw [← is] at whole
  exact ⟨after, blank, whole⟩

theorem tokenize_of_trim (cut : tokenize (Text.trim line) = .ok tokens) :
    tokenize line = .ok (tokens.map (shifted (indentation line))) := by
  obtain ⟨column, scans⟩ := tokenizeFrom_eq_ok_iff.mp cut
  obtain ⟨after, blank, whole⟩ := scans.untrim
  have behind : Scans (column + indentation line) (after ++ []) [] _ [] := scans_blanks blank .stop
  rw [List.append_nil] at behind
  have all := whole.trans behind
  rw [List.append_nil] at all
  exact tokenizeFrom_eq_ok_iff.mpr ⟨_, all⟩

theorem stray_of_trim (cut : tokenize (Text.trim line) = .error (problem, column)) :
    ∃ tokens rest, Scans 1 line tokens (column + indentation line) rest ∧ Stray rest := by
  obtain ⟨tokens, rest, scans, stray⟩ := scans_of_error cut
  obtain ⟨after, blank, whole⟩ := scans.untrim
  exact ⟨_, _, whole, stray.append_blanks blank⟩

theorem tokenize_trim (cut : tokenize line = .ok tokens) :
    ∃ trimmed, tokenize (Text.trim line) = .ok trimmed ∧ tokens = trimmed.map (shifted (indentation line)) := by
  cases cut' : tokenize (Text.trim line) with
  | ok trimmed =>
    have same := (tokenize_of_trim cut').symm.trans cut
    cases same
    exact ⟨trimmed, rfl, rfl⟩
  | error failure =>
    obtain ⟨problem, failing⟩ := tokenizeFrom_eq_error_iff.mpr (stray_of_trim cut')
    rw [tokenize, failing] at cut
    cases cut

end

end Rivulet.Line
