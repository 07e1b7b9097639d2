import Mathlib.Data.List.TakeWhile
import Rivulet.Proofs.Line.Acceptance
import Rivulet.Proofs.Measure.Spelling

/-!
The tokens that lines are cut into. What a token can be is told by its characters (`Token.Lexical`), the unit of a
number always names one dimension (`allMeasured_of_lexical`), and tokens that are written with blanks between them are
cut out again (`tokenizeFrom_write`).
-/

namespace Rivulet

namespace Line

/-! ### Characters of tokens -/

/-- A token as it is written. -/
def Token.chars : Token → List Char
  | number digits unit => digits.toList ++ unit.toList
  | text value => '"' :: (value.toList ++ ['"'])
  | name value => value.toList
  | symbol value => value.text.toList

/-- What a character can be that starts a name or a symbol. -/
def IsPlainStart (c : Char) : Prop :=
  Text.isBlank c = false ∧ Text.isDigit c = false ∧ c ≠ '"'

/-- A token can be cut out of a line. -/
def Token.Lexical : Token → Prop
  | number digits unit => (∃ first more, digits.toList = first :: more ∧ Text.isBlank first = false ∧
      Text.isDigit first = true ∧ ∀ c ∈ more, continuesNumber c = true) ∧ ∀ c ∈ unit.toList, Text.isLetter c = true
  | text value => ∀ c ∈ value.toList, (c == '"') = false
  | name value => ∃ first more, value.toList = first :: more ∧ IsPlainStart first ∧ startsName first = true ∧
      ∀ c ∈ more, continuesName c = true
  | symbol _ => True

variable {token : Token} {words : List Token} {tokens : Tokens} {first : Char} {rest : List Char} {column extra : Nat}

theorem lexical_of_lexeme (cut : lexeme first rest = .ok (some token, extra)) : token.Lexical := by
  unfold lexeme at cut
  split at cut
  · cases cut
  rename_i notBlank
  split at cut
  · rename_i digit
    cases cut
    refine ⟨⟨first, rest.takeWhile continuesNumber, by simp, by simpa using notBlank, digit,
      fun c => List.mem_takeWhile_imp⟩, fun c among => ?_⟩
    rw [String.toList_ofList] at among
    exact List.mem_takeWhile_imp among
  rename_i notDigit
  split at cut
  · dsimp only at cut
    split at cut
    · cases cut
    · cases cut
      simpa [Token.Lexical] using Text.plain_of_cutAt (· == '"') rest
  rename_i notQuote
  split at cut
  · rename_i starts
    cases cut
    exact ⟨first, rest.takeWhile continuesName, by simp,
      ⟨by simpa using notBlank, by simpa using notDigit, by simpa using notQuote⟩, starts,
      fun c => List.mem_takeWhile_imp⟩
  · split at cut
    · cases cut
      trivial
    · cases cut

theorem lexical_of_tokenizeFrom (cut : tokenizeFrom column rest = .ok tokens) : ∀ token ∈ tokens, token.1.Lexical := by
  fun_induction tokenizeFrom column rest generalizing tokens with
  | case1 column =>
    cases cut
    simp
  | case2 | case3 => cases cut
  | case4 column first rest extra later laterCut token cut' hypothesis =>
    cases cut
    exact List.forall_mem_cons.mpr ⟨lexical_of_lexeme cut', hypothesis laterCut⟩
  | case5 column first rest extra later laterCut cut' hypothesis =>
    cases cut
    exact hypothesis laterCut

/-- The units of numbers name one dimension each. -/
theorem allMeasured_of_lexical (lexical : ∀ token ∈ tokens, token.1.Lexical) : AllMeasured tokens :=
  fun _ _ _ among => Measure.ofText?_letters (lexical _ among).2

/-! ### Writing tokens -/

/-- Tokens as they are written, with a blank after each. -/
def write (words : List Token) : List Char :=
  words.flatMap fun token => token.chars ++ [' ']

theorem takeWhile_append {condition : Char → Bool} {part : List Char} {next : Char}
    (all : ∀ c ∈ part, condition c = true) (ends : condition next = false) (rest : List Char) :
    (part ++ next :: rest).takeWhile condition = part := by
  rw [List.takeWhile_append_of_pos all]
  simp [ends]

theorem continuesNumber_of_isLetter {c : Char} (letter : Text.isLetter c = true) : continuesNumber c = false := by
  have first := Text.toNat_of_isLetter letter
  refine Bool.eq_false_iff.mpr fun continues => ?_
  simp only [continuesNumber, Text.isDigit, Bool.or_eq_true, Bool.and_eq_true, decide_eq_true_eq, beq_iff_eq,
    Char.le_def, UInt32.le_iff_toNat_le] at continues
  rcases continues with ⟨-, last⟩ | rfl
  · exact absurd (Nat.le_trans first last) (by decide)
  · exact absurd first (by decide)

/-- The digits of a number end where its unit starts, or at the blank after it. -/
theorem takeWhile_digits {digits unit : List Char} (all : ∀ c ∈ digits, continuesNumber c = true)
    (letters : ∀ c ∈ unit, Text.isLetter c = true) (rest : List Char) :
    (digits ++ (unit ++ ' ' :: rest)).takeWhile continuesNumber = digits := by
  cases unit with
  | nil => exact takeWhile_append all rfl rest
  | cons c unit => exact takeWhile_append all (continuesNumber_of_isLetter (letters c List.mem_cons_self)) _

theorem lexeme_number {digits unit : String} (lexical : (Token.number digits unit).Lexical) :
    ∃ first more, (Token.number digits unit).chars = first :: more ∧
      ∀ rest, lexeme first (more ++ ' ' :: rest) = .ok (some (.number digits unit), more.length) := by
  obtain ⟨⟨first, more, is, notBlank, digit, all⟩, letters⟩ := lexical
  refine ⟨first, more ++ unit.toList, by simp [Token.chars, is], fun rest => ?_⟩
  have taken := takeWhile_digits all letters rest
  have taken' : (unit.toList ++ ' ' :: rest).takeWhile Text.isLetter = unit.toList := takeWhile_append letters rfl rest
  simp [lexeme, notBlank, digit, taken, taken', ← is]

theorem lexeme_symbol (symbol : Symbol) : ∃ first more, symbol.text.toList = first :: more ∧
    ∀ rest, lexeme first (more ++ ' ' :: rest) = .ok (some (.symbol symbol), more.length) := by
  cases symbol <;> exact ⟨_, _, rfl, fun _ => rfl⟩

theorem lexeme_chars (lexical : token.Lexical) : ∃ first more, token.chars = first :: more ∧
    ∀ rest, lexeme first (more ++ ' ' :: rest) = .ok (some token, more.length) := by
  cases token with
  | number digits unit => exact lexeme_number lexical
  | text value =>
    refine ⟨'"', value.toList ++ ['"'], rfl, fun rest => ?_⟩
    have cut := Text.cutAt_append lexical (show ('"' == '"') = true from rfl) (' ' :: rest)
    simp [lexeme, cut, show Text.isBlank '"' = false from rfl, show Text.isDigit '"' = false from rfl]
  | name value =>
    obtain ⟨first, more, is, ⟨notBlank, notDigit, notQuote⟩, starts, all⟩ := lexical
    have taken := takeWhile_append all (show continuesName ' ' = false by decide +kernel)
    refine ⟨first, more, is, fun rest => ?_⟩
    simp [lexeme, notBlank, notDigit, notQuote, starts, taken, ← is]
  | symbol value => exact lexeme_symbol value

theorem tokenizeFrom_nil (column : Nat) : tokenizeFrom column [] = .ok [] := by
  unfold tokenizeFrom
  rfl

theorem tokenizeFrom_cons {token? : Option Token} (cut : lexeme first rest = .ok (token?, extra))
    (later : tokenizeFrom (column + 1 + extra) (rest.drop extra) = .ok tokens) :
    tokenizeFrom column (first :: rest) = .ok ((token?.map (·, column)).toList ++ tokens) := by
  unfold tokenizeFrom
  rw [cut]
  dsimp only
  rw [later]
  cases token? <;> rfl

/-- Tokens that are written with blanks between them are cut out of the line again. -/
theorem tokenizeFrom_write (lexical : ∀ token ∈ words, token.Lexical) (column : Nat) :
    ∃ tokens, tokenizeFrom column (write words) = .ok tokens ∧ tokens.map Prod.fst = words := by
  induction words generalizing column with
  | nil => exact ⟨[], tokenizeFrom_nil column, rfl⟩
  | cons token words hypothesis =>
    obtain ⟨here, others⟩ := List.forall_mem_cons.mp lexical
    obtain ⟨first, more, is, cut⟩ := lexeme_chars here
    obtain ⟨tokens, cut', same⟩ := hypothesis others (column + 1 + more.length + 1)
    have blank : lexeme ' ' (write words) = .ok (none, 0) := rfl
    have text : write (token :: words) = first :: (more ++ ' ' :: write words) := by simp [write, is]
    refine ⟨(token, column) :: tokens, ?_, by simp [same]⟩
    rw [text]
    refine tokenizeFrom_cons (cut _) ?_
    rw [List.drop_left]
    exact tokenizeFrom_cons blank cut'

end Line

end Rivulet
