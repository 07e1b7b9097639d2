import Rivulet.Proofs.Line.Lenience
import Rivulet.Proofs.Line.Misfits
import Rivulet.Proofs.Line.Scanning

/-!
Where the errors of a source point. The culprit of a line that cannot be read is its first stray character, or else the
first token with which the tokens so far begin no line that is accepted, or else the last token, if the line ends too
early (`Culprit`). A line has one culprit at most (`Culprit.unique`).

Main statement: a strict reading fails at the first line that is neither silent nor accepted. The column that it tells
counts from the first character of the line that is no blank, and leads to the culprit, or behind a point to the token
after it (`error_at_culprit`). So it does not always point at the culprit (`error_beside_culprit`).
-/

namespace Rivulet.Line

/-! ### Beginnings of accepted lines -/

/-- A line says something, and a source of this line alone is accepted. -/
def Accepted (line : List Char) : Prop :=
  (∀ c ∈ line, (c == '\n') = false) ∧ isSilent (Text.trim line) = false ∧
    ∃ tree, parse false (String.ofList line) = .ok tree

/-- Some tokens are the first ones of an accepted line. -/
def Begins (words : List Token) : Prop :=
  ∃ line tokens column, Accepted line ∧ Scans 1 line tokens column [] ∧ words <+: tokens.map Prod.fst

/-- A token can be cut out of a line. -/
def Token.Inline (token : Token) : Prop :=
  token.Lexical ∧ ∀ c ∈ token.chars, (c == '\n') = false

section

variable {line rest : List Char} {tokens : Tokens} {column column' : Nat} {words : List Token} {token : Token}
  {place : Place}

theorem inline_of_scans (scans : Scans column line tokens column' rest) (plain : ∀ c ∈ line, (c == '\n') = false) :
    ∀ token ∈ tokens, token.1.Inline := by
  induction scans with
  | stop => simp
  | blank _ _ hypothesis => exact hypothesis (List.forall_mem_cons.mp plain).2
  | token is longest _ hypothesis =>
    subst is
    obtain ⟨here, others⟩ := List.forall_mem_append.mp plain
    exact List.forall_mem_cons.mpr ⟨⟨longest.1.1, here⟩, hypothesis others⟩

theorem plain_of_all (all : line.all (· != '\n') = true) : ∀ c ∈ line, (c == '\n') = false := by
  intro c among
  have apart := List.all_eq_true.mp all c among
  exact Bool.not_eq_true' _ ▸ apart

theorem inline_symbol (symbol : Symbol) : (Token.symbol symbol).Inline :=
  ⟨trivial, plain_of_all (by cases symbol <;> rfl)⟩

theorem inline_completion (place : Place) : ∀ token ∈ place.completion, token.Inline := by
  have name : (Token.name "x").Inline :=
    ⟨⟨'x', [], rfl, ⟨rfl, rfl, by decide⟩, rfl, nofun⟩, plain_of_all rfl⟩
  cases place with
  | start | named | finished => simp [Place.completion, inline_symbol]
  | inside stage brackets =>
    have inner : ∀ token ∈ stage.completion, token.Inline := by
      cases stage <;> simp [Stage.completion, inline_symbol, name]
    exact List.forall_mem_append.mpr ⟨inner, by simp [inline_symbol]⟩

theorem accepted_iff (plain : ∀ c ∈ line, (c == '\n') = false) (speaks : isSilent (Text.trim line) = false) :
    Accepted line ↔ ∃ value, readStatement (Text.trim line) = .ok value := by
  unfold Accepted
  rw [parse_line plain speaks]
  cases readStatement (Text.trim line) with
  | ok value => exact ⟨fun _ => ⟨value, rfl⟩, fun _ => ⟨plain, speaks, _, rfl⟩⟩
  | error failure => exact ⟨nofun, nofun⟩

theorem readStatement_eq_ok_iff (cut : tokenize line = .ok tokens) :
    (∃ value, readStatement line = .ok value) ↔
      ∃ place, Place.start.run (tokens.map Prod.fst) = some place ∧ place.isComplete = true := by
  rw [← exists_statement_iff_run (allMeasured_of_lexical (lexical_of_tokenizeFrom cut)), readStatement, cut]
  dsimp only
  cases statement tokens <;> simp

/-- No line that can end where its tokens lead is silent. -/
theorem not_silent_of_run (cut : tokenize line = .ok tokens)
    (run : Place.start.run (tokens.map Prod.fst) = some place) (complete : place.isComplete = true) :
    isSilent line = false := by
  refine Bool.eq_false_iff.mpr fun silent => ?_
  rcases Bool.or_eq_true _ _ ▸ silent with empty | comment
  · rw [List.isEmpty_iff.mp empty, tokenize, tokenizeFrom_nil] at cut
    cases cut
    cases run
    cases complete
  · obtain ⟨rest, rfl⟩ := List.isPrefixOf_iff_prefix.mp comment
    have slash (rest : List Char) : lexeme '/' rest = .ok (some (.symbol .slash), 0) := rfl
    rw [tokenize, List.cons_append, tokenizeFrom_of_lexeme (slash _)] at cut
    cases later : tokenizeFrom _ _ with
    | error failure =>
      rw [later] at cut
      cases cut
    | ok more =>
      rw [later] at cut
      cases cut
      cases run

theorem tokenize_write {words : List Token} (inline : ∀ word ∈ words, word.Inline) :
    ∃ tokens, tokenize (write words) = .ok tokens ∧ tokens.map Prod.fst = words :=
  tokenizeFrom_write (fun word among => (inline word among).1) 1

/-- A line can be written with tokens that lead to where it can end. -/
theorem accepted_write (inline : ∀ word ∈ words, word.Inline) (run : Place.start.run words = some place)
    (complete : place.isComplete = true) : Accepted (write words) := by
  obtain ⟨tokens, cut, same⟩ := tokenize_write inline
  obtain ⟨trimmed, cut', is⟩ := tokenize_trim cut
  rw [← same, is, words_shifted] at run
  have plain : ∀ c ∈ write words, (c == '\n') = false := by
    intro c among
    obtain ⟨word, inside, among⟩ := List.mem_flatMap.mp among
    rcases List.mem_append.mp among with here | blank
    · exact (inline word inside).2 c here
    · rw [List.mem_singleton.mp blank]
      rfl
  have speaks := not_silent_of_run cut' run complete
  exact (accepted_iff plain speaks).mpr ((readStatement_eq_ok_iff cut').mpr ⟨place, run, complete⟩)

/-- The tokens of an accepted line lead to where it can end. -/
theorem run_of_accepted (accepted : Accepted line) (cut : tokenize line = .ok tokens) :
    ∃ place, Place.start.run (tokens.map Prod.fst) = some place ∧ place.isComplete = true := by
  obtain ⟨trimmed, cut', rfl⟩ := tokenize_trim cut
  rw [words_shifted]
  exact (readStatement_eq_ok_iff cut').mp ((accepted_iff accepted.1 accepted.2.1).mp accepted)

/-- Tokens that begin an accepted line lead somewhere. -/
theorem run_of_begins (begins : Begins words) : ∃ place, Place.start.run words = some place := by
  obtain ⟨line, tokens, column, accepted, scans, later, is⟩ := begins
  obtain ⟨place, run, -⟩ := run_of_accepted accepted (tokenizeFrom_eq_ok_iff.mpr ⟨column, scans⟩)
  rw [← is, run_append] at run
  obtain ⟨middle, run, -⟩ := Option.bind_eq_some_iff.mp run
  exact ⟨middle, run⟩

/-- Tokens that lead somewhere begin an accepted line, which is completed from there. -/
theorem begins_of_run (inline : ∀ word ∈ words, word.Inline) (run : Place.start.run words = some place) :
    Begins words := by
  obtain ⟨last, completes, complete⟩ := run_completion place
  have whole : Place.start.run (words ++ place.completion) = some last := by
    rw [run_append, run]
    exact completes
  have inline' := List.forall_mem_append.mpr ⟨inline, inline_completion place⟩
  obtain ⟨tokens, cut, same⟩ := tokenize_write inline'
  obtain ⟨column, scans⟩ := tokenizeFrom_eq_ok_iff.mp cut
  exact ⟨_, tokens, column, accepted_write inline' whole complete, scans, same ▸ List.prefix_append _ _⟩

end

/-! ### Culprits -/

/-- What is at fault in a line stands at a column, behind some tokens and in front of others: the first character that
starts no token, such as the opening quote of a text that does not end, or else the first token with which the tokens
begin no accepted line, or else the last token, where they do begin one and the line is none. -/
inductive Culprit (line : List Char) : Tokens → Nat → Tokens → Prop where
  | stray {before : Tokens} {column : Nat} {rest : List Char} (scans : Scans 1 line before column rest)
      (stray : Stray rest) : Culprit line before column []
  | misfit {before after : Tokens} {token : Token} {column column' : Nat}
      (scans : Scans 1 line (before ++ (token, column) :: after) column' []) (fits : Begins (before.map Prod.fst))
      (misfits : ¬ Begins (before.map Prod.fst ++ [token])) : Culprit line before column after
  | early {before : Tokens} {token : Token} {column column' : Nat}
      (scans : Scans 1 line (before ++ [(token, column)]) column' []) (fits : Begins (before.map Prod.fst ++ [token]))
      (rejected : ¬ Accepted line) : Culprit line before column []

/-- The column that is told for a culprit between some tokens: its own, or behind a point that of the token after it. -/
def reported (before : Tokens) (column : Nat) (after : Tokens) : Nat :=
  if (before.map Prod.fst).getLast? = some (.symbol .point) then (columnOf after).getD column else column

section

variable {line rest : List Char} {tokens tokens' before before' after after' : Tokens} {column column' : Nat}
  {words words' : List Token} {ending ending' : Nat}

theorem Begins.mono (begins : Begins words) (starts : words' <+: words) : Begins words' := by
  obtain ⟨line, tokens, column, accepted, scans, within⟩ := begins
  exact ⟨line, tokens, column, accepted, scans, starts.trans within⟩

/-- Of two entries of a list either both are the same, or one is among those before the other. -/
theorem entries_cases {α : Type} {front front' back back' : List α} {entry entry' : α}
    (same : front ++ entry :: back = front' ++ entry' :: back') :
    front ++ [entry] <+: front' ∨ front' ++ [entry'] <+: front ∨ entry = entry' := by
  rcases List.append_eq_append_iff.mp same with ⟨_ | ⟨next, more⟩, rfl, is⟩ | ⟨_ | ⟨next, more⟩, rfl, is⟩
  · exact .inr (.inr (List.cons.inj is).1)
  · rw [(List.cons.inj is).1]
    exact .inl ⟨more, by simp⟩
  · exact .inr (.inr (List.cons.inj is).1.symm)
  · rw [(List.cons.inj is).1]
    exact .inr (.inl ⟨more, by simp⟩)

/-- Tokens that begin an accepted line do not start with others that begin none. -/
theorem not_prefix_of_misfits {token : Token} (misfits : ¬ Begins (before.map Prod.fst ++ [token]))
    (fits : Begins (tokens.map Prod.fst)) : ¬ before ++ [(token, column)] <+: tokens := by
  intro starts
  have starts' := starts.map Prod.fst
  rw [List.map_append] at starts'
  exact misfits (fits.mono starts')

/-- A line that could go on has no misfit. -/
theorem not_misfits_of_fits {token last : Token} (misfits : ¬ Begins (before.map Prod.fst ++ [token]))
    (fits : Begins (before'.map Prod.fst ++ [last]))
    (scans : Scans 1 line (before ++ (token, column) :: after) ending [])
    (scans' : Scans 1 line (before' ++ [(last, column')]) ending' []) : False := by
  have fits' : Begins ((before' ++ [(last, column')]).map Prod.fst) := by rwa [List.map_append]
  have starts : before ++ [(token, column)] <+: before' ++ [(last, column')] := by
    rw [← scans.unique scans']
    exact ⟨after, by simp⟩
  exact not_prefix_of_misfits misfits fits' starts

/-- A line has one culprit at most. -/
theorem Culprit.unique (first : Culprit line before column after) (second : Culprit line before' column' after') :
    column = column' := by
  cases first with
  | stray scans stray =>
    cases second with
    | stray scans' stray' =>
      obtain ⟨problem, cut⟩ := tokenizeFrom_eq_error_iff.mpr ⟨_, _, scans, stray⟩
      obtain ⟨problem', cut'⟩ := tokenizeFrom_eq_error_iff.mpr ⟨_, _, scans', stray'⟩
      rw [cut] at cut'
      cases cut'
      rfl
    | misfit scans' | early scans' => exact absurd stray (scans'.not_stray scans)
  | misfit scans fits misfits =>
    cases second with
    | stray scans' stray' => exact absurd stray' (scans.not_stray scans')
    | misfit scans' fits' misfits' =>
      rcases entries_cases (scans.unique scans') with earlier | later | same
      · exact absurd earlier (not_prefix_of_misfits misfits fits')
      · exact absurd later (not_prefix_of_misfits misfits' fits)
      · exact congrArg Prod.snd same
    | early scans' fits' => exact (not_misfits_of_fits misfits fits' scans scans').elim
  | early scans fits =>
    cases second with
    | stray scans' stray' => exact absurd stray' (scans.not_stray scans')
    | misfit scans' _ misfits' => exact (not_misfits_of_fits misfits' fits scans' scans).elim
    | early scans' =>
      have same := List.append_inj_right' (scans.unique scans') rfl
      exact congrArg Prod.snd (List.cons.inj same).1

theorem ne_nil_of_speaks (speaks : isSilent (Text.trim line) = false) (cut : tokenize (Text.trim line) = .ok tokens) :
    tokens ≠ [] := by
  rintro rfl
  obtain ⟨column, scans⟩ := tokenizeFrom_eq_ok_iff.mp cut
  have solid := @Text.isBlank_of_head?_trim line
  generalize Text.trim line = text at *
  cases scans with
  | stop => cases speaks
  | blank blank =>
    rw [solid _ rfl] at blank
    cases blank

theorem reported_shifted (distance : Nat) (before : Tokens) (column : Nat) (after : Tokens) :
    reported (before.map (shifted distance)) (column + distance) (after.map (shifted distance)) =
      reported before column after + distance := by
  unfold reported
  rw [words_shifted]
  split <;> cases after <;> rfl

/-- A statement that cannot be read fails for one of its tokens, which leads nowhere, or is the last of too few. -/
theorem exists_reported {failure : Failure} (measured : AllMeasured tokens) (spoken : tokens ≠ [])
    (stated : statement tokens = .error failure) :
    ∃ before token column after place, tokens = before ++ (token, column) :: after ∧
      failure.column.getD ((tokens.getLast?.map Prod.snd).getD 1) = reported before column after ∧
      Place.start.run (before.map Prod.fst) = some place ∧
      (place.next? token = none ∨ after = []) := by
  obtain ⟨place, rest, ⟨before, rfl, run⟩, misfit⟩ := blames_statement measured ⟨failure, stated, rfl⟩
  generalize failure.column = blamed at misfit ⊢
  cases misfit with
  | early incomplete =>
    rw [List.append_nil] at spoken ⊢
    obtain ⟨front, ⟨token, column⟩, rfl⟩ := List.eq_nil_or_concat before |>.resolve_left spoken
    rw [List.concat_eq_append] at run ⊢
    rw [List.map_append, run_append] at run
    obtain ⟨middle, run, -⟩ := Option.bind_eq_some_iff.mp run
    exact ⟨front, token, column, [], middle, rfl, by simp [reported, columnOf], run, .inr rfl⟩
  | @token _ token column more stuck elsewhere =>
    refine ⟨before, token, column, more, place, rfl, ?_, run, .inl stuck⟩
    rw [reported, if_neg fun point => elsewhere ((isProperty_of_run run).mpr point)]
    rfl
  | @property brackets token column more stuck =>
    -- The place takes the name of a property, so the token before it is a point.
    refine ⟨before, token, column, more, _, rfl, ?_, run, .inl stuck⟩
    rw [reported, if_pos ((isProperty_of_run run).mp ⟨brackets, rfl⟩)]
    cases more with
    | nil => simp [columnOf]
    | cons first more => rfl

/-- A token that leads nowhere is the culprit of its line, and so is the last one of a line that is rejected
otherwise. -/
theorem culprit_of_stuck {token : Token} {place : Place} (plain : ∀ c ∈ line, (c == '\n') = false)
    (rejected : ¬ Accepted line) (scans : Scans 1 line (before ++ (token, column) :: after) ending [])
    (run : Place.start.run (before.map Prod.fst) = some place) (stuck : place.next? token = none ∨ after = []) :
    Culprit line before column after := by
  obtain ⟨inlineBefore, inlineFrom⟩ := List.forall_mem_append.mp (inline_of_scans scans plain)
  have inline : ∀ word ∈ before.map Prod.fst, word.Inline := List.forall_mem_map.mpr inlineBefore
  have inlineHere : token.Inline := inlineFrom (token, column) List.mem_cons_self
  have run' : Place.start.run (before.map Prod.fst ++ [token]) = place.next? token := by
    rw [run_append, run, Option.bind_some, Place.run]
    cases place.next? token <;> rfl
  cases next : place.next? token with
  | none =>
    refine .misfit scans (begins_of_run inline run) fun begins => ?_
    obtain ⟨last, leads⟩ := run_of_begins begins
    rw [run', next] at leads
    cases leads
  | some last =>
    obtain rfl : after = [] := stuck.resolve_left (by simp [next])
    refine .early scans (begins_of_run ?_ (run'.trans next)) rejected
    exact List.forall_mem_append.mpr ⟨inline, List.forall_mem_singleton.mpr inlineHere⟩

/-- The column of a line that is rejected leads to its culprit. -/
theorem culprit_of_readStatement {problem : Problem} {pieces : List Piece} (plain : ∀ c ∈ line, (c == '\n') = false)
    (speaks : isSilent (Text.trim line) = false)
    (read : readStatement (Text.trim line) = .error (problem, column, pieces)) :
    ∃ before place after, Culprit line before place after ∧
      column + indentation line = reported before place after := by
  have rejected : ¬ Accepted line := by
    rw [accepted_iff plain speaks, read]
    nofun
  unfold readStatement at read
  cases cut : tokenize (Text.trim line) with
  | error failure =>
    rw [cut] at read
    cases read
    obtain ⟨before, rest, scans, stray⟩ := stray_of_trim cut
    exact ⟨before, _, [], .stray scans stray, by simp [reported, columnOf]⟩
  | ok tokens =>
    rw [cut] at read
    dsimp only at read
    cases stated : statement tokens with
    | ok value =>
      rw [stated] at read
      cases read
    | error failure =>
      rw [stated] at read
      cases read
      have measured := allMeasured_of_lexical (lexical_of_tokenizeFrom cut)
      obtain ⟨before, token, column, after, place, rfl, is, run, stuck⟩ :=
        exists_reported measured (ne_nil_of_speaks speaks cut) stated
      obtain ⟨column', scans⟩ := tokenizeFrom_eq_ok_iff.mp (tokenize_of_trim cut)
      rw [List.map_append, List.map_cons] at scans
      rw [← words_shifted (indentation line)] at run
      have culprit := culprit_of_stuck plain rejected scans run (stuck.imp_right fun none => by rw [none]; rfl)
      exact ⟨_, _, _, culprit, by rw [reported_shifted, is]⟩

/-! ### Sources -/

/-- A strict reading fails at the first line that can neither be passed over nor read. -/
theorem exists_of_readLines_error {number : Nat} {builder : Builder} {lines : List (List Char)} {error : ParseError}
    (read : readLines false number builder lines = .error error) :
    ∃ earlier line later problem column pieces, lines = earlier ++ line :: later ∧
      (∀ line ∈ earlier, isSilent (Text.trim line) = true ∨ ∃ value, readStatement (Text.trim line) = .ok value) ∧
      isSilent (Text.trim line) = false ∧ readStatement (Text.trim line) = .error (problem, column, pieces) ∧
      error = ⟨number + earlier.length, column, problem⟩ := by
  induction lines generalizing number builder with
  | nil => cases read
  | cons line lines hypothesis =>
    rw [readLines_cons] at read
    split at read
    · rename_i silent
      obtain ⟨earlier, failing, later, problem, column, pieces, rfl, passed, rejected⟩ := hypothesis read
      refine ⟨line :: earlier, failing, later, problem, column, pieces, rfl, ?_, ?_⟩
      · exact List.forall_mem_cons.mpr ⟨.inl silent, passed⟩
      · rwa [List.length_cons, Nat.add_comm earlier.length, ← Nat.add_assoc]
    · rename_i speaks
      cases stated : readStatement (Text.trim line) with
      | ok value =>
        rw [stated] at read
        dsimp only at read
        cases readLater : readLines false (number + 1) (value.build builder).2 lines with
        | ok result =>
          rw [readLater] at read
          cases read
        | error failure =>
          rw [readLater] at read
          cases read
          obtain ⟨earlier, failing, later, problem, column, pieces, rfl, passed, rejected⟩ := hypothesis readLater
          refine ⟨line :: earlier, failing, later, problem, column, pieces, rfl, ?_, ?_⟩
          · exact List.forall_mem_cons.mpr ⟨.inr ⟨value, stated⟩, passed⟩
          · rwa [List.length_cons, Nat.add_comm earlier.length, ← Nat.add_assoc]
      | error failure =>
        obtain ⟨problem, column, pieces⟩ := failure
        rw [stated] at read
        cases read
        exact ⟨[], line, lines, problem, column, pieces, rfl, nofun, by simpa using speaks, stated, rfl⟩

/-- The error of a source that is rejected stands in the first line that is neither silent nor accepted. Its column
counts from the first character there that is no blank. So counted, it is the column of the culprit, or behind a point
the column of the token after the culprit, if there is one. -/
theorem error_at_culprit {text : String} {error : ParseError} (rejected : parse false text = .error error) :
    ∃ earlier line later before place after, Text.lines text.toList = earlier ++ line :: later ∧
      (∀ line ∈ earlier, isSilent (Text.trim line) = true ∨ Accepted line) ∧
      isSilent (Text.trim line) = false ∧ ¬ Accepted line ∧ error.line = earlier.length + 1 ∧
      Culprit line before place after ∧ error.column + indentation line = reported before place after := by
  have read : readLines false 1 .empty (Text.lines text.toList) = .error error := by
    unfold parse at rejected
    cases read : readLines false 1 .empty (Text.lines text.toList) with
    | ok result =>
      rw [read] at rejected
      cases rejected
    | error failure =>
      rw [read] at rejected
      cases rejected
      rfl
  obtain ⟨earlier, line, later, problem, column, pieces, is, passed, speaks, stated, rfl⟩ :=
    exists_of_readLines_error read
  have plain : ∀ other ∈ earlier ++ line :: later, ∀ c ∈ other, (c == '\n') = false := by
    rw [← is]
    exact fun _ => Text.plain_of_mem_lines
  obtain ⟨plainBefore, plainFrom⟩ := List.forall_mem_append.mp plain
  have plainHere := plainFrom line List.mem_cons_self
  obtain ⟨before, place, after, culprit, points⟩ := culprit_of_readStatement plainHere speaks stated
  refine ⟨earlier, line, later, before, place, after, is, fun line among => ?_, speaks, ?_, Nat.add_comm _ _, culprit,
    points⟩
  · rcases passed line among with silent | accepted
    · exact .inl silent
    · cases silent : isSilent (Text.trim line) with
      | true => exact .inl rfl
      | false => exact .inr ((accepted_iff (plainBefore line among) silent).mpr accepted)
  · rw [accepted_iff plainHere speaks, stated]
    nofun

/-- The `5` behind the point is the culprit of the second line, and the plus sign after it is told instead. -/
theorem error_in_second_line : parse false "scale: 2\n  scale.5 + 1" = .error ⟨2, 9, .expectedProperty⟩ ∧
    ∃ earlier line later before place after,
      Text.lines "scale: 2\n  scale.5 + 1".toList = earlier ++ line :: later ∧
        (∀ line ∈ earlier, isSilent (Text.trim line) = true ∨ Accepted line) ∧
        isSilent (Text.trim line) = false ∧ ¬ Accepted line ∧ 2 = earlier.length + 1 ∧
        Culprit line before place after ∧ 9 + indentation line = reported before place after := by
  have rejected : parse false "scale: 2\n  scale.5 + 1" = .error ⟨2, 9, .expectedProperty⟩ := by decide +kernel
  exact ⟨rejected, error_at_culprit rejected⟩

/-- The third token of `x.5 + 1` is its culprit. -/
theorem culprit_behind_point : Culprit "x.5 + 1".toList [(.name "x", 1), (.symbol .point, 2)] 3
    [(.symbol .plus, 5), (.number "1" "", 7)] := by
  have cut : tokenize "x.5 + 1".toList = .ok ([(.name "x", 1), (.symbol .point, 2)] ++
      (.number "5" "", 3) :: [(.symbol .plus, 5), (.number "1" "", 7)]) := by decide +kernel
  obtain ⟨column, scans⟩ := tokenizeFrom_eq_ok_iff.mp cut
  have inline := inline_of_scans scans (plain_of_all (by decide +kernel))
  refine .misfit scans (begins_of_run ?_ (show _ = some (Place.inside .property []) from rfl)) fun begins => ?_
  · exact List.forall_mem_map.mpr (List.forall_mem_append.mp inline).1
  · obtain ⟨place, run⟩ := run_of_begins begins
    cases run

/-- Columns do not always point at the culprit. -/
theorem error_beside_culprit : ¬ ∀ (text : String) (error : ParseError), parse false text = .error error →
    ∃ line before after, (Text.lines text.toList)[error.line - 1]? = some line ∧
      Culprit line before error.column after := by
  intro points
  have rejected : parse false "x.5 + 1" = .error ⟨1, 5, .expectedProperty⟩ := by decide +kernel
  obtain ⟨line, before, after, is, culprit⟩ := points _ _ rejected
  have lines : Text.lines "x.5 + 1".toList = ["x.5 + 1".toList] := by decide +kernel
  rw [lines] at is
  cases is
  exact absurd (culprit.unique culprit_behind_point) (by decide)

end

end Rivulet.Line
