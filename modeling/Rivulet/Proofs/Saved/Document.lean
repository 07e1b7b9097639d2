import Rivulet.Project.Saved
import Rivulet.Proofs.Saved.Reading
import Rivulet.Proofs.Text

/-!
Documents of saved projects. An identifier reads as the number it was written for (`Uuid.ofText?_toText`), and the
document of a saved project reads as that project (`SavedProject.parse?_render`).
-/

namespace Rivulet

/-! ### Identifiers -/

namespace Uuid

theorem length_lastDigits (value count : Nat) : (lastDigits value count).length = count := by
  induction count generalizing value with
  | zero => rfl
  | succ count hypothesis => simp [lastDigits, hypothesis]

theorem readDigits?_lastDigits (value count : Nat) :
    readDigits? (lastDigits value count) = some (value % 16 ^ count) := by
  induction count generalizing value with
  | zero => simp [lastDigits, readDigits?, Nat.mod_one]
  | succ count hypothesis =>
    have digit := Json.hexValue?_hexDigit (Nat.mod_lt value (show 16 > 0 by decide))
    have front := hypothesis (value / 16)
    simp only [readDigits?, Option.bind_eq_bind] at front
    simp only [readDigits?, lastDigits, List.foldlM_append, front, Option.bind_eq_bind, Option.bind_some,
      List.foldlM_cons, List.foldlM_nil, digit, Nat.pow_succ', Nat.mod_mul]
    exact congrArg some (by omega)

theorem lastDigits_plain {value count : Nat} {c : Char} (among : c ∈ lastDigits value count) :
    c ≠ '-' ∧ c.toLower ≠ 'u' := by
  induction count generalizing value with
  | zero => cases among
  | succ count hypothesis =>
    rcases List.mem_append.mp among with before | last
    · exact hypothesis before
    · have all : ∀ digit : Fin 16, Json.hexDigit digit ≠ '-' ∧ (Json.hexDigit digit).toLower ≠ 'u' := by decide
      rw [List.mem_singleton.mp last]
      exact all ⟨value % 16, Nat.mod_lt _ (by decide)⟩

/-- Five groups of digits with hyphens between them. -/
theorem toList_toText (id : Uuid) :
    ∃ a b c d e, id.toText.toList = a ++ '-' :: (b ++ '-' :: (c ++ '-' :: (d ++ '-' :: e))) ∧
      [a, b, c, d, e].map List.length = [8, 4, 4, 4, 12] ∧ [a, b, c, d, e].flatten = lastDigits id.value 32 := by
  have length := length_lastDigits id.value 32
  generalize digits : lastDigits id.value 32 = text at *
  refine ⟨text.take 8, (text.drop 8).take 4, (text.drop 12).take 4, (text.drop 16).take 4, (text.drop 20).take 12,
    ?_, ?_, ?_⟩
  · simp [toText, digits]
  · simp [length]
  · have last : (text.drop 20).take 12 = text.drop 20 := List.take_of_length_le (by simp [length])
    have join (start count : Nat) (rest : List Char) (is : rest = text.drop (start + count)) :
        (text.drop start).take count ++ rest = text.drop start := by
      rw [is, ← List.drop_drop, List.take_append_drop]
    simp only [List.flatten_cons, List.flatten_nil, List.append_nil, last]
    rw [join 16 4 _ rfl, join 12 4 _ rfl, join 8 4 _ rfl]
    exact List.take_append_drop 8 text

/-- An identifier of 128 bits reads as itself. -/
theorem ofText?_toText {id : Uuid} (bits : id.value < 2 ^ 128) : ofText? id.toText = some id := by
  obtain ⟨a, b, c, d, e, text, lengths, digits⟩ := toList_toText id
  have plain (part : List Char) (among : part ∈ [a, b, c, d, e]) (letter : Char) (inside : letter ∈ part) :
      letter ≠ '-' ∧ letter.toLower ≠ 'u' :=
    lastDigits_plain (by rw [← digits]; exact List.mem_flatten.mpr ⟨part, among, inside⟩)
  have groups : Text.splitAtEvery (· == '-') id.toText.toList = [a, b, c, d, e] := by
    have solid (part : List Char) (among : part ∈ [a, b, c, d, e]) : ∀ c ∈ part, (c == '-') = false :=
      fun c inside => by simpa using (plain part among c inside).1
    rw [text, Text.splitAtEvery_append (solid a (by simp)) rfl, Text.splitAtEvery_append (solid b (by simp)) rfl,
      Text.splitAtEvery_append (solid c (by simp)) rfl, Text.splitAtEvery_append (solid d (by simp)) rfl,
      Text.splitAtEvery_plain (solid e (by simp))]
  have read : readGroups? id.toText.toList = some id := by
    simp only [readGroups?, groups, lengths, digits, readDigits?_lastDigits, if_true, Option.map_some]
    rw [Nat.mod_eq_of_lt (by omega)]
  have long : id.toText.toList.length = 36 := by
    simp only [List.map_cons, List.map_nil, List.cons.injEq] at lengths
    simp only [text, List.length_append, List.length_cons]
    omega
  have noUrn : "urn:uuid:".toList.isPrefixOf (id.toText.toList.map Char.toLower) = false := by
    cases a with
    | nil => simp at lengths
    | cons first a =>
      have letter := (plain _ List.mem_cons_self first List.mem_cons_self).2
      rw [text]
      simp [List.isPrefixOf, Ne.symm letter]
  simp only [ofText?, long, noUrn, read, Nat.reduceEqDiff, decide_false, Bool.false_and, Bool.false_eq_true, if_false]

end Uuid

/-! ### Documents -/

section

open Json

/-- What a saved source is read as. -/
def SavedSource.document (source : SavedSource) : Json :=
  .object [(some "name", .string (some source.name)), (some "code", .string (some source.code)),
    (some "caret", .number (Nat.toDigits 10 source.caret))]

/-- What a saved project is read as. -/
def SavedProject.document (saved : SavedProject) : Json :=
  .object [(some "id", .string (some saved.id.toText)), (some "name", .string (some saved.name)),
    (some "sources", .array (saved.sources.map SavedSource.document))]

theorem SavedSource.reads_render (source : SavedSource) : Reads source.render.toList source.document := by
  have indent := isBlank_of_all "\n      ".toList rfl
  have blank := isBlank_of_all [' '] rfl
  have none := isBlank_of_all [] rfl
  have caret := readsMembers_last "caret" indent (isBlank_of_all "\n    ".toList rfl)
    ((reads_natural source.caret).after blank)
  have code := readsMembers_cons "code" indent none ((reads_quote source.code).after blank) caret
  have name := readsMembers_cons "name" indent none ((reads_quote source.name).after blank) code
  have whole := (reads_object name (by rfl)).after (isBlank_of_all "    ".toList rfl)
  simpa [SavedSource.render, SavedSource.document, quote_eq, escape] using whole

/-- The items of the array of sources, up to its closing bracket. -/
theorem SavedProject.readsItems_sources (source : SavedSource) (sources : List SavedSource) :
    ReadsItems ('\n' :: ((",\n".intercalate ((source :: sources).map SavedSource.render)).toList ++ "\n  ]".toList))
      ((source :: sources).map SavedSource.document) := by
  have here (source : SavedSource) : Reads ('\n' :: source.render.toList) source.document :=
    source.reads_render.after (isBlank_of_all ['\n'] rfl)
  induction sources generalizing source with
  | nil =>
    have last := readsItems_last (isBlank_of_all "\n  ".toList rfl) (here source)
    simpa using last
  | cons next sources hypothesis =>
    have front := readsItems_cons (isBlank_of_all [] rfl) (here source) (hypothesis next)
    simpa [String.intercalate_cons_cons] using front

/-- How the sources of a project are written. -/
theorem SavedProject.reads_sources (sources : List SavedSource) :
    Reads (if sources.isEmpty then "[]"
      else "[\n" ++ ",\n".intercalate (sources.map SavedSource.render) ++ "\n  ]").toList
      (.array (sources.map SavedSource.document)) := by
  cases sources with
  | nil =>
    intro depth rest deep _
    obtain ⟨depth, rfl⟩ := Nat.exists_eq_add_of_le' (Nat.le_trans (Nat.le_add_left 1 1) deep)
    rfl
  | cons source sources =>
    have opens : ∃ more, skipSpace ('\n' :: ((",\n".intercalate ((source :: sources).map SavedSource.render)).toList ++
        "\n  ]".toList)) = '{' :: more := by
      cases sources <;> simp [SavedSource.render, skipSpace, isSpace, String.intercalate_cons_cons]
    have whole := reads_array (readsItems_sources source sources) opens.choose_spec
    simpa using whole

theorem SavedProject.reads_render (saved : SavedProject) : Reads saved.render.toList saved.document := by
  have indent := isBlank_of_all "\n  ".toList rfl
  have blank := isBlank_of_all [' '] rfl
  have none := isBlank_of_all [] rfl
  have sources := readsMembers_last "sources" indent (isBlank_of_all "\n".toList rfl)
    ((reads_sources saved.sources).after blank)
  have name := readsMembers_cons "name" indent none ((reads_quote saved.name).after blank) sources
  have id := readsMembers_cons "id" indent none ((reads_quote saved.id.toText).after blank) name
  have whole := reads_object id (by rfl)
  simpa [SavedProject.render, SavedProject.renderWith, SavedProject.document, quote_eq, escape] using whole

/-! ### Reading the parts -/

theorem natural?_toDigits {count : Nat} (small : count < Text.countBound) :
    natural? (.number (Nat.toDigits 10 count)) = some count := by
  have digits : (Nat.toDigits 10 count).all Text.isDigit = true :=
    List.all_eq_true.mpr fun c among => Text.isDigit_of_mem_toDigits among
  simp [natural?, Text.readNat?, digits, Text.digitsValue_toDigits, small]

theorem readSource?_document {source : SavedSource} (small : source.caret < Text.countBound) :
    SavedProject.readSource? source.document = some source := by
  simp [SavedProject.readSource?, SavedSource.document, SavedProject.fields?, text?, natural?_toDigits small]

theorem mapM_readSource?_document {sources : List SavedSource}
    (small : ∀ source ∈ sources, source.caret < Text.countBound) :
    (sources.map SavedSource.document).mapM SavedProject.readSource? = some sources := by
  induction sources with
  | nil => rfl
  | cons source sources hypothesis =>
    obtain ⟨here, others⟩ := List.forall_mem_cons.mp small
    simp [readSource?_document here, hypothesis others]

/-- A saved project is read from its document as it was, if its identity has no more bits and its carets are no greater
than they can be. -/
theorem SavedProject.parse?_render {saved : SavedProject} (bits : saved.id.value < 2 ^ 128)
    (small : ∀ source ∈ saved.sources, source.caret < Text.countBound) : parse? saved.render = some saved := by
  have read := Json.parse?_of_reads saved.reads_render
  simp [parse?, read, document, fields?, text?, items?, Uuid.ofText?_toText bits, mapM_readSource?_document small]

end

end Rivulet
