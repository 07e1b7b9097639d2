import Rivulet.Json
import Rivulet.Proofs.Text.Numerals

/-!
Reading JSON that was written. A text reads as a value when the reader takes the whole text, and nothing of what follows
it, down to every depth that its characters allow for (`Json.Reads`). Quoted texts and counts read as what they were
(`reads_quote`, `reads_natural`), and objects and arrays as what their members and items do, with any space between the
parts.
-/

namespace Rivulet

namespace Json

/-! ### Texts -/

theorem hexValue?_hexDigit {digit : Nat} (small : digit < 16) : hexValue? (hexDigit digit) = some digit := by
  have all : ∀ digit : Fin 16, hexValue? (hexDigit digit) = some digit.val := by decide
  exact all ⟨digit, small⟩

section

variable {depth unit : Nat} {c : Char} {rest rest' : List Char}

theorem readUnits_letter (letter : escaped? c = some (Char.ofNat unit)) (exact : (Char.ofNat unit).toNat = unit) :
    readUnits (depth + 1) ('\\' :: c :: rest) =
      (readUnits depth rest).bind fun read => some (unit :: read.1, read.2) := by
  have notCode : c ≠ 'u' := by
    rintro rfl
    simp [escaped?] at letter
  rw [readUnits.eq_def]
  split <;> simp_all
  case h_6 noEscape _ same => exact absurd same.2.symm (noEscape _ _ same.1.symm)

theorem readUnits_code (code : readHex rest = some (unit, rest')) :
    readUnits (depth + 1) ('\\' :: 'u' :: rest) =
      (readUnits depth rest').bind fun read => some (unit :: read.1, read.2) := by
  rw [readUnits.eq_def]
  simp only [code, Option.bind_eq_bind, Option.bind_some]

theorem readUnits_plain (notQuote : c ≠ '"') (notBackslash : c ≠ '\\') (printed : 0x20 ≤ c.toNat) :
    readUnits (depth + 1) (c :: rest) = (readUnits depth rest).bind fun read => some (c.toNat :: read.1, read.2) := by
  rw [readUnits.eq_def]
  split <;> simp_all

end

theorem escape_ne_nil (c : Char) : escape c ≠ [] := by
  unfold escape
  split <;> simp
  split <;> simp

/-- Every character is read as it was escaped. -/
theorem readUnits_escape (depth : Nat) (c : Char) (rest : List Char) :
    readUnits (depth + 1) (escape c ++ rest) =
      (readUnits depth rest).bind fun read => some (c.toNat :: read.1, read.2) := by
  unfold escape
  split
  case h_8 notQuote notBackslash _ _ _ _ _ =>
    split
    · have high := hexValue?_hexDigit (show c.toNat / 16 < 16 by omega)
      have low := hexValue?_hexDigit (show c.toNat % 16 < 16 by omega)
      have zero : hexValue? '0' = some 0 := by decide
      have whole : c.toNat / 16 * 16 + c.toNat % 16 = c.toNat := by omega
      refine readUnits_code ?_
      show readHex ('0' :: '0' :: hexDigit (c.toNat / 16) :: hexDigit (c.toNat % 16) :: rest) = _
      simp only [readHex, high, low, zero, Option.bind_eq_bind, Option.bind_some,
        Nat.zero_mul, Nat.zero_add, whole]
    · exact readUnits_plain notQuote notBackslash (by omega)
  all_goals exact readUnits_letter rfl rfl

theorem readUnits_quoted {depth : Nat} (text rest : List Char) (deep : text.length < depth) :
    readUnits depth (text.flatMap escape ++ '"' :: rest) = some (text.map Char.toNat, rest) := by
  induction text generalizing depth with
  | nil =>
    obtain ⟨depth, rfl⟩ := Nat.exists_eq_add_of_lt deep
    rfl
  | cons c text hypothesis =>
    obtain ⟨depth, rfl⟩ := Nat.exists_eq_add_of_lt (Nat.zero_lt_of_lt deep)
    rw [List.flatMap_cons, List.append_assoc, Nat.zero_add, readUnits_escape, hypothesis (by simp at deep; omega)]
    rfl

/-- No character is half of a surrogate pair. -/
theorem not_surrogate (c : Char) : isHighSurrogate c.toNat = false ∧ isLowSurrogate c.toNat = false := by
  have valid : c.toNat < 0xD800 ∨ 0xDFFF < c.toNat ∧ c.toNat < 0x110000 := c.valid
  unfold isHighSurrogate isLowSurrogate
  constructor <;> simp <;> omega

theorem textOfUnits?_toNat (text : List Char) : textOfUnits? (text.map Char.toNat) = some text := by
  induction text with
  | nil => rfl
  | cons c text hypothesis =>
    obtain ⟨notHigh, notLow⟩ := not_surrogate c
    cases text with
    | nil => simp [textOfUnits?, notHigh, notLow, Char.ofNat_toNat]
    | cons next text =>
      rw [List.map_cons, List.map_cons] at *
      simp [textOfUnits?, notHigh, notLow, hypothesis, Char.ofNat_toNat]

theorem readString_quoted (text : String) (rest : List Char) :
    readString (text.toList.flatMap escape ++ '"' :: rest) = some (some text, rest) := by
  have longer : text.toList.length ≤ (text.toList.flatMap escape).length := by
    induction text.toList with
    | nil => exact Nat.le_refl _
    | cons c rest hypothesis =>
      have some : 0 < (escape c).length := List.length_pos_iff.mpr (escape_ne_nil c)
      rw [List.flatMap_cons, List.length_append, List.length_cons]
      omega
  have deep : text.toList.length < (text.toList.flatMap escape ++ '"' :: rest).length + 1 := by
    rw [List.length_append]
    omega
  have units := readUnits_quoted text.toList rest deep
  simp only [readString, units, textOfUnits?_toNat, Option.bind_eq_bind, Option.bind_some, Option.map_some,
    String.ofList_toList]

/-! ### Counts -/

/-- What follows a value does not go on with it. -/
def Breaks (rest : List Char) : Prop :=
  ∀ c ∈ rest.head?, Text.isDigit c = false ∧ c ≠ '.' ∧ c ≠ 'e' ∧ c ≠ 'E'

theorem breaks_cons {c : Char} (rest : List Char)
    (apart : (!Text.isDigit c && c != '.' && c != 'e' && c != 'E') = true) : Breaks (c :: rest) := by
  intro c' is
  cases is
  simpa [and_assoc] using apart

section

variable {digits rest : List Char}

theorem takeWhile_digits (all : ∀ c ∈ digits, Text.isDigit c = true) (breaks : Breaks rest) :
    (digits ++ rest).takeWhile Text.isDigit = digits := by
  rw [List.takeWhile_append_of_pos all]
  cases rest with
  | nil => simp
  | cons c rest => simp [(breaks c rfl).1]

theorem readDigits_append (all : ∀ c ∈ digits, Text.isDigit c = true) (some : digits ≠ []) (breaks : Breaks rest) :
    readDigits (digits ++ rest) = .some (digits, rest) := by
  simp [readDigits, takeWhile_digits all breaks, some]

theorem readFraction_of_breaks (breaks : Breaks rest) : readFraction rest = some ([], rest) := by
  unfold readFraction
  split
  · exact absurd rfl (breaks '.' rfl).2.1
  · rfl

theorem readExponent_of_breaks (breaks : Breaks rest) : readExponent rest = some ([], rest) := by
  unfold readExponent
  split
  · rename_i c rest
    obtain ⟨-, -, small, large⟩ := breaks c rfl
    simp [small, large]
  · rfl

/-- The digits of a count are read as a number. -/
theorem readNumber_toDigits (value : Nat) (breaks : Breaks rest) :
    readNumber (Nat.toDigits 10 value ++ rest) = some (Nat.toDigits 10 value, rest) := by
  have all (c : Char) (among : c ∈ Nat.toDigits 10 value) : Text.isDigit c = true :=
    Text.isDigit_of_mem_toDigits among
  have whole : readWhole (Nat.toDigits 10 value ++ rest) = some (Nat.toDigits 10 value, rest) := by
    by_cases positive : 0 < value
    · rw [readWhole.eq_def]
      split
      · rename_i more same
        cases digits : Nat.toDigits 10 value with
        | nil => exact absurd digits Nat.toDigits_ne_nil
        | cons c digits' =>
          rw [digits] at same
          cases same
          exact absurd (by rw [digits]; rfl) (Text.head?_toDigits_ne positive)
      · exact readDigits_append all Nat.toDigits_ne_nil breaks
    · obtain rfl : value = 0 := by omega
      rw [Nat.toDigits_zero]
      cases rest with
      | nil => rfl
      | cons c rest => simp [readWhole, (breaks c rfl).1]
  have unsigned : readUnsigned (Nat.toDigits 10 value ++ rest) = some (Nat.toDigits 10 value, rest) := by
    simp [readUnsigned, whole, readFraction_of_breaks breaks, readExponent_of_breaks breaks]
  rw [readNumber.eq_def]
  split
  · rename_i more same
    cases digits : Nat.toDigits 10 value with
    | nil => exact absurd digits Nat.toDigits_ne_nil
    | cons c digits' =>
      rw [digits] at same
      cases same
      have minus : Text.isDigit '-' = true := all '-' (by simp [digits])
      exact absurd minus (by decide)
  · exact unsigned

end

/-! ### Values -/

/-- A text reads as a value, down to every depth that its characters allow for. -/
def Reads (text : List Char) (value : Json) : Prop :=
  ∀ depth rest, text.length ≤ depth → Breaks rest → readValue depth (text ++ rest) = some (value, rest)

/-- A text with its closing brace reads as some members. -/
def ReadsMembers (text : List Char) (members : List (Option String × Json)) : Prop :=
  ∀ depth rest, text.length ≤ depth → readMembers depth (text ++ rest) = some (members, rest)

/-- A text with its closing bracket reads as some items. -/
def ReadsItems (text : List Char) (items : List Json) : Prop :=
  ∀ depth rest, text.length ≤ depth → readItems depth (text ++ rest) = some (items, rest)

/-- A text of nothing but space. -/
def IsBlank (text : List Char) : Prop :=
  ∀ c ∈ text, isSpace c = true

section

variable {space space' text text' rest : List Char} {value : Json} {items : List Json}
  {members : List (Option String × Json)}

theorem isBlank_of_all (space : List Char) (blank : space.all isSpace = true) : IsBlank space :=
  List.all_eq_true.mp blank

theorem skipSpace_append (blank : IsBlank space) (rest : List Char) : skipSpace (space ++ rest) = skipSpace rest :=
  List.dropWhile_append_of_pos blank

theorem skipSpace_cons {c : Char} (solid : isSpace c = false) (rest : List Char) :
    skipSpace (c :: rest) = c :: rest := by
  simp [skipSpace, solid]

theorem skipSpace_skipSpace (text : List Char) : skipSpace (skipSpace text) = skipSpace text := by
  induction text with
  | nil => rfl
  | cons c text hypothesis => by_cases solid : isSpace c = true <;> simp_all [skipSpace]

theorem skipSpace_append_of_cons {c : Char} (opens : skipSpace text = c :: text') (rest : List Char) :
    skipSpace (text ++ rest) = c :: (text' ++ rest) := by
  unfold skipSpace at opens ⊢
  rw [List.dropWhile_append, opens]
  rfl

theorem readValue_skipSpace (depth : Nat) (text : List Char) :
    readValue depth (skipSpace text) = readValue depth text := by
  cases depth with
  | zero => rfl
  | succ depth =>
    rw [readValue.eq_def, readValue.eq_def _ text]
    simp only [skipSpace_skipSpace]

theorem readMembers_skipSpace (depth : Nat) (text : List Char) :
    readMembers depth (skipSpace text) = readMembers depth text := by
  cases depth with
  | zero => rfl
  | succ depth =>
    rw [readMembers.eq_def, readMembers.eq_def _ text]
    simp only [skipSpace_skipSpace]

theorem readItems_skipSpace (depth : Nat) (text : List Char) :
    readItems depth (skipSpace text) = readItems depth text := by
  cases depth with
  | zero => rfl
  | succ depth =>
    rw [readItems.eq_def, readItems.eq_def _ text]
    simp only [readValue_skipSpace]

theorem breaks_blank (blank : IsBlank space) (breaks : Breaks rest) : Breaks (space ++ rest) := by
  cases space with
  | nil => exact breaks
  | cons c space =>
    intro c' is
    cases is
    have here := blank c List.mem_cons_self
    simp only [isSpace, Bool.or_eq_true, beq_iff_eq] at here
    rcases here with ((rfl | rfl) | rfl) | rfl <;> decide

/-- Space in front of a value changes nothing. -/
theorem Reads.after (reads : Reads text value) (blank : IsBlank space) : Reads (space ++ text) value := by
  intro depth rest deep breaks
  rw [List.length_append] at deep
  rw [← readValue_skipSpace, List.append_assoc, skipSpace_append blank, readValue_skipSpace]
  exact reads depth rest (by omega) breaks

theorem quote_eq (text : String) : (quote text).toList = '"' :: (text.toList.flatMap escape ++ ['"']) := by
  simp [quote]

theorem reads_quote (text : String) : Reads (quote text).toList (.string (some text)) := by
  intro depth rest deep breaks
  rw [quote_eq] at deep ⊢
  obtain ⟨depth, rfl⟩ := Nat.exists_eq_add_of_le' (Nat.le_trans (Nat.le_add_left 1 _) deep)
  have solid : skipSpace ('"' :: (text.toList.flatMap escape ++ '"' :: rest)) = _ := skipSpace_cons rfl _
  simp [readValue, solid, readString_quoted]

theorem isSpace_of_isDigit {c : Char} (digit : Text.isDigit c = true) : isSpace c = false := by
  by_contra space
  simp only [isSpace, Bool.not_eq_false, Bool.or_eq_true, beq_iff_eq] at space
  rcases space with ((rfl | rfl) | rfl) | rfl <;> exact absurd digit (by decide)

theorem reads_natural (count : Nat) : Reads (toString count).toList (.number (Nat.toDigits 10 count)) := by
  intro depth rest deep breaks
  rw [Nat.toString_eq_ofList_toDigits, String.toList_ofList] at deep ⊢
  have read := readNumber_toDigits count breaks
  obtain ⟨c, digits, first⟩ := List.exists_cons_of_ne_nil (Nat.toDigits_ne_nil (n := count) (b := 10))
  have digit : Text.isDigit c = true := Text.isDigit_of_mem_toDigits (by rw [first]; exact List.mem_cons_self)
  rw [first] at deep read ⊢
  obtain ⟨depth, rfl⟩ := Nat.exists_eq_add_of_le' (Nat.le_trans (Nat.le_add_left 1 _) deep)
  rw [readValue.eq_def]
  simp only [List.cons_append, skipSpace_cons (isSpace_of_isDigit digit)] at read ⊢
  split
  case h_7 => simp [read]
  all_goals
    rename_i same
    cases same
    exact absurd digit (by decide)

/-- The last member of an object. -/
theorem readsMembers_last (key : String) (blank : IsBlank space) (blank' : IsBlank space') (reads : Reads text value) :
    ReadsMembers (space ++ (quote key).toList ++ ':' :: text ++ space' ++ ['}']) [(some key, value)] := by
  intro depth rest deep
  simp only [List.length_append, List.length_cons] at deep
  obtain ⟨depth, rfl⟩ := Nat.exists_eq_add_of_le' (show 1 ≤ depth by omega)
  have found := reads depth (space' ++ '}' :: rest) (by omega) (breaks_blank blank' (breaks_cons rest rfl))
  rw [readMembers.eq_def]
  simp only [List.append_assoc, skipSpace_append blank, quote_eq, List.cons_append, List.nil_append,
    skipSpace_cons (show isSpace '"' = false from rfl), readString_quoted, Option.bind_eq_bind, Option.bind_some,
    skipSpace_cons (show isSpace ':' = false from rfl), found, skipSpace_append blank',
    skipSpace_cons (show isSpace '}' = false from rfl)]

/-- A member of an object in front of others. -/
theorem readsMembers_cons (key : String) (blank : IsBlank space) (blank' : IsBlank space') (reads : Reads text value)
    (others : ReadsMembers text' members) :
    ReadsMembers (space ++ (quote key).toList ++ ':' :: text ++ space' ++ ',' :: text')
      ((some key, value) :: members) := by
  intro depth rest deep
  simp only [List.length_append, List.length_cons] at deep
  obtain ⟨depth, rfl⟩ := Nat.exists_eq_add_of_le' (show 1 ≤ depth by omega)
  have found := reads depth (space' ++ ',' :: (text' ++ rest)) (by omega) (breaks_blank blank' (breaks_cons _ rfl))
  have remaining := others depth rest (by omega)
  rw [readMembers.eq_def]
  simp only [List.append_assoc, skipSpace_append blank, quote_eq, List.cons_append, List.nil_append,
    skipSpace_cons (show isSpace '"' = false from rfl), readString_quoted, Option.bind_eq_bind, Option.bind_some,
    skipSpace_cons (show isSpace ':' = false from rfl), found, skipSpace_append blank',
    skipSpace_cons (show isSpace ',' = false from rfl), remaining]

/-- The last item of an array. -/
theorem readsItems_last (blank : IsBlank space) (reads : Reads text value) :
    ReadsItems (text ++ space ++ [']']) [value] := by
  intro depth rest deep
  simp only [List.length_append, List.length_cons] at deep
  obtain ⟨depth, rfl⟩ := Nat.exists_eq_add_of_le' (show 1 ≤ depth by omega)
  have found := reads depth (space ++ ']' :: rest) (by omega) (breaks_blank blank (breaks_cons _ rfl))
  rw [readItems.eq_def]
  simp only [List.append_assoc, List.cons_append, List.nil_append, found, Option.bind_eq_bind, Option.bind_some,
    skipSpace_append blank, skipSpace_cons (show isSpace ']' = false from rfl)]

/-- An item of an array in front of others. -/
theorem readsItems_cons (blank : IsBlank space) (reads : Reads text value) (others : ReadsItems text' items) :
    ReadsItems (text ++ space ++ ',' :: text') (value :: items) := by
  intro depth rest deep
  simp only [List.length_append, List.length_cons] at deep
  obtain ⟨depth, rfl⟩ := Nat.exists_eq_add_of_le' (show 1 ≤ depth by omega)
  have found := reads depth (space ++ ',' :: (text' ++ rest)) (by omega) (breaks_blank blank (breaks_cons _ rfl))
  have remaining := others depth rest (by omega)
  rw [readItems.eq_def]
  simp only [List.append_assoc, List.cons_append, found, Option.bind_eq_bind, Option.bind_some, skipSpace_append blank,
    skipSpace_cons (show isSpace ',' = false from rfl), remaining]

/-- An object with members. -/
theorem reads_object (reads : ReadsMembers text members) (opens : skipSpace text = '"' :: text') :
    Reads ('{' :: text) (.object members) := by
  intro depth rest deep _
  obtain ⟨depth, rfl⟩ := Nat.exists_eq_add_of_le' (Nat.le_trans (Nat.le_add_left 1 _) deep)
  have found := reads depth rest (Nat.le_of_succ_le_succ deep)
  rw [← readMembers_skipSpace, skipSpace_append_of_cons opens] at found
  rw [readValue.eq_def]
  simp only [List.cons_append, skipSpace_cons (show isSpace '{' = false from rfl), skipSpace_append_of_cons opens]
  show (readMembers depth ('"' :: (text' ++ rest))).bind _ = _
  rw [found]
  rfl

/-- An array with items, the first of which is an object. -/
theorem reads_array (reads : ReadsItems text items) (opens : skipSpace text = '{' :: text') :
    Reads ('[' :: text) (.array items) := by
  intro depth rest deep _
  obtain ⟨depth, rfl⟩ := Nat.exists_eq_add_of_le' (Nat.le_trans (Nat.le_add_left 1 _) deep)
  have found := reads depth rest (Nat.le_of_succ_le_succ deep)
  rw [← readItems_skipSpace, skipSpace_append_of_cons opens] at found
  rw [readValue.eq_def]
  simp only [List.cons_append, skipSpace_cons (show isSpace '[' = false from rfl), skipSpace_append_of_cons opens]
  show (readItems depth ('{' :: (text' ++ rest))).bind _ = _
  rw [found]
  rfl

/-- A text that reads as a value is a document of that value. -/
theorem parse?_of_reads {text : String} (reads : Reads text.toList value) : parse? text = some value := by
  have found := reads (2 * text.toList.length + 1) [] (by omega) nofun
  rw [List.append_nil] at found
  unfold parse?
  dsimp only
  rw [found]
  rfl

end

end Json

end Rivulet
