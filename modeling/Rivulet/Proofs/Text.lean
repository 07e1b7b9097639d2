import Mathlib.Data.List.TakeWhile
import Rivulet.Text.Blank
import Rivulet.Text.Letter

/-!
Texts that are cut. A part in which nothing separates is cut off whole (`cutAt_append`, `splitAtEvery_append`), and
letters are neither blanks nor any of the marks before the capital A.
-/

namespace Rivulet

namespace Text

/-! ### Letters -/

variable {c : Char} {separator : Char → Bool} {part rest : List Char}

/-- The first letter is the capital A. -/
theorem toNat_of_isLetter (letter : isLetter c = true) : 0x41 ≤ c.toNat := by
  have ranges : letterRanges = (0x41, 0x5A) :: letterRanges.tail := rfl
  rw [isLetter, ranges, inRanges, Bool.and_eq_true, decide_eq_true_eq] at letter
  exact letter.1

/-- The scalar values of the blanks beyond the space. -/
def upperBlanks : List Nat :=
  [0x85, 0xA0, 0x1680, 0x2028, 0x2029, 0x202F, 0x205F, 0x3000] ++ List.range' 0x2000 11

/-- Ranges that start beyond the space and avoid the other blanks hold no blank. -/
theorem isBlank_of_inRanges {first last : Nat} {ranges : List (Nat × Nat)} (beyond : 0x20 < first)
    (apart : ∀ value ∈ upperBlanks, inRanges value ((first, last) :: ranges) = false)
    (within : inRanges c.toNat ((first, last) :: ranges) = true) : isBlank c = false := by
  have above : first ≤ c.toNat := by
    rw [inRanges, Bool.and_eq_true, decide_eq_true_eq] at within
    exact within.1
  refine Bool.eq_false_iff.mpr fun blank => ?_
  simp only [isBlank, Bool.or_eq_true, Bool.and_eq_true, decide_eq_true_eq, beq_iff_eq] at blank
  refine absurd within (Bool.eq_false_iff.mp (apart c.toNat ?_))
  simp only [upperBlanks, List.cons_append, List.nil_append, List.mem_cons, List.mem_range'_1]
  omega

theorem isBlank_of_isLetter (letter : isLetter c = true) : isBlank c = false :=
  isBlank_of_inRanges (by decide) (by decide +kernel) letter

theorem isBlank_of_isNumeral (numeral : isNumeral c = true) : isBlank c = false :=
  isBlank_of_inRanges (by decide) (by decide +kernel) numeral

/-- A character that has a property is none of the marks that lack it. -/
theorem beq_eq_false_of_holds {condition : Char → Bool} {mark : Char} (holds : condition c = true)
    (lacks : condition mark = false) : (c == mark) = false := by
  refine beq_eq_false_iff_ne.mpr ?_
  rintro rfl
  exact absurd holds (by simp [lacks])

/-! ### Parts -/

theorem cutAt_plain (plain : ∀ c ∈ part, separator c = false) : cutAt separator part = (part, none) := by
  induction part with
  | nil => rfl
  | cons c part hypothesis =>
    obtain ⟨here, others⟩ := List.forall_mem_cons.mp plain
    simp [cutAt, here, hypothesis others]

theorem cutAt_append (plain : ∀ c ∈ part, separator c = false) (separates : separator c = true) (rest : List Char) :
    cutAt separator (part ++ c :: rest) = (part, some rest) := by
  induction part with
  | nil => simp [cutAt, separates]
  | cons c part hypothesis =>
    obtain ⟨here, others⟩ := List.forall_mem_cons.mp plain
    simp [cutAt, here, hypothesis others]

theorem plain_of_cutAt (separator : Char → Bool) (text : List Char) :
    ∀ c ∈ (cutAt separator text).1, separator c = false := by
  induction text with
  | nil => simp [cutAt]
  | cons c text hypothesis =>
    by_cases here : separator c = true
    · simp [cutAt, here]
    · simpa [cutAt, here] using hypothesis

theorem eq_of_cutAt_none {text : List Char} (cut : cutAt separator text = (part, none)) : text = part := by
  induction text generalizing part with
  | nil => exact congrArg Prod.fst cut
  | cons c text hypothesis =>
    rw [cutAt] at cut
    split at cut
    · simp at cut
    · obtain ⟨rfl, none⟩ := Prod.mk.inj cut
      exact congrArg (c :: ·) (hypothesis (Prod.ext rfl none))

theorem exists_of_cutAt_some {text : List Char} (cut : cutAt separator text = (part, some rest)) :
    ∃ c, separator c = true ∧ text = part ++ c :: rest := by
  induction text generalizing part with
  | nil => simp [cutAt] at cut
  | cons c text hypothesis =>
    rw [cutAt] at cut
    split at cut
    · obtain ⟨rfl, same⟩ := Prod.mk.inj cut
      cases same
      exact ⟨c, ‹_›, rfl⟩
    · obtain ⟨rfl, some⟩ := Prod.mk.inj cut
      obtain ⟨mark, separates, is⟩ := hypothesis (Prod.ext rfl some)
      exact ⟨mark, separates, congrArg (c :: ·) is⟩

theorem trim_solid (solid : ∀ c ∈ part, isBlank c = false) : trim part = part := by
  have drop (text : List Char) (solid : ∀ c ∈ text, isBlank c = false) : text.dropWhile isBlank = text := by
    cases text with
    | nil => rfl
    | cons c text => simp [solid c List.mem_cons_self]
  unfold trim dropWhileEnd
  rw [drop part solid, drop part.reverse (by simpa using solid), List.reverse_reverse]

/-- Only what satisfies the condition is dropped, and all of it. -/
theorem exists_dropWhileEnd (condition : Char → Bool) (text : List Char) :
    (∃ dropped, text = dropWhileEnd condition text ++ dropped ∧ ∀ c ∈ dropped, condition c = true) ∧
      ∀ c ∈ (dropWhileEnd condition text).getLast?, condition c = false := by
  refine ⟨⟨(text.reverse.takeWhile condition).reverse, ?_, fun c among => ?_⟩, fun c last => ?_⟩
  · rw [dropWhileEnd, ← List.reverse_append, List.takeWhile_append_dropWhile, List.reverse_reverse]
  · exact List.mem_takeWhile_imp (List.mem_reverse.mp among)
  · have first := List.head?_dropWhile_not condition text.reverse
    rw [dropWhileEnd, List.getLast?_reverse] at last
    rw [Option.mem_def.mp last] at first
    exact first

/-- The blanks at the front of a text are taken off, and some blanks behind it. -/
theorem exists_behind_trim (text : List Char) :
    ∃ after, text = text.takeWhile isBlank ++ (trim text ++ after) ∧ ∀ c ∈ after, isBlank c = true := by
  obtain ⟨⟨after, is, blank⟩, -⟩ := exists_dropWhileEnd isBlank (text.dropWhile isBlank)
  refine ⟨after, ?_, blank⟩
  rw [trim, ← is, List.takeWhile_append_dropWhile]

/-- Only blanks are taken off a text. -/
theorem exists_trim (text : List Char) : ∃ before after, text = before ++ (trim text ++ after) ∧
    (∀ c ∈ before, isBlank c = true) ∧ ∀ c ∈ after, isBlank c = true := by
  obtain ⟨after, is, blank⟩ := exists_behind_trim text
  exact ⟨text.takeWhile isBlank, after, is, fun c among => List.mem_takeWhile_imp among, blank⟩

/-- No blank is left at the front of a text. -/
theorem isBlank_of_head?_trim {text : List Char} : ∀ c ∈ (trim text).head?, isBlank c = false := by
  obtain ⟨⟨after, is, -⟩, -⟩ := exists_dropWhileEnd isBlank (text.dropWhile isBlank)
  intro c first
  obtain ⟨rest, starts⟩ := List.head?_eq_some_iff.mp first
  have solid := List.head?_dropWhile_not isBlank text
  rw [trim] at starts
  rw [is, starts] at solid
  simpa using solid

/-- All blanks around a text are taken off. -/
theorem trim_between {before after : List Char} (leading : ∀ c ∈ before, isBlank c = true)
    (trailing : ∀ c ∈ after, isBlank c = true) (solid : ∀ c ∈ part, isBlank c = false) :
    trim (before ++ (part ++ after)) = part := by
  have trimmed := trim_solid solid
  rw [trim, List.dropWhile_append_of_pos leading]
  cases part with
  | nil => simp [List.dropWhile_eq_nil_iff.mpr trailing, dropWhileEnd]
  | cons c part =>
    have first : isBlank c = false := solid c List.mem_cons_self
    rw [trim, List.dropWhile_cons_of_neg (by simp [first])] at trimmed
    rw [List.cons_append, List.dropWhile_cons_of_neg (by simp [first]), ← List.cons_append, dropWhileEnd,
      List.reverse_append, List.dropWhile_append_of_pos (by simpa using trailing)]
    exact trimmed

theorem splitAtEvery_plain (plain : ∀ c ∈ part, separator c = false) : splitAtEvery separator part = [part] := by
  induction part with
  | nil => rfl
  | cons c part hypothesis =>
    obtain ⟨here, others⟩ := List.forall_mem_cons.mp plain
    simp [splitAtEvery, here, hypothesis others]

/-- No separator is left in a part. -/
theorem plain_of_mem_splitAtEvery {text : List Char} (among : part ∈ splitAtEvery separator text) :
    ∀ c ∈ part, separator c = false := by
  induction text generalizing part with
  | nil => simp_all [splitAtEvery]
  | cons c text hypothesis =>
    unfold splitAtEvery at among
    split at among
    · rcases List.mem_cons.mp among with rfl | later
      · simp
      · exact hypothesis later
    · rename_i plain
      split at among
      · simp_all
      · rename_i first parts split
        rw [split] at hypothesis
        rcases List.mem_cons.mp among with rfl | later
        · exact List.forall_mem_cons.mpr ⟨by simpa using plain, hypothesis List.mem_cons_self⟩
        · exact hypothesis (List.mem_cons_of_mem _ later)

theorem splitAtEvery_append (plain : ∀ c ∈ part, separator c = false) (separates : separator c = true)
    (rest : List Char) : splitAtEvery separator (part ++ c :: rest) = part :: splitAtEvery separator rest := by
  induction part with
  | nil => simp [splitAtEvery, separates]
  | cons c part hypothesis =>
    obtain ⟨here, others⟩ := List.forall_mem_cons.mp plain
    simp [splitAtEvery, here, hypothesis others]

/-- Parts that are written with separators between them are split again. -/
theorem splitAtEvery_intercalate {mark : Char} (separates : separator mark = true) {parts : List (List Char)}
    (some : parts ≠ []) (plain : ∀ part ∈ parts, ∀ c ∈ part, separator c = false) :
    splitAtEvery separator ([mark].intercalate parts) = parts := by
  induction parts with
  | nil => exact absurd rfl some
  | cons part parts hypothesis =>
    obtain ⟨here, others⟩ := List.forall_mem_cons.mp plain
    cases parts with
    | nil => rw [List.intercalate_singleton, splitAtEvery_plain here]
    | cons next parts =>
      rw [List.intercalate_cons_cons, List.append_assoc, List.singleton_append,
        splitAtEvery_append here separates, hypothesis (List.cons_ne_nil _ _) others]

end Text

end Rivulet
