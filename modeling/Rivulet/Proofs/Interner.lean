import Rivulet.Interner
import Rivulet.Proofs.Tree.Renaming
import Mathlib.Logic.Encodable.Basic
import Mathlib.Logic.Equiv.List

/-!
What a table does with texts. Each text has one number, and keeps it whatever joins the table later (`Extends.name_eq`);
texts and numbers stand for each other (`text_name`, `name_text`). So a tree whose texts are in the table can hold
their numbers instead: this is one way of giving it other names (`spelling`).
-/

namespace Rivulet.Interner

/-- Whether a text is in the table. -/
def Knows (table : Interner) (text : String) : Prop :=
  text ∈ table.texts.toList

/-- A table that others texts may have joined. -/
def Extends (table table' : Interner) : Prop :=
  table.texts.toList <+: table'.texts.toList

variable {table table' table'' : Interner} {text : String} {texts : List String}

theorem Extends.refl (table : Interner) : table.Extends table :=
  List.prefix_rfl

theorem Extends.trans (first : table.Extends table') (second : table'.Extends table'') : table.Extends table'' :=
  List.IsPrefix.trans first second

theorem Extends.knows (grows : table.Extends table') (knows : table.Knows text) : table'.Knows text :=
  grows.subset knows

/-! ### Numbers and texts -/

theorem find?_of_knows (knows : table.Knows text) : table.find? text = some ⟨table.texts.toList.idxOf text⟩ := by
  have there : table.texts.idxOf? text = table.texts.toList.idxOf? text := List.idxOf?_toArray text table.texts.toList
  unfold find?
  rw [there, List.idxOf_eq_getD_idxOf?]
  cases found : table.texts.toList.idxOf? text with
  | none => exact absurd knows (List.idxOf?_eq_none_iff.mp found)
  | some index => rfl

theorem name_of_knows (knows : table.Knows text) : table.name text = ⟨table.texts.toList.idxOf text⟩ := by
  unfold name
  rw [find?_of_knows knows]
  rfl

/-- The number of a text stands for the text. -/
theorem text_name (knows : table.Knows text) : table.text (table.name text) = text := by
  have bound := List.idxOf_lt_length_iff.mpr knows
  rw [name_of_knows knows, Interner.text, ← Array.getElem?_toList, List.getElem?_eq_getElem bound, List.getElem_idxOf]
  rfl

theorem text_of_lt {name : Name} (bound : name.number < table.texts.toList.length) :
    table.text name = table.texts.toList[name.number] := by
  rw [Interner.text, ← Array.getElem?_toList, List.getElem?_eq_getElem bound]
  rfl

/-- The text of a number has that number. -/
theorem name_text {name : Name} (bound : name.number < table.size) : table.name (table.text name) = name := by
  have bound : name.number < table.texts.toList.length := bound
  have among : table.Knows (table.text name) := text_of_lt bound ▸ List.getElem_mem bound
  rw [name_of_knows among, text_of_lt bound, table.distinct.idxOf_getElem]

theorem toList_eq (table : Interner) : ∃ texts, table.texts.toList = "" :: texts := by
  have first := table.first
  rw [← Array.getElem?_toList] at first
  cases is : table.texts.toList with
  | nil => simp [is] at first
  | cons text texts =>
    obtain rfl : text = "" := by simpa [is] using first
    exact ⟨texts, rfl⟩

theorem knows_empty (table : Interner) : table.Knows "" := by
  obtain ⟨texts, is⟩ := table.toList_eq
  simp [Knows, is]

theorem name_empty (table : Interner) : table.name "" = ⟨0⟩ := by
  obtain ⟨texts, is⟩ := table.toList_eq
  rw [name_of_knows table.knows_empty, is, List.idxOf_cons_self]

/-- A text keeps its number. -/
theorem Extends.name_eq (grows : table.Extends table') (knows : table.Knows text) :
    table'.name text = table.name text := by
  obtain ⟨later, is⟩ := grows
  have knows' : text ∈ table.texts.toList := knows
  rw [name_of_knows knows, name_of_knows (Extends.knows ⟨later, is⟩ knows), ← is, List.idxOf_append_of_mem knows']

/-! ### Joining the table -/

/-- A text that joins the table is there afterwards, under the number that is given. -/
theorem intern_spec (table : Interner) (text : String) :
    table.Extends (table.intern text).2 ∧ (table.intern text).2.Knows text ∧
      (table.intern text).1 = (table.intern text).2.name text := by
  unfold intern
  split
  · rename_i name found
    have knows : table.Knows text := by
      by_contra unknown
      rw [find?_eq_none_iff.mpr unknown] at found
      cases found
    exact ⟨.refl table, knows, by simp [Interner.name, found]⟩
  · rename_i found
    have unknown := find?_eq_none_iff.mp found
    have knows : (table.push text unknown).Knows text := by simp [Knows, push]
    refine ⟨by simp [Extends, push], knows, ?_⟩
    rw [name_of_knows knows]
    simp [push, List.idxOf_append_of_notMem unknown]

theorem extends_internAll (table : Interner) (texts : List String) : table.Extends (table.internAll texts) := by
  induction texts generalizing table with
  | nil => exact .refl table
  | cons text texts hypothesis => exact (table.intern_spec text).1.trans (hypothesis _)

theorem knows_internAll (table : Interner) {texts : List String} (among : text ∈ texts) :
    (table.internAll texts).Knows text := by
  induction texts generalizing table with
  | nil => cases among
  | cons first texts hypothesis =>
    rcases List.mem_cons.mp among with rfl | later
    · exact (extends_internAll _ texts).knows (table.intern_spec text).2.1
    · exact hypothesis _ later

theorem internAll_append (table : Interner) (texts texts' : List String) :
    table.internAll (texts ++ texts') = (table.internAll texts).internAll texts' :=
  List.foldl_append

/-! ### Numbers as names -/

/-- A number of its own for every text: texts that are not in the table have numbers behind it. -/
def number (table : Interner) (text : String) : Name :=
  match table.find? text with
  | some name => name
  | none => ⟨table.size + Encodable.encode (text.toList.map Char.toNat)⟩

theorem number_of_knows (knows : table.Knows text) : table.number text = table.name text := by
  unfold number name
  rw [find?_of_knows knows]
  rfl

theorem number_injective (table : Interner) : Function.Injective table.number := by
  have inside {text : String} (knows : table.Knows text) : (table.number text).number < table.size := by
    rw [number_of_knows knows, name_of_knows knows]
    exact List.idxOf_lt_length_iff.mpr knows
  have outside {text : String} (unknown : ¬ table.Knows text) :
      table.number text = ⟨table.size + Encodable.encode (text.toList.map Char.toNat)⟩ := by
    unfold number
    rw [find?_eq_none_iff.mpr unknown]
  intro text text' same
  by_cases knows : table.Knows text <;> by_cases knows' : table.Knows text'
  · rw [number_of_knows knows, number_of_knows knows'] at same
    rw [← text_name knows, same, text_name knows']
  · have bound := inside knows
    rw [same, outside knows'] at bound
    exact absurd bound (Nat.not_lt.mpr (Nat.le_add_right _ _))
  · have bound := inside knows'
    rw [← same, outside knows] at bound
    exact absurd bound (Nat.not_lt.mpr (Nat.le_add_right _ _))
  · rw [outside knows, outside knows'] at same
    have codes := Encodable.encode_injective (Nat.add_left_cancel (Name.mk.inj same))
    exact String.toList_injective (List.map_injective_iff.mpr (fun _ _ => Char.toNat_inj.mp) codes)

/-- Numbers in place of texts, once the texts are in the table that evaluation has to know. -/
def spelling (table : Interner) (knows : ∀ text ∈ Natives.texts, table.Knows text) : @Renaming Name table.naming :=
  let _ := table.naming
  { name := table.number
    injective := table.number_injective
    anonymous := (number_of_knows table.knows_empty).trans table.name_empty
    standard := fun text among => number_of_knows (knows text among) }

end Rivulet.Interner
