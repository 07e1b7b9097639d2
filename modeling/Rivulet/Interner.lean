import Rivulet.Naming

/-!
A table that gives each distinct text a number. Numbers are handed out in the order of first
appearance, and the empty text always has number zero. Trees that share a table can hold numbers in
place of texts.
-/

namespace Rivulet

/-- The number of a text in a table. -/
structure Name where
  number : Nat
deriving DecidableEq, Repr, Inhabited

/-- The texts seen so far, none of them twice and the empty one first; a text's number is its
position. -/
structure Interner where
  texts : Array String
  first : texts[0]? = some ""
  distinct : texts.toList.Nodup

namespace Interner

/-- A fresh table knows the empty text alone. -/
def empty : Interner :=
  ⟨#[""], rfl, by simp⟩

/-- The number of a text that was interned before. -/
def find? (table : Interner) (text : String) : Option Name :=
  (table.texts.idxOf? text).map Name.mk

theorem find?_eq_none_iff {table : Interner} {text : String} :
    table.find? text = none ↔ text ∉ table.texts.toList := by
  simp [find?]

/-- A table with a text that it does not know. -/
def push (table : Interner) (text : String) (unknown : text ∉ table.texts.toList) : Interner where
  texts := table.texts.push text
  first := by
    obtain ⟨there, is⟩ := Array.getElem?_eq_some_iff.mp table.first
    rw [Array.getElem?_push_lt there, is]
  distinct := by
    rw [Array.toList_push]
    exact List.nodup_append.mpr ⟨table.distinct, by simp,
      fun other among text' single => by
        obtain rfl := List.mem_singleton.mp single
        exact fun same => unknown (same ▸ among)⟩

/-- The number of a text, which joins the table unless it is there. -/
def intern (table : Interner) (text : String) : Name × Interner :=
  match found : table.find? text with
  | some name => (name, table)
  | none => (⟨table.texts.size⟩, table.push text (find?_eq_none_iff.mp found))

/-- The table after some texts have joined it in order. -/
def internAll (table : Interner) (texts : List String) : Interner :=
  texts.foldl (fun table text => (table.intern text).2) table

/-- The text of a number; an unknown number reads as the empty text. -/
def text (table : Interner) (name : Name) : String :=
  table.texts[name.number]?.getD ""

/-- The number of a text that is in the table. -/
def name (table : Interner) (text : String) : Name :=
  (table.find? text).getD ⟨0⟩

/-- Numbers as names. -/
@[reducible]
def naming (table : Interner) : Naming Name where
  anonymous := ⟨0⟩
  text := table.text
  ofText := table.name

/-- How many texts the table holds, the empty one included. -/
def size (table : Interner) : Nat :=
  table.texts.size

/-- A table is empty while it holds nothing but the empty text. -/
def isEmpty (table : Interner) : Bool :=
  table.size ≤ 1

end Interner

end Rivulet
