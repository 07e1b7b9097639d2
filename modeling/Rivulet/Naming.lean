/-!
Names. A program spells a name as a text, and a tree may have the texts themselves for names, or numbers that stand for
texts in a table. Evaluation compares names. Beyond that it has to know which one is empty, what literals say, and how
the bindings are called that a loop makes.
-/

namespace Rivulet

/-- What evaluation has to know of names. -/
class Naming (N : Type) where
  /-- The name of definitions that have none. -/
  anonymous : N
  /-- The text that a name stands for. -/
  text : N → String
  /-- The name that stands for a text. -/
  ofText : String → N

namespace Naming

/-- A text is its own name. -/
instance : Naming String := ⟨"", fun name => name, fun text => text⟩

@[simp]
theorem anonymous_string : (anonymous : String) = "" :=
  rfl

@[simp]
theorem text_string (name : String) : text name = name :=
  rfl

@[simp]
theorem ofText_string (text : String) : (ofText text : String) = text :=
  rfl

end Naming

end Rivulet
