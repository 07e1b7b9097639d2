import Rivulet.Proofs.Line.Appending
import Rivulet.Proofs.Line.Likeness
import Mathlib.Data.List.Infix

/-!
Sources that are read leniently. Every line that says something becomes one statement, which depends on nothing but
that line: it is what the line says when it is read alone, or keeps the line if it cannot be read. A strict reading ends
at the first such line, and otherwise gives the same tree.

Main statement: `readings_by_lines`.
-/

namespace Rivulet

/-! ### Lines -/

namespace Text

variable {line text : List Char}

/-- No line feed is left in a line. -/
theorem plain_of_mem_lines (among : line ∈ lines text) : ∀ c ∈ line, (c == '\n') = false := by
  have closed (among : line ∈ (splitAtEvery (· == '\n') text).dropLast.map dropCarriageReturn) :
      ∀ c ∈ line, (c == '\n') = false := by
    obtain ⟨part, inside, rfl⟩ := List.mem_map.mp among
    have plain := plain_of_mem_splitAtEvery (List.mem_of_mem_dropLast inside)
    unfold dropCarriageReturn
    split
    · exact fun c inside => plain c (List.mem_of_mem_dropLast inside)
    · exact plain
  unfold lines at among
  dsimp only at among
  split at among
  · exact closed among
  · exact closed among
  · rename_i last ends
    rcases List.mem_append.mp among with before | same
    · exact closed before
    · rw [List.mem_singleton.mp same]
      exact plain_of_mem_splitAtEvery (List.mem_of_getLast? ends)

/-- A line is the only line of a text of its own. -/
theorem lines_plain (plain : ∀ c ∈ line, (c == '\n') = false) (some : line ≠ []) : lines line = [line] := by
  unfold lines
  rw [splitAtEvery_plain plain]
  cases line with
  | nil => exact absurd rfl some
  | cons c line => rfl

end Text

/-! ### Readings -/

namespace Builder

theorem statements_program (builder : Builder) (statements : List NodeId) :
    (builder.program statements).statements = statements := by
  let listed := builder.list statements
  let block := listed.2.alloc (.block listed.1)
  have finished : block.2.Grows (block.2.alloc (.program block.1)).2 := grows_alloc _ _
  have blockIs : block.2.tree.form? block.1 = some (.block listed.1) := form?_alloc_self listed.2 _
  have root : (builder.program statements).form? (builder.program statements).root = some (.program block.1) :=
    form?_alloc_self block.2 _
  have body : (builder.program statements).form? block.1 = some (.block listed.1) := finished.form? blockIs
  have stored : (builder.program statements).list listed.1 = statements :=
    (((grows_alloc _ _).trans finished).list (builder.within_list statements)).trans (builder.list_list statements)
  unfold Tree.statements
  simp only [root, body, stored]

end Builder

namespace Line

variable {line : List Char} {lines : List (List Char)} {number : Nat} {builder builder' : Builder}

/-- The lines that say something, with their numbers, given the number of the first line. -/
def spoken (number : Nat) (lines : List (List Char)) : List (List Char × Nat) :=
  (lines.zipIdx number).filter fun line => !isSilent (Text.trim line.1)

/-- The error of a line, if it cannot be read alone. -/
def error? (line : List Char × Nat) : Option ParseError :=
  match parse false (String.ofList line.1) with
  | .ok _ => none
  | .error error => some { error with line := line.2 }

/-- A statement stands for a line. If the line can be read alone, it is its only statement there, up to the places of
nodes; otherwise it keeps the line without the blanks around it. -/
def StandsFor (tree : Tree) (statement : NodeId) (line : List Char) : Prop :=
  match parse false (String.ofList line) with
  | .ok alone => ∃ made, alone.statements = [made] ∧ tree.Resembles alone statement made
  | .error _ => tree.form? statement = some (.unparsable (String.ofList (Text.trim line)))

theorem spoken_cons (line : List Char) (lines : List (List Char)) (number : Nat) :
    spoken number (line :: lines) =
      if isSilent (Text.trim line) then spoken (number + 1) lines else (line, number) :: spoken (number + 1) lines := by
  unfold spoken
  rw [List.zipIdx_cons, List.filter_cons]
  cases isSilent (Text.trim line) <;> rfl

/-- A statement that was built goes on standing for its line. -/
theorem StandsFor.grows {statement : NodeId} (stands : StandsFor builder.tree statement line)
    (grows : builder.Grows builder') (root : NodeId) : StandsFor (builder'.finish root) statement line := by
  unfold StandsFor at stands ⊢
  split
  · rename_i alone read
    rw [read] at stands
    obtain ⟨made, only, alike⟩ := stands
    exact ⟨made, only, alike.retained (grows.retains root) fun _ _ holds => ⟨holds, rfl⟩⟩
  · rename_i error read
    rw [read] at stands
    exact grows.form? stands

section

variable (plain : ∀ c ∈ line, (c == '\n') = false) (speaks : isSilent (Text.trim line) = false)

include plain speaks

/-- A line that says something is read alone as its statement on an empty builder. -/
theorem parse_line :
    parse false (String.ofList line) =
      match readStatement (Text.trim line) with
      | .ok value => .ok ((value.build .empty).2.program [(value.build .empty).1])
      | .error (problem, column, _) => .error ⟨1, column, problem⟩ := by
  have some : line ≠ [] := by
    rintro rfl
    exact absurd speaks (by decide)
  unfold parse
  rw [String.toList_ofList, Text.lines_plain plain some, readLines_cons, speaks]
  cases readStatement (Text.trim line) with
  | ok value => rfl
  | error failure => rfl

theorem error?_eq (number : Nat) :
    error? (line, number) =
      match readStatement (Text.trim line) with
      | .ok _ => none
      | .error (problem, column, _) => some ⟨number, column, problem⟩ := by
  rw [error?, parse_line plain speaks]
  cases readStatement (Text.trim line) <;> rfl

/-- It does not matter what stands on the builder already. -/
theorem standsFor_build {value : Statement} (read : readStatement (Text.trim line) = .ok value) (builder : Builder) :
    StandsFor (value.build builder).2.tree (value.build builder).1 line := by
  have built := builtAlike_statement value builder .empty
  obtain ⟨finished, ends, is⟩ := (value.build .empty).2.grows_program [(value.build .empty).1]
  unfold StandsFor
  rw [parse_line plain speaks, read]
  refine ⟨_, Builder.statements_program _ _, ?_⟩
  rw [is]
  exact built.alike.retained ((Builder.Grows.refl _).retains _) (ends.retains _)

theorem standsFor_unparsable {failure : Problem × Nat × List Piece}
    (read : readStatement (Text.trim line) = .error failure) (builder : Builder) :
    StandsFor (builder.alloc (.unparsable (String.ofList (Text.trim line)))).2.tree
      (builder.alloc (.unparsable (String.ofList (Text.trim line)))).1 line := by
  unfold StandsFor
  rw [parse_line plain speaks, read]
  exact Builder.form?_alloc_self builder _

end

/-- A lenient reading comes to the end, and what failing lines leave behind disturbs no statement. -/
theorem exists_readLines_lenient (plain : ∀ line ∈ lines, ∀ c ∈ line, (c == '\n') = false) (number : Nat)
    (builder : Builder) :
    ∃ statements builder', readLines true number builder lines = .ok (statements, builder') ∧ builder.Grows builder' ∧
      List.Forall₂ (fun statement line => StandsFor builder'.tree statement line.1) statements
        (spoken number lines) := by
  induction lines generalizing number builder with
  | nil => exact ⟨[], builder, rfl, .refl builder, .nil⟩
  | cons line lines hypothesis =>
    obtain ⟨here, others⟩ := List.forall_mem_cons.mp plain
    rw [spoken_cons]
    unfold readLines
    dsimp only
    split
    · exact hypothesis others (number + 1) builder
    · rename_i speaks
      rw [Bool.not_eq_true] at speaks
      split
      · rename_i value read
        obtain ⟨statements, builder', readRest, grows, stand⟩ := hypothesis others (number + 1) (value.build builder).2
        refine ⟨_, builder', by rw [readRest], (builtAlike_statement value builder builder).grows.trans grows, ?_⟩
        exact .cons ((standsFor_build here speaks read builder).grows grows _) stand
      · -- The parts that were complete come before the statement, and nothing refers to them.
        rename_i problem column pieces read
        let kept := (pieces.foldl Piece.build builder).alloc (.unparsable (String.ofList (Text.trim line)))
        obtain ⟨statements, builder', readRest, grows, stand⟩ := hypothesis others (number + 1) kept.2
        have before : builder.Grows kept.2 := (grows_pieces pieces builder).trans (Builder.grows_alloc _ _)
        refine ⟨kept.1 :: statements, builder', by rw [if_pos rfl, readRest], before.trans grows, ?_⟩
        exact .cons ((standsFor_unparsable here speaks read _).grows grows _) stand

/-- A strict reading does what a lenient one does, unless some line fails. -/
theorem readLines_strict (plain : ∀ line ∈ lines, ∀ c ∈ line, (c == '\n') = false) (number : Nat) (builder : Builder) :
    readLines false number builder lines =
      match (spoken number lines).findSome? error? with
      | none => readLines true number builder lines
      | some error => .error error := by
  induction lines generalizing number builder with
  | nil => rfl
  | cons line lines hypothesis =>
    obtain ⟨here, others⟩ := List.forall_mem_cons.mp plain
    rw [spoken_cons]
    unfold readLines
    dsimp only
    split
    · exact hypothesis others (number + 1) builder
    · rename_i speaks
      rw [List.findSome?_cons, error?_eq here (by simpa using speaks)]
      cases readStatement (Text.trim line) with
      | error failure => rfl
      | ok value =>
        dsimp only
        rw [hypothesis others]
        cases (spoken (number + 1) lines).findSome? error? <;> rfl

/-- A lenient reading makes a tree of every text. Its statements stand for the lines that say something, one by one and
in order. A strict reading makes the same tree if each of these lines can be read alone; otherwise its error is that of
the first line that cannot. -/
theorem readings_by_lines (text : String) :
    ∃ tree, parse true text = .ok tree ∧
      List.Forall₂ (fun statement line => StandsFor tree statement line.1) tree.statements
        (spoken 1 (Text.lines text.toList)) ∧
      parse false text =
        match (spoken 1 (Text.lines text.toList)).findSome? error? with
        | none => .ok tree
        | some error => .error error := by
  have plain : ∀ line ∈ Text.lines text.toList, ∀ c ∈ line, (c == '\n') = false := fun _ => Text.plain_of_mem_lines
  obtain ⟨statements, builder, read, -, stand⟩ := exists_readLines_lenient plain 1 .empty
  obtain ⟨finished, ends, is⟩ := builder.grows_program statements
  refine ⟨builder.program statements, ?_, ?_, ?_⟩
  · unfold parse
    rw [read]
  · rw [Builder.statements_program, is]
    exact stand.imp fun _ _ stands => stands.grows ends _
  · unfold parse
    rw [readLines_strict plain, read]
    cases (spoken 1 (Text.lines text.toList)).findSome? error? <;> rfl

end Line

end Rivulet
