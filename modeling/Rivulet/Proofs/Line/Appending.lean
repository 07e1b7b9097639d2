import Rivulet.Proofs.Line.Layout
import Rivulet.Proofs.Text

/-!
Sources to which lines are appended. The nodes of the lines before stay as they are, and those of the lines behind
come after them (`Tree.Continues`).

Main statement: `continues_of_followedBy`.
-/

namespace Rivulet

/-! ### Lines -/

namespace Text

variable {separator : Char → Bool} {c : Char}

theorem splitAtEvery_ne_nil (separator : Char → Bool) (text : List Char) : splitAtEvery separator text ≠ [] := by
  induction text with
  | nil => simp [splitAtEvery]
  | cons c text hypothesis =>
    unfold splitAtEvery
    split
    · simp
    · split <;> simp

/-- A separator divides the parts before it from those behind. -/
theorem splitAtEvery_between (separates : separator c = true) (text rest : List Char) :
    splitAtEvery separator (text ++ c :: rest) = splitAtEvery separator text ++ splitAtEvery separator rest := by
  induction text with
  | nil => simp [splitAtEvery, separates]
  | cons first text hypothesis =>
    rw [List.cons_append, splitAtEvery, splitAtEvery, hypothesis]
    split
    · rfl
    · cases parts : splitAtEvery separator text with
      | nil => exact absurd parts (splitAtEvery_ne_nil separator text)
      | cons part parts => rfl

/-- A carriage return is a blank like others. -/
theorem trim_dropCarriageReturn (line : List Char) : trim (dropCarriageReturn line) = trim line := by
  unfold dropCarriageReturn
  split
  · rename_i ends
    obtain ⟨start, rfl⟩ : ∃ start, line = start ++ ['\r'] := ⟨line.dropLast, (List.dropLast_append_getLast? _ ends).symm⟩
    rw [List.dropLast_concat]
    unfold trim dropWhileEnd
    rw [List.dropWhile_append]
    split
    · rename_i blank
      rw [List.isEmpty_iff.mp blank]
      rfl
    · simp [isBlank]
  · rfl

/-- The lines of two texts with a line feed between them. -/
theorem lines_between (text rest : List Char) :
    lines (text ++ '\n' :: rest) = (splitAtEvery (· == '\n') text).map dropCarriageReturn ++ lines rest := by
  have some := splitAtEvery_ne_nil (· == '\n') rest
  unfold lines
  dsimp only
  rw [splitAtEvery_between rfl, List.dropLast_append_of_ne_nil some, List.getLast?_append_of_ne_nil _ some,
    List.map_append]
  split
  · rfl
  · rfl
  · rw [List.append_assoc]

end Text

namespace Line

variable {lenient : Bool} {number : Nat} {builder : Builder}

/-- Blanks around lines do not matter. -/
theorem readLines_congr {lines lines' : List (List Char)} (same : lines.map Text.trim = lines'.map Text.trim)
    (number : Nat) (builder : Builder) : readLines lenient number builder lines = readLines lenient number builder lines' := by
  induction lines generalizing lines' number builder with
  | nil => rw [List.map_eq_nil_iff.mp same.symm]
  | cons line lines hypothesis =>
    cases lines' with
    | nil => simp at same
    | cons line' lines' =>
      obtain ⟨first, rest⟩ := List.cons.inj same
      unfold readLines
      dsimp only
      simp only [first, hypothesis rest]

/-- Neither does an empty line at the end. -/
theorem readLines_concat_nil (lines : List (List Char)) (number : Nat) (builder : Builder) :
    readLines lenient number builder (lines ++ [[]]) = readLines lenient number builder lines := by
  induction lines generalizing number builder with
  | nil => rfl
  | cons line lines hypothesis =>
    rw [List.cons_append]
    unfold readLines
    dsimp only
    simp only [hypothesis]

/-- The lines of a text are read alike if a line feed stands behind the last one. -/
theorem readLines_lines (text : List Char) (number : Nat) (builder : Builder) :
    readLines lenient number builder ((Text.splitAtEvery (· == '\n') text).map Text.dropCarriageReturn) =
      readLines lenient number builder (Text.lines text) := by
  obtain ⟨start, last, parts⟩ := List.eq_nil_or_concat (Text.splitAtEvery (· == '\n') text) |>.resolve_left
    (Text.splitAtEvery_ne_nil _ text)
  unfold Text.lines
  dsimp only
  rw [parts, List.concat_eq_append, List.map_append, List.dropLast_concat, List.getLast?_concat]
  cases last with
  | nil => exact readLines_concat_nil _ number builder
  | cons c rest =>
    refine readLines_congr ?_ number builder
    rw [List.map_append, List.map_append]
    exact congrArg (_ ++ [·]) (Text.trim_dropCarriageReturn (c :: rest))

theorem readLines_cons (line : List Char) (lines : List (List Char)) (number : Nat) (builder : Builder) :
    readLines false number builder (line :: lines) =
      if isSilent (Text.trim line) then readLines false (number + 1) builder lines
      else
        match readStatement (Text.trim line) with
        | .ok statement =>
          match readLines false (number + 1) (statement.build builder).2 lines with
          | .ok (statements, builder') => .ok ((statement.build builder).1 :: statements, builder')
          | .error error => .error error
        | .error (problem, column, _) => .error ⟨number, column, problem⟩ :=
  rfl

/-- Lines that can be read are read one after the other. -/
theorem exists_of_readLines_append {first second : List (List Char)} {statements : List NodeId} {builder' : Builder}
    (read : readLines false number builder (first ++ second) = .ok (statements, builder')) :
    ∃ earlier later between, readLines false number builder first = .ok (earlier, between) ∧
      readLines false (number + first.length) between second = .ok (later, builder') ∧ statements = earlier ++ later := by
  induction first generalizing number builder statements with
  | nil => exact ⟨[], statements, builder, rfl, read, rfl⟩
  | cons line first hypothesis =>
    rw [List.cons_append, readLines_cons] at read
    rw [List.length_cons, Nat.add_comm first.length 1, ← Nat.add_assoc]
    split at read
    · rename_i silent
      obtain ⟨earlier, later, between, before, after⟩ := hypothesis read
      exact ⟨earlier, later, between, by rw [readLines_cons, if_pos silent, before], after⟩
    · rename_i speaks
      split at read
      · rename_i statement readOne
        split at read
        · rename_i rest builder'' readRest
          cases read
          obtain ⟨earlier, later, between, before, after, rfl⟩ := hypothesis readRest
          refine ⟨_ :: earlier, later, between, ?_, after, rfl⟩
          simp only [readLines_cons, if_neg speaks, readOne, before]
        · cases read
      · cases read

end Line

/-! ### Programs -/

/-- A node comes before a place; a missing one comes before every place. -/
def NodeId.Before (count : Nat) : NodeId → Prop
  | .missing => True
  | .node index => index < count

theorem NodeId.exists_index {id : NodeId} (present : id.isPresent = true) : ∃ index, id = .node index := by
  cases id with
  | missing => simp [isPresent, isMissing] at present
  | node index => exact ⟨index, rfl⟩

/-- The statements of a program. -/
def Tree.statements (tree : Tree) : List NodeId :=
  match tree.form? tree.root with
  | some (.program body) =>
    match tree.form? body with
    | some (.block list) => tree.list list
    | _ => []
  | _ => []

/-- A tree as lines make it, that is a program of some statements: these are made of its first nodes. -/
structure Tree.IsProgram (tree : Tree) (count : Nat) (statements : List NodeId) : Prop where
  written : tree.Written
  root_eq : tree.root = .node (count + 1)
  size_eq : tree.size = count + 2
  root : tree.form? tree.root = some (.program (.node count))
  block : ∃ list, tree.form? (.node count) = some (.block list) ∧ tree.list list = statements
  before : ∀ statement ∈ statements, statement.Before count
  /-- Each of the first nodes is a statement or a child of another one. -/
  placed : ∀ index < count, .node index ∈ statements ∨ ∃ later < count, .node index ∈ tree.children (.node later)

namespace Builder

variable {builder : Builder} {statements : List NodeId}

/-- Nodes stay as they were built. -/
theorem Grows.node?_eq {builder' : Builder} (grows : builder.Grows builder') {index : Nat}
    (bound : index < builder.nodes.size) : builder'.tree.node? (.node index) = builder.tree.node? (.node index) := by
  obtain ⟨more, same⟩ := grows.nodes
  have still : builder'.nodes.toList[index]? = builder.nodes.toList[index]? := by
    rw [← same, List.getElem?_append_left (by simpa using bound)]
  simpa [Tree.node?, tree, finish] using still

theorem grows_program (builder : Builder) (statements : List NodeId) :
    ∃ finished, builder.Grows finished ∧ builder.program statements = finished.finish (builder.program statements).root :=
  ⟨_, ((grows_list builder statements).trans (grows_alloc _ _)).trans (grows_alloc _ _), rfl⟩

theorem isProgram_program (orderly : builder.Orderly statements)
    (fits : ∀ statement ∈ statements, builder.tree.IsStatement statement) :
    (builder.program statements).IsProgram builder.nodes.size statements := by
  let listed := builder.list statements
  let block := listed.2.alloc (.block listed.1)
  let program := block.2.alloc (.program block.1)
  have finished : block.2.Grows program.2 := grows_alloc _ _
  have grows : builder.Grows program.2 := ((grows_list _ _).trans (grows_alloc _ _)).trans finished
  have blockIs : block.2.tree.form? (.node builder.nodes.size) = some (.block listed.1) := form?_alloc_self listed.2 _
  have stored : program.2.tree.list listed.1 = statements := by
    rw [((grows_alloc _ _).trans finished).list (builder.within_list statements), builder.list_list]
  refine ⟨written_program orderly fits, ?_, ?_, form?_alloc_self block.2 _, ⟨_, finished.form? blockIs, stored⟩, ?_, ?_⟩
  · simp [Builder.program, alloc, allocAt, Builder.list, finish]
  · simp [Builder.program, alloc, allocAt, Builder.list, finish, Tree.size]
  · intro statement among
    cases statement with
    | missing => trivial
    | node index => exact Tree.lt_size_of_form? (Tree.regular_of_isStatement (fits _ among)).1
  · intro index bound
    have known : .node index ∈ builder.tree.ids := by simpa [Tree.ids, Tree.size, tree, finish] using bound
    rcases List.mem_append.mp (orderly.placed.symm.subset known) with among | waits
    · obtain ⟨node, there, link⟩ := List.mem_flatMap.mp among
      obtain ⟨later, there⟩ := List.getElem?_of_mem there
      obtain ⟨inside, -⟩ := List.getElem?_eq_some_iff.mp there
      have is : builder.tree.form? (.node later) = some node.form :=
        Tree.form?_eq_some_iff.mpr ⟨node, by simpa [tree, finish] using there, rfl⟩
      have same := grows.links fun list => orderly.lists_within (.node later) node.form list is
      obtain ⟨linked, present⟩ := List.mem_filter.mp link
      refine .inr ⟨later, by simpa using inside, Tree.mem_children_iff.mpr ⟨⟨node.form, grows.form? is, ?_⟩, present⟩⟩
      exact same ▸ linked
    · exact .inl waits

end Builder

/-! ### Programs that go on -/

/-- A program goes on with more statements: those before, and the nodes that they are made of, are as they were. -/
structure Tree.Continues (tree tree' : Tree) (count count' : Nat) (earlier later : List NodeId) : Prop where
  first : tree.IsProgram count earlier
  second : tree'.IsProgram count' (earlier ++ later)
  longer : count ≤ count'
  node?_eq : ∀ index < count, tree'.node? (.node index) = tree.node? (.node index)
  list_eq : ∀ {index form list}, index < count → tree.form? (.node index) = some form → list ∈ form.childLists →
    tree'.list list = tree.list list

namespace Line

/-- A line feed at the end does not matter. -/
theorem parse_lineFeed (lenient : Bool) (text : String) : parse lenient (text ++ "\n") = parse lenient text := by
  have ended : (text ++ "\n").toList = text.toList ++ '\n' :: [] := by simp
  have none : Text.lines [] = [] := rfl
  unfold parse
  rw [ended, Text.lines_between, none, List.append_nil, readLines_lines]

/-- A source to which something is appended behind a line feed becomes a program that goes on. -/
theorem continues_of_parse {text more : String} {tree tree' : Tree} (read : parse false text = .ok tree)
    (read' : parse false (text ++ "\n" ++ more) = .ok tree') :
    ∃ count count' earlier later, tree.Continues tree' count count' earlier later := by
  unfold parse at read read'
  split at read
  case h_2 => cases read
  rename_i earlier between readFirst
  cases read
  split at read'
  case h_2 => cases read'
  rename_i statements builder readAll
  cases read'
  have joined : (text ++ "\n" ++ more).toList = text.toList ++ '\n' :: more.toList := by simp
  rw [joined, Text.lines_between] at readAll
  obtain ⟨first, later, middle, readFirst', readSecond, rfl⟩ := exists_of_readLines_append readAll
  rw [readLines_lines, readFirst] at readFirst'
  cases readFirst'
  obtain ⟨orderly, -, fits⟩ := statements_readLines Builder.orderly_empty readFirst
  obtain ⟨orderly', grows, fits'⟩ := statements_readLines orderly readSecond
  obtain ⟨finished, ends, is⟩ := between.grows_program earlier
  obtain ⟨finished', ends', is'⟩ := builder.grows_program (earlier ++ later)
  refine ⟨between.nodes.size, builder.nodes.size, earlier, later, Builder.isProgram_program orderly fits, ?_, ?_, ?_, ?_⟩
  · refine Builder.isProgram_program orderly' fun statement among => ?_
    rcases List.mem_append.mp among with before | behind
    · exact grows.isStatement (fits statement before)
    · exact fits' statement behind
  · simpa using grows.nodes.length_le
  · intro index bound
    rw [is, is']
    exact ((grows.trans ends').node?_eq bound).trans (ends.node?_eq bound).symm
  · intro index form list bound there listed
    have there : between.tree.form? (.node index) = some form := by
      rw [is] at there
      exact (congrArg (Option.map Node.form) (ends.node?_eq bound)).symm.trans there
    have within := orderly.lists_within _ form list there listed
    rw [is, is']
    exact ((grows.trans ends').list within).trans (ends.list within).symm

/-- A source to which more lines are appended; they begin on a line of their own. -/
def followedBy (text more : String) : String :=
  if text.toList.getLast? = some '\n' then text ++ more else text ++ "\n" ++ more

theorem continues_of_followedBy {text more : String} {tree tree' : Tree} (read : parse false text = .ok tree)
    (read' : parse false (followedBy text more) = .ok tree') :
    ∃ count count' earlier later, tree.Continues tree' count count' earlier later := by
  unfold followedBy at read'
  split at read'
  · rename_i ended
    obtain ⟨start, is⟩ := List.getLast?_eq_some_iff.mp ended
    obtain rfl : text = String.ofList start ++ "\n" := String.toList_inj.mp (by simp [is])
    rw [parse_lineFeed] at read
    exact continues_of_parse read read'
  · exact continues_of_parse read read'

end Line

end Rivulet
