import NamedLambda.Report

/-!
# The cells of a report

A row is a sequence of cells: the characters of its pieces, each with the paint of its piece. A row that
is drawn below or above a line takes for each column of the line as many cells as the column is
wide, so every cell belongs to one column, and rows that start at the same cell agree on which.
-/

namespace NamedLambda

set_option autoImplicit false

/-- One character of a row with its paint. -/
structure Cell where
  paint : Paint
  char : Char
  deriving DecidableEq, Repr

/-- What stands in a cell when all paint is taken off. -/
def charAt (cells : List Cell) (i : Nat) : Option Char := cells[i]?.map Cell.char

def paintAt (cells : List Cell) (i : Nat) : Option Paint := cells[i]?.map Cell.paint

namespace Row

def cells (row : Row) : List Cell := row.flatMap fun p => p.text.toList.map (Cell.mk p.paint)

theorem toList_text (row : Row) : row.text.toList = row.cells.map Cell.char := by
  rw [text, String.toList_join, List.flatMap_map, cells, List.map_flatMap]
  congr 1
  funext p
  rw [List.map_map]
  exact (List.map_id _).symm

theorem cells_append (row row' : Row) : cells (row ++ row') = row.cells ++ row'.cells :=
  List.flatMap_append

theorem cells_cons (p : Piece) (row : Row) :
    cells (p :: row) = p.text.toList.map (Cell.mk p.paint) ++ row.cells :=
  List.flatMap_cons

theorem cells_replicate {p : Piece} {c : Char} (h : p.text.toList = [c]) (n : Nat) :
    cells (List.replicate n p) = List.replicate n ⟨p.paint, c⟩ := by
  induction n with
  | zero => rfl
  | succ n ih =>
    rw [List.replicate_succ, List.replicate_succ, cells_cons, ih, h]
    rfl

theorem cells_replicate_singleton (paint : Paint) (c : Char) (n : Nat) :
    cells (List.replicate n ⟨paint, String.singleton c⟩) = List.replicate n ⟨paint, c⟩ :=
  cells_replicate (p := ⟨paint, String.singleton c⟩) (String.toList_singleton c) n

end Row

namespace Line

theorem width_pos (line : Line) (col : Nat) : 0 < line.width col := by
  unfold width
  split <;> omega

/-- How many cells the columns before `col` take. -/
def cellsBefore (line : Line) : Nat → Nat
  | 0 => 0
  | col + 1 => line.cellsBefore col + line.width col

/-- The cell `i`, counted from the start of the line, belongs to the column `col`. -/
def CellOf (line : Line) (col i : Nat) : Prop :=
  line.cellsBefore col ≤ i ∧ i < line.cellsBefore (col + 1)

theorem cellsBefore_mono (line : Line) {col col' : Nat} (h : col ≤ col') :
    line.cellsBefore col ≤ line.cellsBefore col' := by
  induction h with
  | refl => exact Nat.le_refl _
  | step _ ih => exact Nat.le_trans ih (Nat.le_add_right _ _)

theorem cellOf_cellsBefore (line : Line) (col : Nat) : line.CellOf col (line.cellsBefore col) :=
  ⟨Nat.le_refl _, Nat.lt_add_of_pos_right (line.width_pos col)⟩

theorem exists_cellOf (line : Line) (i : Nat) : ∃ col, line.CellOf col i := by
  -- No column is without a cell, so the cell `i` belongs to one of the first `i + 1` columns.
  have hWide : ∀ count, count ≤ line.cellsBefore count := by
    intro count
    induction count with
    | zero => exact Nat.le_refl 0
    | succ count ih => exact Nat.add_le_add ih (line.width_pos count)
  have hSearch : ∀ count, i < line.cellsBefore count → ∃ col, line.CellOf col i := by
    intro count
    induction count with
    | zero => exact fun h => absurd h (Nat.not_lt_zero i)
    | succ count ih =>
      intro h
      by_cases hBefore : i < line.cellsBefore count
      · exact ih hBefore
      · exact ⟨count, Nat.le_of_not_lt hBefore, h⟩
  exact hSearch (i + 1) (hWide (i + 1))

section

variable {line : Line} {col i : Nat}

theorem CellOf.lt_cellsBefore_iff (h : line.CellOf col i) (count : Nat) :
    i < line.cellsBefore count ↔ col < count := by
  constructor
  · intro hLt
    refine Nat.lt_of_not_le fun hLe => ?_
    have hMono := line.cellsBefore_mono hLe
    have hStart := h.1
    omega
  · intro hLt
    exact Nat.lt_of_lt_of_le h.2 (line.cellsBefore_mono hLt)

theorem CellOf.sub_lt_width (h : line.CellOf col i) : i - line.cellsBefore col < line.width col := by
  obtain ⟨hStart, hStop⟩ := h
  rw [cellsBefore] at hStop
  omega

theorem CellOf.unique {col' : Nat} (h : line.CellOf col i) (h' : line.CellOf col' i) : col = col' := by
  have hLe : col < col' + 1 := (h.lt_cellsBefore_iff _).mp h'.2
  have hGe : col' < col + 1 := (h'.lt_cellsBefore_iff _).mp h.2
  omega

theorem CellOf.eq_cellsBefore_iff (h : line.CellOf col i) (col' : Nat) :
    i = line.cellsBefore col' ↔ col = col' ∧ i - line.cellsBefore col = 0 := by
  constructor
  · rintro rfl
    obtain rfl := h.unique (line.cellOf_cellsBefore col')
    exact ⟨rfl, Nat.sub_self _⟩
  · rintro ⟨rfl, hZero⟩
    have hStart := h.1
    omega

/-- What is drawn for a column takes as many cells as the column is wide. -/
def Fits (line : Line) (block : Nat → Row) : Prop := ∀ col, (block col).cells.length = line.width col

theorem Fits.length_cells {block : Nat → Row} (h : line.Fits block) (count : Nat) :
    (Row.cells ((List.range count).flatMap block)).length = line.cellsBefore count := by
  induction count with
  | zero => rfl
  | succ count ih =>
    rw [List.range_succ, List.flatMap_append, Row.cells_append, List.length_append, ih,
      List.flatMap_singleton, h]
    rfl

/-- A row drawn column by column has in the cells of a column what is drawn for that column. -/
theorem Fits.getElem?_cells {block : Nat → Row} (h : line.Fits block) (hCell : line.CellOf col i)
    (count : Nat) :
    (Row.cells ((List.range count).flatMap block))[i]? =
      if col < count then (block col).cells[i - line.cellsBefore col]? else none := by
  induction count with
  | zero => rfl
  | succ count ih =>
    rw [List.range_succ, List.flatMap_append, Row.cells_append, List.getElem?_append, h.length_cells,
      List.flatMap_singleton, ih]
    simp only [hCell.lt_cellsBefore_iff]
    by_cases hBefore : col < count
    · rw [if_pos hBefore, if_pos hBefore, if_pos (Nat.lt_succ_of_lt hBefore)]
    · rw [if_neg hBefore]
      by_cases hLast : col = count
      · rw [hLast, if_pos (Nat.lt_succ_self count)]
      · have hAfter : ¬ col < count + 1 := by omega
        rw [if_neg hAfter, List.getElem?_eq_none_iff, h]
        have hPast := mt (hCell.lt_cellsBefore_iff (count + 1)).mp hAfter
        rw [cellsBefore] at hPast
        omega

end

end Line

end NamedLambda
