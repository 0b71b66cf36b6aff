import NamedLambda.Proofs.ReportCells
import NamedLambda.Proofs.ReportLabel

/-!
# Underline and arrow line up with the source

A label on one line is underlined: a line is drawn below exactly those cells of the shown text that are
painted, with one branch below a character of the label, and the arrow to the reason starts right
below the branch. The three rows are drawn one by one, over different numbers of columns. They
line up because the margins have the same width and a column takes the same number of cells in all
of them, past the end of the shown text too.
-/

namespace NamedLambda

set_option autoImplicit false

namespace Report

open Row

section

variable (line : Line) (col : Nat)

theorem cells_ruled : (ruled line col).cells = List.replicate (line.width col) ⟨.red, '─'⟩ :=
  cells_replicate rfl _

theorem cells_skipped : (skipped line col).cells = List.replicate (line.width col) ⟨.plain, ' '⟩ :=
  cells_replicate rfl _

theorem cells_corner {first : String} {c : Char} (h : first.toList = [c]) :
    (corner line col first).cells = ⟨.red, c⟩ :: List.replicate (line.width col - 1) ⟨.red, '─'⟩ := by
  have hLine : (red "─").text.toList = ['─'] := rfl
  rw [corner, cells_cons, cells_replicate hLine, red, h]
  rfl

end

/-- What a row with one branch has at a column: the branch at the column `mid`, and elsewhere a line or
nothing. -/
def branched (line : Line) (mid : Nat) (first : String) (drawn : Nat → Bool) (col : Nat) : Row :=
  if col = mid then corner line col first
  else if drawn col = true then ruled line col
  else skipped line col

theorem underline_eq (label : Span) (line : Line) :
    underline label line = (columns label line).flatMap
      (branched line (middle label line) "┬" fun col => label.holds (line.offset + col)) := rfl

theorem arrow_eq (label : Span) (line : Line) :
    arrow label line = (columns label line).flatMap
      (branched line (middle label line) "╰" fun col => decide (middle label line < col)) := by
  unfold arrow
  congr 1
  funext col
  simp only [branched, decide_eq_true_eq]
  rcases Nat.lt_trichotomy col (middle label line) with hLt | hEq | hGt
  · rw [if_pos hLt, if_neg (Nat.ne_of_lt hLt), if_neg (Nat.lt_asymm hLt)]
  · rw [hEq, if_neg (Nat.lt_irrefl _), if_pos rfl, if_pos rfl]
  · rw [if_neg (Nat.lt_asymm hGt), if_neg (Nat.ne_of_gt hGt), if_neg (Nat.ne_of_gt hGt), if_pos hGt]

section

variable {line : Line} {mid : Nat} {first : String} {c : Char} {drawn : Nat → Bool}

theorem fits_branched (h : first.toList = [c]) : line.Fits (branched line mid first drawn) := by
  intro col
  have hPos := line.width_pos col
  unfold branched
  split
  · rw [cells_corner line col h, List.length_cons, List.length_replicate]
    omega
  · split
    · rw [cells_ruled, List.length_replicate]
    · rw [cells_skipped, List.length_replicate]

theorem getElem?_branched (h : first.toList = [c]) {col i : Nat} (hCell : line.CellOf col i) (count : Nat) :
    (Row.cells ((List.range count).flatMap (branched line mid first drawn)))[i]? =
      if col < count then
        some (if i = line.cellsBefore mid then ⟨.red, c⟩
          else if col = mid ∨ drawn col = true then ⟨.red, '─'⟩ else ⟨.plain, ' '⟩)
      else none := by
  have hWidth := hCell.sub_lt_width
  rw [(fits_branched h).getElem?_cells hCell]
  congr 1
  simp only [hCell.eq_cellsBefore_iff]
  unfold branched
  by_cases hMid : col = mid
  · subst hMid
    rw [if_pos rfl, cells_corner line col h, List.getElem?_cons]
    by_cases hFirst : i - line.cellsBefore col = 0
    · simp [hFirst]
    · have hLater : i - line.cellsBefore col - 1 < line.width col - 1 := by omega
      simp [hFirst, hLater]
  · by_cases hDrawn : drawn col = true
    · simp [hMid, hDrawn, cells_ruled, hWidth]
    · simp [hMid, hDrawn, cells_skipped, hWidth]

/-- The branch stands in one cell, the first of its column. -/
theorem charAt_branched_iff (h : first.toList = [c]) (hc : c ∉ ['─', ' ', '·']) {count : Nat}
    (hMid : mid < count) (i : Nat) :
    charAt (cells ((List.range count).flatMap (branched line mid first drawn))) i = some c ↔
      i = line.cellsBefore mid := by
  obtain ⟨col, hCell⟩ := line.exists_cellOf i
  rw [charAt, getElem?_branched h hCell]
  constructor
  · intro hChar
    refine Classical.byContradiction fun hNe => hc ?_
    rw [if_neg hNe] at hChar
    split at hChar
    · split at hChar
      · rw [← Option.some.inj hChar]
        decide
      · rw [← Option.some.inj hChar]
        decide
    · cases hChar
  · intro hFirst
    obtain ⟨rfl, _⟩ := (hCell.eq_cellsBefore_iff mid).mp hFirst
    rw [if_pos hMid, if_pos hFirst]
    rfl

end

theorem sourceRow_eq (label : Span) (line : Line) :
    sourceRow label line = (List.range line.shown.length).flatMap
      fun col => sourceCells label line (line.shown.getD col ' ') col := by
  have hZip : line.shown.zipIdx =
      (List.range line.shown.length).map fun col => (line.shown.getD col ' ', col) := by
    apply List.ext_getElem?
    intro j
    rw [List.getElem?_zipIdx, List.getElem?_map, Nat.zero_add]
    by_cases hj : j < line.shown.length
    · simp [List.getElem?_range hj, List.getElem?_eq_getElem hj]
    · simp [Nat.le_of_not_lt hj]
  rw [sourceRow, hZip, List.flatMap_map]

theorem cells_sourceCells (label : Span) (line : Line) (c : Char) (col : Nat) :
    (sourceCells label line c col).cells = List.replicate (line.width col)
      ⟨if label.holds (line.offset + col) = true then .red else .dim,
        if isBlank c = true then ' ' else c⟩ := by
  rw [sourceCells, cells_replicate_singleton]

theorem getElem?_sourceRow (label : Span) {line : Line} {col i : Nat} (hCell : line.CellOf col i) :
    (sourceRow label line).cells[i]? = line.shown[col]?.map fun c =>
      ⟨if label.holds (line.offset + col) = true then .red else .dim,
        if isBlank c = true then ' ' else c⟩ := by
  have hFits : line.Fits fun col => sourceCells label line (line.shown.getD col ' ') col := by
    intro col
    rw [cells_sourceCells, List.length_replicate]
  rw [sourceRow_eq, hFits.getElem?_cells hCell, cells_sourceCells, List.getElem?_replicate,
    if_pos hCell.sub_lt_width, List.getD_eq_getElem?_getD]
  by_cases hCol : col < line.shown.length
  · rw [if_pos hCol, List.getElem?_eq_getElem hCol]
    rfl
  · rw [if_neg hCol, List.getElem?_eq_none (Nat.le_of_not_lt hCol)]
    rfl

theorem length_cells_numberMargin (index : Nat) :
    (numberMargin (index + 1).repr.length index).cells.length = (index + 1).repr.length + 4 := by
  unfold numberMargin
  generalize (index + 1).repr = number
  simp [cells, spaces, plain, margin, String.length_toList]

theorem length_cells_signMargin (digits : Nat) : (signMargin digits "·").cells.length = digits + 4 := by
  simp [signMargin, cells, spaces, plain, margin]

theorem char_of_mem_signMargin {digits : Nat} {cell : Cell} (h : cell ∈ (signMargin digits "·").cells) :
    cell.char = ' ' ∨ cell.char = '·' := by
  have hCell : cell = ⟨.plain, ' '⟩ ∨ cell = ⟨.margin, ' '⟩ ∨ cell = ⟨.margin, '·'⟩ ∨
      cell = ⟨.plain, ' '⟩ := by
    simpa [signMargin, cells, spaces, plain, margin] using h
  rcases hCell with rfl | rfl | rfl | rfl
  · exact Or.inl rfl
  · exact Or.inl rfl
  · exact Or.inr rfl
  · exact Or.inl rfl

theorem getElem?_after_margin {margin : Row} {width : Nat} (h : margin.cells.length = width) (row : Row)
    (i : Nat) :
    (cells (margin ++ row))[width + i]? = row.cells[i]? := by
  rw [cells_append, List.getElem?_append_right (by omega), h, Nat.add_sub_cancel_left]

theorem charAt_after_margin {margin : Row} {width : Nat} (h : margin.cells.length = width) (row : Row)
    (i : Nat) :
    charAt (cells (margin ++ row)) (width + i) = charAt row.cells i := by
  rw [charAt, getElem?_after_margin h, ← charAt]

/-- The branch is the only such character in its row, margin included. -/
theorem charAt_branchedRow_iff {line : Line} {mid : Nat} {first : String} {c : Char} {drawn : Nat → Bool}
    (h : first.toList = [c]) (hc : c ∉ ['─', ' ', '·']) {count : Nat} (hMid : mid < count) (digits i : Nat) :
    charAt (cells (signMargin digits "·" ++ (List.range count).flatMap (branched line mid first drawn))) i =
        some c ↔ i = digits + 4 + line.cellsBefore mid := by
  have hWidth := length_cells_signMargin digits
  by_cases hMargin : i < digits + 4
  · refine iff_of_false (fun hChar => hc ?_) (by omega)
    rw [charAt, cells_append, List.getElem?_append_left (hWidth.symm ▸ hMargin)] at hChar
    obtain ⟨cell, hCell, rfl⟩ := Option.map_eq_some_iff.mp hChar
    rcases char_of_mem_signMargin (List.mem_of_getElem? hCell) with hEq | hEq
    · rw [hEq]
      decide
    · rw [hEq]
      decide
  · obtain ⟨j, rfl⟩ := Nat.exists_eq_add_of_le (Nat.le_of_not_lt hMargin)
    rw [charAt_after_margin hWidth, charAt_branched_iff h hc hMid, Nat.add_left_cancel_iff]

section

variable {label : Span} {line : Line}
variable (hNonempty : label.start < label.stop) (hOffset : line.offset ≤ label.start)

include hNonempty hOffset

theorem holds_middle : label.holds (line.offset + middle label line) = true := by
  rw [Span.holds_iff, Span.Covers, middle]
  omega

theorem middle_lt_columns : middle label line < label.stop - line.offset + 2 := by
  have hStop := (Span.holds_iff.mp (holds_middle hNonempty hOffset)).2
  omega

/-- The underline is drawn in the cells of the label's columns. -/
theorem charAt_underline_iff {col i : Nat} (hCell : line.CellOf col i) :
    (charAt (underline label line).cells i = some '─' ∨ charAt (underline label line).cells i = some '┬') ↔
      label.holds (line.offset + col) = true := by
  have hMiddle := holds_middle hNonempty hOffset
  rw [charAt, underline_eq, columns, getElem?_branched rfl hCell]
  by_cases hHolds : label.holds (line.offset + col) = true
  · have hCol : col < label.stop - line.offset + 2 := by
      have hStop := (Span.holds_iff.mp hHolds).2
      omega
    rw [if_pos hCol, if_pos (Or.inr hHolds)]
    refine iff_of_true ?_ hHolds
    split
    · exact Or.inr rfl
    · exact Or.inl rfl
  · -- The branch stands in the label, so neither it nor a line beside it is drawn here.
    have hMid : col ≠ middle label line := by
      rintro rfl
      exact hHolds hMiddle
    have hFirst : i ≠ line.cellsBefore (middle label line) := by
      intro hEq
      exact hMid ((hCell.eq_cellsBefore_iff _).mp hEq).1
    rw [if_neg hFirst, if_neg (not_or.mpr ⟨hMid, hHolds⟩)]
    refine iff_of_false ?_ hHolds
    split
    · decide
    · decide

end

end Report

/-- The rows of an underlined label line up, right of a margin of `margin` cells: the row of the
`source` line, the row `below` it, and the row of the `arrow` without the reason. -/
structure LinedUp (line : Line) (label : Span) (margin : Nat) (source below arrow : List Cell) : Prop where
  shown : ∀ col i, line.CellOf col i →
    charAt source (margin + i) = line.shown[col]?.map fun c => if isBlank c = true then ' ' else c
  underlined : ∀ i, margin ≤ i → i < margin + line.cellsBefore line.shown.length →
    (paintAt source i = some .red ↔ charAt below i = some '─' ∨ charAt below i = some '┬')
  joined : ∃ col, label.Covers (line.offset + col) ∧
    (∀ i, charAt below i = some '┬' ↔ i = margin + line.cellsBefore col) ∧
    ∀ i, charAt arrow i = some '╰' ↔ i = margin + line.cellsBefore col

namespace Report

/-- A cell of the shown text is painted red when its column belongs to the label. -/
theorem paintAt_sourceRow_iff (label : Span) {line : Line} {col i : Nat} (hCell : line.CellOf col i)
    (hCol : col < line.shown.length) :
    paintAt (sourceRow label line).cells i = some .red ↔ label.holds (line.offset + col) = true := by
  rw [paintAt, getElem?_sourceRow label hCell, List.getElem?_eq_getElem hCol]
  by_cases hHolds : label.holds (line.offset + col) = true
  · simp [hHolds]
  · simp [hHolds]

theorem linedUp_underlined {label : Span} {l : NumberedLine} (hNonempty : label.start < label.stop)
    (hOffset : l.line.offset ≤ label.start) :
    let digits := (l.index + 1).repr.length
    LinedUp l.line label (digits + 4) (Row.cells (numberMargin digits l.index ++ sourceRow label l.line))
      (Row.cells (signMargin digits "·" ++ underline label l.line))
      (Row.cells (signMargin digits "·" ++ arrow label l.line)) := by
  intro digits
  have hNumber : (numberMargin digits l.index).cells.length = digits + 4 := length_cells_numberMargin l.index
  have hSign := length_cells_signMargin digits
  have hColumns := middle_lt_columns hNonempty hOffset
  refine ⟨?_, ?_, middle label l.line, Span.holds_iff.mp (holds_middle hNonempty hOffset), ?_, ?_⟩
  · intro col i hCell
    rw [charAt_after_margin hNumber, charAt, getElem?_sourceRow label hCell, Option.map_map]
    rfl
  · intro i hMargin hShown
    obtain ⟨j, rfl⟩ := Nat.exists_eq_add_of_le hMargin
    obtain ⟨col, hCell⟩ := l.line.exists_cellOf j
    have hCol : col < l.line.shown.length := by
      rw [← hCell.lt_cellsBefore_iff]
      omega
    rw [charAt_after_margin hSign, charAt_underline_iff hNonempty hOffset hCell, paintAt,
      getElem?_after_margin hNumber, ← paintAt, paintAt_sourceRow_iff label hCell hCol]
  · intro i
    rw [underline_eq, columns]
    exact charAt_branchedRow_iff rfl (by decide) hColumns digits i
  · intro i
    rw [arrow_eq, columns]
    exact charAt_branchedRow_iff rfl (by decide) hColumns digits i

end Report

end NamedLambda
