import NamedLambda.Report.Line
import NamedLambda.Report.Row
import NamedLambda.SyntaxError

/-!
# Reports

A report shows the part of a source that an error points at. If that part lies on one line, it is
underlined and an arrow leads from its middle to the reason; otherwise its first and its last line
are joined by a bracket. There is no report on an empty source, which has nothing to point at.
-/

namespace NamedLambda

set_option autoImplicit false

structure Diagnostic where
  span : Span
  reason : String
  deriving DecidableEq, Repr

def SyntaxError.diagnostic (e : SyntaxError) : Diagnostic := ⟨e.span, e.reason⟩

/-- The nearest part of a source of `length` characters that is not empty. -/
def Span.label (span : Span) (length : Nat) : Span :=
  let start := min span.start (length - 1)
  ⟨start, max (min (max span.stop start) length) (start + 1)⟩

def Span.holds (span : Span) (pos : Nat) : Bool := span.start ≤ pos && pos < span.stop

namespace Report

open Row

/-- The cells of the column `col`, the first of them as given and the others as a line. -/
def corner (line : Line) (col : Nat) (first : String) : Row :=
  red first :: List.replicate (line.width col - 1) (red "─")

def ruled (line : Line) (col : Nat) : Row := List.replicate (line.width col) (red "─")

def skipped (line : Line) (col : Nat) : Row := blanks (line.width col)

/-- The cells of one column of the source, whose character is `c`. -/
def sourceCells (label : Span) (line : Line) (c : Char) (col : Nat) : Row :=
  let glyph := if isBlank c then ' ' else c
  let paint := if label.holds (line.offset + col) then Paint.red else .dim
  List.replicate (line.width col) ⟨paint, String.singleton glyph⟩

def sourceRow (label : Span) (line : Line) : Row :=
  line.shown.zipIdx.flatMap fun (c, col) => sourceCells label line c col

def middle (label : Span) (line : Line) : Nat := (label.start + label.stop) / 2 - line.offset

/-- The columns over which underline and arrow are drawn. -/
def columns (label : Span) (line : Line) : List Nat := List.range (label.stop - line.offset + 2)

def underline (label : Span) (line : Line) : Row :=
  (columns label line).flatMap fun col =>
    if col = middle label line then corner line col "┬"
    else if label.holds (line.offset + col) then ruled line col
    else skipped line col

def arrow (label : Span) (line : Line) : Row :=
  (columns label line).flatMap fun col =>
    if col < middle label line then skipped line col
    else if col = middle label line then corner line col "╰"
    else ruled line col

/-- The number of cells over which the bracket's foot runs below its last line. -/
def footWidth (line : Line) : Nat :=
  (List.range (line.length + 3)).foldr (fun col cells => line.width col + cells) 0

def spaces (count : Nat) : String := String.ofList (List.replicate count ' ')

def dashes (count : Nat) : String := String.ofList (List.replicate count '─')

/-- The margin of a source line, its number right-aligned to `digits`. -/
def numberMargin (digits index : Nat) : Row :=
  let number := (index + 1).repr
  [plain " ", margin (spaces (digits - number.length) ++ number ++ " │"), plain " "]

/-- The margin of a row that holds no source line. -/
def signMargin (digits : Nat) (sign : String) : Row :=
  [plain " ", margin (spaces (digits + 1) ++ sign), plain " "]

def reasonPieces (reason : String) : Row := [plain " ", red reason]

def underlined (label : Span) (reason : String) (digits : Nat) (l : NumberedLine) : List Row :=
  [numberMargin digits l.index ++ sourceRow label l.line,
   signMargin digits "·" ++ underline label l.line,
   signMargin digits "·" ++ arrow label l.line ++ reasonPieces reason]

def bracketed (label : Span) (reason : String) (digits : Nat) (first last : NumberedLine) : List Row :=
  let gap := signMargin digits "⋮" ++ red "⋮" :: blanks 3
  let foot := 3 + footWidth last.line
  [numberMargin digits first.index ++ each .red "╭─▶ " ++ sourceRow label first.line] ++
  (if first.index + 1 < last.index then [gap] else []) ++
  [numberMargin digits last.index ++ each .red "├─▶ " ++ sourceRow label last.line,
   signMargin digits "·" ++ red "│" :: blanks foot,
   signMargin digits "·" ++ red "╰" :: List.replicate foot (red "─") ++ reasonPieces reason]

def body (label : Span) (reason : String) (digits : Nat) (first last : NumberedLine) : List Row :=
  if first.index = last.index then underlined label reason digits first
  else bracketed label reason digits first last

/-- The place of the label's first character, counted from one. -/
def location (label : Span) (first : NumberedLine) : String :=
  "<unknown>:" ++ (first.index + 1).repr ++ ":" ++ (label.start - first.line.offset + 1).repr

def rows (label : Span) (reason : String) (first last : NumberedLine) : List Row :=
  let digits := (last.index + 1).repr.length
  let indent := plain (spaces (digits + 2))
  [[red "Error:", plain (" " ++ reason)],
   indent :: each .margin "╭─[" ++ [plain (location label first), margin "]"],
   [indent, margin "│"]] ++
  body label reason digits first last ++
  [[margin (dashes (digits + 2) ++ "╯")]]

end Report

namespace Diagnostic

def rows? (d : Diagnostic) (source : String) : Option (List Row) := do
  let label := d.span.label source.length
  let first ← lineAt? source label.start
  let last ← lineAt? source (label.stop - 1)
  return Report.rows label d.reason first last

/-- The report on `source`, or nothing if the source is empty. -/
def report? (d : Diagnostic) (source : String) : Option String :=
  (d.rows? source).map fun rows => String.join (rows.map fun row => row.escaped ++ "\n")

end Diagnostic

end NamedLambda
