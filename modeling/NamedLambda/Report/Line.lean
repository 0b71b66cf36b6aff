import NamedLambda.Blank

/-!
# Source lines

A source is cut into lines at line feeds. A line feed belongs to the line that it ends, and one
at the very end of the source starts no further line. Columns count characters from zero.
-/

namespace NamedLambda

set_option autoImplicit false

/-- A line that starts at `offset` and has `length` characters before its line feed. What is drawn
of it are the characters up to the blanks at its end. -/
structure Line where
  offset : Nat
  length : Nat
  shown : List Char
  deriving DecidableEq

def trimEnd (cs : List Char) : List Char := (cs.reverse.dropWhile isBlank).reverse

def Line.ofChars (offset : Nat) (cs : List Char) : Line := ⟨offset, cs.length, trimEnd cs⟩

def isLineChar (c : Char) : Bool := c ≠ '\n'

/-- The lines of a source whose first character stands at `offset`. -/
def linesFrom (offset : Nat) (cs : List Char) : List Line :=
  if h : cs = [] then []
  else
    let line := cs.takeWhile isLineChar
    .ofChars offset line :: linesFrom (offset + line.length + 1) ((cs.dropWhile isLineChar).drop 1)
termination_by cs.length
decreasing_by
  have hPos := List.length_pos_iff.mpr h
  have hLe := (List.dropWhile_sublist isLineChar (l := cs)).length_le
  rw [List.length_drop]
  omega

def lines (source : String) : List Line := linesFrom 0 source.toList

namespace Line

/-- Whether the character at `pos` stands on the line, as its line feed does. -/
def holds (line : Line) (pos : Nat) : Bool :=
  line.offset ≤ pos && pos ≤ line.offset + line.length

/-- How many cells the column `col` takes: a tab fills up to a multiple of four. -/
def width (line : Line) (col : Nat) : Nat :=
  if line.shown[col]? = some '\t' then 4 - col % 4 else 1

end Line

structure NumberedLine where
  index : Nat
  line : Line
  deriving DecidableEq

def lineAt? (source : String) (pos : Nat) : Option NumberedLine :=
  (lines source).zipIdx.findSome? fun (line, index) =>
    if line.holds pos then some ⟨index, line⟩ else none

end NamedLambda
