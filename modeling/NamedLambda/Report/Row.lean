/-!
# Painted rows

A row of a report is a list of pieces of text, each painted by itself in one colour or left plain.
Paint is written as terminal escape sequences around the text.
-/

namespace NamedLambda

set_option autoImplicit false

inductive Paint where
  | plain
  | red
  | margin
  | dim
  deriving DecidableEq, Repr

def Paint.code : Paint → String
  | plain => ""
  | red => "31"
  | margin => "38;5;246"
  | dim => "38;5;249"

structure Piece where
  paint : Paint
  text : String
  deriving DecidableEq, Repr

namespace Piece

def escaped (p : Piece) : String :=
  match p.paint with
  | .plain => p.text
  | paint => "\x1b[" ++ paint.code ++ "m" ++ p.text ++ "\x1b[0m"

end Piece

abbrev Row := List Piece

namespace Row

def plain (text : String) : Piece := ⟨.plain, text⟩

def red (text : String) : Piece := ⟨.red, text⟩

def margin (text : String) : Piece := ⟨.margin, text⟩

def blanks (count : Nat) : Row := List.replicate count (plain " ")

/-- The characters of a text, each painted by itself. -/
def each (paint : Paint) (text : String) : Row := text.toList.map fun c => ⟨paint, String.singleton c⟩

def escaped (row : Row) : String := String.join (row.map Piece.escaped)

def text (row : Row) : String := String.join (row.map Piece.text)

end Row

end NamedLambda
