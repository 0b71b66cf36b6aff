import NamedLambda.Term

/-!
# The written form of terms

Every application is written in parentheses. An abstraction extends as far right as possible, so
it gets parentheses of its own on either side of an application and nowhere else.
-/

namespace NamedLambda.Term

set_option autoImplicit false

/-- How the text of a term is written as a side of an application. -/
def operandText (isAbs : Bool) (text : String) : String :=
  if isAbs then "(" ++ text ++ ")" else text

def toText : Term → String
  | var x => x.name
  | abs x body => "λ" ++ x.name ++ "." ++ body.toText
  | app fn arg => "(" ++ operandText fn.isAbs fn.toText ++ " " ++ operandText arg.isAbs arg.toText ++ ")"

/-- The nodes from the root down, a function before its argument, put in front of `rest`. -/
def nodesOnto : Term → List String → List String
  | var x, rest => ("=" ++ x.name) :: rest
  | abs x body, rest => ("\\" ++ x.name) :: body.nodesOnto rest
  | app fn arg, rest => "@" :: fn.nodesOnto (arg.nodesOnto rest)

def nodes (t : Term) : List String := t.nodesOnto []

end NamedLambda.Term
