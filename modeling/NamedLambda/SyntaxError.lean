import NamedLambda.Token

/-!
# Syntax errors

A text that is no term either has no token, or has a first token that cannot go on from what
stands before it, where the end of the text counts as a token. The reason given for an error
names what was found and what could have stood there instead of it.
-/

namespace NamedLambda

set_option autoImplicit false

/-- Where the next token stands: at the start of a term, right after a lambda, after a lambda and
names, or after a complete operand, inside parentheses or outside all of them. -/
inductive Place where
  | start
  | binder
  | header
  | nested
  | outermost
  deriving DecidableEq, Repr

def endOfInput : String := "end of input"

/-- What can stand at a place. Names are mentioned only where nothing else can stand. -/
def Place.expected : Place → List String
  | start => ["(", "λ"]
  | binder => ["name"]
  | header => ["."]
  | nested => ["(", ")"]
  | outermost => ["(", endOfInput]

inductive SyntaxError where
  /-- a text of `length` characters without any token -/
  | empty (length : Nat)
  /-- a token, or the end of the text, that cannot stand at its place -/
  | unexpected (found : Option Token) (span : Span) (place : Place)
  deriving DecidableEq

namespace SyntaxError

def span : SyntaxError → Span
  | empty length => ⟨0, length⟩
  | unexpected _ span _ => span

def position (e : SyntaxError) : Nat := e.span.start

def foundText (found : Option Token) : String := (found.map Token.text).getD endOfInput

def reason : SyntaxError → String
  | empty _ => "Empty term"
  | unexpected found _ place =>
    "Unexpected " ++ foundText found ++ ", expected " ++ ", ".intercalate place.expected

def message (e : SyntaxError) : String :=
  "Syntax error at " ++ e.position.repr ++ ": " ++ e.reason

end SyntaxError

end NamedLambda
