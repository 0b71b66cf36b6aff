import NamedLambda.Reader
import NamedLambda.Reduction.Bounded

/-!
# Errors

The ways in which an operation can fail: a text that is no symbol, a text that is no term, and a
reduction that does not end within its bound.
-/

namespace NamedLambda

set_option autoImplicit false

inductive Error where
  | badName (e : Symbol.Invalid)
  | malformed (e : SyntaxError)
  | stepLimit (e : StepLimit)
  deriving DecidableEq

def Error.message : Error → String
  | badName e => e.message
  | malformed e => e.message
  | stepLimit e => e.message

theorem mapError_eq_ok_iff {ε ε' α : Type} {x : Except ε α} {f : ε → ε'} {a : α} :
    x.mapError f = .ok a ↔ x = .ok a := by
  cases x with
  | error e => exact ⟨nofun, nofun⟩
  | ok b =>
    constructor
    · rintro ⟨⟩
      rfl
    · rintro ⟨⟩
      rfl

def readSymbol (text : String) : Except Error Symbol := (Symbol.ofString text).mapError .badName

/-- Reads names in order, up to the first that is none. -/
def readSymbols (texts : List String) : Except Error (List Symbol) := texts.mapM readSymbol

def readTerm (text : String) : Except Error Term := (Term.parse text).mapError .malformed

end NamedLambda
