import NamedLambda.Term

/-!
# Equality up to bound names

Two variables correspond when they point to binders at the same distance, or when both are free
and have the same name. The binders passed on the way down are kept as two lists, innermost first.
-/

namespace NamedLambda

set_option autoImplicit false

/-- Whether `x` below the binders `xs` and `y` below the binders `ys` are the same variable. -/
def sameVariable (xs ys : List Symbol) (x y : Symbol) : Bool :=
  match xs.idxOf? x, ys.idxOf? y with
  | none, none => x = y
  | i, j => i = j

namespace Term

def alphaEqUnder (xs ys : List Symbol) : Term → Term → Bool
  | var x, var y => sameVariable xs ys x y
  | abs x t, abs y u => alphaEqUnder (x :: xs) (y :: ys) t u
  | app f a, app g b => alphaEqUnder xs ys f g && alphaEqUnder xs ys a b
  | _, _ => false

def alphaEq (t u : Term) : Bool := alphaEqUnder [] [] t u

end Term

end NamedLambda
