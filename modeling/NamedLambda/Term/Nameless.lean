import NamedLambda.Term.Alpha

/-!
# Nameless forms

In the nameless form of a term a bound variable is the number of binders between it and its own,
and a free variable keeps its name. Two terms are equal up to bound names exactly when their
nameless forms are equal.
-/

namespace NamedLambda

set_option autoImplicit false

inductive Nameless where
  | bound (distance : Nat)
  | free (x : Symbol)
  | abs (body : Nameless)
  | app (fn arg : Nameless)
  deriving DecidableEq

namespace Nameless

/-- The variable `x` below the binders `xs`, innermost first. -/
def resolve (xs : List Symbol) (x : Symbol) : Nameless :=
  match xs.idxOf? x with
  | some i => bound i
  | none => free x

def replaceFree (x : Symbol) (r : Nameless) : Nameless → Nameless
  | bound i => bound i
  | free y => if y = x then r else free y
  | abs body => abs (replaceFree x r body)
  | app fn arg => app (replaceFree x r fn) (replaceFree x r arg)

theorem resolve_ne_abs (xs : List Symbol) (x : Symbol) (body : Nameless) : resolve xs x ≠ abs body := by
  unfold resolve
  cases xs.idxOf? x <;> simp

theorem resolve_ne_app (xs : List Symbol) (x : Symbol) (fn arg : Nameless) :
    resolve xs x ≠ app fn arg := by
  unfold resolve
  cases xs.idxOf? x <;> simp

end Nameless

theorem sameVariable_iff_resolve_eq (xs ys : List Symbol) (x y : Symbol) :
    sameVariable xs ys x y = true ↔ Nameless.resolve xs x = Nameless.resolve ys y := by
  unfold sameVariable Nameless.resolve
  cases xs.idxOf? x <;> cases ys.idxOf? y <;> simp

namespace Term

def namelessUnder (xs : List Symbol) : Term → Nameless
  | var x => .resolve xs x
  | abs x body => .abs (body.namelessUnder (x :: xs))
  | app fn arg => .app (fn.namelessUnder xs) (arg.namelessUnder xs)

def nameless (t : Term) : Nameless := t.namelessUnder []

theorem alphaEqUnder_iff (xs ys : List Symbol) (t u : Term) :
    alphaEqUnder xs ys t u = true ↔ t.namelessUnder xs = u.namelessUnder ys := by
  induction t generalizing xs ys u with
  | var x =>
    cases u with
    | var y => exact sameVariable_iff_resolve_eq xs ys x y
    | abs y u => simp [alphaEqUnder, namelessUnder, Nameless.resolve_ne_abs]
    | app g b => simp [alphaEqUnder, namelessUnder, Nameless.resolve_ne_app]
  | abs x t ih =>
    cases u with
    | var y => simpa [alphaEqUnder, namelessUnder] using (Nameless.resolve_ne_abs ys y _).symm
    | abs y u => simp [alphaEqUnder, namelessUnder, ih]
    | app g b => simp [alphaEqUnder, namelessUnder]
  | app f a ihFn ihArg =>
    cases u with
    | var y => simpa [alphaEqUnder, namelessUnder] using (Nameless.resolve_ne_app ys y _ _).symm
    | abs y u => simp [alphaEqUnder, namelessUnder]
    | app g b => simp [alphaEqUnder, namelessUnder, ihFn, ihArg]

theorem alphaEq_iff_nameless_eq (t u : Term) : t.alphaEq u = true ↔ t.nameless = u.nameless :=
  alphaEqUnder_iff [] [] t u

end Term

end NamedLambda
