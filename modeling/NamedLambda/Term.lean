import NamedLambda.NameSet

/-!
# Terms

Terms of the untyped λ-calculus with named variables. Equality is equality of trees; equality
up to bound names is a separate relation.
-/

namespace NamedLambda

set_option autoImplicit false

inductive Term where
  | var (x : Symbol)
  | abs (x : Symbol) (body : Term)
  | app (fn arg : Term)
  deriving DecidableEq

namespace Term

def size : Term → Nat
  | var _ => 1
  | abs _ body => body.size + 1
  | app fn arg => fn.size + arg.size + 1

theorem size_pos (t : Term) : 0 < t.size := by
  cases t <;> simp [size]

def isAbs : Term → Bool
  | abs _ _ => true
  | _ => false

def freeVars : Term → NameSet
  | var x => .singleton x
  | abs x body => body.freeVars.erase x
  | app fn arg => fn.freeVars.union arg.freeVars

/-- Whether `x` occurs free, found without building the set of free variables. -/
def hasFree (x : Symbol) : Term → Bool
  | var y => y = x
  | abs y body => y ≠ x && body.hasFree x
  | app fn arg => fn.hasFree x || arg.hasFree x

theorem hasFree_iff_mem_freeVars {x : Symbol} {t : Term} : t.hasFree x = true ↔ x ∈ t.freeVars := by
  induction t with
  | var y => simp [hasFree, freeVars, eq_comm]
  | abs y body ih =>
    simp only [hasFree, freeVars, Bool.and_eq_true, decide_eq_true_eq, ih, NameSet.mem_erase]
    exact ⟨fun h => ⟨h.2, h.1.symm⟩, fun h => ⟨h.2.symm, h.1⟩⟩
  | app fn arg ihFn ihArg => simp [hasFree, freeVars, ihFn, ihArg]

def hasRedex : Term → Bool
  | var _ => false
  | abs _ body => body.hasRedex
  | app fn arg => fn.isAbs || fn.hasRedex || arg.hasRedex

end Term

end NamedLambda
