import NamedLambda.Term.Alpha
import NamedLambda.Term.Printer

/-!
# Looking at terms

What can be seen of one term, and how two terms compare.
-/

namespace NamedLambda

set_option autoImplicit false

structure Inspection where
  term : Term
  freeVars : NameSet
  hasRedex : Bool
  /-- for each name asked about, whether it is free -/
  areFree : Option (List Bool)
  deriving DecidableEq

structure Comparison where
  equal : Bool
  alphaEqual : Bool
  deriving DecidableEq, Repr

namespace Term

def inspect (t : Term) (names : Option (List Symbol)) : Inspection :=
  ⟨t, t.freeVars, t.hasRedex, names.map fun xs => xs.map fun x => t.hasFree x⟩

def compare (t u : Term) : Comparison := ⟨decide (t = u), t.alphaEq u⟩

end Term

end NamedLambda
