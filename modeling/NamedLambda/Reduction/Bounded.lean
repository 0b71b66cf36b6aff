import NamedLambda.Reduction.Step

/-!
# Reduction within a bound

Steps are taken until no redex is left or the bound is used up. Using up the bound is a failure
only if a redex is left; the failure carries the last term, from which reduction may go on.
-/

namespace NamedLambda

set_option autoImplicit false

structure Reduced where
  term : Term
  steps : Nat
  deriving DecidableEq

/-- No normal form was reached: `last` is what `maxSteps` steps gave. -/
structure StepLimit where
  maxSteps : Nat
  last : Term
  deriving DecidableEq

def StepLimit.message (e : StepLimit) : String := "No normal form within " ++ e.maxSteps.repr ++ " steps"

namespace Term

/-- Goes on from `t` after `done` of `maxSteps` steps, with `left` of them still to take. -/
def reduceFrom (maxSteps done : Nat) (t : Term) : (left : Nat) → Except StepLimit Reduced
  | 0 => if t.hasRedex then .error ⟨maxSteps, t⟩ else .ok ⟨t, done⟩
  | left + 1 =>
    match t.step? with
    | some u => reduceFrom maxSteps (done + 1) u left
    | none => .ok ⟨t, done⟩

def reduceCounted (t : Term) (maxSteps : Nat) : Except StepLimit Reduced :=
  reduceFrom maxSteps 0 t maxSteps

def reduceToNormalForm (t : Term) (maxSteps : Nat) : Except StepLimit Term :=
  (t.reduceCounted maxSteps).map Reduced.term

def defaultMaxSteps : Nat := 10000

def normalize (t : Term) : Except StepLimit Term := t.reduceToNormalForm defaultMaxSteps

end Term

end NamedLambda
