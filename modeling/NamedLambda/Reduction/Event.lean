import NamedLambda.Reduction.Bounded
import NamedLambda.Reduction.Steps
import NamedLambda.Term.Printer

/-!
# What happens during substitution and reduction

An event is a renamed binder, a step of a bounded reduction, or the end of one without a normal
form. The events of an operation are listed in the order in which they happen, apart from
the operation's result.
-/

namespace NamedLambda

set_option autoImplicit false

inductive Event where
  | renamed (change : Term.Renaming)
  | stepped (count : Nat) (term : Term)
  | gaveUp (limit : StepLimit)
  deriving DecidableEq

inductive Level where
  | debug
  | trace
  deriving DecidableEq, Repr

def Level.label : Level → String
  | debug => "DEBUG"
  | trace => "TRACE"

namespace Event

def level : Event → Level
  | renamed _ => .debug
  | stepped _ _ => .trace
  | gaveUp _ => .debug

def message : Event → String
  | renamed e =>
    "Renaming binder " ++ e.binder.name ++ " to " ++ e.fresh.name ++ ", " ++ e.binder.name ++
      " is free in " ++ e.replacement.toText
  | stepped count term => "step " ++ count.repr ++ ": " ++ term.toText
  | gaveUp limit => "Gave up after " ++ limit.maxSteps.repr ++ " steps at " ++ limit.last.toText

end Event

namespace Term

def substEvents (t : Term) (x : Symbol) (r : Term) : List Event := (renamings x r t).map .renamed

def betaEvents (fn arg : Term) : List Event := (betaRenamings fn arg).map .renamed

def stepEvents (t : Term) : List Event := t.stepRenamings.map .renamed

def reduceEventsFrom (maxSteps done : Nat) (t : Term) : (left : Nat) → List Event
  | 0 => if t.hasRedex then [.gaveUp ⟨maxSteps, t⟩] else []
  | left + 1 =>
    match t.step? with
    | some u => t.stepEvents ++ .stepped (done + 1) u :: reduceEventsFrom maxSteps (done + 1) u left
    | none => []

def reduceEvents (t : Term) (maxSteps : Nat) : List Event := reduceEventsFrom maxSteps 0 t maxSteps

end Term

def Steps.takeEvents (s : Steps) : Nat → List Event
  | 0 => []
  | n + 1 =>
    match s.next? with
    | none => []
    | some (_, rest) => s.current.stepEvents ++ rest.takeEvents n

end NamedLambda
