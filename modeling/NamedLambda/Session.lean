import NamedLambda.Error
import NamedLambda.Inspection
import NamedLambda.Reduction.Event

/-!
# Sessions

A session stores terms and step sequences and answers commands about them. Both are only ever
added to, and a stored term never changes. A command that fails leaves the session as it was;
a reduction that runs into its bound stores the last term it reached.
-/

namespace NamedLambda

set_option autoImplicit false

structure Session where
  terms : Array Term
  sequences : Array Steps
  deriving DecidableEq

/-- Terms and sequences are given by their index. -/
inductive Command where
  | parse (text : String)
  | var (name : String)
  | abs (name : String) (body : Nat)
  | app (fn arg : Nat)
  | subst (term : Nat) (name : String) (replacement : Nat)
  | beta (fn arg : Nat)
  | step (term : Nat)
  | reduce (term maxSteps : Nat)
  | start (term : Nat)
  | fork (sequence : Nat)
  | next (sequence : Nat)
  | reparse (term : Nat)
  | inspect (term : Nat) (names : Option (List String))
  | compare (left right : Nat)
  deriving DecidableEq, Repr

inductive Failure where
  | error (e : Error)
  | noSuchTerm
  | noSuchSequence
  deriving DecidableEq

def Failure.message : Failure → String
  | error e => e.message
  | noSuchTerm => "no such term"
  | noSuchSequence => "no such iter"

inductive Reply where
  | stored (id : Nat) (term : Term)
  | reduced (id : Nat) (result : Reduced)
  | limited (id : Nat) (limit : StepLimit)
  | ended
  | sequence (index : Nat)
  | inspected (inspection : Inspection)
  | compared (comparison : Comparison)
  | failed (failure : Failure)
  deriving DecidableEq

namespace Session

def empty : Session := ⟨#[], #[]⟩

def term (s : Session) (id : Nat) : Except Failure Term :=
  match s.terms[id]? with
  | some t => .ok t
  | none => .error .noSuchTerm

def sequence (s : Session) (index : Nat) : Except Failure Steps :=
  match s.sequences[index]? with
  | some steps => .ok steps
  | none => .error .noSuchSequence

def addTerm (s : Session) (t : Term) : Session := { s with terms := s.terms.push t }

def addSequence (s : Session) (steps : Steps) : Session := { s with sequences := s.sequences.push steps }

def store (s : Session) (t : Term) : Session × Reply := (s.addTerm t, .stored s.terms.size t)

def storeSome (s : Session) : Option Term → Session × Reply
  | some t => s.store t
  | none => (s, .ended)

def storeReduced (s : Session) : Except StepLimit Reduced → Session × Reply
  | .ok result => (s.addTerm result.term, .reduced s.terms.size result)
  | .error limit => (s.addTerm limit.last, .limited s.terms.size limit)

def startSequence (s : Session) (steps : Steps) : Session × Reply :=
  (s.addSequence steps, .sequence s.sequences.size)

def advance (s : Session) (index : Nat) (steps : Steps) : Session × Reply :=
  match steps.next? with
  | some (t, rest) => { s with sequences := s.sequences.setIfInBounds index rest }.store t
  | none => (s, .ended)

def symbol (name : String) : Except Failure Symbol := (readSymbol name).mapError .error

def symbols (names : Option (List String)) : Except Failure (Option (List Symbol)) :=
  match names with
  | some names => ((readSymbols names).mapError .error).map some
  | none => .ok none

def attempt (s : Session) : Command → Except Failure (Session × Reply)
  | .parse text => do
    let t ← (readTerm text).mapError .error
    return s.store t
  | .var name => do
    let x ← symbol name
    return s.store (.var x)
  | .abs name body => do
    let x ← symbol name
    let t ← s.term body
    return s.store (.abs x t)
  | .app fn arg => do
    let f ← s.term fn
    let a ← s.term arg
    return s.store (.app f a)
  | .subst term name replacement => do
    let t ← s.term term
    let x ← symbol name
    let r ← s.term replacement
    return s.store (t.subst x r)
  | .beta fn arg => do
    let f ← s.term fn
    let a ← s.term arg
    return s.storeSome (Term.beta f a)
  | .step term => do
    let t ← s.term term
    return s.storeSome t.step?
  | .reduce term maxSteps => do
    let t ← s.term term
    return s.storeReduced (t.reduceCounted maxSteps)
  | .start term => do
    let t ← s.term term
    return s.startSequence t.steps
  | .fork sequence => do
    let steps ← s.sequence sequence
    return s.startSequence steps
  | .next sequence => do
    let steps ← s.sequence sequence
    return s.advance sequence steps
  | .reparse term => do
    let t ← s.term term
    let u ← (readTerm t.toText).mapError .error
    return s.store u
  | .inspect term names => do
    let t ← s.term term
    let xs ← symbols names
    return (s, .inspected (t.inspect xs))
  | .compare left right => do
    let t ← s.term left
    let u ← s.term right
    return (s, .compared (t.compare u))

def exec (s : Session) (c : Command) : Session × Reply :=
  match s.attempt c with
  | .ok outcome => outcome
  | .error failure => (s, .failed failure)

def execAll (s : Session) : List Command → Session × List Reply
  | [] => (s, [])
  | c :: cs =>
    let (s', reply) := s.exec c
    let (last, replies) := s'.execAll cs
    (last, reply :: replies)

/-- What happens during a command that does not fail before it starts. -/
def commandEvents (s : Session) (c : Command) : Except Failure (List Event) :=
  match c with
  | .subst term name replacement => do
    let t ← s.term term
    let x ← symbol name
    let r ← s.term replacement
    return t.substEvents x r
  | .beta fn arg => do
    let f ← s.term fn
    let a ← s.term arg
    return Term.betaEvents f a
  | .step term => do
    let t ← s.term term
    return t.stepEvents
  | .reduce term maxSteps => do
    let t ← s.term term
    return t.reduceEvents maxSteps
  | .next sequence => do
    let steps ← s.sequence sequence
    return steps.takeEvents 1
  | _ => .ok []

def events (s : Session) (c : Command) : List Event := (s.commandEvents c).toOption.getD []

def eventsAll (s : Session) : List Command → List Event
  | [] => []
  | c :: cs => s.events c ++ (s.exec c).1.eventsAll cs

end Session

end NamedLambda
