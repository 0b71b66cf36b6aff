import NamedLambda.SyntaxError
import NamedLambda.Term

/-!
# Reading terms

A term is a header `λ x … y .` followed by a term, or a row of operands, applied from the left; an
operand is a name or a term in parentheses. The reader takes the tokens one by one and keeps,
for every open parenthesis, what stands before it.
-/

namespace NamedLambda

set_option autoImplicit false

/-- What stands before an open parenthesis: the binders of the headers read since the parenthesis
around it, innermost first, and the application read so far. -/
structure Frame where
  binders : List Symbol
  head : Option Term
  deriving DecidableEq

inductive Phase where
  | start
  | binder
  | header
  | operand (t : Term)
  deriving DecidableEq

/-- The open parentheses, innermost first, the binders read since the last of them, innermost
first, and where the reader stands after these. -/
structure Reader where
  frames : List Frame
  binders : List Symbol
  phase : Phase
  deriving DecidableEq

def applyHead (head : Option Term) (operand : Term) : Term :=
  match head with
  | none => operand
  | some fn => .app fn operand

/-- Puts a body under binders listed innermost first. -/
def bindAll (binders : List Symbol) (body : Term) : Term := binders.foldl (fun t x => .abs x t) body

namespace Reader

def initial : Reader := ⟨[], [], .start⟩

def place (r : Reader) : Place :=
  match r.phase with
  | .start => .start
  | .binder => .binder
  | .header => .header
  | .operand _ => if r.frames.isEmpty then .outermost else .nested

def next? (r : Reader) (token : Token) : Option Reader :=
  match r.phase, token with
  | .start, .name x => some { r with phase := .operand (.var x) }
  | .start, .lparen => some ⟨⟨r.binders, none⟩ :: r.frames, [], .start⟩
  | .start, .lambda => some { r with phase := .binder }
  | .binder, .name x => some { r with binders := x :: r.binders, phase := .header }
  | .header, .name x => some { r with binders := x :: r.binders }
  | .header, .dot => some { r with phase := .start }
  | .operand t, .name x => some { r with phase := .operand (.app t (.var x)) }
  | .operand t, .lparen => some ⟨⟨r.binders, some t⟩ :: r.frames, [], .start⟩
  | .operand t, .rparen =>
    match r.frames with
    | [] => none
    | frame :: frames => some ⟨frames, frame.binders, .operand (applyHead frame.head (bindAll r.binders t))⟩
  | _, _ => none

def result? (r : Reader) : Option Term :=
  match r.phase, r.frames with
  | .operand t, [] => some (bindAll r.binders t)
  | _, _ => none

/-- Reads the rest of a text of `length` characters. -/
def run (length : Nat) (r : Reader) : List Located → Except SyntaxError Term
  | [] =>
    match r.result? with
    | some t => .ok t
    | none => .error (.unexpected none ⟨length, length + 1⟩ r.place)
  | l :: ls =>
    match r.next? l.token with
    | some r' => run length r' ls
    | none => .error (.unexpected (some l.token) l.span r.place)

end Reader

def Term.parse (text : String) : Except SyntaxError Term :=
  let located := tokens text
  if located.isEmpty then .error (.empty text.length)
  else Reader.initial.run text.length located

end NamedLambda
