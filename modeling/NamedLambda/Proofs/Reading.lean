import NamedLambda.Proofs.Tokens
import NamedLambda.Reader

/-!
# Reading tokens one by one

Reading succeeds when the reader can take all tokens, whatever their places, and then has a
complete term. Parentheses around a term bring the reader back to where it was, with the term as
one more operand.
-/

namespace NamedLambda

set_option autoImplicit false

namespace Reader

def readAll? (r : Reader) (ts : List Token) : Option Reader := ts.foldlM next? r

theorem readAll?_nil (r : Reader) : r.readAll? [] = some r := rfl

theorem readAll?_cons (r : Reader) (t : Token) (ts : List Token) :
    r.readAll? (t :: ts) = (r.next? t).bind fun r' => r'.readAll? ts := List.foldlM_cons

theorem readAll?_append (r : Reader) (ts us : List Token) :
    r.readAll? (ts ++ us) = (r.readAll? ts).bind fun r' => r'.readAll? us := List.foldlM_append

theorem run_eq_ok_iff (length : Nat) (r : Reader) (ls : List Located) (t : Term) :
    r.run length ls = .ok t ↔ (r.readAll? (ls.map Located.token)).bind result? = some t := by
  induction ls generalizing r with
  | nil =>
    rw [run, List.map_nil, readAll?_nil, Option.bind_some]
    cases r.result? <;> simp
  | cons l ls ih =>
    rw [run, List.map_cons, readAll?_cons]
    cases r.next? l.token with
    | none => simp
    | some r' => exact ih r'

/-- Where the reader stands after the operands applied so far. -/
def afterHead : Option Term → Phase
  | none => .start
  | some t => .operand t

theorem next?_lparen (fs : List Frame) (bs : List Symbol) (head : Option Term) :
    next? ⟨fs, bs, afterHead head⟩ .lparen = some ⟨⟨bs, head⟩ :: fs, [], .start⟩ := by
  cases head <;> rfl

theorem next?_name (fs : List Frame) (bs : List Symbol) (head : Option Term) (x : Symbol) :
    next? ⟨fs, bs, afterHead head⟩ (.name x) = some ⟨fs, bs, .operand (applyHead head (.var x))⟩ := by
  cases head <;> rfl

/-- All that the reader can do with a token. -/
inductive Takes : Reader → Token → Reader → Prop where
  | name (fs : List Frame) (bs : List Symbol) (head : Option Term) (x : Symbol) :
      Takes ⟨fs, bs, afterHead head⟩ (.name x) ⟨fs, bs, .operand (applyHead head (.var x))⟩
  | lparen (fs : List Frame) (bs : List Symbol) (head : Option Term) :
      Takes ⟨fs, bs, afterHead head⟩ .lparen ⟨⟨bs, head⟩ :: fs, [], .start⟩
  | rparen (frame : Frame) (fs : List Frame) (bs : List Symbol) (t : Term) :
      Takes ⟨frame :: fs, bs, .operand t⟩ .rparen
        ⟨fs, frame.binders, .operand (applyHead frame.head (bindAll bs t))⟩
  | lambda (fs : List Frame) (bs : List Symbol) : Takes ⟨fs, bs, .start⟩ .lambda ⟨fs, bs, .binder⟩
  | firstBinder (fs : List Frame) (bs : List Symbol) (x : Symbol) :
      Takes ⟨fs, bs, .binder⟩ (.name x) ⟨fs, x :: bs, .header⟩
  | furtherBinder (fs : List Frame) (bs : List Symbol) (x : Symbol) :
      Takes ⟨fs, bs, .header⟩ (.name x) ⟨fs, x :: bs, .header⟩
  | dot (fs : List Frame) (bs : List Symbol) : Takes ⟨fs, bs, .header⟩ .dot ⟨fs, bs, .start⟩

theorem next?_eq_some_iff (r : Reader) (token : Token) (r' : Reader) :
    r.next? token = some r' ↔ Takes r token r' := by
  constructor
  · intro h
    obtain ⟨fs, bs, phase⟩ := r
    cases phase with
    | start =>
      cases token <;> cases h
      · exact .lparen fs bs none
      · exact .lambda fs bs
      · exact .name fs bs none _
    | binder =>
      cases token <;> cases h
      exact .firstBinder fs bs _
    | header =>
      cases token <;> cases h
      · exact .dot fs bs
      · exact .furtherBinder fs bs _
    | operand t =>
      cases token with
      | rparen =>
        cases fs <;> cases h
        exact .rparen _ _ bs t
      | lparen =>
        cases h
        exact .lparen fs bs (some t)
      | name x =>
        cases h
        exact .name fs bs (some t) x
      | dot => cases h
      | lambda => cases h
  · intro h
    cases h with
    | name fs bs head x => exact next?_name fs bs head x
    | lparen fs bs head => exact next?_lparen fs bs head
    | rparen => rfl
    | lambda => rfl
    | firstBinder => rfl
    | furtherBinder => rfl
    | dot => rfl

theorem readAll?_parenthesized {fs : List Frame} {bs bs' : List Symbol} {head : Option Term}
    {u : Term} {ts : List Token}
    (h : readAll? ⟨⟨bs, head⟩ :: fs, [], .start⟩ ts = some ⟨⟨bs, head⟩ :: fs, bs', .operand u⟩) :
    readAll? ⟨fs, bs, afterHead head⟩ (.lparen :: ts ++ [.rparen]) =
      some ⟨fs, bs, .operand (applyHead head (bindAll bs' u))⟩ := by
  rw [List.cons_append, readAll?_cons, next?_lparen, Option.bind_some, readAll?_append, h,
    Option.bind_some]
  rfl

end Reader

theorem Term.parse_eq_ok_iff (text : String) (t : Term) :
    parse text = .ok t ↔ (Reader.initial.readAll? (tokenList text.toList)).bind Reader.result? = some t := by
  have hRun := Reader.run_eq_ok_iff text.length Reader.initial (tokens text) t
  simp only [parse]
  split
  case isTrue hEmpty =>
    have hTokens : tokenList text.toList = [] := congrArg _ (List.isEmpty_iff.mp hEmpty)
    rw [hTokens]
    exact ⟨nofun, nofun⟩
  case isFalse => exact hRun

end NamedLambda
