import NamedLambda.Proofs.Reading

/-!
# Viable token sequences

A token sequence is viable when some text that is a term has these tokens in front, and complete when
they are all its tokens. Every token sequence is that of some text, so only the reader matters: a
sequence is viable exactly when the reader can take it. From wherever the reader stands there is a
way to the end of a term, which finishes a header, puts a name where an operand is missing and closes
the open parentheses.
-/

namespace NamedLambda

set_option autoImplicit false

/-- A text with the given tokens, each followed by a blank. -/
def spell : List Token → List Char
  | [] => []
  | token :: ts => token.text.toList ++ ' ' :: spell ts

theorem tokenList_text_append (token : Token) {rest : List Char} (h : EndsName rest) :
    tokenList (token.text.toList ++ rest) = token :: tokenList rest := by
  cases token with
  | lparen => exact tokenList_cons_of_ofChar? rfl rest
  | rparen => exact tokenList_cons_of_ofChar? rfl rest
  | dot => exact tokenList_cons_of_ofChar? rfl rest
  | lambda => exact tokenList_cons_of_ofChar? rfl rest
  | name x => exact tokenList_name_append x h

theorem tokenList_spell (ts : List Token) : tokenList (spell ts) = ts := by
  induction ts with
  | nil => exact tokenList_nil
  | cons token ts ih =>
    have hBlank : EndsName (' ' :: spell ts) := endsName_cons (by decide) _
    rw [spell, tokenList_text_append token hBlank, tokenList_cons_of_isBlank (by decide), ih]

def Viable (ts : List Token) : Prop :=
  ∃ text t, Term.parse text = .ok t ∧ ts <+: tokenList text.toList

def Complete (ts : List Token) : Prop :=
  ∃ text t, Term.parse text = .ok t ∧ tokenList text.toList = ts

/-- Whether a token, or the end of the text, can stand after the tokens `ts`. -/
def Admits (ts : List Token) : Option Token → Prop
  | some token => Viable (ts ++ [token])
  | none => Complete ts

theorem exists_text_of_accepted {ts : List Token} {t : Term}
    (h : (Reader.initial.readAll? ts).bind Reader.result? = some t) :
    ∃ text, Term.parse text = .ok t ∧ tokenList text.toList = ts := by
  have hTokens : tokenList (String.ofList (spell ts)).toList = ts := by
    rw [String.toList_ofList, tokenList_spell]
  refine ⟨String.ofList (spell ts), ?_, hTokens⟩
  rw [Term.parse_eq_ok_iff, hTokens]
  exact h

namespace Reader

/-- Tokens that lead from a phase to a complete operand. -/
def toOperand (x : Symbol) : Phase → List Token
  | .start => [.name x]
  | .binder => [.name x, .dot, .name x]
  | .header => [.dot, .name x]
  | .operand _ => []

theorem exists_readAll?_toOperand (r : Reader) (x : Symbol) :
    ∃ bs t, r.readAll? (toOperand x r.phase) = some ⟨r.frames, bs, .operand t⟩ := by
  obtain ⟨fs, bs, phase⟩ := r
  cases phase with
  | start => exact ⟨bs, .var x, rfl⟩
  | binder => exact ⟨x :: bs, .var x, rfl⟩
  | header => exact ⟨bs, .var x, rfl⟩
  | operand t => exact ⟨bs, t, rfl⟩

theorem exists_readAll?_rparens (fs : List Frame) (bs : List Symbol) (t : Term) :
    ∃ bs' u, readAll? ⟨fs, bs, .operand t⟩ (List.replicate fs.length .rparen) =
      some ⟨[], bs', .operand u⟩ := by
  induction fs generalizing bs t with
  | nil => exact ⟨bs, t, rfl⟩
  | cons frame fs ih => exact ih frame.binders (applyHead frame.head (bindAll bs t))

theorem exists_completion (r : Reader) : ∃ ts t, (r.readAll? ts).bind result? = some t := by
  obtain ⟨x⟩ : Nonempty Symbol := ⟨.literal "x"⟩
  obtain ⟨bs, t, hOperand⟩ := r.exists_readAll?_toOperand x
  obtain ⟨bs', u, hClosed⟩ := exists_readAll?_rparens r.frames bs t
  refine ⟨toOperand x r.phase ++ List.replicate r.frames.length .rparen, bindAll bs' u, ?_⟩
  rw [readAll?_append, hOperand, Option.bind_some, hClosed]
  rfl

/-- Whether the reader can take a token, or end where it stands. -/
def accepts (r : Reader) : Option Token → Bool
  | some token => (r.next? token).isSome
  | none => r.result?.isSome

end Reader

theorem viable_iff (ts : List Token) : Viable ts ↔ (Reader.initial.readAll? ts).isSome = true := by
  constructor
  · rintro ⟨text, t, hParse, rest, hTokens⟩
    rw [Term.parse_eq_ok_iff, ← hTokens, Reader.readAll?_append] at hParse
    cases hRead : Reader.initial.readAll? ts with
    | some r => rfl
    | none =>
      rw [hRead] at hParse
      cases hParse
  · intro h
    obtain ⟨r, hRead⟩ := Option.isSome_iff_exists.mp h
    obtain ⟨rest, t, hRest⟩ := r.exists_completion
    have hAccepted : (Reader.initial.readAll? (ts ++ rest)).bind Reader.result? = some t := by
      rw [Reader.readAll?_append, hRead]
      exact hRest
    obtain ⟨text, hParse, hTokens⟩ := exists_text_of_accepted hAccepted
    exact ⟨text, t, hParse, rest, hTokens.symm⟩

theorem complete_iff (ts : List Token) :
    Complete ts ↔ ((Reader.initial.readAll? ts).bind Reader.result?).isSome = true := by
  constructor
  · rintro ⟨text, t, hParse, rfl⟩
    rw [(Term.parse_eq_ok_iff text t).mp hParse]
    rfl
  · intro h
    obtain ⟨t, ht⟩ := Option.isSome_iff_exists.mp h
    obtain ⟨text, hParse, hTokens⟩ := exists_text_of_accepted ht
    exact ⟨text, t, hParse, hTokens⟩

/-- What can stand after viable tokens is what the reader can take after them. -/
theorem admits_iff {ts : List Token} {r : Reader} (h : Reader.initial.readAll? ts = some r)
    (found : Option Token) : Admits ts found ↔ r.accepts found = true := by
  cases found with
  | none =>
    rw [Admits, complete_iff, h]
    rfl
  | some token =>
    rw [Admits, viable_iff, Reader.readAll?_append, h, Option.bind_some, Reader.readAll?_cons, Reader.accepts]
    cases r.next? token <;> rfl

end NamedLambda
