import NamedLambda.Proofs.Reading
import NamedLambda.Term.Printer

/-!
# Reading back what was written

The written form of a term is cut into tokens and these are read one by one. An operand leaves the
reader where it was, with the operand applied to what stood there; a whole term leaves it with the
binders of the term's header still open. So the written form of a term reads as the term.
-/

namespace NamedLambda

set_option autoImplicit false

namespace Term

def operandTokens (isAbs : Bool) (ts : List Token) : List Token :=
  if isAbs then .lparen :: ts ++ [.rparen] else ts

/-- The tokens of the written form. -/
def writtenTokens : Term → List Token
  | var x => [.name x]
  | abs x body => .lambda :: .name x :: .dot :: body.writtenTokens
  | app fn arg =>
    .lparen :: (operandTokens fn.isAbs fn.writtenTokens ++ operandTokens arg.isAbs arg.writtenTokens) ++
      [.rparen]

theorem tokenList_operandText {text : String} {ts : List Token}
    (h : ∀ rest, EndsName rest → tokenList (text.toList ++ rest) = ts ++ tokenList rest)
    (isAbs : Bool) {rest : List Char} (hRest : EndsName rest) :
    tokenList ((operandText isAbs text).toList ++ rest) = operandTokens isAbs ts ++ tokenList rest := by
  cases isAbs with
  | false => exact h rest hRest
  | true =>
    have hClose : EndsName (')' :: rest) := endsName_cons (by decide) rest
    calc tokenList ((operandText true text).toList ++ rest)
      _ = tokenList ('(' :: (text.toList ++ ')' :: rest)) := by simp [operandText]
      _ = .lparen :: (ts ++ .rparen :: tokenList rest) := by
        rw [tokenList_cons_of_ofChar? rfl, h _ hClose, tokenList_cons_of_ofChar? rfl]
      _ = operandTokens true ts ++ tokenList rest := by simp [operandTokens]

theorem tokenList_toText (t : Term) {rest : List Char} (hRest : EndsName rest) :
    tokenList (t.toText.toList ++ rest) = t.writtenTokens ++ tokenList rest := by
  induction t generalizing rest with
  | var x => exact tokenList_name_append x hRest
  | abs x body ih =>
    have hDot : EndsName ('.' :: (body.toText.toList ++ rest)) := endsName_cons (by decide) _
    calc tokenList ((abs x body).toText.toList ++ rest)
      _ = tokenList ('λ' :: (x.name.toList ++ '.' :: (body.toText.toList ++ rest))) := by simp [toText]
      _ = .lambda :: .name x :: .dot :: (body.writtenTokens ++ tokenList rest) := by
        rw [tokenList_cons_of_ofChar? rfl, tokenList_name_append x hDot, tokenList_cons_of_ofChar? rfl,
          ih hRest]
  | app fn arg ihFn ihArg =>
    have hClose : EndsName (')' :: rest) := endsName_cons (by decide) rest
    have hBlank : ∀ cs, EndsName (' ' :: cs) := fun cs => endsName_cons (by decide) cs
    calc tokenList ((app fn arg).toText.toList ++ rest)
      _ = tokenList ('(' :: ((operandText fn.isAbs fn.toText).toList ++
            ' ' :: ((operandText arg.isAbs arg.toText).toList ++ ')' :: rest))) := by simp [toText]
      _ = .lparen :: (operandTokens fn.isAbs fn.writtenTokens ++
            (operandTokens arg.isAbs arg.writtenTokens ++ .rparen :: tokenList rest)) := by
        rw [tokenList_cons_of_ofChar? rfl, tokenList_operandText (fun _ h => ihFn h) _ (hBlank _),
          tokenList_cons_of_isBlank (by decide), tokenList_operandText (fun _ h => ihArg h) _ hClose,
          tokenList_cons_of_ofChar? rfl]
      _ = (app fn arg).writtenTokens ++ tokenList rest := by simp [writtenTokens]

/-- How the reader takes the written form of a term: at the start of a term, or as the next operand. -/
structure ReadsBack (t : Term) : Prop where
  asTerm : ∀ fs bs, ∃ bs' u, Reader.readAll? ⟨fs, bs, .start⟩ t.writtenTokens =
    some ⟨fs, bs', .operand u⟩ ∧ bindAll bs' u = bindAll bs t
  asOperand : ∀ fs bs head, Reader.readAll? ⟨fs, bs, Reader.afterHead head⟩
    (operandTokens t.isAbs t.writtenTokens) = some ⟨fs, bs, .operand (applyHead head t)⟩

theorem readsBack (t : Term) : ReadsBack t := by
  induction t with
  | var x =>
    have hOperand : ∀ fs bs head, Reader.readAll? ⟨fs, bs, Reader.afterHead head⟩ [.name x] =
        some ⟨fs, bs, .operand (applyHead head (var x))⟩ := by
      intro fs bs head
      rw [Reader.readAll?_cons, Reader.next?_name]
      rfl
    exact ⟨fun fs bs => ⟨bs, var x, hOperand fs bs none, rfl⟩, hOperand⟩
  | abs x body ih =>
    have hTerm : ∀ fs bs, ∃ bs' u, Reader.readAll? ⟨fs, bs, .start⟩ (abs x body).writtenTokens =
        some ⟨fs, bs', .operand u⟩ ∧ bindAll bs' u = bindAll bs (abs x body) := by
      intro fs bs
      exact ih.asTerm fs (x :: bs)
    refine ⟨hTerm, ?_⟩
    intro fs bs head
    obtain ⟨bs', u, hRead, hBind⟩ := hTerm (⟨bs, head⟩ :: fs) []
    exact (Reader.readAll?_parenthesized hRead).trans (by rw [hBind]; rfl)
  | app fn arg ihFn ihArg =>
    have hOperand : ∀ fs bs head, Reader.readAll? ⟨fs, bs, Reader.afterHead head⟩
        (app fn arg).writtenTokens = some ⟨fs, bs, .operand (applyHead head (app fn arg))⟩ := by
      intro fs bs head
      have hFn := ihFn.asOperand (⟨bs, head⟩ :: fs) [] none
      have hArg := ihArg.asOperand (⟨bs, head⟩ :: fs) [] (some fn)
      have hRow : Reader.readAll? ⟨⟨bs, head⟩ :: fs, [], .start⟩
          (operandTokens fn.isAbs fn.writtenTokens ++ operandTokens arg.isAbs arg.writtenTokens) =
            some ⟨⟨bs, head⟩ :: fs, [], .operand (app fn arg)⟩ := by
        rw [Reader.readAll?_append]
        exact (congrArg (Option.bind · _) hFn).trans hArg
      exact Reader.readAll?_parenthesized hRow
    exact ⟨fun fs bs => ⟨bs, app fn arg, hOperand fs bs none, rfl⟩, hOperand⟩

theorem parse_toText (t : Term) : parse t.toText = .ok t := by
  have hTokens : tokenList t.toText.toList = t.writtenTokens := by
    have h := tokenList_toText t endsName_nil
    rwa [List.append_nil, tokenList_nil, List.append_nil] at h
  obtain ⟨bs, u, hRead, hBind⟩ := (readsBack t).asTerm [] []
  rw [parse_eq_ok_iff, hTokens]
  exact (congrArg (Option.bind · _) hRead).trans (congrArg some hBind)

end Term

end NamedLambda
