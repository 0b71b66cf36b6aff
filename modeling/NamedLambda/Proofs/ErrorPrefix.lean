import NamedLambda.Proofs.SyntaxErrors
import NamedLambda.Proofs.TokenPlaces

/-!
# Errors depend only on the text up to their end

A token at which reading fails is never a name, so it is one reserved character and what follows in
the text cannot make it longer. The text up to the end of this token begins with the same tokens, at
the same places, whatever follows it, and the reader takes the tokens from left to right. So it
stops at the same token again, for the same reason.
-/

namespace NamedLambda

set_option autoImplicit false

/-- A token that is no name ends where any text may go on. -/
theorem StandsIn.exists_reserved {pos : Nat} {cs : List Char} {l : Located} (h : StandsIn pos cs l)
    (hName : ∀ x, l.token ≠ .name x) :
    ∃ before c after, cs = before ++ [c] ++ after ∧ isNameChar c = false ∧
      l.span = ⟨pos + before.length, pos + before.length + 1⟩ := by
  obtain ⟨before, spelling, after, hText, hSpells, hSpan⟩ := h
  obtain ⟨token, span⟩ := l
  cases hSpells with
  | @reserved c t hToken =>
    exact ⟨before, c, after, hText, isNameChar_eq_false_of_ofChar? hToken, hSpan⟩
  | name x => exact absurd rfl (hName x)

/-- The tokens up to one that is no name are those of the text up to its end, whatever follows. -/
theorem exists_common_tokens {cs : List Char} {i : Nat} {l : Located} (hl : (tokensFrom 0 cs)[i]? = some l)
    (hName : ∀ x, l.token ≠ .name x) :
    ∃ common, common[i]? = some l ∧ common <+: tokensFrom 0 cs ∧
      ∀ rest, common <+: tokensFrom 0 (cs.take l.span.stop ++ rest) := by
  have hStands : StandsIn 0 cs l := standsIn_of_mem (List.mem_of_getElem? hl)
  obtain ⟨before, c, after, rfl, hc, hSpan⟩ := hStands.exists_reserved hName
  rw [Nat.zero_add] at hSpan
  have hFront : (before ++ [c] ++ after).take l.span.stop = before ++ [c] := by
    refine List.take_left' ?_
    rw [hSpan, List.length_append]
    rfl
  have hCut : ∀ rest, tokensFrom 0 (before ++ [c] ++ rest) =
      tokensFrom 0 (before ++ [c]) ++ tokensFrom (before.length + 1) rest := by
    intro rest
    rw [tokensFrom_append (.concat hc before rest), List.length_append, Nat.zero_add]
    rfl
  refine ⟨tokensFrom 0 (before ++ [c]), ?_, ?_, fun rest => ?_⟩
  · rw [hCut after, List.getElem?_append] at hl
    split at hl
    case isTrue => exact hl
    case isFalse =>
      -- A token of what follows starts after the end of this one.
      have hStart := le_start_of_mem (List.mem_of_getElem? hl)
      rw [hSpan] at hStart
      exact absurd hStart (Nat.not_succ_le_self _)
  · rw [hCut after]
    exact List.prefix_append _ _
  · rw [hFront, hCut rest]
    exact List.prefix_append _ _

namespace SyntaxError

theorem tokensBefore_of_common {s : String} {common : List Located} (hPrefix : common <+: tokens s)
    {i : Nat} (hi : i < common.length) : tokensBefore s i = (common.map Located.token).take i := by
  obtain ⟨rest, hTokens⟩ := hPrefix
  rw [tokensBefore, ← hTokens, List.map_append, List.take_append_of_le_length]
  rw [List.length_map]
  exact Nat.le_of_lt hi

/-- Reading fails at a token that the reader does not accept after the tokens in front of it. -/
theorem parse_of_not_accepts {s : String} {common : List Located} (hPrefix : common <+: tokens s)
    {i : Nat} {l : Located} (hl : common[i]? = some l) {r : Reader}
    (hRead : Reader.initial.readAll? ((common.map Located.token).take i) = some r)
    (hStop : r.accepts (some l.token) = false) :
    Term.parse s = .error (.unexpected (some l.token) l.span r.place) := by
  obtain ⟨hi, _⟩ := List.getElem?_eq_some_iff.mp hl
  have hBefore := tokensBefore_of_common hPrefix hi
  have hLocated : (tokens s)[i]? = some l := by
    obtain ⟨rest, hTokens⟩ := hPrefix
    rw [← hTokens, List.getElem?_append_left hi, hl]
  have hLength : i < (tokens s).length := (List.getElem?_eq_some_iff.mp hLocated).1
  have hNonempty : tokens s ≠ [] := List.ne_nil_of_length_pos (Nat.zero_lt_of_lt hLength)
  rw [parse_eq_error_iff hNonempty]
  refine ⟨i, r, Nat.le_of_lt hLength, hBefore ▸ hRead, ?_, ?_⟩
  · rw [tokenAt, hLocated]
    exact hStop
  · rw [tokenAt, spanAt, hLocated]
    rfl

theorem exists_rejected_token {s : String} {found : Token} {span : Span} {place : Place}
    (h : Term.parse s = .error (.unexpected (some found) span place)) :
    ∃ i r, (tokens s)[i]? = some ⟨found, span⟩ ∧
      Reader.initial.readAll? (tokensBefore s i) = some r ∧ r.accepts (some found) = false ∧
      r.place = place := by
  have hTokens : tokens s ≠ [] := by
    intro hEmpty
    rw [parse_of_no_tokens hEmpty] at h
    cases h
  obtain ⟨i, r, _, hRead, hStop, hError⟩ := (parse_eq_error_iff hTokens _).mp h
  rw [tokenAt] at hStop hError
  rw [spanAt] at hError
  cases hl : (tokens s)[i]? with
  | none =>
    rw [hl] at hError
    cases hError
  | some l =>
    rw [hl] at hStop hError
    cases hError
    exact ⟨i, r, hl, hRead, hStop, rfl⟩

theorem parse_error_unaffected_by_continuation (s : String) (found : Token) (span : Span) (place : Place)
    (h : Term.parse s = .error (.unexpected (some found) span place)) (u : String) :
    Term.parse (String.ofList (s.toList.take span.stop) ++ u) =
      .error (.unexpected (some found) span place) := by
  obtain ⟨i, r, hl, hRead, hStop, rfl⟩ := exists_rejected_token h
  have hName : ∀ x, found ≠ .name x := by
    rintro x rfl
    rw [r.accepts_name] at hStop
    cases hStop
  obtain ⟨common, hCommon, hPrefix, hExtended⟩ := exists_common_tokens hl hName
  obtain ⟨hi, _⟩ := List.getElem?_eq_some_iff.mp hCommon
  rw [tokensBefore_of_common hPrefix hi] at hRead
  refine parse_of_not_accepts ?_ hCommon hRead hStop
  rw [tokens, String.toList_append, String.toList_ofList]
  exact hExtended u.toList

theorem parse_error_unaffected_by_continuation_misplacedDot :
    let e : SyntaxError := .unexpected (some .dot) ⟨4, 5⟩ .outermost
    Term.parse "(x) .y" = .error e ∧
      String.ofList ("(x) .y".toList.take 5) ++ "yλ(" = "(x) .yλ(" ∧ Term.parse "(x) .yλ(" = .error e := by
  intro e
  let x : Symbol := .literal "x"
  let y : Symbol := .literal "y"
  have hTokens : tokens "(x) .y" =
      [⟨.lparen, ⟨0, 1⟩⟩, ⟨.name x, ⟨1, 2⟩⟩, ⟨.rparen, ⟨2, 3⟩⟩, ⟨.dot, ⟨4, 5⟩⟩, ⟨.name y, ⟨5, 6⟩⟩] := by
    decide +kernel
  have hError : Term.parse "(x) .y" = .error e := by
    rw [Term.parse, hTokens]
    rfl
  have hText : String.ofList ("(x) .y".toList.take 5) ++ "yλ(" = "(x) .yλ(" := by decide +kernel
  have hAgain := parse_error_unaffected_by_continuation "(x) .y" .dot ⟨4, 5⟩ .outermost hError "yλ("
  exact ⟨hError, hText, hText ▸ hAgain⟩

end SyntaxError

end NamedLambda
