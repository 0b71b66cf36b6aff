import Mathlib.Data.List.Forall2
import Mathlib.Logic.Relation
import NamedLambda.Proofs.SyntaxErrors
import NamedLambda.Proofs.TokenPlaces

/-!
# Spelling and layout

A lambda may be written as a backslash. Both are one character, so the tokens and their places are the
same and reading has the same outcome, errors with their places included. Blanks only separate
tokens: a run of them may be longer or shorter, and where no two names meet it may be missing. Such
a change moves the tokens and changes none of them, so the reader comes to the same term or stops
at the same token for the same reason.
-/

namespace NamedLambda

set_option autoImplicit false

open SyntaxError (tokenAt spanAt)

/-- Every character is kept, or it is a backslash that becomes a lambda. -/
def Respelt : List Char → List Char → Prop := List.Forall₂ fun c d => d = c ∨ c = '\\' ∧ d = 'λ'

/-- A lambda for a backslash, and every other character for itself. -/
def canonicalChar (c : Char) : Char := if c = '\\' then 'λ' else c

theorem isNameChar_canonicalChar (c : Char) : isNameChar (canonicalChar c) = isNameChar c := by
  unfold canonicalChar
  split
  case isTrue hEq => rw [hEq]; decide
  case isFalse => rfl

theorem ofChar?_canonicalChar (c : Char) : Token.ofChar? (canonicalChar c) = Token.ofChar? c := by
  unfold canonicalChar
  split
  case isTrue hEq => rw [hEq]; rfl
  case isFalse => rfl

theorem canonicalChar_of_isNameChar {c : Char} (h : isNameChar c = true) : canonicalChar c = c := by
  refine if_neg fun hEq => ?_
  rw [hEq] at h
  revert h
  decide

theorem isNameChar_comp_canonicalChar : isNameChar ∘ canonicalChar = isNameChar :=
  funext isNameChar_canonicalChar

theorem takeWhile_map_canonicalChar (cs : List Char) :
    (cs.map canonicalChar).takeWhile isNameChar = cs.takeWhile isNameChar := by
  rw [List.takeWhile_map, isNameChar_comp_canonicalChar, List.map_congr_left, List.map_id]
  intro c hc
  exact canonicalChar_of_isNameChar (List.all_eq_true.mp List.all_takeWhile c hc)

theorem dropWhile_map_canonicalChar (cs : List Char) :
    (cs.map canonicalChar).dropWhile isNameChar = (cs.dropWhile isNameChar).map canonicalChar := by
  rw [List.dropWhile_map, isNameChar_comp_canonicalChar]

theorem tokensFrom_map_canonicalChar (pos : Nat) (cs : List Char) :
    tokensFrom pos (cs.map canonicalChar) = tokensFrom pos cs := by
  fun_induction tokensFrom pos cs with
  | case1 pos => rw [List.map_nil, tokensFrom]
  | case2 pos c cs hName stop ih =>
    have hTake := takeWhile_map_canonicalChar cs
    rw [List.map_cons, canonicalChar_of_isNameChar hName, tokensFrom_name _ _ hName,
      Symbol.ofRun_congr hName hTake, hTake, dropWhile_map_canonicalChar, ih]
  | case3 pos c cs hName t hToken ih =>
    rw [← isNameChar_canonicalChar] at hName
    rw [← ofChar?_canonicalChar] at hToken
    rw [List.map_cons, tokensFrom_reserved _ _ hName hToken, ih]
  | case4 pos c cs hName hToken ih =>
    rw [← isNameChar_canonicalChar] at hName
    rw [← ofChar?_canonicalChar] at hToken
    rw [List.map_cons, tokensFrom_blank _ _ hName hToken, ih]

theorem Respelt.map_canonicalChar_eq {cs ds : List Char} (h : Respelt cs ds) :
    ds.map canonicalChar = cs.map canonicalChar := by
  induction h with
  | nil => rfl
  | cons hHead hTail ih =>
    rw [List.map_cons, List.map_cons, ih]
    rcases hHead with rfl | ⟨rfl, rfl⟩ <;> rfl

theorem Respelt.parse_eq {s s' : String} (h : Respelt s.toList s'.toList) :
    Term.parse s' = Term.parse s := by
  have hTokens : tokens s' = tokens s := by
    rw [tokens, ← tokensFrom_map_canonicalChar, h.map_canonicalChar_eq, tokensFrom_map_canonicalChar, tokens]
  have hLength : s'.length = s.length := by
    rw [← String.length_toList, ← String.length_toList, h.length_eq]
  rw [Term.parse, Term.parse, hTokens, hLength]

def IsBlankRun (cs : List Char) : Prop := cs ≠ [] ∧ ∀ c ∈ cs, isBlank c = true

/-- An end of the text, or a place next to a reserved character. -/
def IsSeam (before after : List Char) : Prop :=
  before = [] ∨ after = [] ∨ (∃ c ∈ before.getLast?, c ∈ reserved) ∨ ∃ c ∈ after.head?, c ∈ reserved

/-- A run of blanks, or a part of one, is replaced by another run, or a run is put in or left out at a
seam. At a seam there is a reserved character or nothing on one side, so no two names are joined. -/
inductive LayoutEdit : List Char → List Char → Prop where
  | respace (before run run' after : List Char) (hRun : IsBlankRun run) (hRun' : IsBlankRun run') :
      LayoutEdit (before ++ run ++ after) (before ++ run' ++ after)
  | insert (before run after : List Char) (hSeam : IsSeam before after) (hRun : IsBlankRun run) :
      LayoutEdit (before ++ after) (before ++ run ++ after)
  | delete (before run after : List Char) (hSeam : IsSeam before after) (hRun : IsBlankRun run) :
      LayoutEdit (before ++ run ++ after) (before ++ after)

/-- Any number of edits. -/
def Relaid : List Char → List Char → Prop := Relation.ReflTransGen LayoutEdit

theorem IsSeam.noNameAcross {before after : List Char} (h : IsSeam before after) :
    NoNameAcross before after := by
  rcases h with rfl | rfl | ⟨c, hLast, hc⟩ | ⟨c, hHead, hc⟩
  · exact Or.inr fun c hc => absurd hc (Option.not_mem_none c)
  · exact Or.inl endsName_nil
  · refine Or.inr fun d hd => ?_
    rw [Option.mem_unique hd hLast]
    exact isNameChar_eq_false_of_mem_reserved hc
  · refine Or.inl fun d hd => ?_
    rw [Option.mem_unique hd hHead]
    exact isNameChar_eq_false_of_mem_reserved hc

theorem tokenList_blanks_append {run : List Char} (h : ∀ c ∈ run, isBlank c = true) (rest : List Char) :
    tokenList (run ++ rest) = tokenList rest := by
  induction run with
  | nil => rfl
  | cons c run ih =>
    obtain ⟨hc, hRun⟩ := List.forall_mem_cons.mp h
    rw [List.cons_append, tokenList_cons_of_isBlank hc, ih hRun]

theorem IsBlankRun.tokenList_append {run : List Char} (h : IsBlankRun run) (before after : List Char) :
    tokenList (before ++ run ++ after) = tokenList before ++ tokenList after := by
  obtain ⟨hNonempty, hBlank⟩ := h
  have hEnds : EndsName (run ++ after) := by
    cases run with
    | nil => exact absurd rfl hNonempty
    | cons c run => exact endsName_cons (isNameChar_eq_false_of_isBlank (hBlank c List.mem_cons_self)) _
  rw [List.append_assoc, NamedLambda.tokenList_append (Or.inl hEnds), tokenList_blanks_append hBlank]

theorem LayoutEdit.tokenList_eq {cs ds : List Char} (h : LayoutEdit cs ds) : tokenList ds = tokenList cs := by
  cases h with
  | respace before run run' after hRun hRun' => rw [hRun.tokenList_append, hRun'.tokenList_append]
  | insert before run after hSeam hRun =>
    rw [hRun.tokenList_append, tokenList_append hSeam.noNameAcross]
  | delete before run after hSeam hRun =>
    rw [hRun.tokenList_append, tokenList_append hSeam.noNameAcross]

theorem Relaid.tokenList_eq {cs ds : List Char} (h : Relaid cs ds) : tokenList ds = tokenList cs := by
  induction h with
  | refl => rfl
  | tail _ hEdit ih => exact hEdit.tokenList_eq.trans ih

/-- Both texts read as the same term, or as no term for the same reason: both without any token, or
at the same token, which may stand at another place. The end of the text counts as one more token. -/
structure ReadAlike (s s' : String) : Prop where
  term : ∀ t, Term.parse s = .ok t → Term.parse s' = .ok t
  error : ∀ e, Term.parse s = .error e → ∃ e', Term.parse s' = .error e' ∧ e'.reason = e.reason ∧
    (e = .empty s.length ∧ e' = .empty s'.length ∨
      ∃ i place, i ≤ (tokens s).length ∧ e = .unexpected (tokenAt s i) (spanAt s i) place ∧
        e' = .unexpected (tokenAt s' i) (spanAt s' i) place)

theorem readAlike_of_tokenList_eq {s s' : String} (h : tokenList s'.toList = tokenList s.toList) :
    ReadAlike s s' where
  term t ht := by
    rw [Term.parse_eq_ok_iff] at ht ⊢
    rwa [h]
  error e he := by
    have hLength : (tokens s').length = (tokens s).length := by
      have hMap := congrArg List.length h
      rwa [tokenList, tokenList, List.length_map, List.length_map] at hMap
    by_cases hTokens : tokens s = []
    · have hTokens' : tokens s' = [] := by
        rw [← List.length_eq_zero_iff, hLength, hTokens]
        rfl
      rw [SyntaxError.parse_of_no_tokens hTokens] at he
      cases he
      exact ⟨_, SyntaxError.parse_of_no_tokens hTokens', rfl, Or.inl ⟨rfl, rfl⟩⟩
    · have hTokens' : tokens s' ≠ [] := by
        rwa [← List.length_pos_iff, hLength, List.length_pos_iff]
      obtain ⟨i, r, hi, hRead, hStop, rfl⟩ := (SyntaxError.parse_eq_error_iff hTokens e).mp he
      -- What the reader takes, and where it stops, is read off the tokens without their places.
      have hBefore : SyntaxError.tokensBefore s' i = SyntaxError.tokensBefore s i := congrArg (List.take i) h
      have hToken : tokenAt s' i = tokenAt s i := by
        rw [tokenAt, tokenAt, ← List.getElem?_map, ← List.getElem?_map]
        exact congrArg (·[i]?) h
      refine ⟨.unexpected (tokenAt s' i) (spanAt s' i) r.place, ?_, ?_, ?_⟩
      · rw [SyntaxError.parse_eq_error_iff hTokens', hLength]
        exact ⟨i, r, hi, hBefore ▸ hRead, hToken ▸ hStop, rfl⟩
      · rw [SyntaxError.reason, SyntaxError.reason, hToken]
      · exact Or.inr ⟨i, r.place, hi, rfl, rfl⟩

theorem parse_ignores_spelling_and_layout (s s' : String) :
    (Respelt s.toList s'.toList → Term.parse s' = Term.parse s) ∧
      (Relaid s.toList s'.toList → ReadAlike s s') := by
  constructor
  · intro h
    exact h.parse_eq
  · intro h
    exact readAlike_of_tokenList_eq h.tokenList_eq

theorem parse_ignores_spelling_and_layout_bothOutcomes :
    let x : Symbol := .literal "x"
    let y : Symbol := .literal "y"
    let t : Term := .abs x (.app (.var x) (.var y))
    let e (n : Nat) : SyntaxError := .unexpected (some .lambda) ⟨n, n + 1⟩ .outermost
    (Respelt "\\x.x y".toList "λx.x y".toList ∧ Relaid "λx.x y".toList "λx. x\t y".toList ∧
      Term.parse "\\x.x y" = .ok t ∧ Term.parse "λx.x y" = .ok t ∧ Term.parse "λx. x\t y" = .ok t) ∧
    Respelt "f\\ x".toList "fλ x".toList ∧ Relaid "fλ x".toList "f \tλx".toList ∧
      Term.parse "f\\ x" = .error (e 1) ∧ Term.parse "fλ x" = .error (e 1) ∧
      ReadAlike "fλ x" "f \tλx" ∧ Term.parse "f \tλx" = .error (e 3) := by
  intro x y t e
  have hBlank : IsBlankRun [' '] := ⟨List.cons_ne_nil _ _, List.all_eq_true.mp (by decide)⟩
  have hTab : IsBlankRun ['\t', ' '] := ⟨List.cons_ne_nil _ _, List.all_eq_true.mp (by decide)⟩
  constructor
  · have hRespelt : Respelt "\\x.x y".toList "λx.x y".toList :=
      .cons (Or.inr ⟨rfl, rfl⟩) (.cons (Or.inl rfl) (.cons (Or.inl rfl) (.cons (Or.inl rfl)
        (.cons (Or.inl rfl) (.cons (Or.inl rfl) .nil)))))
    have hInsert : LayoutEdit ['λ', 'x', '.', 'x', ' ', 'y'] ['λ', 'x', '.', ' ', 'x', ' ', 'y'] :=
      .insert ['λ', 'x', '.'] [' '] ['x', ' ', 'y'] (Or.inr (Or.inr (Or.inl ⟨'.', rfl, by decide⟩))) hBlank
    have hRespace : LayoutEdit ['λ', 'x', '.', ' ', 'x', ' ', 'y'] ['λ', 'x', '.', ' ', 'x', '\t', ' ', 'y'] :=
      .respace ['λ', 'x', '.', ' ', 'x'] [' '] ['\t', ' '] ['y'] hBlank hTab
    have hRelaid : Relaid "λx.x y".toList "λx. x\t y".toList := .tail (.single hInsert) hRespace
    have hTerm : Term.parse "\\x.x y" = .ok t := by decide +kernel
    obtain ⟨hSame, _⟩ := parse_ignores_spelling_and_layout "\\x.x y" "λx.x y"
    obtain ⟨_, hAlike⟩ := parse_ignores_spelling_and_layout "λx.x y" "λx. x\t y"
    have hRespeltTerm := (hSame hRespelt).trans hTerm
    exact ⟨hRespelt, hRelaid, hTerm, hRespeltTerm, (hAlike hRelaid).term t hRespeltTerm⟩
  · have hRespelt : Respelt "f\\ x".toList "fλ x".toList :=
      .cons (Or.inl rfl) (.cons (Or.inr ⟨rfl, rfl⟩) (.cons (Or.inl rfl) (.cons (Or.inl rfl) .nil)))
    have hDelete : LayoutEdit ['f', 'λ', ' ', 'x'] ['f', 'λ', 'x'] :=
      .delete ['f', 'λ'] [' '] ['x'] (Or.inr (Or.inr (Or.inl ⟨'λ', rfl, by decide⟩))) hBlank
    have hInsert : LayoutEdit ['f', 'λ', 'x'] ['f', ' ', '\t', 'λ', 'x'] :=
      .insert ['f'] [' ', '\t'] ['λ', 'x'] (Or.inr (Or.inr (Or.inr ⟨'λ', rfl, by decide⟩)))
        ⟨List.cons_ne_nil _ _, List.all_eq_true.mp (by decide)⟩
    have hRelaid : Relaid "fλ x".toList "f \tλx".toList := .tail (.single hDelete) hInsert
    have hError : Term.parse "f\\ x" = .error (e 1) := by decide +kernel
    obtain ⟨hSame, _⟩ := parse_ignores_spelling_and_layout "f\\ x" "fλ x"
    obtain ⟨_, hAlike⟩ := parse_ignores_spelling_and_layout "fλ x" "f \tλx"
    exact ⟨hRespelt, hRelaid, hError, (hSame hRespelt).trans hError, hAlike hRelaid, by decide +kernel⟩

end NamedLambda
