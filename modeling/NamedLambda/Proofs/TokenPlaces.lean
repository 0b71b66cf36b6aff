import NamedLambda.Proofs.Tokens

/-!
# Where the tokens of a text stand

A text that is cut in two, not inside a name, has the tokens of both parts, at the places they have in
the whole text. So the tokens in front do not depend on what follows them, unless they end
with a name that goes on. The span of a token covers the characters that spell it.
-/

namespace NamedLambda

set_option autoImplicit false

/-- No name goes on from `cs` to what follows it. -/
def NoNameAcross (cs rest : List Char) : Prop :=
  EndsName rest ∨ ∀ c ∈ cs.getLast?, isNameChar c = false

namespace NoNameAcross

theorem of_suffix {cs cs' rest : List Char} (h : NoNameAcross cs rest) (hSuffix : cs' <:+ cs) :
    NoNameAcross cs' rest := by
  rcases h with hRest | hLast
  · exact Or.inl hRest
  · refine Or.inr fun c hc => hLast c ?_
    obtain ⟨front, rfl⟩ := hSuffix
    have hSome : cs'.getLast? = some c := hc
    rw [List.getLast?_append, hSome]
    rfl

theorem concat {c : Char} (hc : isNameChar c = false) (before rest : List Char) :
    NoNameAcross (before ++ [c]) rest := by
  refine Or.inr fun d hd => ?_
  rw [List.getLast?_concat] at hd
  obtain rfl := Option.some.inj hd
  exact hc

/-- What follows does not make a name longer. -/
theorem run_append {c : Char} {cs rest : List Char} (hc : isNameChar c = true)
    (h : NoNameAcross (c :: cs) rest) :
    (cs ++ rest).takeWhile isNameChar = cs.takeWhile isNameChar ∧
      (cs ++ rest).dropWhile isNameChar = cs.dropWhile isNameChar ++ rest := by
  induction cs generalizing c with
  | nil =>
    have hRest : EndsName rest := by
      rcases h with hRest | hLast
      · exact hRest
      · rw [hLast c rfl] at hc
        cases hc
    have hNone : ∀ d ∈ ([] : List Char), isNameChar d = true := fun d hd => absurd hd List.not_mem_nil
    exact ⟨hRest.takeWhile_append hNone, hRest.dropWhile_append hNone⟩
  | cons d cs ih =>
    have hTail : NoNameAcross (d :: cs) rest := h.of_suffix (List.suffix_cons c _)
    rw [List.cons_append]
    by_cases hd : isNameChar d = true
    · obtain ⟨hTake, hDrop⟩ := ih hd hTail
      rw [List.takeWhile_cons_of_pos hd, List.takeWhile_cons_of_pos hd, hTake,
        List.dropWhile_cons_of_pos hd, List.dropWhile_cons_of_pos hd, hDrop]
      exact ⟨rfl, rfl⟩
    · rw [List.takeWhile_cons_of_neg hd, List.takeWhile_cons_of_neg hd,
        List.dropWhile_cons_of_neg hd, List.dropWhile_cons_of_neg hd]
      exact ⟨rfl, rfl⟩

end NoNameAcross

theorem tokensFrom_append {cs rest : List Char} (h : NoNameAcross cs rest) (pos : Nat) :
    tokensFrom pos (cs ++ rest) = tokensFrom pos cs ++ tokensFrom (pos + cs.length) rest := by
  fun_induction tokensFrom pos cs with
  | case1 pos => rfl
  | case2 pos c cs hName stop ih =>
    obtain ⟨hTake, hDrop⟩ := h.run_append hName
    have hLength : pos + (c :: cs).length = stop + (cs.dropWhile isNameChar).length := by
      have hSplit := congrArg List.length (List.takeWhile_append_dropWhile (p := isNameChar) (l := cs))
      rw [List.length_append] at hSplit
      rw [List.length_cons]
      omega
    have hRest := h.of_suffix ((List.dropWhile_suffix isNameChar).trans (List.suffix_cons c cs))
    rw [List.cons_append, tokensFrom_name _ _ hName, Symbol.ofRun_congr hName hTake, hTake, hDrop,
      ih hRest, hLength, List.cons_append]
  | case3 pos c cs hName t hToken ih =>
    have hRest := ih (h.of_suffix (List.suffix_cons c cs))
    rw [Nat.add_right_comm] at hRest
    rw [List.cons_append, tokensFrom_reserved _ _ hName hToken, hRest]
    rfl
  | case4 pos c cs hName hToken ih =>
    have hRest := ih (h.of_suffix (List.suffix_cons c cs))
    rw [Nat.add_right_comm] at hRest
    rw [List.cons_append, tokensFrom_blank _ _ hName hToken, hRest]
    rfl

theorem tokenList_append {cs rest : List Char} (h : NoNameAcross cs rest) :
    tokenList (cs ++ rest) = tokenList cs ++ tokenList rest := by
  rw [tokenList, tokensFrom_append h, List.map_append]
  exact congrArg _ (map_token_tokensFrom _ _ rest)

/-- The characters that stand for a token. -/
inductive Spells : List Char → Token → Prop where
  | reserved {c : Char} {t : Token} (h : Token.ofChar? c = some t) : Spells [c] t
  | name (x : Symbol) : Spells x.name.toList (.name x)

/-- In a text whose first character has the place `pos`, the span of a token covers its spelling. -/
def StandsIn (pos : Nat) (cs : List Char) (l : Located) : Prop :=
  ∃ before spelling after, cs = before ++ spelling ++ after ∧ Spells spelling l.token ∧
    l.span = ⟨pos + before.length, pos + before.length + spelling.length⟩

theorem StandsIn.append_left {pos : Nat} {cs : List Char} {l : Located} (front : List Char)
    (h : StandsIn (pos + front.length) cs l) : StandsIn pos (front ++ cs) l := by
  obtain ⟨before, spelling, after, rfl, hSpells, hSpan⟩ := h
  refine ⟨front ++ before, spelling, after, ?_, hSpells, ?_⟩
  · rw [List.append_assoc, List.append_assoc, List.append_assoc]
  · rw [hSpan, List.length_append, Nat.add_assoc]

theorem standsIn_of_mem {l : Located} {pos : Nat} {cs : List Char} (h : l ∈ tokensFrom pos cs) :
    StandsIn pos cs l := by
  fun_induction tokensFrom pos cs with
  | case1 pos => cases h
  | case2 pos c cs hName stop ih =>
    have hSplit : c :: cs = c :: cs.takeWhile isNameChar ++ cs.dropWhile isNameChar := by
      rw [List.cons_append, List.takeWhile_append_dropWhile]
    have hStop : stop = pos + (c :: cs.takeWhile isNameChar).length := by
      rw [List.length_cons]
      omega
    rw [hSplit]
    rcases List.mem_cons.mp h with rfl | hRest
    · refine ⟨[], _, _, rfl, ?_, ?_⟩
      · have hSpells := Spells.name (Symbol.ofRun c cs hName)
        rwa [Symbol.name_ofRun, String.toList_ofList] at hSpells
      · rw [hStop]
        rfl
    · rw [hStop] at ih hRest
      exact (ih hRest).append_left _
  | case3 pos c cs hName t hToken ih =>
    rcases List.mem_cons.mp h with rfl | hRest
    · exact ⟨[], [c], cs, rfl, .reserved hToken, rfl⟩
    · exact StandsIn.append_left [c] (ih hRest)
  | case4 pos c cs hName hToken ih => exact StandsIn.append_left [c] (ih h)

theorem le_start_of_mem {l : Located} {pos : Nat} {cs : List Char} (h : l ∈ tokensFrom pos cs) :
    pos ≤ l.span.start := by
  obtain ⟨before, _, _, _, _, hSpan⟩ := standsIn_of_mem h
  rw [hSpan]
  exact Nat.le_add_right pos before.length

end NamedLambda
