import NamedLambda.Token

/-!
# The tokens of a text without their places

Which tokens a text has does not depend on where its first character stands. The tokens are found
from left to right: a blank is skipped, a reserved character is a token, and a name is taken whole
if what follows it does not go on with a name character.
-/

namespace NamedLambda

set_option autoImplicit false

section

variable {c : Char} (pos : Nat) (cs : List Char)

theorem tokensFrom_name (h : isNameChar c = true) :
    tokensFrom pos (c :: cs) =
      ⟨.name (.ofRun c cs h), ⟨pos, pos + 1 + (cs.takeWhile isNameChar).length⟩⟩ ::
        tokensFrom (pos + 1 + (cs.takeWhile isNameChar).length) (cs.dropWhile isNameChar) := by
  rw [tokensFrom, dif_pos h]

theorem tokensFrom_reserved {t : Token} (hName : isNameChar c ≠ true) (h : Token.ofChar? c = some t) :
    tokensFrom pos (c :: cs) = ⟨t, ⟨pos, pos + 1⟩⟩ :: tokensFrom (pos + 1) cs := by
  rw [tokensFrom, dif_neg hName, h]

theorem tokensFrom_blank (hName : isNameChar c ≠ true) (h : Token.ofChar? c = none) :
    tokensFrom pos (c :: cs) = tokensFrom (pos + 1) cs := by
  rw [tokensFrom, dif_neg hName, h]

end

theorem map_token_tokensFrom (pos pos' : Nat) (cs : List Char) :
    (tokensFrom pos cs).map Located.token = (tokensFrom pos' cs).map Located.token := by
  fun_induction tokensFrom pos cs generalizing pos' with
  | case1 => rw [tokensFrom]
  | case2 pos c cs hName stop ih =>
    rw [tokensFrom_name _ _ hName, List.map_cons, List.map_cons]
    exact congrArg _ (ih _)
  | case3 pos c cs hName t hToken ih =>
    rw [tokensFrom_reserved _ _ hName hToken, List.map_cons, List.map_cons]
    exact congrArg _ (ih _)
  | case4 pos c cs hName hToken ih =>
    rw [tokensFrom_blank _ _ hName hToken]
    exact ih _

def tokenList (cs : List Char) : List Token := (tokensFrom 0 cs).map Located.token

theorem tokenList_nil : tokenList [] = [] := by
  rw [tokenList, tokensFrom]
  rfl

theorem isNameChar_eq_false_of_isBlank {c : Char} (h : isBlank c = true) : isNameChar c = false := by
  rw [isNameChar, h, Bool.not_true, Bool.false_and]

theorem isNameChar_eq_false_of_mem_reserved {c : Char} (h : c ∈ reserved) : isNameChar c = false := by
  rw [isNameChar, List.contains_iff_mem.mpr h, Bool.not_true, Bool.and_false]

theorem isNameChar_eq_false_of_ofChar? {c : Char} {t : Token} (h : Token.ofChar? c = some t) :
    isNameChar c = false := by
  have hReserved : reserved.contains c = true := by rw [← Token.isSome_ofChar?, h]; rfl
  exact isNameChar_eq_false_of_mem_reserved (List.contains_iff_mem.mp hReserved)

theorem tokenList_cons_of_ofChar? {c : Char} {t : Token} (h : Token.ofChar? c = some t) (cs : List Char) :
    tokenList (c :: cs) = t :: tokenList cs := by
  have hName : isNameChar c ≠ true := Bool.eq_false_iff.mp (isNameChar_eq_false_of_ofChar? h)
  rw [tokenList, tokensFrom_reserved _ _ hName h, List.map_cons]
  exact congrArg _ (map_token_tokensFrom _ _ cs)

theorem ofChar?_eq_none_of_isBlank {c : Char} (h : isBlank c = true) : Token.ofChar? c = none := by
  rw [← Option.isNone_iff_eq_none, ← Option.not_isSome, Token.isSome_ofChar?, Bool.not_eq_true',
    List.contains_eq_mem, decide_eq_false_iff_not]
  intro hMem
  simp only [reserved, List.mem_cons, List.not_mem_nil, or_false] at hMem
  rcases hMem with rfl | rfl | rfl | rfl | rfl <;> revert h <;> decide

theorem tokenList_cons_of_isBlank {c : Char} (h : isBlank c = true) (cs : List Char) :
    tokenList (c :: cs) = tokenList cs := by
  have hName : isNameChar c ≠ true := Bool.eq_false_iff.mp (isNameChar_eq_false_of_isBlank h)
  rw [tokenList, tokensFrom_blank _ _ hName (ofChar?_eq_none_of_isBlank h)]
  exact map_token_tokensFrom _ _ cs

/-- A text that does not go on with a name character. -/
def EndsName (rest : List Char) : Prop := ∀ c ∈ rest.head?, isNameChar c = false

theorem endsName_nil : EndsName [] := by
  intro c hc
  cases hc

theorem endsName_cons {c : Char} (h : isNameChar c = false) (cs : List Char) : EndsName (c :: cs) := by
  intro d hd
  obtain rfl := Option.some.inj hd
  exact h

theorem EndsName.takeWhile_append {rest : List Char} (h : EndsName rest) {cs : List Char}
    (hcs : ∀ c ∈ cs, isNameChar c = true) : (cs ++ rest).takeWhile isNameChar = cs := by
  rw [List.takeWhile_append_of_pos hcs]
  cases rest with
  | nil => exact List.append_nil cs
  | cons d rest =>
    rw [List.takeWhile_cons_of_neg (Bool.eq_false_iff.mp (h d rfl)), List.append_nil]

theorem EndsName.dropWhile_append {rest : List Char} (h : EndsName rest) {cs : List Char}
    (hcs : ∀ c ∈ cs, isNameChar c = true) : (cs ++ rest).dropWhile isNameChar = rest := by
  rw [List.dropWhile_append_of_pos hcs]
  cases rest with
  | nil => rfl
  | cons d rest => rw [List.dropWhile_cons_of_neg (Bool.eq_false_iff.mp (h d rfl))]

theorem Symbol.name_ofRun (c : Char) (cs : List Char) (h : isNameChar c = true) :
    (Symbol.ofRun c cs h).name = String.ofList (c :: cs.takeWhile isNameChar) := rfl

theorem Symbol.ofRun_congr {c : Char} {cs ds : List Char} (h : isNameChar c = true)
    (hTake : ds.takeWhile isNameChar = cs.takeWhile isNameChar) : ofRun c ds h = ofRun c cs h := by
  apply ext
  rw [name_ofRun, name_ofRun, hTake]

theorem tokenList_name_append (x : Symbol) {rest : List Char} (h : EndsName rest) :
    tokenList (x.name.toList ++ rest) = .name x :: tokenList rest := by
  obtain ⟨hNonempty, hChars⟩ := x.isName
  cases hName : x.name.toList with
  | nil => exact absurd (String.toList_eq_nil_iff.mp hName) hNonempty
  | cons c cs =>
    rw [hName] at hChars
    have hHead : isNameChar c = true := hChars c List.mem_cons_self
    have hTail : ∀ d ∈ cs, isNameChar d = true := fun d hd => hChars d (List.mem_cons_of_mem c hd)
    have hRun : Symbol.ofRun c (cs ++ rest) hHead = x := by
      apply Symbol.ext
      rw [Symbol.name_ofRun, h.takeWhile_append hTail, ← hName, String.ofList_toList]
    rw [List.cons_append, tokenList, tokensFrom_name _ _ hHead, hRun, List.map_cons,
      h.dropWhile_append hTail]
    exact congrArg _ (map_token_tokensFrom _ _ rest)

end NamedLambda
