import NamedLambda.Symbol

/-!
# Tokens

A text is cut into parentheses, dots, lambdas and names. A name is a maximal run of name
characters, blanks separate tokens and are dropped. Every character is a name character, a
reserved character or a blank, so cutting a text never fails. Positions count characters.
-/

namespace NamedLambda

set_option autoImplicit false

/-- The characters from `start` up to, not including, `stop`. -/
structure Span where
  start : Nat
  stop : Nat
  deriving DecidableEq, Repr

inductive Token where
  | lparen
  | rparen
  | dot
  | lambda
  | name (x : Symbol)
  deriving DecidableEq

namespace Token

/-- The tokens that are one reserved character. A backslash stands for `λ`. -/
def ofChar? : Char → Option Token
  | '(' => some lparen
  | ')' => some rparen
  | '.' => some dot
  | 'λ' => some lambda
  | '\\' => some lambda
  | _ => none

def text : Token → String
  | lparen => "("
  | rparen => ")"
  | dot => "."
  | lambda => "λ"
  | name x => x.name

theorem isSome_ofChar? (c : Char) : (ofChar? c).isSome = reserved.contains c := by
  unfold ofChar?
  split
  all_goals try rfl
  rename_i h₁ h₂ h₃ h₄ h₅
  simp only [reserved, List.contains_eq_mem]
  symm
  simp only [Option.isSome_none, decide_eq_false_iff_not, List.mem_cons, List.not_mem_nil, or_false, not_or]
  exact ⟨h₃, h₁, h₂, h₄, h₅⟩

/-- What is neither part of a name nor a token of its own is blank. -/
theorem isBlank_of_ofChar?_eq_none {c : Char} (hName : isNameChar c ≠ true) (h : ofChar? c = none) :
    isBlank c = true := by
  have hReserved : reserved.contains c = false := by rw [← isSome_ofChar?, h]; rfl
  simpa only [isNameChar, hReserved, Bool.not_false, Bool.and_true, ne_eq, Bool.not_eq_true,
    Bool.not_eq_false'] using hName

end Token

/-- The symbol spelt by a name character and the name characters that follow it. -/
def Symbol.ofRun (c : Char) (cs : List Char) (h : isNameChar c = true) : Symbol :=
  ⟨String.ofList (c :: cs.takeWhile isNameChar), by
    refine ⟨fun hEmpty => ?_, fun d hd => ?_⟩
    · have hList := congrArg String.toList hEmpty
      rw [String.toList_ofList, String.toList_empty] at hList
      cases hList
    · rw [String.toList_ofList] at hd
      rcases List.mem_cons.mp hd with rfl | hd
      · exact h
      · exact List.all_eq_true.mp List.all_takeWhile d hd⟩

structure Located where
  token : Token
  span : Span
  deriving DecidableEq

/-- The tokens of a text whose first character stands at `pos`. -/
def tokensFrom (pos : Nat) : List Char → List Located
  | [] => []
  | c :: cs =>
    if h : isNameChar c = true then
      let stop := pos + 1 + (cs.takeWhile isNameChar).length
      ⟨.name (.ofRun c cs h), ⟨pos, stop⟩⟩ :: tokensFrom stop (cs.dropWhile isNameChar)
    else
      match Token.ofChar? c with
      | some t => ⟨t, ⟨pos, pos + 1⟩⟩ :: tokensFrom (pos + 1) cs
      | none => tokensFrom (pos + 1) cs
termination_by cs => cs.length
decreasing_by
  all_goals simp only [List.length_cons]
  · exact Nat.lt_succ_of_le (List.dropWhile_sublist _).length_le
  · exact Nat.lt_succ_self _
  · exact Nat.lt_succ_self _

def tokens (text : String) : List Located := tokensFrom 0 text.toList

end NamedLambda
