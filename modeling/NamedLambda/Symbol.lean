import NamedLambda.Blank

/-!
# Symbols

A symbol is a variable name. Its text is never empty, holds no blank and none of the
characters that the notation of terms reserves, so that it can be read back as one token.
Symbols are ordered by the code points of their text.
-/

namespace NamedLambda

set_option autoImplicit false

def reserved : List Char := ['.', '(', ')', 'λ', '\\']

def isNameChar (c : Char) : Bool := !isBlank c && !reserved.contains c

def IsName (s : String) : Prop := s ≠ "" ∧ ∀ c ∈ s.toList, isNameChar c = true

instance (s : String) : Decidable (IsName s) :=
  decidable_of_iff (s ≠ "" ∧ s.toList.all isNameChar = true) (and_congr Iff.rfl List.all_eq_true)

structure Symbol where
  name : String
  isName : IsName name

namespace Symbol

@[ext] theorem ext {x y : Symbol} (h : x.name = y.name) : x = y := by
  cases x; cases y; cases h; rfl

instance : DecidableEq Symbol := fun x y =>
  if h : x.name = y.name then .isTrue (ext h) else .isFalse fun e => h (e ▸ rfl)

/-- A symbol whose name is written out. -/
abbrev literal (name : String) (isName : IsName name := by decide) : Symbol := ⟨name, isName⟩

instance : LT Symbol := ⟨fun x y => x.name < y.name⟩

instance (x y : Symbol) : Decidable (x < y) := inferInstanceAs (Decidable (x.name < y.name))

theorem lt_irrefl (x : Symbol) : ¬ x < x := String.lt_irrefl x.name

theorem lt_trans {x y z : Symbol} (h : x < y) (h' : y < z) : x < z := String.lt_trans h h'

theorem eq_of_not_lt {x y : Symbol} (h : ¬ x < y) (h' : ¬ y < x) : x = y :=
  ext (String.le_antisymm (String.not_lt.mp h') (String.not_lt.mp h))

inductive Defect where
  | empty
  | badCharacter
  deriving DecidableEq, Repr

def Defect.reason : Defect → String
  | empty => "a name must not be empty"
  | badCharacter => "a name must not contain whitespace, `.`, `(`, `)`, `λ` or `\\`"

structure Invalid where
  name : String
  defect : Defect
  deriving DecidableEq, Repr

def Invalid.reason (e : Invalid) : String := e.defect.reason

def Invalid.message (e : Invalid) : String := "Invalid symbol `" ++ e.name ++ "`: " ++ e.reason

def ofString (s : String) : Except Invalid Symbol :=
  if hEmpty : s = "" then .error ⟨s, .empty⟩
  else if hChars : s.toList.all isNameChar = true then .ok ⟨s, hEmpty, List.all_eq_true.mp hChars⟩
  else .error ⟨s, .badCharacter⟩

theorem ofString_name (x : Symbol) : ofString x.name = .ok x := by
  simp only [ofString, dif_neg x.isName.1, dif_pos (List.all_eq_true.mpr x.isName.2)]

theorem ofString_eq_ok_iff {s : String} {x : Symbol} : ofString s = .ok x ↔ x.name = s := by
  constructor
  · intro h
    unfold ofString at h
    split at h
    · cases h
    · split at h
      · cases h; rfl
      · cases h
  · rintro rfl
    exact ofString_name x

end Symbol

end NamedLambda
