import NamedLambda.NameSet

/-!
# Fresh symbols

A fresh variant of a symbol is its stem followed by the least positive number that gives a
name not yet taken. Each number tried and found taken is removed from the names that are
left to avoid, which bounds the search.
-/

namespace NamedLambda

set_option autoImplicit false

theorem isNameChar_of_isDigit {c : Char} (h : c.isDigit = true) : isNameChar c = true := by
  have hRange := Char.isDigit_iff_toNat.mp h
  have hLow : 48 ≤ c.toNat := hRange.1
  have hHigh : c.toNat ≤ 57 := hRange.2
  have hBlank : isBlank c = false := by
    simp only [isBlank, blankRanges, List.any_cons, List.any_nil, Bool.or_eq_false_iff,
      decide_eq_false_iff_not, and_true]
    omega
  have hReserved : reserved.contains c = false := by
    simp only [reserved, List.contains_eq_mem, decide_eq_false_iff_not]
    intro hMem
    simp only [List.mem_cons, List.not_mem_nil, or_false] at hMem
    rcases hMem with rfl | rfl | rfl | rfl | rfl <;> revert hLow hHigh <;> decide
  simp only [isNameChar, hBlank, hReserved, Bool.not_false, Bool.and_self]

namespace Symbol

def stemChars (x : Symbol) : List Char := (x.name.toList.reverse.dropWhile Char.isDigit).reverse

theorem mem_of_mem_stemChars {x : Symbol} {c : Char} (h : c ∈ x.stemChars) : c ∈ x.name.toList := by
  have hDrop := List.mem_reverse.mp h
  exact List.mem_reverse.mp ((List.dropWhile_sublist _).subset hDrop)

/-- The name without the decimal digits at its end, or the whole name if it has only digits. -/
def stem (x : Symbol) : Symbol :=
  if h : x.stemChars = [] then x
  else ⟨String.ofList x.stemChars, by
    refine ⟨fun hEmpty => h ?_, fun c hc => ?_⟩
    · rw [← String.toList_ofList (l := x.stemChars), hEmpty, String.toList_empty]
    · rw [String.toList_ofList] at hc
      exact x.isName.2 c (mem_of_mem_stemChars hc)⟩

def numbered (x : Symbol) (k : Nat) : Symbol :=
  ⟨x.name ++ k.repr, by
    refine ⟨fun hEmpty => x.isName.1 ?_, fun c hc => ?_⟩
    · have hList := congrArg String.toList hEmpty
      rw [String.toList_append, String.toList_empty, List.append_eq_nil_iff] at hList
      exact String.toList_eq_nil_iff.mp hList.1
    · rw [String.toList_append, List.mem_append] at hc
      rcases hc with hc | hc
      · exact x.isName.2 c hc
      · rw [Nat.toList_repr] at hc
        exact isNameChar_of_isDigit (Nat.isDigit_of_mem_toDigits (by decide) (by decide) hc)⟩

theorem numbered_inj {x : Symbol} {j k : Nat} (h : x.numbered j = x.numbered k) : j = k := by
  have hList := congrArg (fun y : Symbol => y.name.toList) h
  simp only [numbered, String.toList_append, Nat.toList_repr] at hList
  have hDigits := List.append_cancel_left hList
  have hValue := congrArg (fun ds => Nat.ofDigitChars 10 ds 0) hDigits
  simpa only [Nat.ofDigitChars_ten_toDigits] using hValue

/-- The first number from `k` on that gives a name outside `taken`. -/
def firstFree (x : Symbol) (taken : List Symbol) (k : Nat) : Nat :=
  if h : x.numbered k ∈ taken then firstFree x (taken.erase (x.numbered k)) (k + 1) else k
termination_by taken.length
decreasing_by
  rw [List.length_erase_of_mem h]
  exact Nat.sub_lt (List.length_pos_of_mem h) Nat.one_pos

theorem le_firstFree (x : Symbol) (taken : List Symbol) (k : Nat) : k ≤ firstFree x taken k := by
  fun_induction firstFree x taken k with
  | case1 taken k h ih => exact Nat.le_of_succ_le ih
  | case2 taken k h => exact Nat.le_refl k

theorem numbered_firstFree_not_mem (x : Symbol) (taken : List Symbol) (k : Nat) :
    x.numbered (firstFree x taken k) ∉ taken := by
  fun_induction firstFree x taken k with
  | case1 taken k h ih =>
    intro hMem
    refine ih ((List.mem_erase_of_ne ?_).mpr hMem)
    intro hEq
    have hLe := le_firstFree x (taken.erase (x.numbered k)) (k + 1)
    have hSame := numbered_inj hEq
    omega
  | case2 taken k h => exact h

/-- A variant of `base` that differs from `base` and from every name to avoid. -/
def fresh (base : Symbol) (avoid : NameSet) : Symbol :=
  base.stem.numbered (firstFree base.stem (base :: avoid.toList) 1)

theorem fresh_ne (base : Symbol) (avoid : NameSet) : fresh base avoid ≠ base := fun h =>
  numbered_firstFree_not_mem base.stem (base :: avoid.toList) 1
    (List.mem_cons.mpr (Or.inl h))

theorem fresh_not_mem (base : Symbol) (avoid : NameSet) : fresh base avoid ∉ avoid := fun h =>
  numbered_firstFree_not_mem base.stem (base :: avoid.toList) 1
    (List.mem_cons.mpr (Or.inr h))

end Symbol

end NamedLambda
