import Mathlib.Algebra.Group.Nat.Defs
import Mathlib.Order.Bounds.Defs
import NamedLambda.Symbol.Fresh

/-!
# Fresh symbols take the least number

A search that counts up from one and tests each number ends, because different numbers give different
names and only finitely many names are taken: those to avoid and the symbol itself. So it stops at
the latest two numbers after as many as there are names to avoid, and a search that can count
so far does not run out of numbers. The number it stops at is the one that a fresh symbol has.
-/

namespace NamedLambda.Symbol

set_option autoImplicit false

/-- `stem` is a name without the decimal digits at its end, or all of a name that has only digits. -/
def IsStem (name stem : List Char) : Prop :=
  (∃ digits, name = stem ++ digits ∧ (∀ c ∈ digits, c.isDigit = true) ∧
    ∃ c ∈ stem.getLast?, c.isDigit = false) ∨
  stem = name ∧ ∀ c ∈ name, c.isDigit = true

theorem isStem_stem (x : Symbol) : IsStem x.name.toList x.stem.name.toList := by
  let digits := (x.name.toList.reverse.takeWhile Char.isDigit).reverse
  have hDigits : ∀ c ∈ digits, c.isDigit = true := by
    intro c hc
    exact List.all_eq_true.mp List.all_takeWhile c (List.mem_reverse.mp hc)
  have hSplit : x.name.toList = x.stemChars ++ digits := by
    rw [stemChars, ← List.reverse_append, List.takeWhile_append_dropWhile, List.reverse_reverse]
  unfold stem
  split
  case isTrue hEmpty =>
    rw [hEmpty, List.nil_append] at hSplit
    exact Or.inr ⟨rfl, hSplit ▸ hDigits⟩
  case isFalse hStem =>
    rw [String.toList_ofList]
    refine Or.inl ⟨digits, hSplit, hDigits, ?_⟩
    have hLast : x.stemChars.getLast? = (x.name.toList.reverse.dropWhile Char.isDigit).head? :=
      List.getLast?_reverse
    have hHead := List.head?_dropWhile_not Char.isDigit x.name.toList.reverse
    rw [← hLast] at hHead
    cases hChar : x.stemChars.getLast? with
    | none => exact absurd (List.getLast?_eq_none_iff.mp hChar) hStem
    | some c =>
      rw [hChar] at hHead
      exact ⟨c, rfl, hHead⟩

/-- The number `k` gives a name that is neither `base` nor one to avoid. -/
def Available (base : Symbol) (avoid : NameSet) (k : Nat) : Prop :=
  base.stem.numbered k ≠ base ∧ base.stem.numbered k ∉ avoid

instance (base : Symbol) (avoid : NameSet) (k : Nat) : Decidable (base.Available avoid k) :=
  inferInstanceAs (Decidable (_ ∧ _))

/-- Tests the numbers from `k` on one after the other, and gives up at `limit`. -/
def search? (base : Symbol) (avoid : NameSet) (limit k : Nat) : Option Nat :=
  if k < limit then
    if base.Available avoid k then some k else search? base avoid limit (k + 1)
  else none
termination_by limit - k

theorem search?_eq_some_iff {base : Symbol} {avoid : NameSet} {limit k n : Nat} :
    base.search? avoid limit k = some n ↔ IsLeast {m | k ≤ m ∧ base.Available avoid m} n ∧ n < limit := by
  fun_induction search? base avoid limit k with
  | case1 k hLimit hFree =>
    constructor
    · intro h
      obtain rfl := Option.some.inj h
      exact ⟨⟨⟨Nat.le_refl k, hFree⟩, fun m hm => hm.1⟩, hLimit⟩
    · rintro ⟨⟨⟨hLe, _⟩, hLeast⟩, _⟩
      exact congrArg some (Nat.le_antisymm hLe (hLeast ⟨Nat.le_refl k, hFree⟩))
  | case2 k hLimit hTaken ih =>
    have hNext : {m | k ≤ m ∧ base.Available avoid m} = {m | k + 1 ≤ m ∧ base.Available avoid m} := by
      ext m
      refine and_congr_left fun hFree => ⟨fun hLe => ?_, Nat.le_of_succ_le⟩
      refine Nat.lt_of_le_of_ne hLe fun hEq => hTaken ?_
      rwa [hEq]
    rw [ih, hNext]
  | case3 k hLimit =>
    refine ⟨nofun, ?_⟩
    rintro ⟨⟨⟨hLe, _⟩, _⟩, hLt⟩
    exact absurd (Nat.lt_of_le_of_lt hLe hLt) hLimit

theorem firstFree_le (x : Symbol) (taken : List Symbol) (k : Nat) :
    firstFree x taken k ≤ k + taken.length := by
  fun_induction firstFree x taken k with
  | case1 taken k h ih =>
    have hPos := List.length_pos_of_mem h
    rw [List.length_erase_of_mem h] at ih
    omega
  | case2 taken k h => exact Nat.le_add_right k _

theorem mem_of_lt_firstFree {x : Symbol} {taken : List Symbol} {j k : Nat} (hLe : k ≤ j)
    (hLt : j < firstFree x taken k) : x.numbered j ∈ taken := by
  fun_induction firstFree x taken k with
  | case1 taken k h ih =>
    rcases Nat.eq_or_lt_of_le hLe with rfl | hNext
    · exact h
    · exact List.mem_of_mem_erase (ih hNext hLt)
  | case2 taken k h => exact absurd hLt (Nat.not_lt_of_le hLe)

theorem available_iff {base : Symbol} {avoid : NameSet} {k : Nat} :
    base.Available avoid k ↔ base.stem.numbered k ∉ base :: avoid.toList := by
  rw [List.mem_cons, not_or]
  exact Iff.rfl

/-- The number of a fresh symbol. -/
def freshNumber (base : Symbol) (avoid : NameSet) : Nat :=
  firstFree base.stem (base :: avoid.toList) 1

theorem isLeast_freshNumber (base : Symbol) (avoid : NameSet) :
    IsLeast {k | 1 ≤ k ∧ base.Available avoid k} (base.freshNumber avoid) := by
  refine ⟨⟨le_firstFree _ _ 1, available_iff.mpr (numbered_firstFree_not_mem _ _ 1)⟩, ?_⟩
  rintro j ⟨hPos, hFree⟩
  refine Nat.le_of_not_lt fun hLt => ?_
  exact available_iff.mp hFree (mem_of_lt_firstFree hPos hLt)

theorem freshNumber_le (base : Symbol) (avoid : NameSet) : base.freshNumber avoid ≤ avoid.size + 2 := by
  have hLe := firstFree_le base.stem (base :: avoid.toList) 1
  rw [List.length_cons, ← NameSet.size] at hLe
  rw [freshNumber]
  omega

theorem fresh_takes_least_number (base : Symbol) (avoid : NameSet) :
    IsStem base.name.toList base.stem.name.toList ∧ ∃ k,
      (base.fresh avoid).name = base.stem.name ++ k.repr ∧
      IsLeast {k | 1 ≤ k ∧ base.Available avoid k} k ∧ k ≤ avoid.size + 2 ∧
      (∀ limit, avoid.size + 2 < limit → base.search? avoid limit 1 = some k) ∧
      (avoid.size ≤ 2 ^ 64 - 3 → k < 2 ^ 64 ∧ base.search? avoid (2 ^ 64) 1 = some k) ∧
      ofString (base.stem.name ++ k.repr) = .ok (base.fresh avoid) := by
  have hLeast := isLeast_freshNumber base avoid
  have hBound := freshNumber_le base avoid
  have hEnds : ∀ limit, avoid.size + 2 < limit →
      base.search? avoid limit 1 = some (base.freshNumber avoid) := by
    intro limit hLimit
    exact search?_eq_some_iff.mpr ⟨hLeast, Nat.lt_of_le_of_lt hBound hLimit⟩
  refine ⟨isStem_stem base, base.freshNumber avoid, rfl, hLeast, hBound, hEnds, ?_, ?_⟩
  · intro hSize
    have hLimit : avoid.size + 2 < 2 ^ 64 := by omega
    exact ⟨Nat.lt_of_le_of_lt hBound hLimit, hEnds _ hLimit⟩
  · exact ofString_eq_ok_iff.mpr rfl

theorem fresh_takes_least_number_ownNumberTaken :
    let x₁ : Symbol := .literal "x1"
    let x₂ : Symbol := .literal "x2"
    let x₃ : Symbol := .literal "x3"
    let avoid := NameSet.ofList [x₃, x₁]
    avoid.size + 2 < 5 ∧ avoid.size ≤ 2 ^ 64 - 3 ∧ (x₂.fresh avoid).name = "x4" ∧
      x₂.search? avoid 5 1 = some 4 ∧ x₂.search? avoid (2 ^ 64) 1 = some 4 ∧ x₂.search? avoid 4 1 = none := by
  intro x₁ x₂ x₃ avoid
  have hSize : avoid.size = 2 := by decide +kernel
  have hFresh : (x₂.fresh avoid).name = "x4" := by decide +kernel
  have hSearch : x₂.search? avoid 5 1 = some 4 := by decide +kernel
  have hLimit : avoid.size + 2 < 5 := by omega
  have hWide : avoid.size ≤ 2 ^ 64 - 3 := by omega
  obtain ⟨_, k, _, _, _, hEnds, hWord, _⟩ := fresh_takes_least_number x₂ avoid
  obtain rfl : k = 4 := Option.some.inj ((hEnds 5 hLimit).symm.trans hSearch)
  exact ⟨hLimit, hWide, hFresh, hEnds 5 hLimit, (hWord hWide).2, by decide +kernel⟩

end NamedLambda.Symbol
