import NamedLambda.Reduction.Bounded
import NamedLambda.Reduction.Steps

/-!
# Runs

The term that a given number of steps leads to, if there are that many steps. A bounded reduction
succeeds exactly when one of these terms within the bound has no redex, and there is at most one
such term: so neither the result nor the number of steps depends on the bound. It fails exactly
when there are as many steps as the bound allows and the last term still has a redex. A sequence of
steps yields these terms one after the other.
-/

namespace NamedLambda

set_option autoImplicit false

namespace Term

def after? : Term → Nat → Option Term
  | t, 0 => some t
  | t, n + 1 => t.step?.bind fun u => u.after? n

theorem after?_add (t : Term) (m n : Nat) : t.after? (m + n) = (t.after? m).bind fun u => u.after? n := by
  induction m generalizing t with
  | zero =>
    rw [Nat.zero_add]
    rfl
  | succ m ih =>
    rw [Nat.succ_add, after?, after?, Option.bind_assoc]
    simp only [ih]

/-- A run does not go on from a term without a redex. -/
theorem eq_zero_of_after? {t u : Term} {n : Nat} (ht : t.hasRedex = false) (h : t.after? n = some u) :
    n = 0 := by
  cases n with
  | zero => rfl
  | succ n =>
    rw [after?, (step?_eq_none_iff t).mpr ht] at h
    cases h

theorem after?_normal_le {t u v : Term} {m n : Nat} (hu : t.after? m = some u) (huRedex : u.hasRedex = false)
    (hv : t.after? n = some v) : n ≤ m := by
  apply Nat.le_of_not_lt
  intro hLt
  obtain ⟨d, rfl⟩ := Nat.exists_eq_add_of_lt hLt
  rw [Nat.add_assoc, after?_add, hu] at hv
  cases eq_zero_of_after? huRedex hv

theorem after?_normal_unique {t u v : Term} {m n : Nat} (hu : t.after? m = some u)
    (huRedex : u.hasRedex = false) (hv : t.after? n = some v) (hvRedex : v.hasRedex = false) :
    m = n ∧ u = v := by
  have hEq : m = n := Nat.le_antisymm (after?_normal_le hv hvRedex hu) (after?_normal_le hu huRedex hv)
  subst hEq
  rw [hu] at hv
  exact ⟨rfl, Option.some.inj hv⟩

theorem reduceFrom_eq_ok_iff (maxSteps done : Nat) (t : Term) (left : Nat) (r : Reduced) :
    reduceFrom maxSteps done t left = .ok r ↔
      ∃ k ≤ left, r.steps = done + k ∧ t.after? k = some r.term ∧ r.term.hasRedex = false := by
  induction left generalizing done t with
  | zero =>
    rw [reduceFrom]
    constructor
    · intro h
      split at h
      · cases h
      case isFalse hRedex =>
        cases h
        exact ⟨0, Nat.le_refl 0, rfl, rfl, Bool.eq_false_iff.mpr hRedex⟩
    · rintro ⟨k, hk, hSteps, hAfter, hRedex⟩
      obtain rfl := Nat.le_zero.mp hk
      obtain rfl := Option.some.inj hAfter
      rw [hRedex, if_neg Bool.false_ne_true]
      cases r
      cases hSteps
      rfl
  | succ left ih =>
    rw [reduceFrom]
    cases hStep : t.step? with
    | none =>
      have ht := (step?_eq_none_iff t).mp hStep
      constructor
      · intro h
        cases h
        exact ⟨0, Nat.zero_le _, rfl, rfl, ht⟩
      · rintro ⟨k, hk, hSteps, hAfter, hRedex⟩
        obtain rfl := eq_zero_of_after? ht hAfter
        obtain rfl := Option.some.inj hAfter
        cases r
        cases hSteps
        rfl
    | some u =>
      rw [ih]
      constructor
      · rintro ⟨k, hk, hSteps, hAfter, hRedex⟩
        refine ⟨k + 1, Nat.succ_le_succ hk, by omega, ?_, hRedex⟩
        rw [after?, hStep]
        exact hAfter
      · rintro ⟨k, hk, hSteps, hAfter, hRedex⟩
        cases k with
        | zero =>
          have hEq : t = r.term := Option.some.inj hAfter
          rw [hEq, (step?_eq_none_iff r.term).mpr hRedex] at hStep
          cases hStep
        | succ k =>
          rw [after?, hStep] at hAfter
          exact ⟨k, Nat.le_of_succ_le_succ hk, by omega, hAfter, hRedex⟩

theorem reduceCounted_eq_ok_iff (t : Term) (maxSteps : Nat) (r : Reduced) :
    t.reduceCounted maxSteps = .ok r ↔
      r.steps ≤ maxSteps ∧ t.after? r.steps = some r.term ∧ r.term.hasRedex = false := by
  rw [reduceCounted, reduceFrom_eq_ok_iff]
  constructor
  · rintro ⟨k, hk, hSteps, h⟩
    obtain rfl : r.steps = k := by omega
    exact ⟨hk, h⟩
  · rintro ⟨hk, h⟩
    exact ⟨r.steps, hk, by omega, h⟩

theorem reduceFrom_eq_error_iff (maxSteps done : Nat) (t : Term) (left : Nat) (e : StepLimit) :
    reduceFrom maxSteps done t left = .error e ↔
      e.maxSteps = maxSteps ∧ t.after? left = some e.last ∧ e.last.hasRedex = true := by
  induction left generalizing done t with
  | zero =>
    rw [reduceFrom]
    constructor
    · intro h
      split at h
      case isTrue hRedex =>
        cases h
        exact ⟨rfl, rfl, hRedex⟩
      · cases h
    · rintro ⟨rfl, hAfter, hRedex⟩
      obtain rfl := Option.some.inj hAfter
      rw [if_pos hRedex]
  | succ left ih =>
    rw [reduceFrom, after?]
    cases t.step? with
    | none =>
      constructor
      · intro h
        cases h
      · rintro ⟨_, hAfter, _⟩
        cases hAfter
    | some u => exact ih (done + 1) u

theorem reduceCounted_eq_error_iff (t : Term) (maxSteps : Nat) (e : StepLimit) :
    t.reduceCounted maxSteps = .error e ↔
      e.maxSteps = maxSteps ∧ t.after? maxSteps = some e.last ∧ e.last.hasRedex = true :=
  reduceFrom_eq_error_iff maxSteps 0 t maxSteps e

/-- What every step keeps holds all along a run. -/
theorem after?_invariant {Q : Term → Prop} (hStep : ∀ t u, Q t → t.step? = some u → Q u) {t u : Term}
    {n : Nat} (ht : Q t) (h : t.after? n = some u) : Q u := by
  induction n generalizing t with
  | zero =>
    obtain rfl := Option.some.inj h
    exact ht
  | succ n ih =>
    obtain ⟨v, hv, hRest⟩ := Option.bind_eq_some_iff.mp h
    exact ih (hStep t v ht hv) hRest

end Term

/-- The terms that a sequence yields are those that one step, two steps and so on lead to. -/
theorem Steps.getElem?_take (s : Steps) (n i : Nat) :
    (s.take n).1[i]? = if i < n then s.current.after? (i + 1) else none := by
  induction n generalizing s i with
  | zero => rfl
  | succ n ih =>
    rw [take, next?, Term.after?]
    cases s.current.step? with
    | none => simp
    | some u =>
      cases i with
      | zero => simp [Term.after?]
      | succ i => simp [ih]

end NamedLambda
