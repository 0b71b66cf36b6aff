import Mathlib.Algebra.Group.Nat.Defs
import NamedLambda.Proofs.Nameless.Standardization
import NamedLambda.Proofs.Runs

/-!
# Normal order is enough

A term may be contracted at any position, again and again, and bound names may be changed in
between. If a term without a redex can be reached in this way, then normal-order steps lead to one as
well, and it is the same up to bound names.

Bounded reduction takes these steps, and succeeds exactly if its bound is not less than their number;
the bound has no other influence on the result. But bounds are numbers below `2 ^ 64`, and
a run can be longer: the function `slowIdentity n` gives back its argument as it is, after about
`2 ^ n` steps. So there are terms that have a normal form and on which every bounded reduction
gives up.
-/

namespace NamedLambda

set_option autoImplicit false

open Relation

/-- Finitely many contractions at any positions, and changes of bound names between them. -/
def Reduces (t u : Term) : Prop := ReflTransGen (fun t u => Contracts t u ∨ t.alphaEq u = true) t u

theorem Reduces.nameless {t u : Term} (h : Reduces t u) :
    ReflTransGen Nameless.Contracts t.nameless u.nameless := by
  induction h with
  | refl => exact .refl
  | tail h hStep ih =>
    rcases hStep with hContract | hAlpha
    · exact ih.tail (hContract.namelessUnder [])
    · rw [← (Term.alphaEq_iff_nameless_eq _ _).mp hAlpha]
      exact ih

namespace Term

theorem reduces_of_after? {t u : Term} {n : Nat} (h : t.after? n = some u) : Reduces t u := by
  induction n generalizing t with
  | zero =>
    obtain rfl := Option.some.inj h
    exact .refl
  | succ n ih =>
    obtain ⟨v, hStep, hRest⟩ := Option.bind_eq_some_iff.mp h
    exact (ih hRest).head (Or.inl (contracts_of_step? hStep))

/-- A run of a nameless form comes from a run of the term. -/
theorem exists_after?_of_normalSteps {t : Term} {v : Nameless}
    (h : ReflTransGen Nameless.NormalStep t.nameless v) :
    ∃ n u, t.after? n = some u ∧ u.nameless = v := by
  induction h with
  | refl => exact ⟨0, t, rfl, rfl⟩
  | tail h hStep ih =>
    obtain ⟨n, u, hAfter, rfl⟩ := ih
    obtain ⟨w, hw, rfl⟩ := Option.map_eq_some_iff.mp ((step?_nameless u).symm.trans hStep)
    refine ⟨n + 1, w, ?_, rfl⟩
    rw [after?_add, hAfter, Option.bind_some, after?, hw]
    rfl

theorem exists_after?_of_reduces {t n : Term} (h : Reduces t n) (hn : n.hasRedex = false) :
    ∃ k u, t.after? k = some u ∧ u.hasRedex = false ∧ u.alphaEq n = true := by
  have hNone := (step?_nameless_eq_none_iff n).mpr hn
  obtain ⟨k, u, hAfter, hNameless⟩ :=
    exists_after?_of_normalSteps (Nameless.normalSteps_of_contractions h.nameless hNone)
  refine ⟨k, u, hAfter, ?_, (alphaEq_iff_nameless_eq u n).mpr hNameless⟩
  rw [← step?_nameless_eq_none_iff, hNameless]
  exact hNone

/-- The only influence of the bound: it is enough or it is not. -/
theorem reduceCounted_of_after? {t u : Term} {k : Nat} (hAfter : t.after? k = some u)
    (hu : u.hasRedex = false) (bound : Nat) :
    (k ≤ bound → t.reduceCounted bound = .ok ⟨u, k⟩) ∧
      (bound < k → ∃ limit, t.reduceCounted bound = .error limit) := by
  constructor
  · intro hEnough
    exact (reduceCounted_eq_ok_iff t bound ⟨u, k⟩).mpr ⟨hEnough, hAfter, hu⟩
  · intro hShort
    cases hResult : t.reduceCounted bound with
    | error limit => exact ⟨limit, rfl⟩
    | ok r =>
      obtain ⟨hBound, hAfter', hr⟩ := (reduceCounted_eq_ok_iff t bound r).mp hResult
      obtain ⟨rfl, _⟩ := after?_normal_unique hAfter hu hAfter' hr
      exact absurd hBound (Nat.not_le_of_lt hShort)

theorem exists_reduces_iff_exists_after? (t : Term) :
    (∃ n, Reduces t n ∧ n.hasRedex = false) ↔ ∃ k u, t.after? k = some u ∧ u.hasRedex = false := by
  constructor
  · rintro ⟨n, hReduces, hn⟩
    obtain ⟨k, u, hAfter, hu, _⟩ := exists_after?_of_reduces hReduces hn
    exact ⟨k, u, hAfter, hu⟩
  · rintro ⟨k, u, hAfter, hu⟩
    exact ⟨u, reduces_of_after? hAfter, hu⟩

theorem normal_order_suffices (t : Term) :
    ((∃ n, Reduces t n ∧ n.hasRedex = false) ↔ ∃ k u, t.after? k = some u ∧ u.hasRedex = false) ∧
      ((∃ bound < 2 ^ 64, ∃ r, t.reduceCounted bound = .ok r) ↔
        ∃ k < 2 ^ 64, ∃ u, t.after? k = some u ∧ u.hasRedex = false) ∧
      ∀ n k u, Reduces t n → n.hasRedex = false → t.after? k = some u → u.hasRedex = false →
        u.alphaEq n = true ∧
          ∀ bound < 2 ^ 64, (k ≤ bound → t.reduceCounted bound = .ok ⟨u, k⟩) ∧
            (bound < k → ∃ limit, t.reduceCounted bound = .error limit) := by
  refine ⟨exists_reduces_iff_exists_after? t, ⟨?_, ?_⟩, ?_⟩
  · rintro ⟨bound, hBudget, r, hOk⟩
    obtain ⟨hBound, hAfter, hRedex⟩ := (reduceCounted_eq_ok_iff t bound r).mp hOk
    exact ⟨r.steps, Nat.lt_of_le_of_lt hBound hBudget, r.term, hAfter, hRedex⟩
  · rintro ⟨k, hBudget, u, hAfter, hu⟩
    exact ⟨k, hBudget, ⟨u, k⟩, (reduceCounted_of_after? hAfter hu k).1 (Nat.le_refl k)⟩
  · intro n k u hReduces hn hAfter hu
    obtain ⟨k', u', hAfter', hu', hAlpha⟩ := exists_after?_of_reduces hReduces hn
    obtain ⟨_, rfl⟩ := after?_normal_unique hAfter hu hAfter' hu'
    exact ⟨hAlpha, fun bound _ => reduceCounted_of_after? hAfter hu bound⟩

/-- A constant function of an argument that has no normal form. -/
def constantOfDivergent (x y : Symbol) : Term :=
  app (abs x (var y)) (app (abs x (app (var x) (var x))) (abs x (app (var x) (var x))))

theorem normal_order_suffices_constantOfDivergent :
    let x : Symbol := .literal "x"
    let y : Symbol := .literal "y"
    Reduces (constantOfDivergent x y) (var y) ∧
      ∀ bound < 2 ^ 64, 1 ≤ bound → (constantOfDivergent x y).reduceCounted bound = .ok ⟨var y, 1⟩ := by
  intro x y
  have hBeta : beta (abs x (var y)) (app (abs x (app (var x) (var x))) (abs x (app (var x) (var x)))) =
      some (var y) := by
    rw [beta, subst_var, if_neg (by decide)]
  have hReduces : Reduces (constantOfDivergent x y) (var y) := .single (Or.inl (.redex hBeta))
  have hAfter : (constantOfDivergent x y).after? 1 = some (var y) := hBeta
  obtain ⟨_, _, hRuns⟩ := normal_order_suffices (constantOfDivergent x y)
  obtain ⟨_, hBounds⟩ := hRuns (var y) 1 (var y) hReduces rfl hAfter rfl
  exact ⟨hReduces, fun bound hBudget => (hBounds bound hBudget).1⟩

/-- The function that applies its first argument twice. -/
def twice (f z : Symbol) : Term := abs f (abs z (app (var f) (app (var f) (var z))))

/-- The identity, made slower `n` times by being applied twice. -/
def slowIdentity (f z : Symbol) : Nat → Term
  | 0 => abs z (var z)
  | n + 1 => app (twice f z) (slowIdentity f z n)

section

variable {f z : Symbol}

theorem hasFree_slowIdentity (n : Nat) (x : Symbol) : (slowIdentity f z n).hasFree x = false := by
  induction n with
  | zero => simp [slowIdentity, hasFree]
  | succ n ih => simp +contextual [slowIdentity, twice, hasFree, ih]

variable (hNe : z ≠ f)

include hNe

theorem after?_app_twice {g : Term} (hg : g.hasFree z = false) (a : Term) :
    (app (app (twice f z) g) a).after? 2 = some (app g (app g a)) := by
  have hFirst : beta (twice f z) g = some (abs z (app g (app g (var z)))) := by
    have hBody : (app (var f) (app (var f) (var z))).hasFree f = true := by simp [hasFree]
    simp [twice, beta, subst_abs, subst_app, subst_var, hNe, hBody, hg]
  have hSecond : beta (abs z (app g (app g (var z)))) a = some (app g (app g a)) := by
    simp [beta, subst_app, subst_var, subst_eq_self a hg]
  have hOuter : beta (app (twice f z) g) a = none := rfl
  simp [after?, step?, hOuter, hFirst, hSecond]

theorem after?_app_slowIdentity (n : Nat) (a : Term) :
    (app (slowIdentity f z n) a).after? (3 * 2 ^ n - 2) = some a := by
  induction n generalizing a with
  | zero => simp [slowIdentity, after?, step?, beta, subst_var]
  | succ n ih =>
    have hPos : 0 < 2 ^ n := Nat.two_pow_pos n
    have hSteps : 3 * 2 ^ (n + 1) - 2 = 2 + (3 * 2 ^ n - 2) + (3 * 2 ^ n - 2) := by
      rw [Nat.pow_succ]
      omega
    rw [hSteps, after?_add, after?_add, slowIdentity, after?_app_twice hNe (hasFree_slowIdentity n z) a,
      Option.bind_some, ih, Option.bind_some, ih]

end

theorem normal_form_beyond_every_bound :
    let f : Symbol := .literal "f"
    let y : Symbol := .literal "y"
    let z : Symbol := .literal "z"
    let t := app (slowIdentity f z 64) (var y)
    Reduces t (var y) ∧ (var y).hasRedex = false ∧ ¬ ∃ bound < 2 ^ 64, ∃ r, t.reduceCounted bound = .ok r := by
  intro f y z t
  have hAfter : t.after? (3 * 2 ^ 64 - 2) = some (var y) := after?_app_slowIdentity (by decide) 64 (var y)
  refine ⟨reduces_of_after? hAfter, rfl, ?_⟩
  rintro ⟨bound, hBudget, r, hOk⟩
  obtain ⟨limit, hError⟩ := (reduceCounted_of_after? hAfter rfl bound).2 (by omega)
  rw [hError] at hOk
  cases hOk

end Term

end NamedLambda
