import NamedLambda.Proofs.Environment
import NamedLambda.Proofs.Runs
import NamedLambda.Reduction.Contraction
import NamedLambda.Reduction.Event

/-!
# Free variables along a run

The free variables of a term are the names that its nameless form mentions. So it can be read off the
nameless form which variables are free after a substitution, without looking at the binders
that it renames. Every contraction keeps or loses free variables and never brings in a new one;
hence neither does a run. The names invented on the way are bound where they are invented,
and stay so.
-/

namespace NamedLambda

set_option autoImplicit false

namespace Nameless

def Mentions (x : Symbol) : Nameless → Prop
  | bound _ => False
  | free y => y = x
  | abs body => body.Mentions x
  | app fn arg => fn.Mentions x ∨ arg.Mentions x

theorem mentions_rename (x : Symbol) (t : Nameless) (ρ : Nat → Nat) :
    (t.rename ρ).Mentions x ↔ t.Mentions x := by
  induction t generalizing ρ with
  | bound i => exact Iff.rfl
  | free y => exact Iff.rfl
  | abs body ih => exact ih _
  | app fn arg ihFn ihArg => exact or_congr (ihFn ρ) (ihArg ρ)

end Nameless

/-- The bound name stands for a number, which mentions nothing. -/
theorem mentions_enter {env : Symbol → Nameless} {x y z : Symbol} :
    (enter env x y).Mentions z ↔ y ≠ x ∧ (env y).Mentions z := by
  by_cases hEq : y = x
  · rw [hEq, enter_self]
    exact ⟨False.elim, fun h => h.1 rfl⟩
  · rw [enter_of_ne hEq, Nameless.shift, Nameless.mentions_rename]
    exact (and_iff_right hEq).symm

namespace Term

theorem mentions_namelessIn (t : Term) (env : Symbol → Nameless) (x : Symbol) :
    (t.namelessIn env).Mentions x ↔ ∃ y ∈ t.freeVars, (env y).Mentions x := by
  induction t generalizing env with
  | var y => simp [namelessIn, freeVars]
  | abs y body ih =>
    rw [namelessIn, Nameless.Mentions, ih]
    simp only [mentions_enter, freeVars, NameSet.mem_erase, and_assoc]
  | app fn arg ihFn ihArg =>
    simp only [namelessIn, Nameless.Mentions, freeVars, ihFn, ihArg, NameSet.mem_union, or_and_right, exists_or]

theorem mem_freeVars_iff_mentions (t : Term) (x : Symbol) : x ∈ t.freeVars ↔ t.nameless.Mentions x := by
  rw [nameless_eq, mentions_namelessIn]
  simp [Nameless.Mentions]

theorem mem_freeVars_subst {t r : Term} {x y : Symbol} :
    y ∈ (t.subst x r).freeVars ↔ (y ∈ t.freeVars ∧ y ≠ x) ∨ (x ∈ t.freeVars ∧ y ∈ r.freeVars) := by
  rw [mem_freeVars_iff_mentions, nameless_eq, namelessIn_subst, mentions_namelessIn]
  constructor
  · rintro ⟨z, hz, hMentions⟩
    by_cases hEq : z = x
    · subst hEq
      rw [Function.update_self, ← nameless_eq, ← mem_freeVars_iff_mentions] at hMentions
      exact Or.inr ⟨hz, hMentions⟩
    · rw [Function.update_of_ne hEq] at hMentions
      obtain rfl : z = y := hMentions
      exact Or.inl ⟨hz, hEq⟩
  · rintro (⟨hy, hNe⟩ | ⟨hx, hy⟩)
    · refine ⟨y, hy, ?_⟩
      rw [Function.update_of_ne hNe]
      rfl
    · refine ⟨x, hx, ?_⟩
      rwa [Function.update_self, ← nameless_eq, ← mem_freeVars_iff_mentions]

end Term

theorem Contracts.mem_freeVars {t u : Term} (h : Contracts t u) {x : Symbol} (hx : x ∈ u.freeVars) :
    x ∈ t.freeVars := by
  induction h with
  | redex h =>
    obtain ⟨y, body, rfl, rfl⟩ := Term.beta_eq_some_iff.mp h
    rw [Term.freeVars, NameSet.mem_union, Term.freeVars, NameSet.mem_erase]
    rcases Term.mem_freeVars_subst.mp hx with hBody | ⟨_, hArg⟩
    · exact Or.inl hBody
    · exact Or.inr hArg
  | abs y h ih =>
    obtain ⟨hBody, hNe⟩ := NameSet.mem_erase.mp hx
    exact NameSet.mem_erase.mpr ⟨ih hBody, hNe⟩
  | fn arg h ih =>
    rcases NameSet.mem_union.mp hx with hFn | hArg
    · exact NameSet.mem_union.mpr (Or.inl (ih hFn))
    · exact NameSet.mem_union.mpr (Or.inr hArg)
  | arg fn h ih =>
    rcases NameSet.mem_union.mp hx with hFn | hArg
    · exact NameSet.mem_union.mpr (Or.inl hFn)
    · exact NameSet.mem_union.mpr (Or.inr (ih hArg))

namespace Term

theorem mem_freeVars_of_after? {t u : Term} {n : Nat} (h : t.after? n = some u) {x : Symbol}
    (hx : x ∈ u.freeVars) : x ∈ t.freeVars := by
  have hStep : ∀ v w : Term, (∀ y ∈ v.freeVars, y ∈ t.freeVars) → v.step? = some w →
      ∀ y ∈ w.freeVars, y ∈ t.freeVars := by
    intro v w hv hStep y hy
    exact hv y ((contracts_of_step? hStep).mem_freeVars hy)
  exact after?_invariant hStep (fun _ hy => hy) h x hx

/-- The terms that can be seen of the reduction of `t`: those that its sequence of steps yields, the
result of a bounded reduction, and the last term of one that gave up. -/
inductive InRun (t : Term) : Term → Prop where
  | yielded {n : Nat} {u : Term} (h : u ∈ (t.steps.take n).1) : InRun t u
  | reduced {maxSteps : Nat} {r : Reduced} (h : t.reduceCounted maxSteps = .ok r) : InRun t r.term
  | gaveUp {maxSteps : Nat} {e : StepLimit} (h : t.reduceCounted maxSteps = .error e) : InRun t e.last

theorem InRun.exists_after? {t u : Term} (h : t.InRun u) : ∃ n, t.after? n = some u := by
  cases h with
  | @yielded n u h =>
    obtain ⟨i, hi⟩ := List.mem_iff_getElem?.mp h
    rw [Steps.getElem?_take] at hi
    split at hi
    · exact ⟨i + 1, hi⟩
    · cases hi
  | reduced h => exact ⟨_, ((reduceCounted_eq_ok_iff t _ _).mp h).2.1⟩
  | gaveUp h => exact ⟨_, ((reduceCounted_eq_error_iff t _ _).mp h).2.1⟩

theorem InRun.mem_freeVars {t u : Term} (h : t.InRun u) {x : Symbol} (hx : x ∈ u.freeVars) :
    x ∈ t.freeVars := by
  obtain ⟨n, hAfter⟩ := h.exists_after?
  exact mem_freeVars_of_after? hAfter hx

theorem run_creates_no_free_variable (t u : Term) (h : t.InRun u) :
    (∀ x ∈ u.freeVars, x ∈ t.freeVars) ∧ (t.freeVars = ∅ → u.freeVars = ∅) ∧
      ∀ n change, (.renamed change ∈ t.reduceEvents n ∨ .renamed change ∈ t.steps.takeEvents n) →
        change.fresh ∈ u.freeVars → change.fresh ∈ t.freeVars := by
  refine ⟨fun x hx => h.mem_freeVars hx, ?_, ?_⟩
  · intro hClosed
    apply NameSet.ext
    intro x
    constructor
    · intro hx
      rw [← hClosed]
      exact h.mem_freeVars hx
    · intro hx
      exact absurd hx (NameSet.not_mem_empty x)
  · intro n change _ hFree
    exact h.mem_freeVars hFree

theorem run_creates_no_free_variable_below_binder :
    let x : Symbol := .literal "x"
    let y : Symbol := .literal "y"
    let y₁ : Symbol := .literal "y1"
    let t := abs y (app (abs x (abs y (var x))) (var y))
    let u := abs y (abs y₁ (var y))
    t.freeVars = ∅ ∧ t.InRun u ∧ .renamed ⟨y, y₁, var y⟩ ∈ t.reduceEvents 1 ∧
      u.freeVars = ∅ ∧ y₁ ∉ u.freeVars := by
  intro x y y₁ t u
  have hClosed : t.freeVars = ∅ := by decide
  have hRun : t.InRun u := .yielded (n := 1) (by decide +kernel)
  have hRenamed : .renamed ⟨y, y₁, var y⟩ ∈ t.reduceEvents 1 := by decide +kernel
  obtain ⟨_, hKept, hInvented⟩ := run_creates_no_free_variable t u hRun
  refine ⟨hClosed, hRun, hRenamed, hKept hClosed, ?_⟩
  intro hFree
  have hOld := hInvented 1 _ (Or.inl hRenamed) hFree
  rw [hClosed] at hOld
  exact NameSet.not_mem_empty _ hOld

end Term

end NamedLambda
