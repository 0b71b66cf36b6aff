import Mathlib.Logic.Relation
import NamedLambda.Proofs.Nameless.Reduction

/-!
# Standard reduction

A standard reduction first contracts redexes at the head of the term, then goes on inside the parts
of what it has reached, from left to right. Every sequence of contractions can be rearranged into a
standard one, and a standard reduction that ends in a term without a redex is taken step by step by
the normal-order strategy. So normal order reaches every normal form that can be reached at all.
-/

namespace NamedLambda.Nameless

set_option autoImplicit false

open Relation

/-- Contraction of the redex at the head, not below a binder. -/
inductive WeakHead : Nameless → Nameless → Prop where
  | redex (body arg : Nameless) : WeakHead (.app (.abs body) arg) (body.instantiate arg)
  | fn {t u : Nameless} (arg : Nameless) (h : WeakHead t u) : WeakHead (.app t arg) (.app u arg)

inductive Standard : Nameless → Nameless → Prop where
  | bound {t : Nameless} {i : Nat} (h : ReflTransGen WeakHead t (.bound i)) : Standard t (.bound i)
  | free {t : Nameless} {x : Symbol} (h : ReflTransGen WeakHead t (.free x)) : Standard t (.free x)
  | abs {t body body' : Nameless} (h : ReflTransGen WeakHead t (.abs body))
      (hBody : Standard body body') : Standard t (.abs body')
  | app {t fn fn' arg arg' : Nameless} (h : ReflTransGen WeakHead t (.app fn arg))
      (hFn : Standard fn fn') (hArg : Standard arg arg') : Standard t (.app fn' arg')

theorem WeakHead.subst {t u : Nameless} (h : WeakHead t u) (σ : Nat → Nameless) :
    WeakHead (t.subst σ) (u.subst σ) := by
  induction h with
  | redex body arg =>
    rw [subst_instantiate]
    exact .redex _ _
  | fn arg h ih => exact .fn _ ih

theorem weakHeads_subst {t u : Nameless} (h : ReflTransGen WeakHead t u) (σ : Nat → Nameless) :
    ReflTransGen WeakHead (t.subst σ) (u.subst σ) :=
  h.lift (Nameless.subst σ) fun _ _ hStep => hStep.subst σ

theorem weakHeads_rename {t u : Nameless} (h : ReflTransGen WeakHead t u) (ρ : Nat → Nat) :
    ReflTransGen WeakHead (t.rename ρ) (u.rename ρ) := by
  simp only [rename_eq_subst]
  exact weakHeads_subst h _

theorem weakHeads_fn {t u : Nameless} (h : ReflTransGen WeakHead t u) (arg : Nameless) :
    ReflTransGen WeakHead (.app t arg) (.app u arg) :=
  h.lift (fun fn => Nameless.app fn arg) fun _ _ hStep => .fn arg hStep

namespace Standard

theorem refl (t : Nameless) : Standard t t := by
  induction t with
  | bound i => exact .bound .refl
  | free x => exact .free .refl
  | abs body ih => exact .abs .refl ih
  | app fn arg ihFn ihArg => exact .app .refl ihFn ihArg

theorem of_weakHeads {t u v : Nameless} (h : ReflTransGen WeakHead t u) (hu : Standard u v) :
    Standard t v := by
  cases hu with
  | bound hHead => exact .bound (h.trans hHead)
  | free hHead => exact .free (h.trans hHead)
  | abs hHead hBody => exact .abs (h.trans hHead) hBody
  | app hHead hFn hArg => exact .app (h.trans hHead) hFn hArg

theorem rename {t u : Nameless} (h : Standard t u) (ρ : Nat → Nat) :
    Standard (t.rename ρ) (u.rename ρ) := by
  induction h generalizing ρ with
  | bound hHead => exact .bound (weakHeads_rename hHead ρ)
  | free hHead => exact .free (weakHeads_rename hHead ρ)
  | abs hHead hBody ih => exact .abs (weakHeads_rename hHead ρ) (ih _)
  | app hHead hFn hArg ihFn ihArg => exact .app (weakHeads_rename hHead ρ) (ihFn ρ) (ihArg ρ)

theorem lift {σ τ : Nat → Nameless} (h : ∀ i, Standard (σ i) (τ i)) (i : Nat) :
    Standard (Nameless.lift σ i) (Nameless.lift τ i) := by
  cases i with
  | zero => exact refl _
  | succ i => exact (h i).rename _

theorem subst {t u : Nameless} (h : Standard t u) {σ τ : Nat → Nameless}
    (hστ : ∀ i, Standard (σ i) (τ i)) : Standard (t.subst σ) (u.subst τ) := by
  induction h generalizing σ τ with
  | bound hHead => exact of_weakHeads (weakHeads_subst hHead σ) (hστ _)
  | free hHead => exact .free (weakHeads_subst hHead σ)
  | abs hHead hBody ih => exact .abs (weakHeads_subst hHead σ) (ih (lift hστ))
  | app hHead hFn hArg ihFn ihArg => exact .app (weakHeads_subst hHead σ) (ihFn hστ) (ihArg hστ)

theorem instantiate {body body' arg arg' : Nameless} (hBody : Standard body body')
    (hArg : Standard arg arg') : Standard (body.instantiate arg) (body'.instantiate arg') := by
  apply hBody.subst
  intro i
  cases i with
  | zero => exact hArg
  | succ i => exact refl _

/-- A contraction after a standard reduction can be moved to its place in the standard order. -/
theorem contract {t u v : Nameless} (h : Standard t u) (hStep : Contracts u v) : Standard t v := by
  induction hStep generalizing t with
  | redex body arg =>
    cases h with
    | app hHead hFn hArg =>
      cases hFn with
      | abs hFnHead hBody =>
        -- The redex comes to the head of the term as soon as its function is an abstraction.
        have hRedex := (hHead.trans (weakHeads_fn hFnHead _)).tail (.redex _ _)
        exact of_weakHeads hRedex (hBody.instantiate hArg)
  | abs hStep ih =>
    cases h with
    | abs hHead hBody => exact .abs hHead (ih hBody)
  | fn arg hStep ih =>
    cases h with
    | app hHead hFn hArg => exact .app hHead (ih hFn) hArg
  | arg fn hStep ih =>
    cases h with
    | app hHead hFn hArg => exact .app hHead hFn (ih hArg)

theorem of_contractions {t u : Nameless} (h : ReflTransGen Contracts t u) : Standard t u := by
  induction h with
  | refl => exact refl t
  | tail h hStep ih => exact ih.contract hStep

end Standard

def NormalStep (t u : Nameless) : Prop := t.step? = some u

theorem NormalStep.fn {t u : Nameless} (h : NormalStep t u) (ht : t.isAbs = false) (arg : Nameless) :
    NormalStep (.app t arg) (.app u arg) := by
  unfold NormalStep at h ⊢
  rw [step?_app_of_not_isAbs ht, h]

theorem NormalStep.arg {fn t u : Nameless} (h : NormalStep t u) (hAbs : fn.isAbs = false)
    (hFn : fn.step? = none) : NormalStep (.app fn t) (.app fn u) := by
  unfold NormalStep at h ⊢
  rw [step?_app_of_not_isAbs hAbs, hFn, h]
  rfl

theorem NormalStep.abs {t u : Nameless} (h : NormalStep t u) : NormalStep (.abs t) (.abs u) := by
  unfold NormalStep at h ⊢
  rw [step?, h]
  rfl

theorem WeakHead.normalStep {t u : Nameless} (h : WeakHead t u) : NormalStep t u := by
  induction h with
  | redex body arg => rfl
  | fn arg h ih =>
    apply ih.fn
    cases h <;> rfl

theorem normalSteps_of_weakHeads {t u : Nameless} (h : ReflTransGen WeakHead t u) :
    ReflTransGen NormalStep t u :=
  ReflTransGen.mono (fun _ _ hStep => WeakHead.normalStep hStep) t u h

theorem isAbs_of_normalSteps {t u : Nameless} (h : ReflTransGen NormalStep t u) (ht : t.isAbs = true) :
    u.isAbs = true := by
  induction h with
  | refl => exact ht
  | @tail v w h hStep ih =>
    cases v with
    | abs body =>
      obtain ⟨body', hBody, rfl⟩ := Option.map_eq_some_iff.mp hStep
      rfl
    | bound i => cases ih
    | free x => cases ih
    | app fn arg => cases ih

/-- As long as a function is to end as no abstraction, steps in it are steps of the application. -/
theorem normalSteps_fn {t u : Nameless} (h : ReflTransGen NormalStep t u) (hu : u.isAbs = false)
    (arg : Nameless) : ReflTransGen NormalStep (.app t arg) (.app u arg) := by
  induction h using ReflTransGen.head_induction_on with
  | refl => exact .refl
  | @head t v hStep h ih =>
    have ht : t.isAbs = false := by
      cases hAbs : t.isAbs with
      | false => rfl
      | true => rw [← hu, isAbs_of_normalSteps (h.head hStep) hAbs]
    exact ih.head (hStep.fn ht arg)

theorem Standard.normalSteps {t u : Nameless} (h : Standard t u) (hu : u.step? = none) :
    ReflTransGen NormalStep t u := by
  induction h with
  | bound hHead => exact normalSteps_of_weakHeads hHead
  | free hHead => exact normalSteps_of_weakHeads hHead
  | abs hHead hBody ih =>
    have hSteps := ih (Option.map_eq_none_iff.mp hu)
    exact (normalSteps_of_weakHeads hHead).trans (hSteps.lift Nameless.abs fun _ _ hStep => hStep.abs)
  | app hHead hFn hArg ihFn ihArg =>
    obtain ⟨hAbs, hFnNone, hArgNone⟩ := step?_app_eq_none hu
    have hFnSteps := normalSteps_fn (ihFn hFnNone) hAbs
    have hArgSteps := (ihArg hArgNone).lift _ fun _ _ hStep => NormalStep.arg hStep hAbs hFnNone
    exact (normalSteps_of_weakHeads hHead).trans ((hFnSteps _).trans hArgSteps)

/-- Normal order finds every normal form that some sequence of contractions finds. -/
theorem normalSteps_of_contractions {t u : Nameless} (h : ReflTransGen Contracts t u)
    (hu : u.step? = none) : ReflTransGen NormalStep t u :=
  (Standard.of_contractions h).normalSteps hu

end NamedLambda.Nameless
