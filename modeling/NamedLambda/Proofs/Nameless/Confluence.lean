import Mathlib.Logic.Relation
import NamedLambda.Proofs.Nameless.Reduction

/-!
# Confluence of nameless forms

A parallel step contracts any of the redexes that a form has, all at once. The largest parallel step
contracts every one of them; what it leads to is the complete development of the form. Whatever a
parallel step leaves undone one more parallel step makes up for, so all parallel steps from one form
meet again at its complete development. A contraction is a parallel step and a parallel step is a
sequence of contractions, hence sequences of contractions meet again as well.
-/

namespace NamedLambda.Nameless

set_option autoImplicit false

open Relation

inductive Parallel : Nameless → Nameless → Prop where
  | bound (i : Nat) : Parallel (.bound i) (.bound i)
  | free (x : Symbol) : Parallel (.free x) (.free x)
  | abs {body body' : Nameless} (h : Parallel body body') : Parallel (.abs body) (.abs body')
  | app {fn fn' arg arg' : Nameless} (hFn : Parallel fn fn') (hArg : Parallel arg arg') :
      Parallel (.app fn arg) (.app fn' arg')
  | redex {body body' arg arg' : Nameless} (hBody : Parallel body body') (hArg : Parallel arg arg') :
      Parallel (.app (.abs body) arg) (body'.instantiate arg')

/-- Contracts every redex of a form, but none that only arises on the way. -/
def develop : Nameless → Nameless
  | bound i => bound i
  | free x => free x
  | abs body => abs body.develop
  | app (abs body) arg => body.develop.instantiate arg.develop
  | app fn arg => app fn.develop arg.develop

theorem develop_app_of_not_isAbs {fn : Nameless} (h : fn.isAbs = false) (arg : Nameless) :
    (app fn arg).develop = app fn.develop arg.develop := by
  cases fn with
  | abs body => cases h
  | bound i => rfl
  | free x => rfl
  | app f a => rfl

namespace Parallel

theorem refl (t : Nameless) : Parallel t t := by
  induction t with
  | bound i => exact .bound i
  | free x => exact .free x
  | abs body ih => exact .abs ih
  | app fn arg ihFn ihArg => exact .app ihFn ihArg

theorem rename {t u : Nameless} (h : Parallel t u) (ρ : Nat → Nat) :
    Parallel (t.rename ρ) (u.rename ρ) := by
  induction h generalizing ρ with
  | bound i => exact .bound (ρ i)
  | free x => exact .free x
  | abs h ih => exact .abs (ih _)
  | app hFn hArg ihFn ihArg => exact .app (ihFn ρ) (ihArg ρ)
  | redex hBody hArg ihBody ihArg =>
    rw [rename_instantiate]
    exact .redex (ihBody _) (ihArg ρ)

theorem lift {σ τ : Nat → Nameless} (h : ∀ i, Parallel (σ i) (τ i)) (i : Nat) :
    Parallel (Nameless.lift σ i) (Nameless.lift τ i) := by
  cases i with
  | zero => exact .bound 0
  | succ i => exact (h i).rename _

theorem subst {t u : Nameless} (h : Parallel t u) {σ τ : Nat → Nameless}
    (hστ : ∀ i, Parallel (σ i) (τ i)) : Parallel (t.subst σ) (u.subst τ) := by
  induction h generalizing σ τ with
  | bound i => exact hστ i
  | free x => exact .free x
  | abs h ih => exact .abs (ih (lift hστ))
  | app hFn hArg ihFn ihArg => exact .app (ihFn hστ) (ihArg hστ)
  | redex hBody hArg ihBody ihArg =>
    rw [subst_instantiate]
    exact .redex (ihBody (lift hστ)) (ihArg hστ)

theorem instantiate {body body' arg arg' : Nameless} (hBody : Parallel body body')
    (hArg : Parallel arg arg') : Parallel (body.instantiate arg) (body'.instantiate arg') := by
  apply hBody.subst
  intro i
  cases i with
  | zero => exact hArg
  | succ i => exact .bound i

/-- What a parallel step leads to is at most one parallel step away from the complete development. -/
theorem develop {t u : Nameless} (h : Parallel t u) : Parallel u t.develop := by
  induction h with
  | bound i => exact .bound i
  | free x => exact .free x
  | abs h ih => exact .abs ih
  | @app fn fn' arg arg' hFn hArg ihFn ihArg =>
    cases hAbs : fn.isAbs with
    | false =>
      rw [develop_app_of_not_isAbs hAbs]
      exact .app ihFn ihArg
    | true =>
      -- The redex was left alone, so it is still there and the development contracts it.
      cases hFn with
      | abs hBody =>
        cases ihFn with
        | abs ihBody => exact .redex ihBody ihArg
      | bound i => cases hAbs
      | free x => cases hAbs
      | app hF hA => cases hAbs
      | redex hB hA => cases hAbs
  | redex hBody hArg ihBody ihArg => exact ihBody.instantiate ihArg

theorem contractions {t u : Nameless} (h : Parallel t u) : ReflTransGen Contracts t u := by
  induction h with
  | bound i => exact .refl
  | free x => exact .refl
  | abs h ih => exact ih.lift Nameless.abs fun _ _ hStep => .abs hStep
  | @app fn fn' arg arg' hFn hArg ihFn ihArg =>
    have hLeft := ihFn.lift (Nameless.app · arg) fun _ _ hStep => Contracts.fn arg hStep
    have hRight := ihArg.lift (Nameless.app fn' ·) fun _ _ hStep => Contracts.arg fn' hStep
    exact hLeft.trans hRight
  | @redex body body' arg arg' hBody hArg ihBody ihArg =>
    have hLeft := ihBody.lift (fun b => Nameless.app (.abs b) arg) fun _ _ hStep =>
      Contracts.fn arg (.abs hStep)
    have hRight := ihArg.lift (Nameless.app (.abs body') ·) fun _ _ hStep => Contracts.arg _ hStep
    exact (hLeft.trans hRight).tail (.redex body' arg')

end Parallel

theorem Contracts.parallel {t u : Nameless} (h : Contracts t u) : Parallel t u := by
  induction h with
  | redex body arg => exact .redex (.refl body) (.refl arg)
  | abs h ih => exact .abs ih
  | fn arg h ih => exact .app ih (.refl arg)
  | arg fn h ih => exact .app (.refl fn) ih

theorem reflTransGen_parallel_iff (t u : Nameless) :
    ReflTransGen Parallel t u ↔ ReflTransGen Contracts t u := by
  constructor
  · intro h
    induction h with
    | refl => exact .refl
    | tail h hStep ih => exact ih.trans hStep.contractions
  · intro h
    exact ReflTransGen.mono (fun _ _ hStep => Contracts.parallel hStep) t u h

theorem contractions_join {t u v : Nameless} (hu : ReflTransGen Contracts t u)
    (hv : ReflTransGen Contracts t v) : Join (ReflTransGen Contracts) u v := by
  rw [← reflTransGen_parallel_iff] at hu hv
  have hDiamond : ∀ a b c : Nameless, Parallel a b → Parallel a c →
      ∃ d, ReflGen Parallel b d ∧ ReflTransGen Parallel c d := by
    intro a b c hb hc
    exact ⟨a.develop, .single hb.develop, .single hc.develop⟩
  obtain ⟨w, huw, hvw⟩ := church_rosser hDiamond hu hv
  exact ⟨w, (reflTransGen_parallel_iff u w).mp huw, (reflTransGen_parallel_iff v w).mp hvw⟩

end NamedLambda.Nameless
