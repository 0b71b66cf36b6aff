import NamedLambda.Proofs.Nameless.Confluence

/-!
# Confluence

Two sequences of contractions that start from one term can be continued until they meet again, up to
bound names. The contractions of a term and those of its nameless form correspond to each other, so
this is confluence of nameless forms. It cannot be had without a change of names: whether a binder
gets a new name depends on the order of the contractions. A term without a redex has no continuation
but itself, so two of them that come from one term are equal up to bound names.
-/

namespace NamedLambda

set_option autoImplicit false

open Relation

theorem Nameless.not_contracts_resolve (xs : List Symbol) (x : Symbol) (v : Nameless) :
    ¬ Contracts (resolve xs x) v := by
  unfold resolve
  cases xs.idxOf? x with
  | none => exact nofun
  | some i => exact nofun

namespace Term

/-- A contraction of the nameless form is the contraction of a redex of the term. -/
theorem exists_contracts_of_namelessUnder {t : Term} {xs : List Symbol} {v : Nameless}
    (h : Nameless.Contracts (t.namelessUnder xs) v) : ∃ u, Contracts t u ∧ u.namelessUnder xs = v := by
  induction t generalizing xs v with
  | var x => exact absurd h (Nameless.not_contracts_resolve xs x v)
  | abs x body ih =>
    cases h with
    | abs hBody =>
      obtain ⟨u, hu, rfl⟩ := ih hBody
      exact ⟨abs x u, .abs x hu, rfl⟩
  | app fn arg ihFn ihArg =>
    rw [namelessUnder] at h
    generalize hFn : fn.namelessUnder xs = f at h
    cases h with
    | fn _ hStep =>
      subst hFn
      obtain ⟨u, hu, rfl⟩ := ihFn hStep
      exact ⟨app u arg, .fn arg hu, rfl⟩
    | arg _ hStep =>
      obtain ⟨u, hu, rfl⟩ := ihArg hStep
      exact ⟨app fn u, .arg fn hu, by rw [namelessUnder, hFn]⟩
    | redex =>
      cases fn with
      | var x => exact absurd hFn (Nameless.resolve_ne_abs xs x _)
      | app f a => cases hFn
      | abs x body =>
        cases hFn
        exact ⟨body.subst x arg, .redex rfl, namelessUnder_subst body x arg xs⟩

theorem exists_contractions_of_nameless {t : Term} {v : Nameless}
    (h : ReflTransGen Nameless.Contracts t.nameless v) :
    ∃ u, ReflTransGen Contracts t u ∧ u.nameless = v := by
  induction h with
  | refl => exact ⟨t, .refl, rfl⟩
  | tail h hStep ih =>
    obtain ⟨u, hu, rfl⟩ := ih
    obtain ⟨w, hw, rfl⟩ := exists_contracts_of_namelessUnder hStep
    exact ⟨w, hu.tail hw, rfl⟩

theorem nameless_contractions {t u : Term} (h : ReflTransGen Contracts t u) :
    ReflTransGen Nameless.Contracts t.nameless u.nameless :=
  h.lift nameless fun _ _ hStep => hStep.namelessUnder []

theorem exists_alphaEq_of_contractions {t u v : Term} (hu : ReflTransGen Contracts t u)
    (hv : ReflTransGen Contracts t v) :
    ∃ u' v', ReflTransGen Contracts u u' ∧ ReflTransGen Contracts v v' ∧ u'.alphaEq v' = true := by
  obtain ⟨w, huw, hvw⟩ := Nameless.contractions_join (nameless_contractions hu) (nameless_contractions hv)
  obtain ⟨u', hu', hEq⟩ := exists_contractions_of_nameless huw
  obtain ⟨v', hv', hEq'⟩ := exists_contractions_of_nameless hvw
  exact ⟨u', v', hu', hv', (alphaEq_iff_nameless_eq u' v').mpr (hEq.trans hEq'.symm)⟩

theorem eq_of_contractions_of_normal {t u : Term} (h : ReflTransGen Contracts t u)
    (ht : t.hasRedex = false) : t = u := by
  cases h.cases_head with
  | inl hEq => exact hEq
  | inr hStep =>
    obtain ⟨v, hv, _⟩ := hStep
    rw [hv.hasRedex] at ht
    cases ht

theorem contractions_confluent {t u v : Term} (hu : ReflTransGen Contracts t u)
    (hv : ReflTransGen Contracts t v) :
    (∃ u' v', ReflTransGen Contracts u u' ∧ ReflTransGen Contracts v v' ∧ u'.alphaEq v' = true) ∧
      (u.hasRedex = false → v.hasRedex = false → u.alphaEq v = true) := by
  have hMeet := exists_alphaEq_of_contractions hu hv
  refine ⟨hMeet, ?_⟩
  intro huNormal hvNormal
  obtain ⟨u', v', hu', hv', hAlpha⟩ := hMeet
  obtain rfl := eq_of_contractions_of_normal hu' huNormal
  obtain rfl := eq_of_contractions_of_normal hv' hvNormal
  exact hAlpha

theorem contractions_confluent_discardedArgument :
    let k : Symbol := .literal "k"
    let w : Symbol := .literal "w"
    let x : Symbol := .literal "x"
    let y : Symbol := .literal "y"
    let y₁ : Symbol := .literal "y1"
    let t := app (abs x (abs y (app (abs w (var k)) (var x)))) (var y)
    ReflTransGen Contracts t (abs y₁ (var k)) ∧ ReflTransGen Contracts t (abs y (var k)) ∧
      (abs y₁ (var k)).alphaEq (abs y (var k)) = true := by
  intro k w x y y₁ t
  have hConstant : ∀ a : Term, Contracts (app (abs w (var k)) a) (var k) := by
    intro a
    apply Contracts.redex
    rw [beta, subst_var, if_neg (by decide)]
  -- The outer redex first: the argument passes the binder `y` before it is dropped.
  have hRenamed : ReflTransGen Contracts t (abs y₁ (var k)) := by
    have hOuter : Contracts t (abs y₁ (app (abs w (var k)) (var y))) := .redex (by decide +kernel)
    exact (ReflTransGen.single hOuter).tail (.abs y₁ (hConstant (var y)))
  have hKept : ReflTransGen Contracts t (abs y (var k)) := by
    have hInner : Contracts t (app (abs x (abs y (var k))) (var y)) :=
      .fn (var y) (.abs x (.abs y (hConstant (var x))))
    exact (ReflTransGen.single hInner).tail (.redex (by decide +kernel))
  exact ⟨hRenamed, hKept, (contractions_confluent hRenamed hKept).2 rfl rfl⟩

end Term

end NamedLambda
