import NamedLambda.Substitution

/-!
# One step of normal-order reduction

A step contracts the leftmost-outermost redex. It exists exactly when the term has a redex.
-/

namespace NamedLambda.Term

set_option autoImplicit false

def beta (fn arg : Term) : Option Term :=
  match fn with
  | abs x body => some (body.subst x arg)
  | _ => none

def betaRenamings (fn arg : Term) : List Renaming :=
  match fn with
  | abs x body => renamings x arg body
  | _ => []

def step? : Term → Option Term
  | var _ => none
  | abs x body => body.step?.map (abs x)
  | app fn arg =>
    match beta fn arg with
    | some contracted => some contracted
    | none =>
      match fn.step? with
      | some fn' => some (app fn' arg)
      | none => arg.step?.map (app fn)

def stepRenamings : Term → List Renaming
  | var _ => []
  | abs _ body => body.stepRenamings
  | app fn arg =>
    if fn.isAbs then betaRenamings fn arg
    else if fn.hasRedex then fn.stepRenamings
    else arg.stepRenamings

theorem isSome_beta (fn arg : Term) : (beta fn arg).isSome = fn.isAbs := by
  cases fn <;> rfl

theorem beta_eq_some_iff {fn arg u : Term} :
    beta fn arg = some u ↔ ∃ x body, fn = abs x body ∧ u = body.subst x arg := by
  constructor
  · intro h
    match fn, h with
    | abs x body, rfl => exact ⟨x, body, rfl, rfl⟩
  · rintro ⟨x, body, rfl, rfl⟩
    rfl

theorem isSome_step? (t : Term) : t.step?.isSome = t.hasRedex := by
  induction t with
  | var x => rfl
  | abs x body ih => simpa [step?, hasRedex] using ih
  | app fn arg ihFn ihArg =>
    have hBeta := isSome_beta fn arg
    unfold step? hasRedex
    cases hContract : beta fn arg with
    | some u =>
      rw [hContract] at hBeta
      simp [← hBeta]
    | none =>
      rw [hContract] at hBeta
      rw [← hBeta, ← ihFn, ← ihArg]
      cases fn.step? <;> simp

theorem step?_eq_none_iff (t : Term) : t.step? = none ↔ t.hasRedex = false := by
  rw [← isSome_step?, Option.isSome_eq_false_iff, Option.isNone_iff_eq_none]

/-- The three ways in which an application makes a step. -/
theorem step?_app_cases {fn arg u : Term} (h : (app fn arg).step? = some u) :
    (∃ x body, fn = abs x body ∧ u = body.subst x arg) ∨
      (fn.isAbs = false ∧ ∃ fn', fn.step? = some fn' ∧ u = app fn' arg) ∨
      (fn.isAbs = false ∧ fn.hasRedex = false ∧ ∃ arg', arg.step? = some arg' ∧ u = app fn arg') := by
  unfold step? at h
  cases hBeta : beta fn arg with
  | some contracted =>
    rw [hBeta] at h
    cases h
    exact Or.inl (beta_eq_some_iff.mp hBeta)
  | none =>
    have hAbs : fn.isAbs = false := by rw [← isSome_beta fn arg, hBeta, Option.isSome_none]
    rw [hBeta] at h
    cases hFn : fn.step? with
    | some fn' =>
      rw [hFn] at h
      cases h
      exact Or.inr (Or.inl ⟨hAbs, fn', rfl, rfl⟩)
    | none =>
      rw [hFn] at h
      obtain ⟨arg', hArg, rfl⟩ := Option.map_eq_some_iff.mp h
      exact Or.inr (Or.inr ⟨hAbs, (step?_eq_none_iff fn).mp hFn, arg', hArg, rfl⟩)

end NamedLambda.Term
