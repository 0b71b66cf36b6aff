import NamedLambda.Reduction.Step

/-!
# Contraction anywhere

A term contracts to another when one redex, at any position, is replaced by its contractum.
Every step of normal-order reduction is such a contraction, and a term without a redex has none.
-/

namespace NamedLambda

set_option autoImplicit false

inductive Contracts : Term → Term → Prop where
  | redex {fn arg u : Term} (h : Term.beta fn arg = some u) : Contracts (.app fn arg) u
  | abs (x : Symbol) {t u : Term} (h : Contracts t u) : Contracts (.abs x t) (.abs x u)
  | fn {t u : Term} (arg : Term) (h : Contracts t u) : Contracts (.app t arg) (.app u arg)
  | arg (fn : Term) {t u : Term} (h : Contracts t u) : Contracts (.app fn t) (.app fn u)

theorem contracts_of_step? {t u : Term} (h : t.step? = some u) : Contracts t u := by
  induction t generalizing u with
  | var x => cases h
  | abs x body ih =>
    obtain ⟨v, hv, rfl⟩ := Option.map_eq_some_iff.mp h
    exact .abs x (ih hv)
  | app fn arg ihFn ihArg =>
    obtain ⟨x, body, rfl, rfl⟩ | ⟨_, fn', hFn, rfl⟩ | ⟨_, _, arg', hArg, rfl⟩ := Term.step?_app_cases h
    · exact .redex rfl
    · exact .fn arg (ihFn hFn)
    · exact .arg fn (ihArg hArg)

theorem Contracts.hasRedex {t u : Term} (h : Contracts t u) : t.hasRedex = true := by
  induction h with
  | redex h =>
    obtain ⟨x, body, rfl, rfl⟩ := Term.beta_eq_some_iff.mp h
    rfl
  | abs x h ih => exact ih
  | fn arg h ih => simp [Term.hasRedex, ih]
  | arg fn h ih => simp [Term.hasRedex, ih]

end NamedLambda
