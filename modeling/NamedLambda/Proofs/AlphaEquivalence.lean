import NamedLambda.Proofs.Environment

/-!
# Equality up to bound names as a congruence

Equivalence up to bound names is the least equivalence relation that is kept by abstraction and
application and that holds between an abstraction and the same abstraction with its binder renamed
to a name that is not free in the body. The comparison of binders by their distance decides it.

Equivalent terms have the same nameless form in every environment. For the converse two
abstractions with equal nameless forms are both renamed to one new binder. Their bodies then have
equal nameless forms again, but are no longer parts of the terms: the induction is on the size.
-/

namespace NamedLambda

set_option autoImplicit false

inductive AlphaEquivalent : Term → Term → Prop where
  | refl (t : Term) : AlphaEquivalent t t
  | symm {t u : Term} (h : AlphaEquivalent t u) : AlphaEquivalent u t
  | trans {t u v : Term} (h : AlphaEquivalent t u) (h' : AlphaEquivalent u v) : AlphaEquivalent t v
  | abs (x : Symbol) {t u : Term} (h : AlphaEquivalent t u) : AlphaEquivalent (.abs x t) (.abs x u)
  | app {f g a b : Term} (hFn : AlphaEquivalent f g) (hArg : AlphaEquivalent a b) :
      AlphaEquivalent (.app f a) (.app g b)
  | rename (x : Symbol) (body : Term) {y : Symbol} (h : y ∉ body.freeVars) :
      AlphaEquivalent (.abs x body) (.abs y (body.subst x (.var y)))

theorem AlphaEquivalent.namelessIn_eq {t u : Term} (h : AlphaEquivalent t u)
    (env : Symbol → Nameless) : t.namelessIn env = u.namelessIn env := by
  induction h generalizing env with
  | refl t => rfl
  | symm h ih => exact (ih env).symm
  | trans h h' ih ih' => exact (ih env).trans (ih' env)
  | abs x h ih => exact congrArg Nameless.abs (ih (enter env x))
  | app hFn hArg ihFn ihArg => rw [Term.namelessIn, Term.namelessIn, ihFn env, ihArg env]
  | rename x body h =>
    rw [Term.namelessIn, Term.namelessIn, Term.namelessIn_subst, Term.namelessIn, enter_self,
      Term.namelessIn_enter_rename h]

namespace Term

theorem alphaEquivalent_of_namelessIn_eq (t u : Term)
    (h : t.namelessIn Nameless.free = u.namelessIn Nameless.free) : AlphaEquivalent t u := by
  match t, u with
  | var x, var y =>
    obtain rfl := Nameless.free.inj h
    exact .refl (var x)
  | app f a, app g b =>
    obtain ⟨hFn, hArg⟩ := Nameless.app.inj h
    exact .app (alphaEquivalent_of_namelessIn_eq f g hFn) (alphaEquivalent_of_namelessIn_eq a b hArg)
  | abs x body, abs y body' =>
    obtain ⟨z, hFresh⟩ : ∃ z, z ∉ body.freeVars.union body'.freeVars :=
      ⟨x.fresh _, Symbol.fresh_not_mem x _⟩
    rw [NameSet.mem_union, not_or] at hFresh
    have hBodies : (body.subst x (var z)).namelessIn Nameless.free =
        (body'.subst y (var z)).namelessIn Nameless.free := by
      rw [namelessIn_subst_eq_instantiate, namelessIn_subst_eq_instantiate, Nameless.abs.inj h]
    have hSize := size_subst_var body x z
    have hRenamed := alphaEquivalent_of_namelessIn_eq _ _ hBodies
    exact (AlphaEquivalent.rename x body hFresh.1).trans
      ((AlphaEquivalent.abs z hRenamed).trans (AlphaEquivalent.rename y body' hFresh.2).symm)
termination_by t.size
decreasing_by all_goals simp only [size]; omega

theorem alphaEq_iff_alphaEquivalent (t u : Term) : t.alphaEq u = true ↔ AlphaEquivalent t u := by
  rw [alphaEq_iff_nameless_eq, nameless_eq, nameless_eq]
  constructor
  · intro h
    exact alphaEquivalent_of_namelessIn_eq t u h
  · intro h
    exact h.namelessIn_eq Nameless.free

end Term

end NamedLambda
