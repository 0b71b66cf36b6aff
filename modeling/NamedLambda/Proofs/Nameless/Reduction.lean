import NamedLambda.Proofs.Environment
import NamedLambda.Reduction.Contraction

/-!
# Reduction of nameless forms

Contraction at any position and the normal-order step, for nameless forms. Both are what the
relation and the function of the same name do to terms, seen through the nameless form. In
particular bound names have no influence on the step that is taken.
-/

namespace NamedLambda

set_option autoImplicit false

namespace Nameless

inductive Contracts : Nameless → Nameless → Prop where
  | redex (body arg : Nameless) : Contracts (.app (.abs body) arg) (body.instantiate arg)
  | abs {t u : Nameless} (h : Contracts t u) : Contracts (.abs t) (.abs u)
  | fn {t u : Nameless} (arg : Nameless) (h : Contracts t u) : Contracts (.app t arg) (.app u arg)
  | arg (fn : Nameless) {t u : Nameless} (h : Contracts t u) : Contracts (.app fn t) (.app fn u)

def isAbs : Nameless → Bool
  | abs _ => true
  | _ => false

def beta (fn arg : Nameless) : Option Nameless :=
  match fn with
  | abs body => some (body.instantiate arg)
  | _ => none

def step? : Nameless → Option Nameless
  | bound _ => none
  | free _ => none
  | abs body => body.step?.map abs
  | app fn arg =>
    match beta fn arg with
    | some contracted => some contracted
    | none =>
      match fn.step? with
      | some fn' => some (app fn' arg)
      | none => arg.step?.map (app fn)

theorem beta_eq_none_iff (fn arg : Nameless) : beta fn arg = none ↔ fn.isAbs = false := by
  cases fn <;> simp [beta, isAbs]

theorem step?_app_of_not_isAbs {fn : Nameless} (h : fn.isAbs = false) (arg : Nameless) :
    (app fn arg).step? = (match fn.step? with
      | some fn' => some (app fn' arg)
      | none => arg.step?.map (app fn)) := by
  rw [step?, (beta_eq_none_iff fn arg).mpr h]

/-- What has no step has no redex at the root and no step in either part. -/
theorem step?_app_eq_none {fn arg : Nameless} (h : (app fn arg).step? = none) :
    fn.isAbs = false ∧ fn.step? = none ∧ arg.step? = none := by
  have hFn : fn.isAbs = false := by
    rw [← beta_eq_none_iff fn arg]
    cases hBeta : beta fn arg with
    | none => rfl
    | some u =>
      rw [step?, hBeta] at h
      cases h
  rw [step?_app_of_not_isAbs hFn] at h
  cases hStep : fn.step? with
  | some fn' =>
    rw [hStep] at h
    cases h
  | none =>
    rw [hStep] at h
    exact ⟨hFn, rfl, Option.map_eq_none_iff.mp h⟩

theorem beta_resolve (xs : List Symbol) (x : Symbol) (arg : Nameless) :
    beta (resolve xs x) arg = none := by
  unfold resolve
  cases xs.idxOf? x <;> rfl

theorem step?_resolve (xs : List Symbol) (x : Symbol) : (resolve xs x).step? = none := by
  unfold resolve
  cases xs.idxOf? x <;> rfl

end Nameless

namespace Term

theorem namelessUnder_subst (body : Term) (x : Symbol) (arg : Term) (xs : List Symbol) :
    (body.subst x arg).namelessUnder xs =
      (body.namelessUnder (x :: xs)).instantiate (arg.namelessUnder xs) := by
  simp only [namelessUnder_eq, Nameless.resolve_cons]
  exact namelessIn_subst_eq_instantiate body x arg _

theorem beta_namelessUnder (fn arg : Term) (xs : List Symbol) :
    Nameless.beta (fn.namelessUnder xs) (arg.namelessUnder xs) = (beta fn arg).map (namelessUnder xs) := by
  cases fn with
  | var x => exact Nameless.beta_resolve xs x _
  | abs x body => exact congrArg some (namelessUnder_subst body x arg xs).symm
  | app f a => rfl

/-- The step of a nameless form is the nameless form of the step. -/
theorem step?_namelessUnder (t : Term) (xs : List Symbol) :
    (t.namelessUnder xs).step? = t.step?.map (namelessUnder xs) := by
  induction t generalizing xs with
  | var x => exact Nameless.step?_resolve xs x
  | abs x body ih =>
    rw [namelessUnder, Nameless.step?, ih, step?, Option.map_map, Option.map_map]
    rfl
  | app fn arg ihFn ihArg =>
    rw [namelessUnder, Nameless.step?, beta_namelessUnder, ihFn, ihArg, step?]
    cases beta fn arg with
    | some u => rfl
    | none =>
      cases fn.step? with
      | some u => rfl
      | none => cases arg.step? <;> rfl

theorem step?_nameless (t : Term) : t.nameless.step? = t.step?.map nameless := step?_namelessUnder t []

theorem step?_nameless_eq_none_iff (t : Term) : t.nameless.step? = none ↔ t.hasRedex = false := by
  rw [step?_nameless, Option.map_eq_none_iff, step?_eq_none_iff]

end Term

theorem Contracts.namelessUnder {t u : Term} (h : Contracts t u) (xs : List Symbol) :
    Nameless.Contracts (t.namelessUnder xs) (u.namelessUnder xs) := by
  induction h generalizing xs with
  | redex h =>
    obtain ⟨x, body, rfl, rfl⟩ := Term.beta_eq_some_iff.mp h
    rw [Term.namelessUnder_subst]
    exact .redex _ _
  | abs x h ih => exact .abs (ih (x :: xs))
  | fn arg h ih => exact .fn _ (ih xs)
  | arg fn h ih => exact .arg _ (ih xs)

end NamedLambda
