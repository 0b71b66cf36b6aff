import NamedLambda.Proofs.Environment

/-!
# Substitution captures nothing

On nameless forms substitution is the replacement of leaves: every leaf with the replaced name
gives way to the nameless form of the replacement, exactly as it is, however deep the leaf stands.
That form has no number pointing out of it, so the binders above the leaf cannot capture any part
of it.
-/

namespace NamedLambda

set_option autoImplicit false

namespace Nameless

theorem replaceFree_rename {r : Nameless} (hr : ∀ ρ, r.rename ρ = r) (x : Symbol) (t : Nameless)
    (ρ : Nat → Nat) : replaceFree x r (t.rename ρ) = (replaceFree x r t).rename ρ := by
  induction t generalizing ρ with
  | bound i => rfl
  | free y =>
    rw [rename, replaceFree]
    split
    · exact (hr ρ).symm
    · rfl
  | abs body ih => rw [rename, replaceFree, replaceFree, rename, ih]
  | app fn arg ihFn ihArg => rw [rename, replaceFree, replaceFree, rename, ihFn, ihArg]

end Nameless

namespace Term

theorem replaceFree_namelessIn {r : Nameless} (hr : ∀ ρ, r.rename ρ = r) (x : Symbol) (t : Term)
    (env : Symbol → Nameless) :
    Nameless.replaceFree x r (t.namelessIn env) = t.namelessIn fun y => Nameless.replaceFree x r (env y) := by
  induction t generalizing env with
  | var y => rfl
  | abs y body ih =>
    have hEnter := map_enter (g := Nameless.replaceFree x r) rfl
      (fun e => Nameless.replaceFree_rename hr x e Nat.succ) env y
    rw [namelessIn, namelessIn, Nameless.replaceFree, ih, hEnter]
  | app fn arg ihFn ihArg => rw [namelessIn, namelessIn, Nameless.replaceFree, ihFn, ihArg]

theorem rename_nameless (t : Term) (ρ : Nat → Nat) : t.nameless.rename ρ = t.nameless := by
  rw [nameless_eq, Nameless.rename_eq_subst, subst_namelessIn]
  rfl

theorem nameless_subst (t : Term) (x : Symbol) (r : Term) :
    (t.subst x r).nameless = Nameless.replaceFree x r.nameless t.nameless := by
  rw [nameless_eq, namelessIn_subst, nameless_eq t, replaceFree_namelessIn (rename_nameless r), nameless_eq r]
  congr 1
  funext y
  rw [Nameless.replaceFree, Function.update_apply]

end Term

end NamedLambda
