import NamedLambda.Term.Nameless

/-!
# Substitution for the numbers of a nameless form

Numbers of binders outside a nameless form are replaced all at once by a family of nameless
forms. A family is lifted when it passes a binder. Free names are never touched, so they need no
renumbering. The laws say how renumbering and replacing compose; contraction of a redex is the
replacement of the number `0` alone.
-/

namespace NamedLambda.Nameless

set_option autoImplicit false

def liftRenaming (ρ : Nat → Nat) : Nat → Nat
  | 0 => 0
  | i + 1 => ρ i + 1

def rename (ρ : Nat → Nat) : Nameless → Nameless
  | bound i => bound (ρ i)
  | free x => free x
  | abs body => abs (body.rename (liftRenaming ρ))
  | app fn arg => app (fn.rename ρ) (arg.rename ρ)

/-- The same form below one more binder. -/
def shift (t : Nameless) : Nameless := t.rename Nat.succ

def lift (σ : Nat → Nameless) : Nat → Nameless
  | 0 => bound 0
  | i + 1 => (σ i).shift

def subst (σ : Nat → Nameless) : Nameless → Nameless
  | bound i => σ i
  | free x => free x
  | abs body => abs (body.subst (lift σ))
  | app fn arg => app (fn.subst σ) (arg.subst σ)

def first (arg : Nameless) : Nat → Nameless
  | 0 => arg
  | i + 1 => bound i

/-- The body of an abstraction with the argument in place of the bound variable. -/
def instantiate (body arg : Nameless) : Nameless := body.subst (first arg)

theorem lift_bound : lift bound = bound := by
  funext i
  cases i <;> rfl

theorem subst_bound (t : Nameless) : t.subst bound = t := by
  induction t with
  | bound i => rfl
  | free x => rfl
  | abs body ih => rw [subst, lift_bound, ih]
  | app fn arg ihFn ihArg => rw [subst, ihFn, ihArg]

theorem rename_eq_subst (t : Nameless) (ρ : Nat → Nat) : t.rename ρ = t.subst fun i => bound (ρ i) := by
  induction t generalizing ρ with
  | bound i => rfl
  | free x => rfl
  | abs body ih =>
    have hLift : (fun i => bound (liftRenaming ρ i)) = lift fun i => bound (ρ i) := by
      funext i
      cases i <;> rfl
    rw [rename, subst, ih, hLift]
  | app fn arg ihFn ihArg => rw [rename, subst, ihFn, ihArg]

theorem subst_rename (t : Nameless) (ρ : Nat → Nat) (σ : Nat → Nameless) :
    (t.rename ρ).subst σ = t.subst fun i => σ (ρ i) := by
  induction t generalizing ρ σ with
  | bound i => rfl
  | free x => rfl
  | abs body ih =>
    have hLift : (fun i => lift σ (liftRenaming ρ i)) = lift fun i => σ (ρ i) := by
      funext i
      cases i <;> rfl
    rw [rename, subst, subst, ih, hLift]
  | app fn arg ihFn ihArg => rw [rename, subst, subst, ihFn, ihArg]

theorem rename_rename (t : Nameless) (ρ ρ' : Nat → Nat) :
    (t.rename ρ).rename ρ' = t.rename fun i => ρ' (ρ i) := by
  rw [rename_eq_subst, subst_rename, ← rename_eq_subst]

theorem rename_subst (t : Nameless) (σ : Nat → Nameless) (ρ : Nat → Nat) :
    (t.subst σ).rename ρ = t.subst fun i => (σ i).rename ρ := by
  induction t generalizing σ ρ with
  | bound i => rfl
  | free x => rfl
  | abs body ih =>
    have hLift : (fun i => (lift σ i).rename (liftRenaming ρ)) = lift fun i => (σ i).rename ρ := by
      funext i
      cases i with
      | zero => rfl
      | succ i => simp only [lift, shift, rename_rename, liftRenaming]
    rw [subst, rename, subst, ih, hLift]
  | app fn arg ihFn ihArg => rw [subst, rename, subst, ihFn, ihArg]

theorem subst_lift_shift (t : Nameless) (σ : Nat → Nameless) :
    t.shift.subst (lift σ) = (t.subst σ).shift := by
  rw [shift, shift, subst_rename, rename_subst]
  rfl

theorem subst_subst (t : Nameless) (σ τ : Nat → Nameless) :
    (t.subst σ).subst τ = t.subst fun i => (σ i).subst τ := by
  induction t generalizing σ τ with
  | bound i => rfl
  | free x => rfl
  | abs body ih =>
    have hLift : (fun i => (lift σ i).subst (lift τ)) = lift fun i => (σ i).subst τ := by
      funext i
      cases i with
      | zero => rfl
      | succ i => exact subst_lift_shift (σ i) τ
    rw [subst, subst, subst, ih, hLift]
  | app fn arg ihFn ihArg => rw [subst, subst, subst, ihFn, ihArg]

theorem instantiate_shift (t arg : Nameless) : t.shift.instantiate arg = t := by
  rw [instantiate, shift, subst_rename]
  exact subst_bound t

/-- Replacing commutes with contraction. -/
theorem subst_instantiate (body arg : Nameless) (σ : Nat → Nameless) :
    (body.instantiate arg).subst σ = (body.subst (lift σ)).instantiate (arg.subst σ) := by
  rw [instantiate, instantiate, subst_subst, subst_subst]
  congr 1
  funext i
  cases i with
  | zero => rfl
  | succ i => exact (instantiate_shift (σ i) (arg.subst σ)).symm

theorem rename_instantiate (body arg : Nameless) (ρ : Nat → Nat) :
    (body.instantiate arg).rename ρ = (body.rename (liftRenaming ρ)).instantiate (arg.rename ρ) := by
  simp only [instantiate, rename_subst, subst_rename]
  congr 1
  funext i
  cases i <;> rfl

end NamedLambda.Nameless
