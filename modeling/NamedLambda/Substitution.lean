import NamedLambda.Symbol.Fresh
import NamedLambda.Term

/-!
# Capture-avoiding substitution

Replacing a free variable below a binder whose name is free in the replacement first renames the
binder. The renaming is itself a substitution, of a variable by a variable, and keeps the size of
the term: this makes the recursion well-founded. Substitution leaves a term alone wherever the
variable is not free, so a binder is renamed only if an occurrence below it would be captured.

The renamings made on the way are listed by a second function of the same shape.
-/

namespace NamedLambda.Term

set_option autoImplicit false

/-- The name for a binder `y` that would capture when `x` is replaced by `r` in its scope `body`. -/
def newBinder (y : Symbol) (body : Term) (x : Symbol) (r : Term) : Symbol :=
  y.fresh ((body.freeVars.union r.freeVars).insert x)

theorem newBinder_ne_binder (y : Symbol) (body : Term) (x : Symbol) (r : Term) :
    newBinder y body x r ≠ y := Symbol.fresh_ne _ _

theorem newBinder_not_mem (y : Symbol) (body : Term) (x : Symbol) (r : Term) :
    newBinder y body x r ∉ body.freeVars ∧ newBinder y body x r ∉ r.freeVars ∧
      newBinder y body x r ≠ x := by
  have h : newBinder y body x r ∉ (body.freeVars.union r.freeVars).insert x := Symbol.fresh_not_mem _ _
  simp only [NameSet.mem_insert, NameSet.mem_union, not_or] at h
  exact ⟨h.2.1, h.2.2, h.1⟩

/-- Substitution together with the fact that a replacement of size one keeps the size. -/
def substSized (x : Symbol) (r : Term) : (t : Term) → {u : Term // r.size = 1 → u.size = t.size}
  | var y => if y = x then ⟨r, fun h => h⟩ else ⟨var y, fun _ => rfl⟩
  | app fn arg =>
    let fn' := substSized x r fn
    let arg' := substSized x r arg
    ⟨app fn'.val arg'.val, fun h => by simp only [size, fn'.property h, arg'.property h]⟩
  | abs y body =>
    if y = x ∨ body.hasFree x = false then ⟨abs y body, fun _ => rfl⟩
    else if r.hasFree y = false then
      let body' := substSized x r body
      ⟨abs y body'.val, fun h => by simp only [size, body'.property h]⟩
    else
      let z := newBinder y body x r
      let ⟨renamed, hRenamed⟩ := substSized y (var z) body
      let body' := substSized x r renamed
      ⟨abs z body'.val, fun h => by simp only [size, body'.property h, hRenamed rfl]⟩
termination_by t => t.size
decreasing_by
  all_goals simp only [size]
  any_goals omega
  have hSize := hRenamed rfl
  omega

/-- Replaces the free occurrences of `x` by `r` without capture. -/
def subst (t : Term) (x : Symbol) (r : Term) : Term := (substSized x r t).val

theorem size_subst_var (t : Term) (x y : Symbol) : (t.subst x (var y)).size = t.size :=
  (substSized x (var y) t).property rfl

theorem subst_var (y x : Symbol) (r : Term) : (var y).subst x r = if y = x then r else var y := by
  rw [subst, substSized]
  split <;> rfl

theorem subst_app (fn arg : Term) (x : Symbol) (r : Term) :
    (app fn arg).subst x r = app (fn.subst x r) (arg.subst x r) := by
  rw [subst, substSized]
  rfl

theorem subst_abs (y : Symbol) (body : Term) (x : Symbol) (r : Term) :
    (abs y body).subst x r =
      if y = x ∨ body.hasFree x = false then abs y body
      else if r.hasFree y = false then abs y (body.subst x r)
      else abs (newBinder y body x r) ((body.subst y (var (newBinder y body x r))).subst x r) := by
  rw [subst, substSized]
  split
  · rfl
  · split <;> rfl

theorem subst_eq_self {t : Term} {x : Symbol} (r : Term) (h : t.hasFree x = false) : t.subst x r = t := by
  induction t with
  | var y =>
    have hNe : y ≠ x := by simpa [hasFree] using h
    rw [subst_var, if_neg hNe]
  | app fn arg ihFn ihArg =>
    simp only [hasFree, Bool.or_eq_false_iff] at h
    rw [subst_app, ihFn h.1, ihArg h.2]
  | abs y body ih =>
    have hCase : y = x ∨ body.hasFree x = false := by
      by_cases hEq : y = x
      · exact Or.inl hEq
      · exact Or.inr (by simpa [hasFree, hEq] using h)
    rw [subst_abs, if_pos hCase]

/-- A binder that got a new name because its old one is free in the replacement. -/
structure Renaming where
  binder : Symbol
  fresh : Symbol
  replacement : Term
  deriving DecidableEq

/-- The renamings made by a substitution: each before those of the renaming it starts, and these
before those in the rest of its scope. -/
def renamings (x : Symbol) (r : Term) : Term → List Renaming
  | var _ => []
  | app fn arg => renamings x r fn ++ renamings x r arg
  | abs y body =>
    if y = x ∨ body.hasFree x = false then []
    else if r.hasFree y = false then renamings x r body
    else
      let z := newBinder y body x r
      ⟨y, z, r⟩ :: (renamings y (var z) body ++ renamings x r (body.subst y (var z)))
termination_by t => t.size
decreasing_by all_goals simp only [size, size_subst_var]; omega

theorem renamings_var (x : Symbol) (r : Term) (y : Symbol) : renamings x r (var y) = [] := by
  rw [renamings]

theorem renamings_app (x : Symbol) (r fn arg : Term) :
    renamings x r (app fn arg) = renamings x r fn ++ renamings x r arg := by
  rw [renamings]

theorem renamings_abs (x : Symbol) (r : Term) (y : Symbol) (body : Term) :
    renamings x r (abs y body) =
      if y = x ∨ body.hasFree x = false then []
      else if r.hasFree y = false then renamings x r body
      else ⟨y, newBinder y body x r, r⟩ ::
        (renamings y (var (newBinder y body x r)) body ++
          renamings x r (body.subst y (var (newBinder y body x r)))) := by
  rw [renamings]

end NamedLambda.Term
