import NamedLambda.Proofs.Grafting

/-!
# Substitution without a look below the binder

The plain way to substitute looks at one node at a time. It goes into both sides of every application
and below every binder of another name, and it renames a binder as soon as its name is free in the
replacement, whether or not anything below would be captured. Substitution skips what has no free
occurrence, also inside the renamings that it starts itself, so the two results differ in the names
of many binders. They never differ in anything else, and not at all where no binder of
the term is free in the replacement: then neither of them renames a binder.
-/

namespace NamedLambda.Term

set_option autoImplicit false

/-- Plain substitution together with the fact that a replacement of size one keeps the size. -/
def plainSubstSized (x : Symbol) (r : Term) : (t : Term) → {u : Term // r.size = 1 → u.size = t.size}
  | var y => if y = x then ⟨r, fun h => h⟩ else ⟨var y, fun _ => rfl⟩
  | app fn arg =>
    let fn' := plainSubstSized x r fn
    let arg' := plainSubstSized x r arg
    ⟨app fn'.val arg'.val, fun h => by simp only [size, fn'.property h, arg'.property h]⟩
  | abs y body =>
    if y = x then ⟨abs y body, fun _ => rfl⟩
    else if y ∉ r.freeVars then
      let body' := plainSubstSized x r body
      ⟨abs y body'.val, fun h => by simp only [size, body'.property h]⟩
    else
      let z := newBinder y body x r
      let ⟨renamed, hRenamed⟩ := plainSubstSized y (var z) body
      let body' := plainSubstSized x r renamed
      ⟨abs z body'.val, fun h => by simp only [size, body'.property h, hRenamed rfl]⟩
termination_by t => t.size
decreasing_by
  all_goals simp only [size]
  any_goals omega
  have hSize := hRenamed rfl
  omega

def plainSubst (t : Term) (x : Symbol) (r : Term) : Term := (plainSubstSized x r t).val

theorem size_plainSubst_var (t : Term) (x y : Symbol) : (t.plainSubst x (var y)).size = t.size :=
  (plainSubstSized x (var y) t).property rfl

theorem plainSubst_var (y x : Symbol) (r : Term) :
    (var y).plainSubst x r = if y = x then r else var y := by
  rw [plainSubst, plainSubstSized]
  split <;> rfl

theorem plainSubst_app (fn arg : Term) (x : Symbol) (r : Term) :
    (app fn arg).plainSubst x r = app (fn.plainSubst x r) (arg.plainSubst x r) := by
  rw [plainSubst, plainSubstSized]
  rfl

theorem plainSubst_abs (y : Symbol) (body : Term) (x : Symbol) (r : Term) :
    (abs y body).plainSubst x r =
      if y = x then abs y body
      else if y ∉ r.freeVars then abs y (body.plainSubst x r)
      else abs (newBinder y body x r)
        ((body.plainSubst y (var (newBinder y body x r))).plainSubst x r) := by
  rw [plainSubst, plainSubstSized]
  split
  · rfl
  · split <;> rfl

theorem substituted_plainSubst (t : Term) (x : Symbol) (r : Term) : Substituted t x r (t.plainSubst x r) := by
  match t with
  | var y =>
    rw [plainSubst_var]
    exact .var y x r
  | app fn arg =>
    rw [plainSubst_app]
    exact .app (substituted_plainSubst fn x r) (substituted_plainSubst arg x r)
  | abs y body =>
    rw [plainSubst_abs]
    split
    case isTrue hEq =>
      refine .of_not_mem (fun hMem => ?_) r
      exact (NameSet.mem_erase.mp hMem).2 hEq.symm
    case isFalse hNe =>
      split
      case isTrue hSafe => exact .abs hNe hSafe (substituted_plainSubst body x r)
      case isFalse =>
        obtain ⟨hBody, hFree, hzx⟩ := newBinder_not_mem y body x r
        -- The renamed body is no part of the term, but it is as large as the body.
        have hSize := size_plainSubst_var body y (newBinder y body x r)
        exact .abs_renamed hNe hBody hFree hzx (substituted_plainSubst body y _)
          (substituted_plainSubst _ x r)
termination_by t.size
decreasing_by all_goals simp only [size]; omega

def binders : Term → List Symbol
  | var _ => []
  | abs x body => x :: body.binders
  | app fn arg => fn.binders ++ arg.binders

section

variable {x : Symbol} {r : Term}

theorem Captures.exists_binder {t : Term} (h : t.Captures x r) : ∃ y ∈ t.binders, y ∈ r.freeVars := by
  induction t with
  | var y => exact absurd h (not_captures_var y)
  | abs y body ih =>
    obtain ⟨_, ⟨_, hy⟩ | hBody⟩ := captures_abs.mp h
    · exact ⟨y, List.mem_cons_self, hy⟩
    · obtain ⟨z, hz, hFree⟩ := ih hBody
      exact ⟨z, List.mem_cons_of_mem y hz, hFree⟩
  | app fn arg ihFn ihArg =>
    rcases captures_app.mp h with hFn | hArg
    · obtain ⟨z, hz, hFree⟩ := ihFn hFn
      exact ⟨z, List.mem_append_left _ hz, hFree⟩
    · obtain ⟨z, hz, hFree⟩ := ihArg hArg
      exact ⟨z, List.mem_append_right _ hz, hFree⟩

theorem plainSubst_eq_graft {t : Term} (h : ∀ y ∈ t.binders, y ∉ r.freeVars) :
    t.plainSubst x r = t.graft x r := by
  induction t with
  | var y => rw [plainSubst_var, graft]
  | abs y body ih =>
    obtain ⟨hy, hBody⟩ := List.forall_mem_cons.mp h
    rw [plainSubst_abs, graft, if_pos hy, ih hBody]
  | app fn arg ihFn ihArg =>
    obtain ⟨hFn, hArg⟩ := List.forall_mem_append.mp h
    rw [plainSubst_app, graft, ihFn hFn, ihArg hArg]

end

theorem subst_agrees_with_plainSubst (t : Term) (x : Symbol) (r : Term) :
    (t.subst x r).alphaEq (t.plainSubst x r) = true ∧
      ((∀ y ∈ t.binders, y ∉ r.freeVars) → t.subst x r = t.plainSubst x r) := by
  constructor
  · exact (substituted_subst t x r).alphaEq (substituted_plainSubst t x r)
  · intro h
    have hNone : ¬ t.Captures x r := by
      intro hCaptures
      obtain ⟨y, hy, hFree⟩ := hCaptures.exists_binder
      exact h y hy hFree
    rw [subst_eq_graft hNone, plainSubst_eq_graft h]

theorem subst_agrees_with_plainSubst_skipped :
    let x : Symbol := .literal "x"
    let y : Symbol := .literal "y"
    let y₁ : Symbol := .literal "y1"
    let t := app (abs y (var y)) (var x)
    t.subst x (var y) = app (abs y (var y)) (var y) ∧
      t.plainSubst x (var y) = app (abs y₁ (var y₁)) (var y) ∧
      (t.subst x (var y)).alphaEq (t.plainSubst x (var y)) = true ∧
      (∀ z ∈ t.binders, z ∉ (var y₁).freeVars) ∧ t.subst x (var y₁) = t.plainSubst x (var y₁) := by
  intro x y y₁ t
  have hBinders : ∀ z ∈ t.binders, z ∉ (var y₁).freeVars := by decide
  obtain ⟨hAlpha, _⟩ := subst_agrees_with_plainSubst t x (var y)
  obtain ⟨_, hEqual⟩ := subst_agrees_with_plainSubst t x (var y₁)
  exact ⟨by decide +kernel, by decide +kernel, hAlpha, hBinders, hEqual hBinders⟩

end NamedLambda.Term
