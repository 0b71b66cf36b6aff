import Mathlib.Logic.Function.Basic
import NamedLambda.Proofs.Nameless.Substitution
import NamedLambda.Substitution

/-!
# Nameless forms in an environment

An environment gives every name a nameless form. The nameless form of a term in an environment puts
these in place of the free names; below the binder of a name this name stands for the number `0`
and what the other names stand for is shifted. Names that are not free do not matter.

Substitution in a term is an update of the environment. No condition on names is left in this
statement, so it can be used below any binders and for a substitution that renames them. Which binders
are renamed, and to which names, is left open too: what is substituted in this sense is
determined only up to bound names.
-/

namespace NamedLambda

set_option autoImplicit false

/-- The environment below a binder of `x`. -/
def enter (env : Symbol → Nameless) (x : Symbol) : Symbol → Nameless :=
  Function.update (fun y => (env y).shift) x (.bound 0)

theorem enter_self (env : Symbol → Nameless) (x : Symbol) : enter env x x = .bound 0 :=
  Function.update_self x _ _

theorem enter_of_ne {x y : Symbol} (h : y ≠ x) (env : Symbol → Nameless) :
    enter env x y = (env y).shift :=
  Function.update_of_ne h _ _

/-- A map that respects binders is applied to an environment name by name. -/
theorem map_enter {f g : Nameless → Nameless} (hZero : g (.bound 0) = .bound 0)
    (hShift : ∀ e : Nameless, g e.shift = (f e).shift) (env : Symbol → Nameless) (x : Symbol) :
    (fun y => g (enter env x y)) = enter (fun y => f (env y)) x := by
  funext y
  by_cases hEq : y = x
  · rw [hEq, enter_self, enter_self, hZero]
  · rw [enter_of_ne hEq, enter_of_ne hEq, hShift]

theorem Nameless.resolve_cons (x : Symbol) (xs : List Symbol) :
    resolve (x :: xs) = enter (resolve xs) x := by
  funext y
  by_cases hEq : y = x
  · subst hEq
    rw [enter_self]
    simp [resolve, List.idxOf?_cons]
  · rw [enter_of_ne hEq]
    have hNe : (x == y) = false := beq_eq_false_iff_ne.mpr fun h => hEq h.symm
    unfold resolve
    rw [List.idxOf?_cons, hNe]
    cases xs.idxOf? y <;> rfl

namespace Term

def namelessIn (env : Symbol → Nameless) : Term → Nameless
  | var x => env x
  | abs x body => .abs (body.namelessIn (enter env x))
  | app fn arg => .app (fn.namelessIn env) (arg.namelessIn env)

theorem namelessUnder_eq (xs : List Symbol) (t : Term) :
    t.namelessUnder xs = t.namelessIn (Nameless.resolve xs) := by
  induction t generalizing xs with
  | var x => rfl
  | abs x body ih => rw [namelessUnder, namelessIn, ih, Nameless.resolve_cons]
  | app fn arg ihFn ihArg => rw [namelessUnder, namelessIn, ihFn, ihArg]

theorem nameless_eq (t : Term) : t.nameless = t.namelessIn Nameless.free := namelessUnder_eq [] t

theorem namelessIn_congr {env env' : Symbol → Nameless} (t : Term)
    (h : ∀ x ∈ t.freeVars, env x = env' x) : t.namelessIn env = t.namelessIn env' := by
  induction t generalizing env env' with
  | var x => exact h x (NameSet.mem_singleton.mpr rfl)
  | abs x body ih =>
    rw [namelessIn, namelessIn]
    congr 1
    apply ih
    intro y hy
    by_cases hEq : y = x
    · rw [hEq, enter_self, enter_self]
    · rw [enter_of_ne hEq, enter_of_ne hEq, h y (NameSet.mem_erase.mpr ⟨hy, hEq⟩)]
  | app fn arg ihFn ihArg =>
    rw [namelessIn, namelessIn, ihFn fun x hx => h x (NameSet.mem_union.mpr (Or.inl hx)),
      ihArg fun x hx => h x (NameSet.mem_union.mpr (Or.inr hx))]

theorem namelessIn_update_of_not_mem {t : Term} {x : Symbol} (h : x ∉ t.freeVars)
    (env : Symbol → Nameless) (r : Nameless) :
    t.namelessIn (Function.update env x r) = t.namelessIn env := by
  apply namelessIn_congr
  intro y hy
  have hNe : y ≠ x := fun hEq => h (hEq ▸ hy)
  exact Function.update_of_ne hNe r env

/-- Replacing numbers in a nameless form replaces them in what the free names stand for. -/
theorem subst_namelessIn (t : Term) (env : Symbol → Nameless) (σ : Nat → Nameless) :
    (t.namelessIn env).subst σ = t.namelessIn fun x => (env x).subst σ := by
  induction t generalizing env σ with
  | var x => rfl
  | abs x body ih =>
    have hEnter := map_enter (g := Nameless.subst (Nameless.lift σ)) rfl
      (fun e => Nameless.subst_lift_shift e σ) env x
    rw [namelessIn, namelessIn, Nameless.subst, ih, hEnter]
  | app fn arg ihFn ihArg => rw [namelessIn, namelessIn, Nameless.subst, ihFn, ihArg]

theorem shift_namelessIn (t : Term) (env : Symbol → Nameless) :
    (t.namelessIn env).shift = t.namelessIn fun x => (env x).shift := by
  simp only [Nameless.shift, Nameless.rename_eq_subst]
  exact subst_namelessIn t env _

theorem namelessIn_enter {t : Term} {x : Symbol} (h : x ∉ t.freeVars) (env : Symbol → Nameless) :
    t.namelessIn (enter env x) = (t.namelessIn env).shift := by
  rw [enter, namelessIn_update_of_not_mem h, shift_namelessIn]

theorem enter_update {x y : Symbol} (h : y ≠ x) (env : Symbol → Nameless) (r : Nameless) :
    enter (Function.update env x r) y = Function.update (enter env y) x r.shift := by
  have hShift : (fun z => (Function.update env x r z).shift) =
      Function.update (fun z => (env z).shift) x r.shift := by
    funext z
    exact Function.apply_update (fun _ => Nameless.shift) env x r z
  rw [enter, hShift, enter, Function.update_comm h]

/-- The new name of a renamed binder stands for the same number as the old one did. -/
theorem namelessIn_enter_rename {body : Term} {y z : Symbol} (h : z ∉ body.freeVars)
    (env : Symbol → Nameless) :
    body.namelessIn (Function.update (enter env z) y (.bound 0)) = body.namelessIn (enter env y) := by
  apply namelessIn_congr
  intro w hw
  by_cases hEq : w = y
  · rw [hEq, Function.update_self, enter_self]
  · have hNe : w ≠ z := fun h' => h (h' ▸ hw)
    rw [Function.update_of_ne hEq, enter_of_ne hNe, enter_of_ne hEq]

/-- Up to bound names `u` is `t` with `r` in place of `x`: it stands for what `t` stands for where `x`
stands for what `r` does. -/
def Substituted (t : Term) (x : Symbol) (r u : Term) : Prop :=
  ∀ env : Symbol → Nameless, u.namelessIn env = t.namelessIn (Function.update env x (r.namelessIn env))

namespace Substituted

variable {x y z : Symbol} {r : Term}

theorem of_not_mem {t : Term} (h : x ∉ t.freeVars) (r : Term) : Substituted t x r t := by
  intro env
  exact (namelessIn_update_of_not_mem h env _).symm

theorem var (y x : Symbol) (r : Term) : Substituted (.var y) x r (if y = x then r else .var y) := by
  intro env
  rw [namelessIn]
  by_cases hEq : y = x
  · rw [if_pos hEq, hEq, Function.update_self]
  · rw [if_neg hEq, Function.update_of_ne hEq]
    rfl

theorem app {fn arg fn' arg' : Term} (hFn : Substituted fn x r fn') (hArg : Substituted arg x r arg') :
    Substituted (.app fn arg) x r (.app fn' arg') := by
  intro env
  rw [namelessIn, namelessIn, hFn env, hArg env]

theorem abs {body body' : Term} (hNe : y ≠ x) (hy : y ∉ r.freeVars) (h : Substituted body x r body') :
    Substituted (.abs y body) x r (.abs y body') := by
  intro env
  rw [namelessIn, namelessIn, enter_update hNe, h, namelessIn_enter hy]

theorem abs_renamed {body renamed body' : Term} (hNe : y ≠ x) (hBody : z ∉ body.freeVars)
    (hr : z ∉ r.freeVars) (hzx : z ≠ x) (hRenamed : Substituted body y (.var z) renamed)
    (h : Substituted renamed x r body') : Substituted (.abs y body) x r (.abs z body') := by
  intro env
  rw [namelessIn, namelessIn, enter_update hNe, h, hRenamed, namelessIn_enter hr, namelessIn,
    Function.update_of_ne hzx, enter_self, ← enter_update hzx, namelessIn_enter_rename hBody,
    enter_update hNe]

theorem alphaEq {t u v : Term} (hu : Substituted t x r u) (hv : Substituted t x r v) :
    u.alphaEq v = true := by
  rw [alphaEq_iff_nameless_eq, nameless_eq, nameless_eq, hu, hv]

end Substituted

theorem substituted_subst (t : Term) (x : Symbol) (r : Term) : Substituted t x r (t.subst x r) := by
  match t with
  | var y =>
    rw [subst_var]
    exact .var y x r
  | app fn arg =>
    rw [subst_app]
    exact .app (substituted_subst fn x r) (substituted_subst arg x r)
  | abs y body =>
    rw [subst_abs]
    split
    case isTrue hSame =>
      refine .of_not_mem (fun hMem => ?_) r
      obtain ⟨hBody, hNe⟩ := NameSet.mem_erase.mp hMem
      rcases hSame with hEq | hFree
      · exact hNe hEq.symm
      · rw [hasFree_iff_mem_freeVars.mpr hBody] at hFree
        cases hFree
    case isFalse hOther =>
      have hNe : y ≠ x := fun h => hOther (Or.inl h)
      split
      case isTrue hSafe =>
        have hy : y ∉ r.freeVars := by
          rw [← hasFree_iff_mem_freeVars, hSafe]
          exact Bool.false_ne_true
        exact .abs hNe hy (substituted_subst body x r)
      case isFalse hCapture =>
        obtain ⟨hBody, hFree, hzx⟩ := newBinder_not_mem y body x r
        -- The inner substitution keeps the size, so the outer one may be pushed in as well.
        have hSize := size_subst_var body y (newBinder y body x r)
        exact .abs_renamed hNe hBody hFree hzx (substituted_subst body y _) (substituted_subst _ x r)
termination_by t.size
decreasing_by all_goals simp only [size]; omega

theorem namelessIn_subst (t : Term) (x : Symbol) (r : Term) (env : Symbol → Nameless) :
    (t.subst x r).namelessIn env = t.namelessIn (Function.update env x (r.namelessIn env)) :=
  substituted_subst t x r env

/-- A contracted redex is contracted in the nameless form. -/
theorem namelessIn_subst_eq_instantiate (body : Term) (x : Symbol) (arg : Term) (env : Symbol → Nameless) :
    (body.subst x arg).namelessIn env =
      (body.namelessIn (enter env x)).instantiate (arg.namelessIn env) := by
  rw [namelessIn_subst, Nameless.instantiate, subst_namelessIn]
  congr 1
  funext y
  by_cases hEq : y = x
  · rw [hEq, enter_self, Function.update_self]
    rfl
  · rw [enter_of_ne hEq, Function.update_of_ne hEq]
    exact (Nameless.instantiate_shift (env y) _).symm

end Term

end NamedLambda
