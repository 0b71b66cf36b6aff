import NamedLambda.Proofs.FreeVariables

/-!
# Laws of substitution

Two laws that do not mention the binders that a substitution renames. The first says which variables
are free in the result: those of the term but for the replaced one, and those of the
replacement; without a free occurrence nothing is changed at all. The second says how two substitutions
for different variables change places. The two orders rename different binders, and one of them may
rename the same binder twice, so the results are equal only up to bound names. Both
orders update an environment in the same two places, and this is all that the nameless form sees.
-/

namespace NamedLambda.Term

set_option autoImplicit false

theorem freeVars_subst (t : Term) (x : Symbol) (r : Term) :
    (x ∈ t.freeVars → (t.subst x r).freeVars = (t.freeVars.erase x).union r.freeVars) ∧
      (x ∉ t.freeVars → t.subst x r = t) := by
  constructor
  · intro hx
    apply NameSet.ext
    intro y
    rw [mem_freeVars_subst, NameSet.mem_union, NameSet.mem_erase, and_iff_right hx]
  · intro hx
    apply subst_eq_self
    rwa [← hasFree_iff_mem_freeVars, Bool.not_eq_true] at hx

theorem freeVars_subst_renamed :
    let x : Symbol := .literal "x"
    let y : Symbol := .literal "y"
    let y₁ : Symbol := .literal "y1"
    let y₂ : Symbol := .literal "y2"
    let t := abs y (app (app (var x) (var y)) (var y₁))
    t.subst x (var y) = abs y₂ (app (app (var y) (var y₂)) (var y₁)) ∧
      x ∈ t.freeVars ∧ (t.subst x (var y)).freeVars = (t.freeVars.erase x).union (var y).freeVars ∧
      y ∉ t.freeVars ∧ t.subst y (var x) = t := by
  intro x y y₁ y₂ t
  have hx : x ∈ t.freeVars := by decide
  have hy : y ∉ t.freeVars := by decide
  refine ⟨by decide +kernel, hx, ?_, hy, ?_⟩
  · exact (freeVars_subst t x (var y)).1 hx
  · exact (freeVars_subst t y (var x)).2 hy

theorem namelessIn_subst_subst (m n l : Term) {x y : Symbol} (hNe : x ≠ y) (hx : x ∉ l.freeVars)
    (env : Symbol → Nameless) :
    ((m.subst x n).subst y l).namelessIn env =
      ((m.subst y l).subst x (n.subst y l)).namelessIn env := by
  let envY := Function.update env y (l.namelessIn env)
  let envX := Function.update env x (n.namelessIn envY)
  have hl : l.namelessIn envX = l.namelessIn env := namelessIn_update_of_not_mem hx env _
  have hn : (n.subst y l).namelessIn env = n.namelessIn envY := namelessIn_subst n y l env
  calc
    ((m.subst x n).subst y l).namelessIn env =
        m.namelessIn (Function.update envY x (n.namelessIn envY)) := by
      rw [namelessIn_subst, namelessIn_subst]
    _ = m.namelessIn (Function.update envX y (l.namelessIn env)) := by
      rw [Function.update_comm hNe]
    _ = ((m.subst y l).subst x (n.subst y l)).namelessIn env := by
      rw [namelessIn_subst, namelessIn_subst, hn, hl]

theorem substitutions_commute (m n l : Term) (x y : Symbol) (hNe : x ≠ y) (hx : x ∉ l.freeVars) :
    ((m.subst x n).subst y l).alphaEq ((m.subst y l).subst x (n.subst y l)) = true := by
  rw [alphaEq_iff_nameless_eq, nameless_eq, nameless_eq]
  exact namelessIn_subst_subst m n l hNe hx Nameless.free

theorem substitutions_commute_renamedTwice :
    let x : Symbol := .literal "x"
    let y : Symbol := .literal "y"
    let y₁ : Symbol := .literal "y1"
    let y₂ : Symbol := .literal "y2"
    let m := abs y (var x)
    (m.subst x (var y)).subst y (var y₁) = abs y₂ (var y₁) ∧
      (m.subst y (var y₁)).subst x ((var y).subst y (var y₁)) = abs y (var y₁) ∧
      ((m.subst x (var y)).subst y (var y₁)).alphaEq
        ((m.subst y (var y₁)).subst x ((var y).subst y (var y₁))) = true := by
  intro x y y₁ y₂ m
  have hNe : x ≠ y := by decide
  have hx : x ∉ (var y₁).freeVars := by decide
  exact ⟨by decide +kernel, by decide +kernel, substitutions_commute m (var y) (var y₁) x y hNe hx⟩

end NamedLambda.Term
