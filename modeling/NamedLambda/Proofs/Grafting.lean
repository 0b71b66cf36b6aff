import NamedLambda.Proofs.FreeVariables
import NamedLambda.Proofs.Positions

/-!
# When binders are renamed

Grafting replaces the free occurrences of a variable and leaves every binder as it is. It goes wrong
where a binder above such an occurrence binds a variable of what is put there. Substitution renames a
binder exactly if there is such a binder: without one it is the same as grafting, and with one grafting
gives another term, even up to bound names.

The binders that capture are given by their positions, while substitution decides at one binder at a
time, on its way down; `captures_abs_iff_tests` says that its tests look for the same binders. That
capture changes the term is seen in the nameless form: there a captured variable is a number
and its name is no longer mentioned.
-/

namespace NamedLambda.Term

set_option autoImplicit false

def graft : Term → Symbol → Term → Term
  | var y, x, r => if y = x then r else var y
  | abs y body, x, r => if y = x then abs y body else abs y (body.graft x r)
  | app fn arg, x, r => app (fn.graft x r) (arg.graft x r)

/-- At `p` stands a binder of a variable free in `r`, and below it `x` occurs free in the whole term. -/
def CapturesAt (t : Term) (x : Symbol) (r : Term) (p : Position) : Prop :=
  ∃ y body, t.at? p = some (abs y body) ∧ ¬ t.BoundAbove x p ∧ y ≠ x ∧
    x ∈ body.freeVars ∧ y ∈ r.freeVars

def Captures (t : Term) (x : Symbol) (r : Term) : Prop := ∃ p, t.CapturesAt x r p

section

variable {x : Symbol} {r : Term}

theorem captures_iff_exposes {t : Term} :
    t.Captures x r ↔
      t.Exposes x fun u => ∃ y body, u = abs y body ∧ y ≠ x ∧ x ∈ body.freeVars ∧ y ∈ r.freeVars := by
  constructor
  · rintro ⟨p, y, body, hAt, hAbove, hFree⟩
    exact ⟨p, _, hAt, hAbove, y, body, rfl, hFree⟩
  · rintro ⟨p, _, hAt, hAbove, y, body, rfl, hFree⟩
    exact ⟨p, y, body, hAt, hAbove, hFree⟩

theorem not_captures_var (y : Symbol) : ¬ (var y).Captures x r := by
  rw [captures_iff_exposes, exposes_var]
  rintro ⟨_, _, ⟨⟩, _⟩

theorem captures_app {fn arg : Term} :
    (app fn arg).Captures x r ↔ fn.Captures x r ∨ arg.Captures x r := by
  simp only [captures_iff_exposes]
  rw [exposes_app]
  apply or_iff_right
  rintro ⟨_, _, ⟨⟩, _⟩

theorem captures_abs {y : Symbol} {body : Term} :
    (abs y body).Captures x r ↔
      y ≠ x ∧ (x ∈ body.freeVars ∧ y ∈ r.freeVars ∨ body.Captures x r) := by
  rw [captures_iff_exposes, exposes_abs, ← captures_iff_exposes]
  constructor
  · rintro (⟨_, _, ⟨⟩, hNe, hFree⟩ | ⟨hNe, hBody⟩)
    · exact ⟨hNe, Or.inl hFree⟩
    · exact ⟨hNe, Or.inr hBody⟩
  · rintro ⟨hNe, hFree | hBody⟩
    · exact Or.inl ⟨y, body, rfl, hNe, hFree⟩
    · exact Or.inr ⟨hNe, hBody⟩

theorem Captures.mem_freeVars {t : Term} (h : t.Captures x r) : x ∈ t.freeVars := by
  induction t with
  | var y => exact absurd h (not_captures_var y)
  | abs y body ih =>
    obtain ⟨hNe, ⟨hFree, _⟩ | hBody⟩ := captures_abs.mp h
    · exact NameSet.mem_erase.mpr ⟨hFree, hNe.symm⟩
    · exact NameSet.mem_erase.mpr ⟨ih hBody, hNe.symm⟩
  | app fn arg ihFn ihArg =>
    rcases captures_app.mp h with hFn | hArg
    · exact NameSet.mem_union.mpr (Or.inl (ihFn hFn))
    · exact NameSet.mem_union.mpr (Or.inr (ihArg hArg))

/-- The tests that substitution makes at one binder. -/
theorem captures_abs_iff_tests {y : Symbol} {body : Term} :
    (abs y body).Captures x r ↔
      ¬ (y = x ∨ body.hasFree x = false) ∧ (r.hasFree y = true ∨ body.Captures x r) := by
  rw [captures_abs, not_or, Bool.not_eq_false, hasFree_iff_mem_freeVars, hasFree_iff_mem_freeVars]
  constructor
  · rintro ⟨hNe, ⟨hFree, hy⟩ | hBody⟩
    · exact ⟨⟨hNe, hFree⟩, Or.inl hy⟩
    · exact ⟨⟨hNe, hBody.mem_freeVars⟩, Or.inr hBody⟩
  · rintro ⟨⟨hNe, hFree⟩, hy | hBody⟩
    · exact ⟨hNe, Or.inl ⟨hFree, hy⟩⟩
    · exact ⟨hNe, Or.inr hBody⟩

theorem renamings_eq_nil_iff {t : Term} : renamings x r t = [] ↔ ¬ t.Captures x r := by
  induction t with
  | var y => exact iff_of_true (renamings_var x r y) (not_captures_var y)
  | app fn arg ihFn ihArg =>
    rw [renamings_app, List.append_eq_nil_iff, ihFn, ihArg, captures_app, not_or]
  | abs y body ih =>
    rw [renamings_abs, captures_abs_iff_tests]
    split
    case isTrue hSame => exact iff_of_true rfl fun h => h.1 hSame
    case isFalse hOther =>
      rw [and_iff_right hOther]
      split
      case isTrue hSafe => rw [ih, hSafe, or_iff_right Bool.false_ne_true]
      -- The first renaming is made at the outermost binder that captures.
      case isFalse hFree =>
        refine iff_of_false (List.cons_ne_nil _ _) fun h => h (Or.inl ?_)
        rwa [Bool.not_eq_false] at hFree

theorem subst_eq_graft {t : Term} (h : ¬ t.Captures x r) : t.subst x r = t.graft x r := by
  induction t with
  | var y => rw [subst_var, graft]
  | app fn arg ihFn ihArg =>
    rw [captures_app, not_or] at h
    rw [subst_app, graft, ihFn h.1, ihArg h.2]
  | abs y body ih =>
    rw [captures_abs_iff_tests] at h
    rw [subst_abs, graft]
    by_cases hEq : y = x
    · rw [if_pos (Or.inl hEq), if_pos hEq]
    · rw [if_neg hEq]
      split
      case isTrue hSame =>
        have hFree : body.hasFree x = false := hSame.resolve_left hEq
        have hNone : ¬ body.Captures x r := by
          intro hBody
          rw [hasFree_iff_mem_freeVars.mpr hBody.mem_freeVars] at hFree
          cases hFree
        rw [← ih hNone, subst_eq_self r hFree]
      case isFalse hOther =>
        have hBelow : ¬ (r.hasFree y = true ∨ body.Captures x r) := fun hBelow => h ⟨hOther, hBelow⟩
        obtain ⟨hSafe, hBody⟩ := not_or.mp hBelow
        rw [if_pos (Bool.eq_false_iff.mpr hSafe), ih hBody]

end

/-- A term read where no name stands for a form with `y` does not mention `y`. -/
theorem namelessIn_ne_of_mentions {env : Symbol → Nameless} {y : Symbol} (hEnv : ∀ z, ¬ (env z).Mentions y)
    (u : Term) {t : Term} {x : Symbol} (hx : x ∈ t.freeVars) {form : Nameless} (hForm : form.Mentions y) :
    u.namelessIn env ≠ t.namelessIn (Function.update env x form) := by
  intro hEq
  have hMentions : (t.namelessIn (Function.update env x form)).Mentions y := by
    refine (mentions_namelessIn t _ y).mpr ⟨x, hx, ?_⟩
    rwa [Function.update_self]
  rw [← hEq] at hMentions
  obtain ⟨z, _, hz⟩ := (mentions_namelessIn u env y).mp hMentions
  exact hEnv z hz

/-- Grafting that captures is wrong in every environment in which a name stands for nothing that
mentions another name. -/
theorem Captures.namelessIn_graft_ne {t : Term} {x : Symbol} {r : Term} (h : t.Captures x r)
    {env : Symbol → Nameless} (hEnv : ∀ z w, (env z).Mentions w → z = w) {form : Nameless}
    (hForm : ∀ w ∈ r.freeVars, form.Mentions w) :
    (t.graft x r).namelessIn env ≠ t.namelessIn (Function.update env x form) := by
  induction t generalizing env form with
  | var y => exact absurd h (not_captures_var y)
  | app fn arg ihFn ihArg =>
    intro hEq
    obtain ⟨hFnEq, hArgEq⟩ := Nameless.app.inj hEq
    rcases captures_app.mp h with hFn | hArg
    · exact ihFn hFn hEnv hForm hFnEq
    · exact ihArg hArg hEnv hForm hArgEq
  | abs y body ih =>
    obtain ⟨hNe, hBelow⟩ := captures_abs.mp h
    rw [graft, if_neg hNe, namelessIn, namelessIn, enter_update hNe]
    intro hEq
    have hBodyEq := Nameless.abs.inj hEq
    have hShift : ∀ w ∈ r.freeVars, form.shift.Mentions w := by
      intro w hw
      exact (Nameless.mentions_rename w form Nat.succ).mpr (hForm w hw)
    rcases hBelow with ⟨hx, hy⟩ | hBody
    -- Below this binder nothing mentions its name, which the right side must mention at `x`.
    · refine namelessIn_ne_of_mentions (fun z hz => ?_) (body.graft x r) hx (hShift y hy) hBodyEq
      obtain ⟨hzy, hMentions⟩ := mentions_enter.mp hz
      exact hzy (hEnv z y hMentions)
    · refine ih hBody (fun z w hz => ?_) hShift hBodyEq
      exact hEnv z w (mentions_enter.mp hz).2

theorem Captures.not_alphaEq {t : Term} {x : Symbol} {r : Term} (h : t.Captures x r) :
    (t.graft x r).alphaEq (t.subst x r) ≠ true := by
  have hFree : ∀ z w, (Nameless.free z).Mentions w → z = w := fun _ _ hMentions => hMentions
  have hForm : ∀ w ∈ r.freeVars, r.nameless.Mentions w := fun w hw => (mem_freeVars_iff_mentions r w).mp hw
  rw [Ne, alphaEq_iff_nameless_eq, nameless_eq, nameless_eq, namelessIn_subst, ← nameless_eq r]
  exact h.namelessIn_graft_ne hFree hForm

theorem binders_renamed_iff_grafting_captures (t : Term) (x : Symbol) (r : Term) :
    ((∀ change, .renamed change ∉ t.substEvents x r) ↔ t.subst x r = t.graft x r) ∧
      (t.subst x r = t.graft x r ↔ (t.graft x r).alphaEq (t.subst x r) = true) ∧
      ((t.graft x r).alphaEq (t.subst x r) = true ↔ ¬ t.Captures x r) := by
  have hQuiet : (∀ change, .renamed change ∉ t.substEvents x r) ↔ ¬ t.Captures x r := by
    rw [← renamings_eq_nil_iff, List.eq_nil_iff_forall_not_mem]
    simp [substEvents]
  have hAlpha : t.subst x r = t.graft x r → (t.graft x r).alphaEq (t.subst x r) = true := by
    intro hEq
    exact (alphaEq_iff_nameless_eq _ _).mpr (congrArg nameless hEq.symm)
  have hNone : (t.graft x r).alphaEq (t.subst x r) = true → ¬ t.Captures x r := fun hEq h =>
    h.not_alphaEq hEq
  refine ⟨?_, ?_, ?_⟩
  · rw [hQuiet]
    exact ⟨subst_eq_graft, fun hEq => hNone (hAlpha hEq)⟩
  · exact ⟨hAlpha, fun hEq => subst_eq_graft (hNone hEq)⟩
  · exact ⟨hNone, fun h => hAlpha (subst_eq_graft h)⟩

end NamedLambda.Term
