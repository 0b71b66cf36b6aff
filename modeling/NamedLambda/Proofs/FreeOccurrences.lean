import NamedLambda.Proofs.FreeVariables
import NamedLambda.Proofs.Nameless.Reduction
import NamedLambda.Proofs.Positions

/-!
# Free occurrences

A variable occurs free where it stands at a position with no binder of it above. The set of free
variables is built from the leaves upwards and loses a name at each of its binders; the test for one
name searches downwards and stops at the first binder of it. Both find exactly the variables that
occur free, whatever binders of the same name stand elsewhere in the term. The names are
listed in the order of their code points, each once.

Neither the free variables nor the presence of a redex depends on bound names, since both can be seen
in the nameless form: as the names that it mentions, and as its having a step.
-/

namespace NamedLambda

set_option autoImplicit false

def Symbol.codePoints (x : Symbol) : List Nat := x.name.toList.map Char.toNat

theorem Symbol.codePoints_lt {x y : Symbol} (h : x < y) : x.codePoints < y.codePoints := by
  have hCode : ∀ c d : Char, c < d → c.toNat < d.toNat := by
    intro c d hLt
    exact UInt32.lt_iff_toNat_lt.mp (Char.lt_def.mp hLt)
  exact List.map_lt hCode (String.lt_iff.mp h)

theorem NameSet.nodup_toList (s : NameSet) : s.toList.Nodup := by
  refine s.increasing.imp ?_
  rintro x y hLt rfl
  exact Symbol.lt_irrefl x hLt

namespace Term

/-- At some position stands `x`, and no abstraction on the way to it binds `x`. -/
def OccursFree (t : Term) (x : Symbol) : Prop := ∃ p, t.at? p = some (var x) ∧ ¬ t.BoundAbove x p

theorem occursFree_iff_exposes {t : Term} {x : Symbol} : t.OccursFree x ↔ t.Exposes x (· = var x) := by
  constructor
  · rintro ⟨p, hAt, hAbove⟩
    exact ⟨p, var x, hAt, hAbove, rfl⟩
  · rintro ⟨p, _, hAt, hAbove, rfl⟩
    exact ⟨p, hAt, hAbove⟩

theorem mem_freeVars_iff_occursFree {t : Term} {x : Symbol} : x ∈ t.freeVars ↔ t.OccursFree x := by
  rw [occursFree_iff_exposes]
  induction t with
  | var y => rw [exposes_var, freeVars, NameSet.mem_singleton, var.injEq, eq_comm]
  | abs y body ih =>
    have hRoot : abs y body ≠ var x := by simp
    rw [exposes_abs, or_iff_right hRoot, freeVars, NameSet.mem_erase, ih, and_comm, ne_comm]
  | app fn arg ihFn ihArg =>
    have hRoot : app fn arg ≠ var x := by simp
    rw [exposes_app, or_iff_right hRoot, freeVars, NameSet.mem_union, ihFn, ihArg]

theorem freeVars_eq_of_alphaEq {t u : Term} (h : t.alphaEq u = true) : t.freeVars = u.freeVars := by
  apply NameSet.ext
  intro x
  rw [mem_freeVars_iff_mentions, mem_freeVars_iff_mentions, (alphaEq_iff_nameless_eq t u).mp h]

theorem isSome_step?_nameless (t : Term) : t.nameless.step?.isSome = t.hasRedex := by
  rw [step?_nameless, Option.isSome_map, isSome_step?]

theorem hasRedex_eq_of_alphaEq {t u : Term} (h : t.alphaEq u = true) : t.hasRedex = u.hasRedex := by
  rw [← isSome_step?_nameless, ← isSome_step?_nameless, (alphaEq_iff_nameless_eq t u).mp h]

theorem free_variables_agree_and_ignore_bound_names (t : Term) :
    (∀ x, (x ∈ t.freeVars ↔ t.hasFree x = true) ∧ (t.hasFree x = true ↔ t.OccursFree x)) ∧
      t.freeVars.toList.Pairwise (fun x y => x.codePoints < y.codePoints) ∧ t.freeVars.toList.Nodup ∧
      ∀ u, t.alphaEq u = true → t.freeVars = u.freeVars ∧ t.hasRedex = u.hasRedex := by
  refine ⟨fun x => ⟨hasFree_iff_mem_freeVars.symm, ?_⟩, ?_, t.freeVars.nodup_toList, ?_⟩
  · rw [hasFree_iff_mem_freeVars, mem_freeVars_iff_occursFree]
  · exact t.freeVars.increasing.imp Symbol.codePoints_lt
  · intro u hAlpha
    exact ⟨freeVars_eq_of_alphaEq hAlpha, hasRedex_eq_of_alphaEq hAlpha⟩

theorem free_variables_agree_and_ignore_bound_names_shadowed :
    let w : Symbol := .literal "w"
    let x : Symbol := .literal "x"
    let y : Symbol := .literal "y"
    let z : Symbol := .literal "z"
    let t := app (abs x (app (var z) (abs x (app (var x) (var y))))) (abs y (app (var y) (var z)))
    let u := app (abs w (app (var z) (abs w (app (var w) (var y))))) (abs x (app (var x) (var z)))
    t.freeVars.toList = [y, z] ∧ t.OccursFree y ∧ ¬ t.OccursFree x ∧
      t.alphaEq u = true ∧ t.freeVars = u.freeVars ∧ t.hasRedex = u.hasRedex := by
  intro w x y z t u
  have hFree : t.hasFree y = true := by decide
  have hBound : ¬ t.hasFree x = true := by decide
  have hAlpha : t.alphaEq u = true := by decide
  obtain ⟨hAgree, _, _, hInvariant⟩ := free_variables_agree_and_ignore_bound_names t
  refine ⟨by decide, (hAgree y).2.mp hFree, ?_, hAlpha, hInvariant u hAlpha⟩
  intro hOccurs
  exact hBound ((hAgree x).2.mpr hOccurs)

end Term

end NamedLambda
