import Mathlib.Logic.Equiv.Basic
import NamedLambda.Proofs.Nameless.Reduction
import NamedLambda.Proofs.Runs

/-!
# Reduction does not depend on the choice of names

When all names of a term are changed by an injective map, and its bound names once more at will, the
two reductions still correspond to each other: they take the same number of steps, both reach a normal
form or both give up, and the terms that they end with are related as the first terms were. The two
runs invent different names and rename different binders, so no step of the one is the image of a
step of the other. What they share are the nameless forms, in which a map of names
concerns free names only and commutes with contraction.
-/

namespace NamedLambda

set_option autoImplicit false

namespace Nameless

def mapFree (p : Symbol → Symbol) : Nameless → Nameless
  | bound i => bound i
  | free x => free (p x)
  | abs body => abs (body.mapFree p)
  | app fn arg => app (fn.mapFree p) (arg.mapFree p)

section

variable (p : Symbol → Symbol)

theorem mapFree_rename (t : Nameless) (ρ : Nat → Nat) :
    (t.rename ρ).mapFree p = (t.mapFree p).rename ρ := by
  induction t generalizing ρ with
  | bound i => rfl
  | free x => rfl
  | abs body ih => rw [rename, mapFree, mapFree, rename, ih]
  | app fn arg ihFn ihArg => rw [rename, mapFree, mapFree, rename, ihFn, ihArg]

theorem mapFree_subst (t : Nameless) (σ : Nat → Nameless) :
    (t.subst σ).mapFree p = (t.mapFree p).subst fun i => (σ i).mapFree p := by
  induction t generalizing σ with
  | bound i => rfl
  | free x => rfl
  | abs body ih =>
    have hLift : (fun i => (lift σ i).mapFree p) = lift fun i => (σ i).mapFree p := by
      funext i
      cases i with
      | zero => rfl
      | succ i => exact mapFree_rename p (σ i) Nat.succ
    rw [subst, mapFree, mapFree, subst, ih, hLift]
  | app fn arg ihFn ihArg => rw [subst, mapFree, mapFree, subst, ihFn, ihArg]

theorem mapFree_instantiate (body arg : Nameless) :
    (body.instantiate arg).mapFree p = (body.mapFree p).instantiate (arg.mapFree p) := by
  rw [instantiate, instantiate, mapFree_subst]
  congr 1
  funext i
  cases i <;> rfl

theorem beta_mapFree (fn arg : Nameless) :
    beta (fn.mapFree p) (arg.mapFree p) = (beta fn arg).map (mapFree p) := by
  cases fn with
  | abs body => exact congrArg some (mapFree_instantiate p body arg).symm
  | bound i => rfl
  | free x => rfl
  | app f a => rfl

theorem step?_mapFree (t : Nameless) : (t.mapFree p).step? = t.step?.map (mapFree p) := by
  induction t with
  | bound i => rfl
  | free x => rfl
  | abs body ih =>
    rw [mapFree, step?, step?, ih, Option.map_map, Option.map_map]
    rfl
  | app fn arg ihFn ihArg =>
    rw [mapFree, step?, step?, beta_mapFree, ihFn, ihArg]
    cases beta fn arg with
    | some u => rfl
    | none =>
      cases fn.step? with
      | some u => rfl
      | none => cases arg.step? <;> rfl

end

end Nameless

namespace Term

/-- Changes all names in a term, bound and free. -/
def mapNames (p : Symbol → Symbol) : Term → Term
  | var x => var (p x)
  | abs x body => abs (p x) (body.mapNames p)
  | app fn arg => app (fn.mapNames p) (arg.mapNames p)

/-- The second term is the first with its names changed by `p`, up to bound names. -/
def Renamed (p : Symbol → Symbol) (t t' : Term) : Prop := t'.alphaEq (t.mapNames p) = true

theorem mapFree_namelessIn (p : Symbol → Symbol) (t : Term) (env : Symbol → Nameless) :
    (t.namelessIn env).mapFree p = t.namelessIn fun x => (env x).mapFree p := by
  induction t generalizing env with
  | var x => rfl
  | abs x body ih =>
    have hEnter := map_enter (g := Nameless.mapFree p) rfl
      (fun e => Nameless.mapFree_rename p e Nat.succ) env x
    rw [namelessIn, namelessIn, Nameless.mapFree, ih, hEnter]
  | app fn arg ihFn ihArg => rw [namelessIn, namelessIn, Nameless.mapFree, ihFn, ihArg]

section

variable {p : Symbol → Symbol} (hp : Function.Injective p)

include hp

/-- Without injectivity the new name of a variable could be the new name of a binder above it. -/
theorem namelessIn_mapNames (t : Term) (env : Symbol → Nameless) :
    (t.mapNames p).namelessIn env = t.namelessIn fun x => env (p x) := by
  induction t generalizing env with
  | var x => rfl
  | abs x body ih =>
    have hEnter : (fun y => enter env (p x) (p y)) = enter (fun y => env (p y)) x :=
      Function.update_comp_eq_of_injective _ hp x _
    rw [mapNames, namelessIn, namelessIn, ih, hEnter]
  | app fn arg ihFn ihArg => rw [mapNames, namelessIn, namelessIn, ihFn, ihArg]

theorem nameless_mapNames (t : Term) : (t.mapNames p).nameless = t.nameless.mapFree p := by
  rw [nameless_eq, nameless_eq, namelessIn_mapNames hp, mapFree_namelessIn]
  rfl

theorem renamed_iff (t t' : Term) : Renamed p t t' ↔ t'.nameless = t.nameless.mapFree p := by
  rw [Renamed, alphaEq_iff_nameless_eq, nameless_mapNames hp]

theorem Renamed.step {t t' : Term} (h : Renamed p t t') : Option.Rel (Renamed p) t.step? t'.step? := by
  have hSteps : t'.step?.map nameless = t.step?.map fun u => u.nameless.mapFree p := by
    rw [← step?_nameless, (renamed_iff hp t t').mp h, Nameless.step?_mapFree, step?_nameless,
      Option.map_map]
    rfl
  cases hStep : t.step? with
  | none =>
    rw [hStep] at hSteps
    rw [Option.map_eq_none_iff.mp hSteps]
    exact .none
  | some u =>
    rw [hStep] at hSteps
    obtain ⟨u', hStep', hNameless⟩ := Option.map_eq_some_iff.mp hSteps
    rw [hStep']
    exact .some ((renamed_iff hp u u').mpr hNameless)

theorem Renamed.hasRedex_eq {t t' : Term} (h : Renamed p t t') : t'.hasRedex = t.hasRedex := by
  rw [← isSome_step?, ← isSome_step?]
  have hStep := h.step hp
  generalize t.step? = next at hStep ⊢
  generalize t'.step? = next' at hStep ⊢
  cases hStep <;> rfl

end

theorem mapNames_id (t : Term) : t.mapNames id = t := by
  induction t with
  | var x => rfl
  | abs x body ih => rw [mapNames, ih, id]
  | app fn arg ihFn ihArg => rw [mapNames, ihFn, ihArg]

theorem renamed_id : Renamed id = fun t t' => t'.alphaEq t = true := by
  funext t t'
  rw [Renamed, mapNames_id]

/-- Two reductions end in the same way, with related terms. -/
inductive SameOutcome (related : Term → Term → Prop) :
    Except StepLimit Reduced → Except StepLimit Reduced → Prop where
  | reduced {u u' : Term} (steps : Nat) (h : related u u') :
      SameOutcome related (.ok ⟨u, steps⟩) (.ok ⟨u', steps⟩)
  | gaveUp {u u' : Term} (maxSteps : Nat) (h : related u u') :
      SameOutcome related (.error ⟨maxSteps, u⟩) (.error ⟨maxSteps, u'⟩)

theorem sameOutcome_reduceFrom {p : Symbol → Symbol} (hp : Function.Injective p) {t t' : Term}
    (h : Renamed p t t') (maxSteps done left : Nat) :
    SameOutcome (Renamed p) (reduceFrom maxSteps done t left) (reduceFrom maxSteps done t' left) := by
  induction left generalizing done t t' with
  | zero =>
    rw [reduceFrom, reduceFrom, h.hasRedex_eq hp]
    split
    · exact .gaveUp maxSteps h
    · exact .reduced done h
  | succ left ih =>
    have hStep := h.step hp
    rw [reduceFrom, reduceFrom]
    generalize t.step? = next at hStep ⊢
    generalize t'.step? = next' at hStep ⊢
    cases hStep with
    | none => exact .reduced done h
    | some hNext => exact ih hNext (done + 1)

theorem reduceCounted_independent_of_names (t t' : Term) (maxSteps : Nat) :
    (∀ p : Symbol → Symbol, Function.Injective p → t'.alphaEq (t.mapNames p) = true →
      SameOutcome (fun u u' => u'.alphaEq (u.mapNames p) = true)
        (t.reduceCounted maxSteps) (t'.reduceCounted maxSteps)) ∧
    (t'.alphaEq t = true →
      SameOutcome (fun u u' => u'.alphaEq u = true) (t.reduceCounted maxSteps) (t'.reduceCounted maxSteps)) := by
  constructor
  · intro p hp h
    exact sameOutcome_reduceFrom hp h maxSteps 0 maxSteps
  · intro h
    have hRenamed : Renamed id t t' := by rwa [renamed_id]
    have hSame := sameOutcome_reduceFrom Function.injective_id hRenamed maxSteps 0 maxSteps
    rwa [renamed_id] at hSame

theorem reduceCounted_independent_of_names_swapped :
    let w : Symbol := .literal "w"
    let x : Symbol := .literal "x"
    let y : Symbol := .literal "y"
    let y₁ : Symbol := .literal "y1"
    let z : Symbol := .literal "z"
    let t := app (abs x (abs y (var x))) (var y)
    let t' := app (abs x (abs w (var x))) (var z)
    t.reduceCounted 1 = .ok ⟨abs y₁ (var y), 1⟩ ∧ t'.reduceCounted 1 = .ok ⟨abs w (var z), 1⟩ ∧
      SameOutcome (fun u u' => u'.alphaEq (u.mapNames (Equiv.swap y z)) = true)
        (t.reduceCounted 1) (t'.reduceCounted 1) := by
  intro w x y y₁ z t t'
  have hRenamed : t'.alphaEq (t.mapNames (Equiv.swap y z)) = true := by decide +kernel
  have hSame := (reduceCounted_independent_of_names t t' 1).1 _ (Equiv.swap y z).injective hRenamed
  have hFirst : t.reduceCounted 1 = .ok ⟨abs y₁ (var y), 1⟩ :=
    (reduceCounted_eq_ok_iff t 1 _).mpr ⟨Nat.le_refl 1, by decide +kernel, rfl⟩
  have hSecond : t'.reduceCounted 1 = .ok ⟨abs w (var z), 1⟩ :=
    (reduceCounted_eq_ok_iff t' 1 _).mpr ⟨Nat.le_refl 1, by decide +kernel, rfl⟩
  exact ⟨hFirst, hSecond, hSame⟩

end Term

end NamedLambda
