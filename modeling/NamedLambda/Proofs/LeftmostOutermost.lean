import NamedLambda.Proofs.Positions
import NamedLambda.Reduction.Step

/-!
# The redex that a step contracts

Of all positions at which a redex stands, a step picks the first one in pre-order, and it replaces
nothing but the redex there. The step function never looks at positions: it decides by the order
of its attempts, and the test for a redex is a traversal of its own.
-/

namespace NamedLambda.Term

set_option autoImplicit false

def isRedex : Term → Bool
  | app fn _ => fn.isAbs
  | _ => false

theorem isRedex_iff {t : Term} : t.isRedex = true ↔ ∃ x body arg, t = app (abs x body) arg := by
  constructor
  · intro h
    match t with
    | app (abs x body) arg => exact ⟨x, body, arg, rfl⟩
  · rintro ⟨x, body, arg, rfl⟩
    rfl

def redexAt (t : Term) (p : Position) : Bool := (t.at? p).any isRedex

theorem redexAt_iff {t : Term} {p : Position} :
    t.redexAt p = true ↔ ∃ x body arg, t.at? p = some (app (abs x body) arg) := by
  unfold redexAt
  cases t.at? p with
  | none => simp
  | some u => simpa using isRedex_iff

/-- The first position in pre-order at which a redex stands. -/
def firstRedex? (t : Term) : Option Position := t.positions.find? t.redexAt

theorem firstRedex?_abs (x : Symbol) (body : Term) :
    (abs x body).firstRedex? = body.firstRedex?.map (.body :: ·) := by
  have hRoot : ¬ (abs x body).redexAt [] = true := Bool.false_ne_true
  rw [firstRedex?, positions, List.find?_cons_of_neg hRoot, List.find?_map]
  rfl

theorem firstRedex?_app (fn arg : Term) :
    (app fn arg).firstRedex? =
      if fn.isAbs then some []
      else (fn.firstRedex?.map (.fn :: ·)).or (arg.firstRedex?.map (.arg :: ·)) := by
  have hRoot : (app fn arg).redexAt [] = fn.isAbs := rfl
  rw [firstRedex?, positions]
  split
  case isTrue hAbs => rw [List.find?_cons_of_pos (hRoot.trans hAbs)]
  case isFalse hAbs =>
    rw [List.find?_cons_of_neg (hRoot ▸ hAbs), List.find?_append, List.find?_map, List.find?_map]
    rfl

theorem isSome_firstRedex? (t : Term) : t.firstRedex?.isSome = t.hasRedex := by
  induction t with
  | var x => rfl
  | abs x body ih => rw [firstRedex?_abs, Option.isSome_map, ih, hasRedex]
  | app fn arg ihFn ihArg =>
    rw [firstRedex?_app, hasRedex]
    split
    case isTrue hAbs =>
      rw [hAbs]
      rfl
    case isFalse hAbs =>
      rw [Bool.eq_false_iff.mpr hAbs, Option.isSome_or, Option.isSome_map, Option.isSome_map, ihFn,
        ihArg, Bool.false_or]

theorem hasRedex_iff_exists_redexAt (t : Term) : t.hasRedex = true ↔ ∃ p, t.redexAt p = true := by
  rw [← isSome_firstRedex?, firstRedex?, List.find?_isSome]
  constructor
  · rintro ⟨p, _, hp⟩
    exact ⟨p, hp⟩
  · rintro ⟨p, hp⟩
    obtain ⟨x, body, arg, hAt⟩ := redexAt_iff.mp hp
    exact ⟨p, mem_positions_iff.mpr ⟨_, hAt⟩, hp⟩

theorem firstRedex?_eq_none_iff (t : Term) : t.firstRedex? = none ↔ t.hasRedex = false := by
  rw [← isSome_firstRedex?, Option.isSome_eq_false_iff, Option.isNone_iff_eq_none]

/-- A step replaces the first redex by its contractum. -/
theorem exists_firstRedex_of_step? {t t' : Term} (h : t.step? = some t') :
    ∃ p x body arg, t.firstRedex? = some p ∧ t.at? p = some (app (abs x body) arg) ∧
      t' = t.replaceAt p (body.subst x arg) := by
  induction t generalizing t' with
  | var y => cases h
  | abs y inner ih =>
    obtain ⟨inner', hInner, rfl⟩ := Option.map_eq_some_iff.mp h
    obtain ⟨p, x, body, arg, hFirst, hAt, rfl⟩ := ih hInner
    refine ⟨.body :: p, x, body, arg, ?_, hAt, rfl⟩
    rw [firstRedex?_abs, hFirst]
    rfl
  | app fn arg ihFn ihArg =>
    rw [firstRedex?_app]
    obtain ⟨x, body, rfl, rfl⟩ | ⟨hAbs, fn', hFn, rfl⟩ | ⟨hAbs, hNone, arg', hArg, rfl⟩ := step?_app_cases h
    · exact ⟨[], x, body, arg, rfl, rfl, rfl⟩
    · obtain ⟨p, x, body, a, hFirst, hAt, rfl⟩ := ihFn hFn
      refine ⟨.fn :: p, x, body, a, ?_, hAt, rfl⟩
      rw [hAbs, hFirst]
      rfl
    -- A step in the argument is made only when no position on the function side holds a redex.
    · obtain ⟨p, x, body, a, hFirst, hAt, rfl⟩ := ihArg hArg
      refine ⟨.arg :: p, x, body, a, ?_, hAt, rfl⟩
      rw [hAbs, (firstRedex?_eq_none_iff fn).mpr hNone, hFirst]
      rfl

theorem step_contracts_first_redex (t : Term) :
    (t.hasRedex = true ↔ ∃ p x body arg, t.at? p = some (app (abs x body) arg)) ∧
      (t.step? = none ↔ t.hasRedex = false) ∧
      ∀ t', t.step? = some t' → ∃ p x body arg,
        t.firstRedex? = some p ∧ t.at? p = some (app (abs x body) arg) ∧
        t' = t.replaceAt p (body.subst x arg) ∧
        (∀ q, p.Apart q → t'.at? q = t.at? q) ∧
        ∀ q, q <+: p → q ≠ p → (t'.at? q).map binder? = (t.at? q).map binder? := by
  refine ⟨?_, step?_eq_none_iff t, ?_⟩
  · simp only [hasRedex_iff_exists_redexAt, redexAt_iff]
  · intro t' h
    obtain ⟨p, x, body, arg, hFirst, hAt, rfl⟩ := exists_firstRedex_of_step? h
    refine ⟨p, x, body, arg, hFirst, hAt, rfl, ?_, ?_⟩
    · intro q hApart
      exact at?_replaceAt_of_apart hApart t _
    · intro q hAbove hNe
      exact binder?_replaceAt_of_above hAbove hNe t _

theorem step_contracts_first_redex_below_binder :
    let c : Symbol := .literal "c"
    let f : Symbol := .literal "f"
    let x : Symbol := .literal "x"
    let y : Symbol := .literal "y"
    let y₁ : Symbol := .literal "y1"
    let z : Symbol := .literal "z"
    let second := app (abs c (var c)) (var z)
    let t := abs z (app (app (var f) (app (abs x (abs y (var x))) (var y))) second)
    let t' := abs z (app (app (var f) (abs y₁ (var y))) second)
    t.step? = some t' ∧ t.firstRedex? = some [.body, .fn, .arg] ∧
      t'.at? [.body, .arg] = t.at? [.body, .arg] ∧
      (t'.at? []).map binder? = (t.at? []).map binder? := by
  intro c f x y y₁ z second t t'
  have hStep : t.step? = some t' := by decide +kernel
  have hPlace : t.firstRedex? = some [.body, .fn, .arg] := by decide +kernel
  obtain ⟨p, _, _, _, hFirst, _, _, hApart, hAbove⟩ := (step_contracts_first_redex t).2.2 t' hStep
  obtain rfl := Option.some.inj (hFirst.symm.trans hPlace)
  have hDisjoint : Position.Apart [.body, .fn, .arg] [.body, .arg] := ⟨by decide, by decide⟩
  exact ⟨hStep, hPlace, hApart _ hDisjoint, hAbove [] List.nil_prefix (by decide)⟩

end NamedLambda.Term
