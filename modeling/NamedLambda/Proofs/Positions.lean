import NamedLambda.Term

/-!
# Positions

A position is the way from the root of a term to one of its subterms. The positions of a term are
listed in pre-order: a node before all that is below it, the function side of an application before
its argument side. What stands at one position can be replaced; subterms at positions that are
neither above nor below it stay as they are, and so do the binders above it. These binders decide
whether a variable that occurs at the position is free there. Whether some subterm stands below no
binder of a variable can be found out on the way down, one constructor at a time.
-/

namespace NamedLambda

set_option autoImplicit false

inductive Direction where
  | body
  | fn
  | arg
  deriving DecidableEq, Repr

abbrev Position := List Direction

/-- Neither position is above the other, and they are not the same. -/
def Position.Apart (p q : Position) : Prop := ¬ p <+: q ∧ ¬ q <+: p

theorem Position.apart_cons_iff {d : Direction} {p q : Position} :
    Apart (d :: p) (d :: q) ↔ Apart p q := by
  simp only [Apart, List.cons_prefix_cons, true_and]

namespace Term

def child? : Term → Direction → Option Term
  | abs _ body, .body => some body
  | app fn _, .fn => some fn
  | app _ arg, .arg => some arg
  | _, _ => none

def mapChild (f : Term → Term) : Term → Direction → Term
  | abs x body, .body => abs x (f body)
  | app fn arg, .fn => app (f fn) arg
  | app fn arg, .arg => app fn (f arg)
  | t, _ => t

def at? : Term → Position → Option Term
  | t, [] => some t
  | t, d :: p => (t.child? d).bind fun u => u.at? p

/-- Puts `u` in the place of what stands at a position. Without such a place nothing changes. -/
def replaceAt : Term → Position → Term → Term
  | _, [], u => u
  | t, d :: p, u => t.mapChild (fun v => v.replaceAt p u) d

def positions : Term → List Position
  | var _ => [[]]
  | abs _ body => [] :: body.positions.map (.body :: ·)
  | app fn arg => [] :: (fn.positions.map (.fn :: ·) ++ arg.positions.map (.arg :: ·))

def binder? : Term → Option Symbol
  | abs x _ => some x
  | _ => none

theorem child?_mapChild_self (t : Term) (f : Term → Term) (d : Direction) :
    (t.mapChild f d).child? d = (t.child? d).map f := by
  cases t <;> cases d <;> rfl

theorem child?_mapChild_of_ne (t : Term) (f : Term → Term) {d e : Direction} (h : d ≠ e) :
    (t.mapChild f d).child? e = t.child? e := by
  cases t <;> cases d <;> cases e <;> simp_all [mapChild, child?]

theorem binder?_mapChild (t : Term) (f : Term → Term) (d : Direction) :
    (t.mapChild f d).binder? = t.binder? := by
  cases t <;> cases d <;> rfl

theorem mem_positions_iff {t : Term} {p : Position} : p ∈ t.positions ↔ ∃ u, t.at? p = some u := by
  induction t generalizing p with
  | var x => rcases p with _ | ⟨_ | _ | _, p⟩ <;> simp [positions, at?, child?]
  | abs x body ih => rcases p with _ | ⟨_ | _ | _, p⟩ <;> simp [positions, at?, child?, ih]
  | app fn arg ihFn ihArg =>
    rcases p with _ | ⟨_ | _ | _, p⟩ <;> simp [positions, at?, child?, ihFn, ihArg]

theorem at?_replaceAt_of_apart {p q : Position} (h : p.Apart q) (t u : Term) :
    (t.replaceAt p u).at? q = t.at? q := by
  induction p generalizing t q with
  | nil => exact absurd List.nil_prefix h.1
  | cons d p ih =>
    cases q with
    | nil => exact absurd List.nil_prefix h.2
    | cons e q =>
      rw [replaceAt, at?, at?]
      by_cases hEq : d = e
      · subst hEq
        rw [child?_mapChild_self]
        cases t.child? d with
        | none => rfl
        | some v => exact ih (Position.apart_cons_iff.mp h) v
      · rw [child?_mapChild_of_ne t _ hEq]

/-- Above a replaced subterm only what is below changes. -/
theorem binder?_replaceAt_of_above {p q : Position} (h : q <+: p) (hNe : q ≠ p) (t u : Term) :
    ((t.replaceAt p u).at? q).map binder? = (t.at? q).map binder? := by
  induction p generalizing t q with
  | nil => exact absurd (List.prefix_nil.mp h) hNe
  | cons d p ih =>
    cases q with
    | nil => exact congrArg some (binder?_mapChild t _ d)
    | cons e q =>
      obtain ⟨rfl, hPrefix⟩ := List.cons_prefix_cons.mp h
      rw [replaceAt, at?, at?, child?_mapChild_self]
      cases t.child? e with
      | none => rfl
      | some v => exact ih hPrefix (fun hEq => hNe (hEq ▸ rfl)) v

/-- A binder of `x` stands above the position. -/
def BoundAbove (t : Term) (x : Symbol) (p : Position) : Prop :=
  ∃ q, q <+: p ∧ q ≠ p ∧ (t.at? q).bind binder? = some x

theorem not_boundAbove_nil (t : Term) (x : Symbol) : ¬ t.BoundAbove x [] := by
  rintro ⟨q, hPrefix, hNe, _⟩
  exact hNe (List.prefix_nil.mp hPrefix)

theorem boundAbove_cons {t : Term} {x : Symbol} {d : Direction} {p : Position} :
    t.BoundAbove x (d :: p) ↔ t.binder? = some x ∨ ∃ u, t.child? d = some u ∧ u.BoundAbove x p := by
  constructor
  · rintro ⟨q, hPrefix, hNe, hBinder⟩
    cases q with
    | nil => exact Or.inl hBinder
    | cons e q =>
      obtain ⟨rfl, hRest⟩ := List.cons_prefix_cons.mp hPrefix
      rw [at?, Option.bind_assoc] at hBinder
      obtain ⟨u, hChild, hBelow⟩ := Option.bind_eq_some_iff.mp hBinder
      exact Or.inr ⟨u, hChild, q, hRest, fun hEq => hNe (hEq ▸ rfl), hBelow⟩
  · rintro (hBinder | ⟨u, hChild, q, hPrefix, hNe, hBelow⟩)
    · exact ⟨[], List.nil_prefix, (List.cons_ne_nil d p).symm, hBinder⟩
    · refine ⟨d :: q, List.cons_prefix_cons.mpr ⟨rfl, hPrefix⟩, fun hEq => hNe (List.cons.inj hEq).2, ?_⟩
      rw [at?, hChild]
      exact hBelow

/-- A subterm with the property `P` stands below no binder of `x`. -/
def Exposes (t : Term) (x : Symbol) (P : Term → Prop) : Prop :=
  ∃ p u, t.at? p = some u ∧ ¬ t.BoundAbove x p ∧ P u

section

variable {x : Symbol} {P : Term → Prop}

theorem exposes_iff {t : Term} :
    t.Exposes x P ↔ P t ∨ t.binder? ≠ some x ∧ ∃ d u, t.child? d = some u ∧ u.Exposes x P := by
  constructor
  · rintro ⟨p, u, hAt, hAbove, hu⟩
    cases p with
    | nil =>
      cases hAt
      exact Or.inl hu
    | cons d p =>
      rw [boundAbove_cons, not_or] at hAbove
      obtain ⟨v, hChild, hBelow⟩ := Option.bind_eq_some_iff.mp hAt
      exact Or.inr ⟨hAbove.1, d, v, hChild, p, u, hBelow, fun h => hAbove.2 ⟨v, hChild, h⟩, hu⟩
  · rintro (ht | ⟨hBinder, d, v, hChild, p, u, hAt, hAbove, hu⟩)
    · exact ⟨[], t, rfl, not_boundAbove_nil t x, ht⟩
    · refine ⟨d :: p, u, ?_, ?_, hu⟩
      · rw [at?, hChild]
        exact hAt
      · rw [boundAbove_cons, not_or]
        refine ⟨hBinder, ?_⟩
        rintro ⟨w, hw, hBelow⟩
        obtain rfl := Option.some.inj (hChild.symm.trans hw)
        exact hAbove hBelow

theorem exposes_var {y : Symbol} : (var y).Exposes x P ↔ P (var y) := by
  rw [exposes_iff]
  constructor
  · rintro (hRoot | ⟨_, d, u, hChild, _⟩)
    · exact hRoot
    · cases d <;> cases hChild
  · exact Or.inl

theorem exposes_abs {y : Symbol} {body : Term} :
    (abs y body).Exposes x P ↔ P (abs y body) ∨ y ≠ x ∧ body.Exposes x P := by
  rw [exposes_iff]
  apply or_congr_right
  constructor
  · rintro ⟨hBinder, d, u, hChild, hu⟩
    cases d with
    | body =>
      cases hChild
      exact ⟨fun hEq => hBinder (congrArg some hEq), hu⟩
    | fn => cases hChild
    | arg => cases hChild
  · rintro ⟨hNe, hBody⟩
    exact ⟨fun hEq => hNe (Option.some.inj hEq), .body, body, rfl, hBody⟩

theorem exposes_app {fn arg : Term} :
    (app fn arg).Exposes x P ↔ P (app fn arg) ∨ fn.Exposes x P ∨ arg.Exposes x P := by
  rw [exposes_iff]
  apply or_congr_right
  constructor
  · rintro ⟨_, d, u, hChild, hu⟩
    cases d with
    | body => cases hChild
    | fn =>
      cases hChild
      exact Or.inl hu
    | arg =>
      cases hChild
      exact Or.inr hu
  · rintro (hFn | hArg)
    · exact ⟨nofun, .fn, fn, rfl, hFn⟩
    · exact ⟨nofun, .arg, arg, rfl, hArg⟩

end

end Term

end NamedLambda
