import NamedLambda.Proofs.Runs
import NamedLambda.Reduction.Event

/-!
# Interrupted reductions

A bounded reduction that gave up can be taken up again from the last term it reached. Together the
two reductions are one with the sum of the bounds: they have its result, and their events are its
events once the steps of the second are numbered on from the first and the notice that the
first gave up is left out. A reduction that succeeded is not changed by a larger bound.

Both follow from what the events of a reduction are made of: those of the steps that were
taken, whatever the bound is, and at most one more at the end.
-/

namespace NamedLambda

set_option autoImplicit false

/-- An event as it reads when `done` steps were made before the reduction it belongs to. -/
def Event.delayed (done : Nat) : Event → Event
  | renamed change => renamed change
  | stepped count term => stepped (done + count) term
  | gaveUp limit => gaveUp ⟨done + limit.maxSteps, limit.last⟩

namespace Term

/-- The events of the first `n` steps from `t`, after `done` others. -/
def eventsOfSteps (done : Nat) (t : Term) : (n : Nat) → List Event
  | 0 => []
  | n + 1 =>
    match t.step? with
    | some u => t.stepEvents ++ .stepped (done + 1) u :: eventsOfSteps (done + 1) u n
    | none => []

theorem reduceEventsFrom_of_normal {t : Term} (h : t.hasRedex = false) (maxSteps done left : Nat) :
    reduceEventsFrom maxSteps done t left = [] := by
  cases left with
  | zero => rw [reduceEventsFrom, h, if_neg Bool.false_ne_true]
  | succ left => rw [reduceEventsFrom, (step?_eq_none_iff t).mpr h]

/-- The events of a reduction split after any number of steps that it gets through. -/
theorem reduceEventsFrom_add {t u : Term} {n : Nat} (h : t.after? n = some u) (maxSteps done left : Nat) :
    reduceEventsFrom maxSteps done t (n + left) =
      eventsOfSteps done t n ++ reduceEventsFrom maxSteps (done + n) u left := by
  induction n generalizing t done with
  | zero =>
    obtain rfl := Option.some.inj h
    rw [Nat.zero_add]
    rfl
  | succ n ih =>
    obtain ⟨v, hStep, hRest⟩ := Option.bind_eq_some_iff.mp h
    rw [Nat.succ_add, reduceEventsFrom, eventsOfSteps, hStep]
    simp only [ih hRest, List.append_assoc, List.cons_append, Nat.add_assoc, Nat.add_comm 1 n]

theorem map_delayed_stepEvents (done : Nat) (t : Term) :
    t.stepEvents.map (Event.delayed done) = t.stepEvents := by
  rw [stepEvents, List.map_map]
  rfl

theorem map_delayed_reduceEventsFrom (before maxSteps done : Nat) (t : Term) (left : Nat) :
    (reduceEventsFrom maxSteps done t left).map (Event.delayed before) =
      reduceEventsFrom (before + maxSteps) (before + done) t left := by
  induction left generalizing t done with
  | zero =>
    rw [reduceEventsFrom, reduceEventsFrom]
    split <;> rfl
  | succ left ih =>
    rw [reduceEventsFrom, reduceEventsFrom]
    cases t.step? with
    | none => rfl
    | some u =>
      simp only [List.map_append, List.map_cons, map_delayed_stepEvents, ih]
      rfl

/-- The events of a reduction that succeeds are those of its steps. -/
theorem reduceEvents_of_ok {t : Term} {maxSteps : Nat} {r : Reduced}
    (h : t.reduceCounted maxSteps = .ok r) : t.reduceEvents maxSteps = eventsOfSteps 0 t r.steps := by
  obtain ⟨hBound, hAfter, hRedex⟩ := (reduceCounted_eq_ok_iff t maxSteps r).mp h
  obtain ⟨left, rfl⟩ := Nat.exists_eq_add_of_le hBound
  rw [reduceEvents, reduceEventsFrom_add hAfter, reduceEventsFrom_of_normal hRedex, List.append_nil]

theorem reduceEvents_of_error {t : Term} {maxSteps : Nat} {limit : StepLimit}
    (h : t.reduceCounted maxSteps = .error limit) :
    t.reduceEvents maxSteps = eventsOfSteps 0 t maxSteps ++ [.gaveUp limit] := by
  obtain ⟨hMax, hAfter, hRedex⟩ := (reduceCounted_eq_error_iff t maxSteps limit).mp h
  rw [reduceEvents, ← Nat.add_zero maxSteps, reduceEventsFrom_add hAfter, reduceEventsFrom, if_pos hRedex,
    ← hMax]
  rfl

/-- A larger bound changes nothing about a reduction that succeeds. -/
theorem reduceCounted_add_of_ok {t : Term} {a : Nat} {r : Reduced} (h : t.reduceCounted a = .ok r) (b : Nat) :
    t.reduceCounted (a + b) = .ok r := by
  obtain ⟨hBound, hAfter, hRedex⟩ := (reduceCounted_eq_ok_iff t a r).mp h
  exact (reduceCounted_eq_ok_iff t (a + b) r).mpr ⟨Nat.le_trans hBound (Nat.le_add_right a b), hAfter, hRedex⟩

theorem reduceEvents_add_of_ok {t : Term} {a : Nat} {r : Reduced} (h : t.reduceCounted a = .ok r) (b : Nat) :
    t.reduceEvents (a + b) = t.reduceEvents a :=
  (reduceEvents_of_ok (reduceCounted_add_of_ok h b)).trans (reduceEvents_of_ok h).symm

theorem reduceEvents_add_of_error {t : Term} {a : Nat} {limit : StepLimit}
    (h : t.reduceCounted a = .error limit) (b : Nat) :
    t.reduceEvents (a + b) = eventsOfSteps 0 t a ++ (limit.last.reduceEvents b).map (Event.delayed a) := by
  have hAfter := ((reduceCounted_eq_error_iff t a limit).mp h).2.1
  rw [reduceEvents, reduceEventsFrom_add hAfter, reduceEvents, map_delayed_reduceEventsFrom, Nat.zero_add,
    Nat.add_zero]

theorem resumed_reduction_unobservable (t : Term) (a b : Nat) :
    (∀ r, t.reduceCounted a = .ok r →
      t.reduceCounted (a + b) = .ok r ∧ t.reduceEvents (a + b) = t.reduceEvents a) ∧
    ∀ limit, t.reduceCounted a = .error limit →
      limit.maxSteps = a ∧
      (∀ u k, limit.last.reduceCounted b = .ok ⟨u, k⟩ → t.reduceCounted (a + b) = .ok ⟨u, a + k⟩) ∧
      (∀ limit', limit.last.reduceCounted b = .error limit' →
        t.reduceCounted (a + b) = .error ⟨a + b, limit'.last⟩) ∧
      ∃ log, t.reduceEvents a = log ++ [.gaveUp limit] ∧
        t.reduceEvents (a + b) = log ++ (limit.last.reduceEvents b).map (Event.delayed a) := by
  constructor
  · intro r h
    exact ⟨reduceCounted_add_of_ok h b, reduceEvents_add_of_ok h b⟩
  · intro limit h
    obtain ⟨hMax, hAfter, hRedex⟩ := (reduceCounted_eq_error_iff t a limit).mp h
    refine ⟨hMax, ?_, ?_, eventsOfSteps 0 t a, reduceEvents_of_error h, reduceEvents_add_of_error h b⟩
    · intro u k hRest
      obtain ⟨hBound, hAfter', hRedex'⟩ := (reduceCounted_eq_ok_iff _ b _).mp hRest
      refine (reduceCounted_eq_ok_iff t (a + b) _).mpr ⟨Nat.add_le_add_left hBound a, ?_, hRedex'⟩
      rw [after?_add, hAfter]
      exact hAfter'
    · intro limit' hRest
      obtain ⟨_, hAfter', hRedex'⟩ := (reduceCounted_eq_error_iff _ b _).mp hRest
      refine (reduceCounted_eq_error_iff t (a + b) _).mpr ⟨rfl, ?_, hRedex'⟩
      rw [after?_add, hAfter]
      exact hAfter'

theorem resumed_reduction_unobservable_after_renaming :
    let x : Symbol := .literal "x"
    let y : Symbol := .literal "y"
    let y₁ : Symbol := .literal "y1"
    let t := app (app (abs x (abs y (var x))) (var y)) (var x)
    let last := app (abs y₁ (var y)) (var x)
    t.reduceCounted 1 = .error ⟨1, last⟩ ∧ last.reduceCounted 1 = .ok ⟨var y, 1⟩ ∧
      t.reduceCounted 2 = .ok ⟨var y, 2⟩ ∧
      t.reduceEvents 2 = [.renamed ⟨y, y₁, var y⟩, .stepped 1 last, .stepped 2 (var y)] ∧
      t.reduceCounted 1000 = t.reduceCounted 2 ∧ t.reduceEvents 1000 = t.reduceEvents 2 := by
  intro x y y₁ t last
  have hFirst : t.reduceCounted 1 = .error ⟨1, last⟩ :=
    (reduceCounted_eq_error_iff t 1 _).mpr ⟨rfl, by decide +kernel, rfl⟩
  have hSecond : last.reduceCounted 1 = .ok ⟨var y, 1⟩ :=
    (reduceCounted_eq_ok_iff last 1 _).mpr ⟨Nat.le_refl 1, by decide +kernel, rfl⟩
  obtain ⟨_, hOk, _, log, hLog, hBoth⟩ := (resumed_reduction_unobservable t 1 1).2 _ hFirst
  have hWhole := hOk _ _ hSecond
  have hLarger := (resumed_reduction_unobservable t 2 998).1 _ hWhole
  have hEvents : t.reduceEvents 1 = [.renamed ⟨y, y₁, var y⟩, .stepped 1 last] ++ [.gaveUp ⟨1, last⟩] := by
    decide +kernel
  have hResumed : last.reduceEvents 1 = [.stepped 1 (var y)] := by decide +kernel
  obtain rfl := List.append_cancel_right (hLog.symm.trans hEvents)
  rw [hResumed] at hBoth
  exact ⟨hFirst, hSecond, hWhole, hBoth, hLarger.1.trans hWhole.symm, hLarger.2⟩

end Term

end NamedLambda
