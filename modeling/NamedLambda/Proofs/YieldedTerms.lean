import NamedLambda.Proofs.Runs

/-!
# The terms that a sequence of steps yields

A sequence is asked for its next term again and again. What it yields is a relation between two places
in it and the list of terms in between, and the sequence has ended at a place where it yields nothing.

Bounded reduction does not use the sequence. It stops where no step can be made, but at its bound it
makes no further step and looks for a redex instead. Still both agree at every bound. If the
sequence ends within the bound, the reduction gives the last term that was yielded and the number of
terms; if it goes on beyond the bound, the reduction gives up at the term that the sequence yields
there. One of the two is always the case.
-/

namespace NamedLambda

set_option autoImplicit false

namespace Steps

/-- Asked again and again from `s` on, the sequence yields `us` and is then at `last`. -/
inductive Yields : Steps → List Term → Steps → Prop where
  | nil (s : Steps) : Yields s [] s
  | cons {s rest last : Steps} {u : Term} {us : List Term} (hNext : s.next? = some (u, rest))
      (hRest : Yields rest us last) : Yields s (u :: us) last

theorem Yields.after?_length {s last : Steps} {us : List Term} (h : s.Yields us last) :
    s.current.after? us.length = some last.current := by
  induction h with
  | nil s => rfl
  | cons hNext hRest ih =>
    obtain ⟨hStep, rfl⟩ := next?_eq_some_iff.mp hNext
    rw [List.length_cons, Term.after?, hStep]
    exact ih

/-- With the term at the start in front, the term number `i` is what `i` steps lead to. -/
theorem Yields.getElem?_eq_after? {s last : Steps} {us : List Term} (h : s.Yields us last) {i : Nat}
    (hi : i ≤ us.length) : (s.current :: us)[i]? = s.current.after? i := by
  induction h generalizing i with
  | nil s =>
    obtain rfl := Nat.le_zero.mp hi
    rfl
  | cons hNext hRest ih =>
    obtain ⟨hStep, rfl⟩ := next?_eq_some_iff.mp hNext
    cases i with
    | zero => rfl
    | succ i =>
      rw [List.getElem?_cons_succ, ih (Nat.le_of_succ_le_succ hi), Term.after?, hStep]
      rfl

theorem Yields.getLast?_eq {s last : Steps} {us : List Term} (h : s.Yields us last) :
    (s.current :: us).getLast? = some last.current := by
  rw [List.getLast?_eq_getElem?, List.length_cons, Nat.add_sub_cancel,
    h.getElem?_eq_after? (Nat.le_refl _), h.after?_length]

/-- A term that is not the last one yielded has a redex. -/
theorem Yields.exists_redex {s last : Steps} {us : List Term} (h : s.Yields us last) {i : Nat}
    (hi : i < us.length) : ∃ u, s.current.after? i = some u ∧ u.hasRedex = true := by
  obtain ⟨d, hLength⟩ := Nat.exists_eq_add_of_lt hi
  have hAfter := h.after?_length
  rw [hLength, Nat.add_assoc, Term.after?_add] at hAfter
  obtain ⟨u, hu, hRest⟩ := Option.bind_eq_some_iff.mp hAfter
  refine ⟨u, hu, ?_⟩
  cases hRedex : u.hasRedex with
  | true => rfl
  | false => cases Term.eq_zero_of_after? hRedex hRest

theorem yields_take (s : Steps) (n : Nat) : s.Yields (s.take n).1 (s.take n).2 := by
  induction n generalizing s with
  | zero => exact .nil s
  | succ n ih =>
    rw [take]
    cases hNext : s.next? with
    | none => exact .nil s
    | some step => exact .cons hNext (ih step.2)

/-- Fewer terms than asked for are yielded only where the sequence ends. -/
theorem length_take (s : Steps) (n : Nat) : (s.take n).1.length = n ∨
    (s.take n).1.length < n ∧ (s.take n).2.next? = none := by
  induction n generalizing s with
  | zero => exact Or.inl rfl
  | succ n ih =>
    rw [take]
    cases hNext : s.next? with
    | none => exact Or.inr ⟨Nat.succ_pos n, hNext⟩
    | some step =>
      rcases ih step.2 with hFull | ⟨hShort, hEnd⟩
      · exact Or.inl (congrArg Nat.succ hFull)
      · exact Or.inr ⟨Nat.succ_lt_succ hShort, hEnd⟩

end Steps

namespace Term

theorem bounded_reduction_follows_sequence (t : Term) (n : Nat) :
    (∀ us last, t.steps.Yields us last → last.next? = none → us.length ≤ n →
      ∃ u, (t :: us).getLast? = some u ∧ t.reduceCounted n = .ok ⟨u, us.length⟩ ∧
        t.reduceToNormalForm n = .ok u ∧ u.hasRedex = false ∧ u.step? = none) ∧
    (∀ us last, t.steps.Yields us last → n < us.length →
      ∃ u, (t :: us)[n]? = some u ∧ t.reduceCounted n = .error ⟨n, u⟩ ∧
        t.reduceToNormalForm n = .error ⟨n, u⟩ ∧ u.hasRedex = true) ∧
    ((∃ us last, t.steps.Yields us last ∧ last.next? = none ∧ us.length ≤ n) ∨
      ∃ us last, t.steps.Yields us last ∧ us.length = n + 1) := by
  refine ⟨?_, ?_, ?_⟩
  · intro us last h hEnd hBound
    have hRedex := Steps.next?_eq_none_iff.mp hEnd
    have hOk : t.reduceCounted n = .ok ⟨last.current, us.length⟩ :=
      (reduceCounted_eq_ok_iff t n _).mpr ⟨hBound, h.after?_length, hRedex⟩
    refine ⟨last.current, h.getLast?_eq, hOk, ?_, hRedex, (step?_eq_none_iff _).mpr hRedex⟩
    rw [reduceToNormalForm, hOk]
    rfl
  · intro us last h hBeyond
    obtain ⟨u, hAfter, hRedex⟩ := h.exists_redex hBeyond
    have hError : t.reduceCounted n = .error ⟨n, u⟩ :=
      (reduceCounted_eq_error_iff t n _).mpr ⟨rfl, hAfter, hRedex⟩
    refine ⟨u, (h.getElem?_eq_after? (Nat.le_of_lt hBeyond)).trans hAfter, hError, ?_, hRedex⟩
    rw [reduceToNormalForm, hError]
    rfl
  · rcases Steps.length_take t.steps (n + 1) with hFull | ⟨hShort, hEnd⟩
    · exact Or.inr ⟨_, _, Steps.yields_take t.steps (n + 1), hFull⟩
    · exact Or.inl ⟨_, _, Steps.yields_take t.steps (n + 1), hEnd, Nat.le_of_lt_succ hShort⟩

theorem bounded_reduction_follows_sequence_at_bound :
    let x : Symbol := .literal "x"
    let y : Symbol := .literal "y"
    let y₁ : Symbol := .literal "y1"
    let t := app (app (abs x (abs y (var x))) (var y)) (var x)
    let u := app (abs y₁ (var y)) (var x)
    t.steps.Yields [u, var y] ⟨var y⟩ ∧ Steps.next? ⟨var y⟩ = none ∧
      t.reduceCounted 2 = .ok ⟨var y, 2⟩ ∧ t.reduceToNormalForm 2 = .ok (var y) ∧
      t.reduceCounted 1 = .error ⟨1, u⟩ ∧ t.reduceToNormalForm 1 = .error ⟨1, u⟩ := by
  intro x y y₁ t u
  have hEnd : Steps.next? ⟨var y⟩ = none := rfl
  have hFirst : t.steps.next? = some (u, ⟨u⟩) := by decide +kernel
  have hSecond : Steps.next? ⟨u⟩ = some (var y, ⟨var y⟩) := by decide +kernel
  have hYields : t.steps.Yields [u, var y] ⟨var y⟩ := .cons hFirst (.cons hSecond (.nil ⟨var y⟩))
  obtain ⟨v, hLast, hOk, hNormal, _⟩ :=
    (bounded_reduction_follows_sequence t 2).1 _ _ hYields hEnd (Nat.le_refl 2)
  obtain rfl : var y = v := Option.some.inj hLast
  obtain ⟨w, hReached, hError, hGaveUp, _⟩ :=
    (bounded_reduction_follows_sequence t 1).2.1 _ _ hYields (Nat.lt_succ_self 1)
  obtain rfl : u = w := Option.some.inj hReached
  exact ⟨hYields, hEnd, hOk, hNormal, hError, hGaveUp⟩

end Term

end NamedLambda
