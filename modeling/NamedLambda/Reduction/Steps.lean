import NamedLambda.Reduction.Step

/-!
# The sequence of steps

The terms that reduction passes through, taken one at a time. The sequence ends at a normal form
and goes on for ever where there is none.
-/

namespace NamedLambda

set_option autoImplicit false

/-- A place in a sequence of steps: the term reached so far. -/
structure Steps where
  current : Term
  deriving DecidableEq

namespace Steps

def next? (s : Steps) : Option (Term × Steps) := s.current.step?.map fun u => (u, ⟨u⟩)

theorem next?_eq_some_iff {s rest : Steps} {u : Term} :
    s.next? = some (u, rest) ↔ s.current.step? = some u ∧ rest = ⟨u⟩ := by
  rw [next?, Option.map_eq_some_iff]
  constructor
  · rintro ⟨v, hStep, hPair⟩
    obtain ⟨rfl, rfl⟩ := Prod.mk.inj hPair
    exact ⟨hStep, rfl⟩
  · rintro ⟨hStep, rfl⟩
    exact ⟨u, hStep, rfl⟩

theorem next?_eq_none_iff {s : Steps} : s.next? = none ↔ s.current.hasRedex = false := by
  rw [next?, Option.map_eq_none_iff, Term.step?_eq_none_iff]

/-- The next `n` terms, or fewer where the sequence ends, and the place after them. -/
def take (s : Steps) : Nat → List Term × Steps
  | 0 => ([], s)
  | n + 1 =>
    match s.next? with
    | none => ([], s)
    | some (u, rest) =>
      let (us, last) := rest.take n
      (u :: us, last)

end Steps

def Term.steps (t : Term) : Steps := ⟨t⟩

end NamedLambda
