import NamedLambda.Proofs.Viability

/-!
# Syntax errors are exact

An error stands at the first token that cannot go on from the tokens before it, where the end of the
text counts as one more token: the tokens before it are viable, and with it they are not. The
reason lists in increasing order all tokens but names that could stand there instead, the end of
the text among them; only where there is none does it say that a name could. A name can stand
everywhere, so a name is never found to be wrong.

An error keeps the place of the reader and nothing else of it. So the place has to decide what the
reader accepts, names apart.
-/

namespace NamedLambda

set_option autoImplicit false

namespace Place

/-- What can stand at a place, except names. -/
def admitted : Place → List String
  | .binder => []
  | place => place.expected

theorem admitted_increasing (place : Place) : place.admitted.Pairwise (· < ·) := by
  cases place <;> decide +kernel

theorem intercalate_expected (place : Place) :
    ", ".intercalate place.expected =
      if place.admitted = [] then "name" else ", ".intercalate place.admitted := by
  cases place <;> rfl

theorem exists_foundText_eq {place : Place} {s : String} (h : s ∈ place.admitted) :
    ∃ found, (∀ x, found ≠ some (.name x)) ∧ SyntaxError.foundText found = s := by
  have hAll : ∀ s ∈ place.admitted, s ∈ ["(", ")", ".", "λ", endOfInput] := by
    cases place <;> decide +kernel
  have hMem := hAll s h
  simp only [List.mem_cons, List.not_mem_nil, or_false] at hMem
  rcases hMem with rfl | rfl | rfl | rfl | rfl
  · exact ⟨some .lparen, nofun, rfl⟩
  · exact ⟨some .rparen, nofun, rfl⟩
  · exact ⟨some .dot, nofun, rfl⟩
  · exact ⟨some .lambda, nofun, rfl⟩
  · exact ⟨none, nofun, rfl⟩

end Place

namespace Reader

theorem accepts_name (r : Reader) (x : Symbol) : r.accepts (some (.name x)) = true := by
  obtain ⟨fs, bs, phase⟩ := r
  cases phase <;> rfl

theorem accepts_eq_contains (r : Reader) {found : Option Token} (h : ∀ x, found ≠ some (.name x)) :
    r.accepts found = r.place.admitted.contains (SyntaxError.foundText found) := by
  obtain ⟨fs, bs, phase⟩ := r
  rcases found with _ | (_ | _ | _ | _ | x)
  case some.name => exact absurd rfl (h x)
  all_goals
    cases phase with
    | start => rfl
    | binder => rfl
    | header => rfl
    | operand t => cases fs <;> rfl

theorem mem_admitted_iff (r : Reader) (s : String) :
    s ∈ r.place.admitted ↔ ∃ found, (∀ x, found ≠ some (.name x)) ∧ r.accepts found = true ∧
      SyntaxError.foundText found = s := by
  constructor
  · intro h
    obtain ⟨found, hFound, rfl⟩ := Place.exists_foundText_eq h
    refine ⟨found, hFound, ?_, rfl⟩
    rw [r.accepts_eq_contains hFound, List.contains_iff_mem]
    exact h
  · rintro ⟨found, hFound, hAccepts, rfl⟩
    rwa [r.accepts_eq_contains hFound, List.contains_iff_mem] at hAccepts

/-- Reading fails at the first token that the reader does not accept. -/
theorem run_eq_error {length : Nat} {r : Reader} {ls : List Located} {e : SyntaxError}
    (h : r.run length ls = .error e) :
    ∃ i r', i ≤ ls.length ∧ r.readAll? ((ls.map Located.token).take i) = some r' ∧
      r'.accepts (ls[i]?.map Located.token) = false ∧
      e = .unexpected (ls[i]?.map Located.token)
        ((ls[i]?.map Located.span).getD ⟨length, length + 1⟩) r'.place := by
  induction ls generalizing r with
  | nil =>
    rw [run] at h
    refine ⟨0, r, Nat.le_refl 0, rfl, ?_⟩
    cases hResult : r.result? with
    | some t =>
      rw [hResult] at h
      cases h
    | none =>
      rw [hResult] at h
      cases h
      exact ⟨congrArg Option.isSome hResult, rfl⟩
  | cons l ls ih =>
    rw [run] at h
    cases hNext : r.next? l.token with
    | none =>
      rw [hNext] at h
      cases h
      exact ⟨0, r, Nat.zero_le _, rfl, congrArg Option.isSome hNext, rfl⟩
    | some r₁ =>
      rw [hNext] at h
      obtain ⟨i, r', hLength, hRead, hStop⟩ := ih h
      refine ⟨i + 1, r', Nat.succ_le_succ hLength, ?_, hStop⟩
      rw [List.map_cons, List.take_succ_cons, readAll?_cons, hNext]
      exact hRead

/-- Where the reader does not accept a token reading fails, whatever comes later. -/
theorem run_of_not_accepts {length : Nat} {r r' : Reader} {ls : List Located} {i : Nat}
    (hLength : i ≤ ls.length) (hRead : r.readAll? ((ls.map Located.token).take i) = some r')
    (hStop : r'.accepts (ls[i]?.map Located.token) = false) :
    r.run length ls = .error (.unexpected (ls[i]?.map Located.token)
      ((ls[i]?.map Located.span).getD ⟨length, length + 1⟩) r'.place) := by
  induction ls generalizing r i with
  | nil =>
    obtain rfl := Nat.le_zero.mp hLength
    obtain rfl := Option.some.inj hRead
    rw [run, Option.not_isSome_iff_eq_none.mp (Bool.eq_false_iff.mp hStop)]
    rfl
  | cons l ls ih =>
    rw [run]
    cases i with
    | zero =>
      obtain rfl := Option.some.inj hRead
      rw [Option.not_isSome_iff_eq_none.mp (Bool.eq_false_iff.mp hStop)]
      rfl
    | succ i =>
      rw [List.map_cons, List.take_succ_cons, readAll?_cons] at hRead
      obtain ⟨r₁, hNext, hRest⟩ := Option.bind_eq_some_iff.mp hRead
      rw [hNext]
      exact ih (Nat.le_of_succ_le_succ hLength) hRest hStop

end Reader

namespace SyntaxError

/-- Token number `i` of a text, where `none` is the end of the text. -/
def tokenAt (text : String) (i : Nat) : Option Token := (tokens text)[i]?.map Located.token

def spanAt (text : String) (i : Nat) : Span :=
  ((tokens text)[i]?.map Located.span).getD ⟨text.length, text.length + 1⟩

def tokensBefore (text : String) (i : Nat) : List Token := ((tokens text).map Located.token).take i

theorem parse_of_no_tokens {text : String} (h : tokens text = []) :
    Term.parse text = .error (.empty text.length) := by
  rw [Term.parse, if_pos (List.isEmpty_iff.mpr h)]

theorem parse_eq_error_iff {text : String} (hTokens : tokens text ≠ []) (e : SyntaxError) :
    Term.parse text = .error e ↔ ∃ i r, i ≤ (tokens text).length ∧
      Reader.initial.readAll? (tokensBefore text i) = some r ∧ r.accepts (tokenAt text i) = false ∧
      e = .unexpected (tokenAt text i) (spanAt text i) r.place := by
  rw [Term.parse, if_neg (mt List.isEmpty_iff.mp hTokens)]
  constructor
  · intro h
    exact Reader.run_eq_error h
  · rintro ⟨i, r, hLength, hRead, hStop, rfl⟩
    exact Reader.run_of_not_accepts hLength hRead hStop

/-- The error stands at token number `i` or at the end, says so and says what could stand there. -/
structure ExactAt (text : String) (e : SyntaxError) (i : Nat) : Prop where
  inText : i ≤ (tokens text).length
  span : e.span = spanAt text i
  position : e.position = (spanAt text i).start
  viable : Viable (tokensBefore text i)
  notAdmitted : ¬ Admits (tokensBefore text i) (tokenAt text i)
  reason : ∃ expected : List String, expected.Pairwise (· < ·) ∧
    (∀ s, s ∈ expected ↔ ∃ other, (∀ x, other ≠ some (.name x)) ∧
      Admits (tokensBefore text i) other ∧ foundText other = s) ∧
    e.reason = "Unexpected " ++ foundText (tokenAt text i) ++ ", expected " ++
      (if expected = [] then "name" else ", ".intercalate expected)
  notName : ∀ x, tokenAt text i ≠ some (.name x)

theorem parse_error_exact {text : String} {e : SyntaxError} (hTokens : tokens text ≠ [])
    (h : Term.parse text = .error e) : ∃ i, ExactAt text e i := by
  have hRun : Reader.initial.run text.length (tokens text) = .error e := by
    rw [Term.parse, if_neg (mt List.isEmpty_iff.mp hTokens)] at h
    exact h
  obtain ⟨i, r, hLength, hRead, hStop, rfl⟩ := Reader.run_eq_error hRun
  have hAdmits := admits_iff hRead
  refine ⟨i, hLength, rfl, rfl, ?_, ?_, ?_, ?_⟩
  · exact (viable_iff _).mpr (Option.isSome_of_eq_some hRead)
  · intro hFound
    rw [tokensBefore, hAdmits, tokenAt, hStop] at hFound
    cases hFound
  · refine ⟨r.place.admitted, r.place.admitted_increasing, fun s => ?_, ?_⟩
    · simp only [tokensBefore, hAdmits, r.mem_admitted_iff]
    · rw [← Place.intercalate_expected]
      rfl
  · intro x hName
    rw [tokenAt] at hName
    rw [hName, r.accepts_name x] at hStop
    cases hStop

theorem parse_error_exact_misplacedLambda :
    let e : SyntaxError := .unexpected (some .lambda) ⟨2, 3⟩ .outermost
    tokens "f λx.x" ≠ [] ∧ Term.parse "f λx.x" = .error e ∧
      e.reason = "Unexpected λ, expected (, end of input" ∧ ∃ i, ExactAt "f λx.x" e i := by
  intro e
  let f : Symbol := .literal "f"
  let x : Symbol := .literal "x"
  have hTokens : tokens "f λx.x" =
      [⟨.name f, ⟨0, 1⟩⟩, ⟨.lambda, ⟨2, 3⟩⟩, ⟨.name x, ⟨3, 4⟩⟩, ⟨.dot, ⟨4, 5⟩⟩, ⟨.name x, ⟨5, 6⟩⟩] := by
    decide +kernel
  have hNonempty : tokens "f λx.x" ≠ [] := by
    rw [hTokens]
    exact List.cons_ne_nil _ _
  have hParse : Term.parse "f λx.x" = .error e := by
    rw [Term.parse, hTokens]
    rfl
  exact ⟨hNonempty, hParse, rfl, parse_error_exact hNonempty hParse⟩

end SyntaxError

end NamedLambda
