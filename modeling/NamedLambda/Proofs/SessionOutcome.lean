import NamedLambda.Session

/-!
# What a command can do

Every command either fails and leaves the session as it was, or has found the terms, sequences and
names that it asks for and then does one thing with them. A run of a session keeps what
every command keeps.
-/

namespace NamedLambda

set_option autoImplicit false

theorem bind_eq_ok_iff {ε α β : Type} {x : Except ε α} {f : α → Except ε β} {b : β} :
    (x >>= f) = .ok b ↔ ∃ a, x = .ok a ∧ f a = .ok b := by
  cases x <;> simp [bind, Except.bind]

namespace Session

theorem symbol_eq_ok_iff {name : String} {x : Symbol} : symbol name = .ok x ↔ x.name = name := by
  rw [symbol, readSymbol, mapError_eq_ok_iff, mapError_eq_ok_iff, Symbol.ofString_eq_ok_iff]

theorem term_eq_ok_iff {s : Session} {id : Nat} {t : Term} : s.term id = .ok t ↔ s.terms[id]? = some t := by
  unfold term
  cases s.terms[id]? <;> simp

theorem sequence_eq_ok_iff {s : Session} {index : Nat} {steps : Steps} :
    s.sequence index = .ok steps ↔ s.sequences[index]? = some steps := by
  unfold sequence
  cases s.sequences[index]? <;> simp

inductive Outcome (s : Session) : Command → Session × Reply → Prop where
  | failed {c : Command} {e : Failure} (h : s.attempt c = .error e) : Outcome s c (s, .failed e)
  | parse {text : String} {t : Term} (h : Term.parse text = .ok t) : Outcome s (.parse text) (s.store t)
  | var (x : Symbol) : Outcome s (.var x.name) (s.store (.var x))
  | abs (x : Symbol) {body : Nat} {t : Term} (h : s.terms[body]? = some t) :
      Outcome s (.abs x.name body) (s.store (.abs x t))
  | app {fn arg : Nat} {f a : Term} (hFn : s.terms[fn]? = some f) (hArg : s.terms[arg]? = some a) :
      Outcome s (.app fn arg) (s.store (.app f a))
  | subst {term replacement : Nat} {t r : Term} (x : Symbol) (h : s.terms[term]? = some t)
      (hReplacement : s.terms[replacement]? = some r) :
      Outcome s (.subst term x.name replacement) (s.store (t.subst x r))
  | beta {fn arg : Nat} {f a : Term} (hFn : s.terms[fn]? = some f) (hArg : s.terms[arg]? = some a) :
      Outcome s (.beta fn arg) (s.storeSome (Term.beta f a))
  | step {term : Nat} {t : Term} (h : s.terms[term]? = some t) :
      Outcome s (.step term) (s.storeSome t.step?)
  | reduce {term : Nat} {t : Term} (maxSteps : Nat) (h : s.terms[term]? = some t) :
      Outcome s (.reduce term maxSteps) (s.storeReduced (t.reduceCounted maxSteps))
  | start {term : Nat} {t : Term} (h : s.terms[term]? = some t) :
      Outcome s (.start term) (s.startSequence t.steps)
  | fork {sequence : Nat} {steps : Steps} (h : s.sequences[sequence]? = some steps) :
      Outcome s (.fork sequence) (s.startSequence steps)
  | next {sequence : Nat} {steps : Steps} (h : s.sequences[sequence]? = some steps) :
      Outcome s (.next sequence) (s.advance sequence steps)
  | reparse {term : Nat} {t u : Term} (h : s.terms[term]? = some t) (hRead : Term.parse t.toText = .ok u) :
      Outcome s (.reparse term) (s.store u)
  | inspect {term : Nat} {t : Term} (names : Option (List String)) (xs : Option (List Symbol))
      (h : s.terms[term]? = some t) :
      Outcome s (.inspect term names) (s, .inspected (t.inspect xs))
  | compare {left right : Nat} {t u : Term} (hLeft : s.terms[left]? = some t)
      (hRight : s.terms[right]? = some u) :
      Outcome s (.compare left right) (s, .compared (t.compare u))

theorem outcome_of_attempt {s : Session} {c : Command} {result : Session × Reply}
    (h : s.attempt c = .ok result) : Outcome s c result := by
  cases c with
  | parse text =>
    obtain ⟨t, hRead, hResult⟩ := bind_eq_ok_iff.mp h
    cases hResult
    exact .parse (mapError_eq_ok_iff.mp (mapError_eq_ok_iff.mp hRead))
  | var name =>
    obtain ⟨x, hx, hResult⟩ := bind_eq_ok_iff.mp h
    cases hResult
    obtain rfl := symbol_eq_ok_iff.mp hx
    exact .var x
  | abs name body =>
    obtain ⟨x, hx, hRest⟩ := bind_eq_ok_iff.mp h
    obtain ⟨t, ht, hResult⟩ := bind_eq_ok_iff.mp hRest
    cases hResult
    obtain rfl := symbol_eq_ok_iff.mp hx
    exact .abs x (term_eq_ok_iff.mp ht)
  | app fn arg =>
    obtain ⟨f, hFn, hRest⟩ := bind_eq_ok_iff.mp h
    obtain ⟨a, hArg, hResult⟩ := bind_eq_ok_iff.mp hRest
    cases hResult
    exact .app (term_eq_ok_iff.mp hFn) (term_eq_ok_iff.mp hArg)
  | subst term name replacement =>
    obtain ⟨t, ht, hRest⟩ := bind_eq_ok_iff.mp h
    obtain ⟨x, hx, hRest⟩ := bind_eq_ok_iff.mp hRest
    obtain ⟨r, hr, hResult⟩ := bind_eq_ok_iff.mp hRest
    cases hResult
    obtain rfl := symbol_eq_ok_iff.mp hx
    exact .subst x (term_eq_ok_iff.mp ht) (term_eq_ok_iff.mp hr)
  | beta fn arg =>
    obtain ⟨f, hFn, hRest⟩ := bind_eq_ok_iff.mp h
    obtain ⟨a, hArg, hResult⟩ := bind_eq_ok_iff.mp hRest
    cases hResult
    exact .beta (term_eq_ok_iff.mp hFn) (term_eq_ok_iff.mp hArg)
  | step term =>
    obtain ⟨t, ht, hResult⟩ := bind_eq_ok_iff.mp h
    cases hResult
    exact .step (term_eq_ok_iff.mp ht)
  | reduce term maxSteps =>
    obtain ⟨t, ht, hResult⟩ := bind_eq_ok_iff.mp h
    cases hResult
    exact .reduce maxSteps (term_eq_ok_iff.mp ht)
  | start term =>
    obtain ⟨t, ht, hResult⟩ := bind_eq_ok_iff.mp h
    cases hResult
    exact .start (term_eq_ok_iff.mp ht)
  | fork sequence =>
    obtain ⟨steps, hSteps, hResult⟩ := bind_eq_ok_iff.mp h
    cases hResult
    exact .fork (sequence_eq_ok_iff.mp hSteps)
  | next sequence =>
    obtain ⟨steps, hSteps, hResult⟩ := bind_eq_ok_iff.mp h
    cases hResult
    exact .next (sequence_eq_ok_iff.mp hSteps)
  | reparse term =>
    obtain ⟨t, ht, hRest⟩ := bind_eq_ok_iff.mp h
    obtain ⟨u, hRead, hResult⟩ := bind_eq_ok_iff.mp hRest
    cases hResult
    exact .reparse (term_eq_ok_iff.mp ht) (mapError_eq_ok_iff.mp (mapError_eq_ok_iff.mp hRead))
  | inspect term names =>
    obtain ⟨t, ht, hRest⟩ := bind_eq_ok_iff.mp h
    obtain ⟨xs, _, hResult⟩ := bind_eq_ok_iff.mp hRest
    cases hResult
    exact .inspect names xs (term_eq_ok_iff.mp ht)
  | compare left right =>
    obtain ⟨t, ht, hRest⟩ := bind_eq_ok_iff.mp h
    obtain ⟨u, hu, hResult⟩ := bind_eq_ok_iff.mp hRest
    cases hResult
    exact .compare (term_eq_ok_iff.mp ht) (term_eq_ok_iff.mp hu)

theorem outcome_exec (s : Session) (c : Command) : Outcome s c (s.exec c) := by
  unfold exec
  cases hAttempt : s.attempt c with
  | ok result => exact outcome_of_attempt hAttempt
  | error e => exact .failed hAttempt

theorem execAll_cons (s : Session) (c : Command) (cs : List Command) :
    (s.execAll (c :: cs)).1 = ((s.exec c).1.execAll cs).1 := rfl

/-- What every command keeps holds after a run. -/
theorem execAll_invariant {Q : Session → Prop} {cs : List Command}
    (hExec : ∀ s, ∀ c ∈ cs, Q s → Q (s.exec c).1) {s : Session} (hs : Q s) : Q (s.execAll cs).1 := by
  induction cs generalizing s with
  | nil => exact hs
  | cons c cs ih =>
    rw [execAll_cons]
    apply ih
    · intro s' c' hc'
      exact hExec s' c' (List.mem_cons_of_mem c hc')
    · exact hExec s c List.mem_cons_self hs

end Session

end NamedLambda
