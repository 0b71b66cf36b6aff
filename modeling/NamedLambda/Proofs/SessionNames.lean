import NamedLambda.Proofs.Names
import NamedLambda.Proofs.RoundTrip
import NamedLambda.Proofs.SessionOutcome

/-!
# The names in a session

Names enter a session in texts that are read and as names of variables and binders. Every name in
a term that a session holds, stored or reached by a sequence of steps, is one of these or derived
from one of them by fresh variants: each command keeps this, hence every run. All of these are
accepted as names, so a stored term can always be written and read again.
-/

namespace NamedLambda

set_option autoImplicit false

/-- The names that a command brings in. The name in a substitution only says what is replaced. -/
def Command.Gives : Command → Symbol → Prop
  | .parse text, x => .name x ∈ tokenList text.toList
  | .var name, x => x.name = name
  | .abs name _, x => x.name = name
  | _, _ => False

namespace Session

/-- All names in stored terms and in the terms that sequences have reached have a property. -/
structure NamesIn (P : Symbol → Prop) (s : Session) : Prop where
  terms : ∀ t ∈ s.terms, t.NamesIn P
  sequences : ∀ steps ∈ s.sequences, steps.current.NamesIn P

section

variable {P : Symbol → Prop} {s : Session}

theorem NamesIn.term (hs : s.NamesIn P) {id : Nat} {t : Term} (h : s.terms[id]? = some t) : t.NamesIn P :=
  hs.terms t (Array.mem_of_getElem? h)

theorem NamesIn.sequence (hs : s.NamesIn P) {index : Nat} {steps : Steps}
    (h : s.sequences[index]? = some steps) : steps.current.NamesIn P :=
  hs.sequences steps (Array.mem_of_getElem? h)

theorem NamesIn.store (hs : s.NamesIn P) {t : Term} (ht : t.NamesIn P) : (s.store t).1.NamesIn P := by
  refine ⟨?_, hs.sequences⟩
  intro u hu
  rcases Array.mem_push.mp hu with hOld | rfl
  · exact hs.terms u hOld
  · exact ht

theorem NamesIn.storeSome (hs : s.NamesIn P) {result : Option Term} (hResult : ∀ t ∈ result, t.NamesIn P) :
    (s.storeSome result).1.NamesIn P := by
  cases result with
  | none => exact hs
  | some t => exact hs.store (hResult t rfl)

theorem NamesIn.startSequence (hs : s.NamesIn P) {steps : Steps} (hSteps : steps.current.NamesIn P) :
    (s.startSequence steps).1.NamesIn P := by
  refine ⟨hs.terms, ?_⟩
  intro other hOther
  rcases Array.mem_push.mp hOther with hOld | rfl
  · exact hs.sequences other hOld
  · exact hSteps

variable (hFresh : ∀ (x : Symbol) (avoid : NameSet), P x → P (x.fresh avoid))

include hFresh

theorem NamesIn.storeReduced (hs : s.NamesIn P) {t : Term} (ht : t.NamesIn P) (maxSteps : Nat) :
    (s.storeReduced (t.reduceCounted maxSteps)).1.NamesIn P := by
  cases hReduced : t.reduceCounted maxSteps with
  | ok result =>
    obtain ⟨_, hAfter, _⟩ := (Term.reduceCounted_eq_ok_iff t maxSteps result).mp hReduced
    exact hs.store (ht.after hFresh hAfter)
  | error limit =>
    obtain ⟨_, hAfter, _⟩ := (Term.reduceCounted_eq_error_iff t maxSteps limit).mp hReduced
    exact hs.store (ht.after hFresh hAfter)

theorem NamesIn.advance (hs : s.NamesIn P) {steps : Steps} (hSteps : steps.current.NamesIn P) (index : Nat) :
    (s.advance index steps).1.NamesIn P := by
  unfold Session.advance Steps.next?
  cases hStep : steps.current.step? with
  | none => exact hs
  | some u =>
    have hu : u.NamesIn P := hSteps.step hFresh hStep
    have hSet : NamesIn P { s with sequences := s.sequences.setIfInBounds index ⟨u⟩ } := by
      refine ⟨hs.terms, ?_⟩
      intro other hOther
      rcases Array.mem_or_eq_of_mem_setIfInBounds hOther with hOld | rfl
      · exact hs.sequences other hOld
      · exact hu
    exact hSet.store hu

/-- A command keeps a property of names that the names it brings in have. -/
theorem NamesIn.outcome (hs : s.NamesIn P) {c : Command} (hGives : ∀ x, c.Gives x → P x)
    {result : Session × Reply} (hOutcome : Outcome s c result) : result.1.NamesIn P := by
  cases hOutcome with
  | failed h => exact hs
  | parse h => exact hs.store fun x hx => hGives x (Term.namesIn_parse h x hx)
  | var x => exact hs.store (Term.namesIn_var.mpr (hGives x rfl))
  | abs x h => exact hs.store (Term.namesIn_abs.mpr ⟨hGives x rfl, hs.term h⟩)
  | app hFn hArg => exact hs.store (Term.namesIn_app.mpr ⟨hs.term hFn, hs.term hArg⟩)
  | subst x h hReplacement => exact hs.store ((hs.term h).subst hFresh (hs.term hReplacement) x)
  | beta hFn hArg =>
    have hRedex := Term.namesIn_app.mpr ⟨hs.term hFn, hs.term hArg⟩
    exact hs.storeSome fun t ht => hRedex.contracts hFresh (.redex ht)
  | step h => exact hs.storeSome fun t ht => (hs.term h).step hFresh ht
  | reduce maxSteps h => exact hs.storeReduced hFresh (hs.term h) maxSteps
  | start h => exact hs.startSequence (hs.term h)
  | fork h => exact hs.startSequence (hs.sequence h)
  | next h => exact hs.advance hFresh (hs.sequence h) _
  | reparse h hRead =>
    rw [Term.parse_toText] at hRead
    obtain rfl := Except.ok.inj hRead
    exact hs.store (hs.term h)
  | inspect names xs h => exact hs
  | compare hLeft hRight => exact hs

end

theorem namesIn_empty (P : Symbol → Prop) : empty.NamesIn P :=
  ⟨fun _ h => absurd h (Array.not_mem_empty _), fun _ h => absurd h (Array.not_mem_empty _)⟩

theorem namesIn_execAll (commands : List Command) :
    (empty.execAll commands).1.NamesIn (Derived fun x => ∃ c ∈ commands, c.Gives x) := by
  refine execAll_invariant ?_ (namesIn_empty _)
  intro s c hc hs
  have hGives : ∀ x, c.Gives x → Derived (fun y => ∃ c ∈ commands, c.Gives y) x := by
    intro x hx
    exact .given ⟨c, hc, hx⟩
  exact hs.outcome (fun _ avoid hx => .fresh avoid hx) hGives (outcome_exec s c)

theorem exec_reparse {s : Session} {id : Nat} {t : Term} (h : s.terms[id]? = some t) :
    s.exec (.reparse id) = (s.addTerm t, .stored s.terms.size t) := by
  have hRead : (readTerm t.toText).mapError Failure.error = .ok t :=
    mapError_eq_ok_iff.mpr (mapError_eq_ok_iff.mpr (Term.parse_toText t))
  have hAttempt : s.attempt (.reparse id) = .ok (s.store t) :=
    bind_eq_ok_iff.mpr ⟨t, term_eq_ok_iff.mpr h, bind_eq_ok_iff.mpr ⟨t, hRead, rfl⟩⟩
  rw [exec, hAttempt]
  rfl

theorem written_terms_read_back :
    (∀ t : Term, Term.parse t.toText = .ok t) ∧
      ∀ commands : List Command,
        let s := (Session.empty.execAll commands).1
        (s.NamesIn fun x =>
          Derived (fun y => ∃ c ∈ commands, c.Gives y) x ∧ Symbol.ofString x.name = .ok x) ∧
        ∀ id t, s.terms[id]? = some t → s.exec (.reparse id) = (s.addTerm t, .stored s.terms.size t) := by
  refine ⟨Term.parse_toText, ?_⟩
  intro commands s
  have hNames := namesIn_execAll commands
  refine ⟨⟨?_, ?_⟩, ?_⟩
  · intro t ht x hx
    exact ⟨hNames.terms t ht x hx, Symbol.ofString_name x⟩
  · intro steps hSteps x hx
    exact ⟨hNames.sequences steps hSteps x hx, Symbol.ofString_name x⟩
  · intro id t ht
    exact exec_reparse ht

theorem written_terms_read_back_after_renaming :
    let commands : List Command := [.parse "(λx.λy.x) y", .step 0]
    let s := (Session.empty.execAll commands).1
    ∃ t, s.terms[1]? = some t ∧ t.toText = "λy1.y" ∧
      (t.NamesIn fun x =>
        Derived (fun y => ∃ c ∈ commands, c.Gives y) x ∧ Symbol.ofString x.name = .ok x) ∧
      s.exec (.reparse 1) = (s.addTerm t, .stored s.terms.size t) := by
  intro commands s
  have hText : s.terms[1]?.map Term.toText = some "λy1.y" := by decide +kernel
  obtain ⟨hNames, hReparse⟩ := written_terms_read_back.2 commands
  obtain ⟨t, hStored, hText⟩ := Option.map_eq_some_iff.mp hText
  exact ⟨t, hStored, hText, hNames.term hStored, hReparse 1 t hStored⟩

end Session

end NamedLambda
