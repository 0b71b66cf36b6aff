import NamedLambda.Proofs.Reading
import NamedLambda.Proofs.Runs
import NamedLambda.Reduction.Contraction

/-!
# Where names come from

The names of a term that was read are names in its text. Substitution invents names, but only
fresh variants of binders it finds. So a property of names that fresh variants inherit is kept by
substitution, by contraction and by whole runs: it needs to be checked only where names enter. The
least such property is to be derived from given names.
-/

namespace NamedLambda

set_option autoImplicit false

inductive Derived (given : Symbol → Prop) : Symbol → Prop where
  | given {x : Symbol} (h : given x) : Derived given x
  | fresh {x : Symbol} (avoid : NameSet) (h : Derived given x) : Derived given (x.fresh avoid)

namespace Term

/-- All names in a term, bound or free. -/
def names : Term → List Symbol
  | var x => [x]
  | abs x body => x :: body.names
  | app fn arg => fn.names ++ arg.names

def NamesIn (P : Symbol → Prop) (t : Term) : Prop := ∀ x ∈ t.names, P x

section

variable {P : Symbol → Prop}

theorem namesIn_var {x : Symbol} : (var x).NamesIn P ↔ P x := by
  simp [NamesIn, names]

theorem namesIn_abs {x : Symbol} {body : Term} : (abs x body).NamesIn P ↔ P x ∧ body.NamesIn P := by
  simp [NamesIn, names]

theorem namesIn_app {fn arg : Term} : (app fn arg).NamesIn P ↔ fn.NamesIn P ∧ arg.NamesIn P := by
  simp only [NamesIn, names, List.mem_append, or_imp, forall_and]

variable (hFresh : ∀ (x : Symbol) (avoid : NameSet), P x → P (x.fresh avoid))

include hFresh

theorem NamesIn.subst {t r : Term} (ht : t.NamesIn P) (hr : r.NamesIn P) (x : Symbol) :
    (t.subst x r).NamesIn P := by
  match t with
  | var y =>
    rw [subst_var]
    split
    · exact hr
    · exact ht
  | app fn arg =>
    obtain ⟨hFn, hArg⟩ := namesIn_app.mp ht
    rw [subst_app, namesIn_app]
    exact ⟨hFn.subst hr x, hArg.subst hr x⟩
  | abs y body =>
    obtain ⟨hy, hBody⟩ := namesIn_abs.mp ht
    rw [subst_abs]
    split
    · exact ht
    · split
      · exact namesIn_abs.mpr ⟨hy, hBody.subst hr x⟩
      · have hz : P (newBinder y body x r) := hFresh y _ hy
        have hRenamed := hBody.subst (namesIn_var.mpr hz) y
        have hSize := size_subst_var body y (newBinder y body x r)
        exact namesIn_abs.mpr ⟨hz, hRenamed.subst hr x⟩
termination_by t.size
decreasing_by all_goals simp only [size]; omega

theorem NamesIn.contracts {t u : Term} (ht : t.NamesIn P) (h : Contracts t u) : u.NamesIn P := by
  induction h with
  | redex h =>
    obtain ⟨x, body, rfl, rfl⟩ := beta_eq_some_iff.mp h
    obtain ⟨hFn, hArg⟩ := namesIn_app.mp ht
    exact (namesIn_abs.mp hFn).2.subst hFresh hArg x
  | abs x h ih =>
    obtain ⟨hx, hBody⟩ := namesIn_abs.mp ht
    exact namesIn_abs.mpr ⟨hx, ih hBody⟩
  | fn arg h ih =>
    obtain ⟨hFn, hArg⟩ := namesIn_app.mp ht
    exact namesIn_app.mpr ⟨ih hFn, hArg⟩
  | arg fn h ih =>
    obtain ⟨hFn, hArg⟩ := namesIn_app.mp ht
    exact namesIn_app.mpr ⟨hFn, ih hArg⟩

theorem NamesIn.step {t u : Term} (ht : t.NamesIn P) (h : t.step? = some u) : u.NamesIn P :=
  ht.contracts hFresh (contracts_of_step? h)

theorem NamesIn.after {t u : Term} (ht : t.NamesIn P) {n : Nat} (h : t.after? n = some u) :
    u.NamesIn P :=
  after?_invariant (fun _ _ hTerm hStep => NamesIn.step hFresh hTerm hStep) ht h

end

end Term

section

variable {P : Symbol → Prop}

theorem namesIn_applyHead {head : Option Term} {t : Term} (hHead : ∀ u ∈ head, u.NamesIn P)
    (ht : t.NamesIn P) : (applyHead head t).NamesIn P := by
  cases head with
  | none => exact ht
  | some u => exact Term.namesIn_app.mpr ⟨hHead u rfl, ht⟩

theorem namesIn_bindAll {bs : List Symbol} {t : Term} (hBinders : ∀ x ∈ bs, P x) (ht : t.NamesIn P) :
    (bindAll bs t).NamesIn P := by
  induction bs generalizing t with
  | nil => exact ht
  | cons x bs ih =>
    obtain ⟨hx, hRest⟩ := List.forall_mem_cons.mp hBinders
    exact ih hRest (Term.namesIn_abs.mpr ⟨hx, ht⟩)

def Phase.NamesIn (P : Symbol → Prop) : Phase → Prop
  | .operand t => t.NamesIn P
  | _ => True

structure Frame.NamesIn (P : Symbol → Prop) (frame : Frame) : Prop where
  binders : ∀ x ∈ frame.binders, P x
  head : ∀ t ∈ frame.head, t.NamesIn P

namespace Reader

/-- All names that the reader keeps have a property. -/
structure NamesIn (P : Symbol → Prop) (r : Reader) : Prop where
  frames : ∀ frame ∈ r.frames, frame.NamesIn P
  binders : ∀ x ∈ r.binders, P x
  phase : r.phase.NamesIn P

theorem namesIn_initial : initial.NamesIn P where
  frames _ hFrame := nomatch hFrame
  binders _ hx := nomatch hx
  phase := trivial

theorem NamesIn.next {r r' : Reader} {token : Token} (hr : r.NamesIn P)
    (hToken : ∀ x, token = .name x → P x) (h : r.next? token = some r') : r'.NamesIn P := by
  obtain ⟨hFrames, hBinders, hPhase⟩ := hr
  unfold next? at h
  split at h
  case h_1 x hStart =>
    cases h
    exact ⟨hFrames, hBinders, Term.namesIn_var.mpr (hToken x rfl)⟩
  case h_2 hStart =>
    cases h
    exact ⟨List.forall_mem_cons.mpr ⟨⟨hBinders, nofun⟩, hFrames⟩, nofun, trivial⟩
  case h_3 hStart =>
    cases h
    exact ⟨hFrames, hBinders, trivial⟩
  case h_4 x hBinder =>
    cases h
    exact ⟨hFrames, List.forall_mem_cons.mpr ⟨hToken x rfl, hBinders⟩, trivial⟩
  case h_5 x hHeader =>
    cases h
    exact ⟨hFrames, List.forall_mem_cons.mpr ⟨hToken x rfl, hBinders⟩, hPhase⟩
  case h_6 hHeader =>
    cases h
    exact ⟨hFrames, hBinders, trivial⟩
  case h_7 t x hOperand =>
    cases h
    rw [hOperand] at hPhase
    exact ⟨hFrames, hBinders, Term.namesIn_app.mpr ⟨hPhase, Term.namesIn_var.mpr (hToken x rfl)⟩⟩
  case h_8 t hOperand =>
    cases h
    rw [hOperand] at hPhase
    refine ⟨List.forall_mem_cons.mpr ⟨⟨hBinders, ?_⟩, hFrames⟩, nofun, trivial⟩
    rintro u ⟨⟩
    exact hPhase
  case h_9 t hOperand =>
    rw [hOperand] at hPhase
    split at h
    · cases h
    case h_2 frame fs hEq =>
      cases h
      rw [hEq] at hFrames
      obtain ⟨hFrame, hRest⟩ := List.forall_mem_cons.mp hFrames
      exact ⟨hRest, hFrame.binders, namesIn_applyHead hFrame.head (namesIn_bindAll hBinders hPhase)⟩
  case h_10 => cases h

theorem NamesIn.readAll {r r' : Reader} {ts : List Token} (hr : r.NamesIn P)
    (hTokens : ∀ x, .name x ∈ ts → P x) (h : r.readAll? ts = some r') : r'.NamesIn P := by
  induction ts generalizing r with
  | nil =>
    obtain rfl := Option.some.inj h
    exact hr
  | cons token ts ih =>
    rw [readAll?_cons] at h
    obtain ⟨r'', hNext, hRest⟩ := Option.bind_eq_some_iff.mp h
    have hToken : ∀ x, token = .name x → P x := by
      rintro x rfl
      exact hTokens x List.mem_cons_self
    exact ih (hr.next hToken hNext) (fun x hx => hTokens x (List.mem_cons_of_mem token hx)) hRest

theorem NamesIn.result {r : Reader} {t : Term} (hr : r.NamesIn P) (h : r.result? = some t) :
    t.NamesIn P := by
  unfold result? at h
  split at h
  case h_1 u hOperand _ =>
    cases h
    have hPhase := hr.phase
    rw [hOperand] at hPhase
    exact namesIn_bindAll hr.binders hPhase
  case h_2 => cases h

end Reader

end

/-- The names of a term are among the names in the text it was read from. -/
theorem Term.namesIn_parse {text : String} {t : Term} (h : parse text = .ok t) :
    t.NamesIn fun x => .name x ∈ tokenList text.toList := by
  obtain ⟨r, hRead, hResult⟩ := Option.bind_eq_some_iff.mp ((parse_eq_ok_iff text t).mp h)
  exact (Reader.namesIn_initial.readAll (fun _ hx => hx) hRead).result hResult

end NamedLambda
