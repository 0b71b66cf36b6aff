import Mathlib.Logic.Function.Basic
import NamedLambda.Proofs.Runs
import NamedLambda.Proofs.SessionOutcome

/-!
# The sequences of a session

What a sequence of steps answers is settled by its origin: the term on which it was started and the
number of terms taken from it since. A copy has the origin that the sequence had when it was copied,
and counts on for itself. Origins are kept by an observer of the commands and the replies, so
nothing in them depends on how a session stores its sequences.

A command leaves the session as it is, stores a term, opens a sequence or takes one step in a
sequence. All that is said here about runs follows from these four cases.
-/

namespace NamedLambda

set_option autoImplicit false

theorem getElem?_push_of_some {α : Type} {xs : Array α} {i : Nat} {x : α} (h : xs[i]? = some x) (y : α) :
    (xs.push y)[i]? = some x := by
  obtain ⟨hLt, _⟩ := Array.getElem?_eq_some_iff.mp h
  rw [Array.getElem?_push, if_neg (Nat.ne_of_lt hLt), h]

theorem getElem?_set_of_some {α : Type} {xs : Array α} {index : Nat} {x : α} (h : xs[index]? = some x)
    (y : α) (i : Nat) : (xs.setIfInBounds index y)[i]? = if i = index then some y else xs[i]? := by
  obtain ⟨hLt, _⟩ := Array.getElem?_eq_some_iff.mp h
  simp only [Array.getElem?_setIfInBounds, hLt, if_true, eq_comm]

/-- The index and the term that a reply reports as stored. -/
def Reply.stores? : Reply → Option (Nat × Term)
  | .stored id t => some (id, t)
  | .reduced id result => some (id, result.term)
  | .limited id limit => some (id, limit.last)
  | _ => none

/-- The index that a reply gives to a new sequence. -/
def Reply.opens? : Reply → Option Nat
  | .sequence index => some index
  | _ => none

namespace Session

/-- The four things that a command can do, with what the reply tells about them. -/
inductive Effect (s : Session) : Command → Session × Reply → Prop where
  | unchanged {c : Command} {reply : Reply} (hStores : reply.stores? = none)
      (hOpens : reply.opens? = none) : Effect s c (s, reply)
  | stored {c : Command} {reply : Reply} (t : Term) (hStores : reply.stores? = some (s.terms.size, t))
      (hNext : ∀ index, c ≠ .next index) : Effect s c (s.addTerm t, reply)
  | started {id : Nat} {t : Term} (h : s.terms[id]? = some t) :
      Effect s (.start id) (s.startSequence t.steps)
  | forked {source : Nat} {steps : Steps} (h : s.sequences[source]? = some steps) :
      Effect s (.fork source) (s.startSequence steps)
  | advanced {index : Nat} {steps : Steps} {u : Term} (h : s.sequences[index]? = some steps)
      (hStep : steps.current.step? = some u) :
      Effect s (.next index) ({ s with sequences := s.sequences.setIfInBounds index ⟨u⟩ }.store u)

theorem effect_of_outcome {s : Session} {c : Command} {result : Session × Reply} (h : Outcome s c result) :
    Effect s c result := by
  cases h with
  | failed h => exact .unchanged rfl rfl
  | parse h => exact .stored _ rfl nofun
  | var x => exact .stored _ rfl nofun
  | abs x h => exact .stored _ rfl nofun
  | app hFn hArg => exact .stored _ rfl nofun
  | subst x h hReplacement => exact .stored _ rfl nofun
  | @beta fn arg f a hFn hArg =>
    cases Term.beta f a with
    | none => exact .unchanged rfl rfl
    | some t => exact .stored t rfl nofun
  | @step term t h =>
    cases t.step? with
    | none => exact .unchanged rfl rfl
    | some u => exact .stored u rfl nofun
  | @reduce term t maxSteps h =>
    cases t.reduceCounted maxSteps with
    | ok result => exact .stored _ rfl nofun
    | error limit => exact .stored _ rfl nofun
  | start h => exact .started h
  | fork h => exact .forked h
  | @next index steps h =>
    unfold advance Steps.next?
    cases hStep : steps.current.step? with
    | none => exact .unchanged rfl rfl
    | some u => exact .advanced h hStep
  | reparse h hRead => exact .stored _ rfl nofun
  | inspect names xs h => exact .unchanged rfl rfl
  | compare hLeft hRight => exact .unchanged rfl rfl

theorem effect_exec (s : Session) (c : Command) : Effect s c (s.exec c) := effect_of_outcome (outcome_exec s c)

theorem eq_of_exec_failed {s : Session} {c : Command} {failure : Failure}
    (h : (s.exec c).2 = .failed failure) : (s.exec c).1 = s := by
  have hEffect := effect_exec s c
  generalize s.exec c = result at h hEffect
  cases hEffect with
  | unchanged hStores hOpens => rfl
  | stored t hStores hNext =>
    cases h
    cases hStores
  | started hTerm => cases h
  | forked hSequence => cases h
  | advanced hSequence hStep => cases h

/-- A stored term stays where it is. -/
theorem Effect.getElem?_terms {s : Session} {c : Command} {result : Session × Reply} (h : Effect s c result)
    {id : Nat} {t : Term} (ht : s.terms[id]? = some t) : result.1.terms[id]? = some t := by
  cases h with
  | unchanged hStores hOpens => exact ht
  | stored u hStores hNext => exact getElem?_push_of_some ht u
  | started hTerm => exact ht
  | forked hSequence => exact ht
  | advanced hSequence hStep => exact getElem?_push_of_some ht _

/-- A reply that reports a stored term is right about it. -/
theorem Effect.getElem?_stored {s : Session} {c : Command} {result : Session × Reply} (h : Effect s c result)
    {id : Nat} {t : Term} (hStored : result.2.stores? = some (id, t)) : result.1.terms[id]? = some t := by
  cases h with
  | unchanged hStores hOpens =>
    rw [hStores] at hStored
    cases hStored
  | stored u hStores hNext =>
    rw [hStores] at hStored
    cases hStored
    exact Array.getElem?_push_size
  | started hTerm => cases hStored
  | forked hSequence => cases hStored
  | advanced hSequence hStep =>
    cases hStored
    exact Array.getElem?_push_size

/-- A new sequence gets the next index. -/
theorem Effect.eq_size_of_opens {s : Session} {c : Command} {result : Session × Reply} (h : Effect s c result)
    {index : Nat} (hOpened : result.2.opens? = some index) : index = s.sequences.size := by
  cases h with
  | unchanged hStores hOpens =>
    rw [hOpens] at hOpened
    cases hOpened
  | @stored c reply u hStores hNext =>
    cases reply <;> cases hStores <;> cases hOpened
  | started hTerm =>
    cases hOpened
    rfl
  | forked hSequence =>
    cases hOpened
    rfl
  | advanced hSequence hStep => cases hOpened

/-- Only a step of the sequence itself moves it. -/
theorem Effect.getElem?_sequences {s : Session} {c : Command} {result : Session × Reply}
    (h : Effect s c result) {i : Nat} {steps : Steps} (hi : s.sequences[i]? = some steps) :
    result.1.sequences[i]? = some steps ∨
      c = .next i ∧ ∃ u, steps.current.step? = some u ∧ result.1.sequences[i]? = some ⟨u⟩ := by
  cases h with
  | unchanged hStores hOpens => exact Or.inl hi
  | stored u hStores hNext => exact Or.inl hi
  | started hTerm => exact Or.inl (getElem?_push_of_some hi _)
  | forked hSequence => exact Or.inl (getElem?_push_of_some hi _)
  | @advanced index moved u hSequence hStep =>
    simp only [store, addTerm, getElem?_set_of_some hSequence]
    split
    case isTrue hEq =>
      subst hEq
      obtain rfl := Option.some.inj (hSequence.symm.trans hi)
      exact Or.inr ⟨rfl, u, hStep, rfl⟩
    case isFalse hNe => exact Or.inl hi

end Session

structure Origin where
  start : Term
  taken : Nat
  deriving DecidableEq

/-- The place of a sequence is where the steps taken have led to. -/
def Origin.At (o : Origin) (steps : Steps) : Prop := o.start.after? o.taken = some steps.current

theorem Origin.At.next {o : Origin} {steps : Steps} (h : o.At steps) :
    o.start.after? (o.taken + 1) = steps.current.step? := by
  rw [Term.after?_add, h]
  exact Option.bind_fun_some steps.current.step?

abbrev Origins := Nat → Option Origin

/-- What an observer notes about a command in the session `s` and the reply to it. -/
def Origins.note (origins : Origins) (s : Session) (c : Command) (reply : Reply) : Origins :=
  match c, reply with
  | .start id, .sequence index => Function.update origins index (s.terms[id]?.map fun t => ⟨t, 0⟩)
  | .fork source, .sequence index => Function.update origins index (origins source)
  | .next index, .stored _ _ =>
    Function.update origins index ((origins index).map fun o => ⟨o.start, o.taken + 1⟩)
  | _, _ => origins

theorem Origins.note_of_quiet {reply : Reply} (hStores : reply.stores? = none) (hOpens : reply.opens? = none)
    (origins : Origins) (s : Session) (c : Command) : origins.note s c reply = origins := by
  unfold note
  split
  · cases hOpens
  · cases hOpens
  · cases hStores
  · rfl

theorem Origins.note_of_stores {c : Command} {reply : Reply} {stored : Nat × Term}
    (hStores : reply.stores? = some stored) (hNext : ∀ index, c ≠ .next index) (origins : Origins) (s : Session) :
    origins.note s c reply = origins := by
  unfold note
  split
  · cases hStores
  · cases hStores
  case h_3 index _ _ => exact absurd rfl (hNext index)
  · rfl

namespace Session

def originsFrom (s : Session) (origins : Origins) : List Command → Origins
  | [] => origins
  | c :: cs => (s.exec c).1.originsFrom (origins.note s c (s.exec c).2) cs

def origins (commands : List Command) : Origins := empty.originsFrom (fun _ => none) commands

/-- An observer has the right origin for every sequence, and for nothing else. -/
def Tracks (origins : Origins) (s : Session) : Prop :=
  ∀ i, Option.Rel Origin.At (origins i) s.sequences[i]?

theorem Tracks.eq_none_iff {origins : Origins} {s : Session} (h : Tracks origins s) (i : Nat) :
    origins i = none ↔ s.sequences[i]? = none := by
  have hOrigin := h i
  generalize origins i = o, s.sequences[i]? = sequence at hOrigin ⊢
  cases hOrigin <;> simp

theorem Tracks.exists_at {origins : Origins} {s : Session} (h : Tracks origins s) {i : Nat} {o : Origin}
    (ho : origins i = some o) : ∃ steps, s.sequences[i]? = some steps ∧ o.At steps := by
  have hOrigin := h i
  rw [ho] at hOrigin
  generalize s.sequences[i]? = sequence at hOrigin ⊢
  cases hOrigin with
  | some hAt => exact ⟨_, rfl, hAt⟩

theorem Tracks.opened {origins : Origins} {s : Session} (h : Tracks origins s) {o : Option Origin}
    {steps : Steps} (ho : Option.Rel Origin.At o (some steps)) :
    Tracks (Function.update origins s.sequences.size o) (s.startSequence steps).1 := by
  intro i
  show Option.Rel Origin.At _ (s.sequences.push steps)[i]?
  -- The array and the observer both add an entry under the first index that is not in use.
  rw [Array.getElem?_push, Function.update_apply]
  split
  · exact ho
  · exact h i

theorem Tracks.advanced {origins : Origins} {s : Session} (h : Tracks origins s) {index : Nat}
    {steps : Steps} {u : Term} (hSequence : s.sequences[index]? = some steps)
    (hStep : steps.current.step? = some u) :
    Tracks (Function.update origins index ((origins index).map fun o => ⟨o.start, o.taken + 1⟩))
      { s with sequences := s.sequences.setIfInBounds index ⟨u⟩ } := by
  intro i
  show Option.Rel Origin.At _ (s.sequences.setIfInBounds index ⟨u⟩)[i]?
  rw [getElem?_set_of_some hSequence, Function.update_apply]
  split
  · have hOrigin := h index
    rw [hSequence] at hOrigin
    generalize origins index = o at hOrigin ⊢
    cases hOrigin with
    | some hAt => exact .some (hAt.next.trans hStep)
  · exact h i

theorem Tracks.effect {origins : Origins} {s : Session} (h : Tracks origins s) {c : Command}
    {result : Session × Reply} (hEffect : Effect s c result) :
    Tracks (origins.note s c result.2) result.1 := by
  cases hEffect with
  | unchanged hStores hOpens =>
    rw [Origins.note_of_quiet hStores hOpens]
    exact h
  | stored t hStores hNext =>
    rw [Origins.note_of_stores hStores hNext]
    exact h
  | @started id t hTerm =>
    have hNew : Option.Rel Origin.At (s.terms[id]?.map fun t => ⟨t, 0⟩) (some t.steps) := by
      rw [hTerm]
      exact .some rfl
    exact h.opened hNew
  | @forked source steps hSequence =>
    have hCopy := h source
    rw [hSequence] at hCopy
    exact h.opened hCopy
  | advanced hSequence hStep => exact h.advanced hSequence hStep

theorem Tracks.execAll {origins : Origins} {s : Session} (h : Tracks origins s) (commands : List Command) :
    Tracks (s.originsFrom origins commands) (s.execAll commands).1 := by
  induction commands generalizing s origins with
  | nil => exact h
  | cons c cs ih => exact ih (h.effect (effect_exec s c))

theorem tracks_origins (commands : List Command) :
    Tracks (origins commands) (empty.execAll commands).1 := by
  refine Tracks.execAll ?_ commands
  intro i
  exact .none

theorem reply_next (s : Session) (i : Nat) :
    (s.exec (.next i)).2 = match s.sequences[i]? with
      | none => .failed .noSuchSequence
      | some steps => match steps.current.step? with
        | some u => .stored s.terms.size u
        | none => .ended := by
  cases hSequence : s.sequences[i]? with
  | none =>
    have hAttempt : s.attempt (.next i) = .error .noSuchSequence := by
      rw [attempt, sequence, hSequence]
      rfl
    rw [exec, hAttempt]
  | some steps =>
    have hAttempt : s.attempt (.next i) = .ok (s.advance i steps) :=
      bind_eq_ok_iff.mpr ⟨steps, sequence_eq_ok_iff.mpr hSequence, rfl⟩
    simp only [exec, hAttempt, advance, Steps.next?]
    cases steps.current.step? <;> rfl

theorem reply_next_eq_failed_iff {s : Session} {i : Nat} :
    (s.exec (.next i)).2 = .failed .noSuchSequence ↔ s.sequences[i]? = none := by
  rw [reply_next]
  cases s.sequences[i]? with
  | none => simp
  | some steps => cases hStep : steps.current.step? <;> simp [hStep]

theorem reply_next_eq_ended_iff {s : Session} {i : Nat} :
    (s.exec (.next i)).2 = .ended ↔
      ∃ steps, s.sequences[i]? = some steps ∧ steps.current.step? = none := by
  rw [reply_next]
  cases s.sequences[i]? with
  | none => simp
  | some steps => cases hStep : steps.current.step? <;> simp [hStep]

theorem reply_next_eq_stored_iff {s : Session} {i id : Nat} {v : Term} :
    (s.exec (.next i)).2 = .stored id v ↔
      id = s.terms.size ∧ ∃ steps, s.sequences[i]? = some steps ∧ steps.current.step? = some v := by
  rw [reply_next]
  cases s.sequences[i]? with
  | none => simp
  | some steps => cases hStep : steps.current.step? <;> simp [hStep, eq_comm]

/-- A sequence stays where it is unless it is told to go on and can do so. -/
theorem getElem?_sequences_execAll {s : Session} {i : Nat} {steps : Steps}
    (h : s.sequences[i]? = some steps) (more : List Command)
    (hStill : ∀ c ∈ more, c = .next i → steps.current.step? = none) :
    (s.execAll more).1.sequences[i]? = some steps := by
  refine execAll_invariant (Q := fun s => s.sequences[i]? = some steps) ?_ h
  intro s c hc hs
  rcases (effect_exec s c).getElem?_sequences hs with hSame | ⟨hNext, u, hStep, _⟩
  · exact hSame
  · rw [hStill c hc hNext] at hStep
    cases hStep

theorem getElem?_terms_execAll {s : Session} {id : Nat} {t : Term} (h : s.terms[id]? = some t)
    (more : List Command) : (s.execAll more).1.terms[id]? = some t := by
  refine execAll_invariant (Q := fun s => s.terms[id]? = some t) ?_ h
  intro s c _ hs
  exact (effect_exec s c).getElem?_terms hs

theorem sequences_exact_fused_independent (commands : List Command) :
    let s := (empty.execAll commands).1
    -- the sequences that exist are those with an origin, and a new one takes no index in use
    (∀ i, origins commands i = none ↔ (s.exec (.next i)).2 = .failed .noSuchSequence) ∧
    (∀ c index, (s.exec c).2.opens? = some index → origins commands index = none) ∧
    -- the next answer of a sequence is the next iterate of its start, or the end where there is none
    (∀ i o, origins commands i = some o → ∃ u, o.start.after? o.taken = some u ∧
      ((s.exec (.next i)).2 = .ended ↔ u.hasRedex = false) ∧
      ∀ id v, (s.exec (.next i)).2 = .stored id v ↔
        id = s.terms.size ∧ o.start.after? (o.taken + 1) = some v) ∧
    (∀ c failure, (s.exec c).2 = .failed failure → (s.exec c).1 = s) ∧
    (∀ c id t, (s.exec c).2.stores? = some (id, t) → (s.exec c).1.terms[id]? = some t) ∧
    -- what holds after any further commands
    ∀ more : List Command,
      let s' := (s.execAll more).1
      (∀ i, (s.exec (.next i)).2 = .ended → (s'.exec (.next i)).2 = .ended) ∧
      (∀ i id v, (s.exec (.next i)).2 = .stored id v → .next i ∉ more →
        (s'.exec (.next i)).2 = .stored s'.terms.size v) ∧
      ∀ (id : Nat) t, s.terms[id]? = some t → s'.terms[id]? = some t := by
  intro s
  have hTracks : Tracks (origins commands) s := tracks_origins commands
  refine ⟨?_, ?_, ?_, fun c failure => eq_of_exec_failed, fun c id t => (effect_exec s c).getElem?_stored, ?_⟩
  · intro i
    rw [reply_next_eq_failed_iff, hTracks.eq_none_iff]
  · intro c index hOpened
    obtain rfl := (effect_exec s c).eq_size_of_opens hOpened
    exact (hTracks.eq_none_iff _).mpr Array.getElem?_size
  · intro i o ho
    obtain ⟨steps, hSequence, hAt⟩ := hTracks.exists_at ho
    refine ⟨steps.current, hAt, ?_, ?_⟩
    · rw [reply_next_eq_ended_iff, hSequence, ← Term.step?_eq_none_iff]
      simp
    · intro id v
      rw [reply_next_eq_stored_iff, hSequence, hAt.next]
      simp
  · intro more s'
    refine ⟨?_, ?_, fun id t ht => getElem?_terms_execAll ht more⟩
    · intro i hEnded
      obtain ⟨steps, hSequence, hEnd⟩ := reply_next_eq_ended_iff.mp hEnded
      have hKept := getElem?_sequences_execAll hSequence more fun _ _ _ => hEnd
      exact reply_next_eq_ended_iff.mpr ⟨steps, hKept, hEnd⟩
    · intro i id v hStored hOthers
      obtain ⟨_, steps, hSequence, hStep⟩ := reply_next_eq_stored_iff.mp hStored
      have hKept := getElem?_sequences_execAll hSequence more fun c hc hNext => absurd (hNext ▸ hc) hOthers
      exact reply_next_eq_stored_iff.mpr ⟨rfl, steps, hKept, hStep⟩

theorem sequences_exact_fused_independent_forked :
    let a : Symbol := .literal "a"
    let b : Symbol := .literal "b"
    let c : Symbol := .literal "c"
    let t : Term := .app (.abs a (.var a)) (.app (.abs b (.var b)) (.var c))
    let commands : List Command := [.parse "(λa.a) ((λb.b) c)", .start 0, .next 0, .fork 0, .next 1]
    let more : List Command := [.next 1, .start 0, .next 2, .fork 0, .next 3]
    origins commands 0 = some ⟨t, 1⟩ ∧ origins commands 1 = some ⟨t, 2⟩ ∧
      ((empty.execAll commands).1.exec (.next 0)).2 = .stored 3 (.var c) ∧
      ((empty.execAll commands).1.exec (.next 1)).2 = .ended ∧
      (∃ id, (((empty.execAll commands).1.execAll more).1.exec (.next 0)).2 = .stored id (.var c)) ∧
      (((empty.execAll commands).1.execAll more).1.exec (.next 1)).2 = .ended := by
  intro a b c t commands more
  obtain ⟨_, _, hExact, _, _, hLater⟩ := sequences_exact_fused_independent commands
  obtain ⟨hFused, hIndependent, _⟩ := hLater more
  have hFirst : origins commands 0 = some ⟨t, 1⟩ := by decide +kernel
  have hSecond : origins commands 1 = some ⟨t, 2⟩ := by decide +kernel
  have hAfter : t.after? 2 = some (.var c) := by decide +kernel
  have hStored : ((empty.execAll commands).1.exec (.next 0)).2 = .stored 3 (.var c) := by
    obtain ⟨_, _, _, hAnswer⟩ := hExact 0 _ hFirst
    exact (hAnswer 3 (.var c)).mpr ⟨by decide +kernel, hAfter⟩
  have hEnded : ((empty.execAll commands).1.exec (.next 1)).2 = .ended := by
    obtain ⟨u, hu, hAnswer, _⟩ := hExact 1 _ hSecond
    obtain rfl := Option.some.inj (hu.symm.trans hAfter)
    exact hAnswer.mpr rfl
  have hOthers : .next 0 ∉ more := by decide
  exact ⟨hFirst, hSecond, hStored, hEnded, ⟨_, hIndependent 0 3 _ hStored hOthers⟩, hFused 1 hEnded⟩

end Session

end NamedLambda
