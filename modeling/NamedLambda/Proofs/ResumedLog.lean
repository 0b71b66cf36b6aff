import Mathlib.Data.List.Basic
import NamedLambda.Proofs.Resumption

/-!
# The log of an interrupted reduction

A log is written as one message for each event, with the event's level. What numbers a message holds can
be read off its text again, as the number of a step follows the word `step` and the bound of a
reduction that gave up the words `Gave up after`; no other message opens in this way. So the log of a
reduction that is taken up again can be told from the text of the two logs alone.
-/

namespace NamedLambda

set_option autoImplicit false

/-- An event as it is written in a log. -/
structure Entry where
  level : Level
  message : String
  deriving DecidableEq, Repr

def Event.entry (e : Event) : Entry := ⟨e.level, e.message⟩

/-- The log that is written when `t` is reduced within a bound. -/
def Term.reduceLog (t : Term) (maxSteps : Nat) : List Entry := (t.reduceEvents maxSteps).map Event.entry

/-- Adds to the number that a text starts with. -/
def addToNumber (n : Nat) (cs : List Char) : List Char :=
  Nat.toDigits 10 (n + Nat.ofDigitChars 10 (cs.takeWhile Char.isDigit) 0) ++ cs.dropWhile Char.isDigit

/-- The words that stand before the number of a message. -/
def Level.opening : Level → String
  | debug => "Gave up after "
  | trace => "step "

/-- An entry with `done` added to its number, if it has one. -/
def Entry.delayed (done : Nat) (e : Entry) : Entry where
  level := e.level
  message :=
    match e.level.opening.toList.isPrefixOf? e.message.toList with
    | some rest => String.ofList (e.level.opening.toList ++ addToNumber done rest)
    | none => e.message

theorem addToNumber_repr (n count : Nat) {c : Char} (h : c.isDigit = false) (cs : List Char) :
    addToNumber n (count.repr.toList ++ c :: cs) = (n + count).repr.toList ++ c :: cs := by
  have hStop : ¬ c.isDigit = true := Bool.eq_false_iff.mp h
  have hDigits : ∀ d ∈ Nat.toDigits 10 count, d.isDigit = true := fun d hd =>
    Nat.isDigit_of_mem_toDigits (by decide) (by decide) hd
  rw [addToNumber, Nat.toList_repr, Nat.toList_repr, List.takeWhile_append_of_pos hDigits,
    List.takeWhile_cons_of_neg hStop, List.append_nil, Nat.ofDigitChars_ten_toDigits,
    List.dropWhile_append_of_pos hDigits, List.dropWhile_cons_of_neg hStop]

theorem Entry.delayed_of_number (done : Nat) (level : Level) (count : Nat) {mark : String} {c : Char}
    {cs : List Char} (hMark : mark.toList = c :: cs) (h : c.isDigit = false) (text : String) :
    Entry.delayed done ⟨level, level.opening ++ count.repr ++ mark ++ text⟩ =
      ⟨level, level.opening ++ (done + count).repr ++ mark ++ text⟩ := by
  have hMessage : ∀ n : Nat, (level.opening ++ n.repr ++ mark ++ text).toList =
      level.opening.toList ++ (n.repr.toList ++ c :: (cs ++ text.toList)) := by
    intro n
    rw [String.toList_append, String.toList_append, String.toList_append, hMark, List.append_assoc,
      List.append_assoc, List.cons_append]
  have hOpening := List.isPrefixOf?_eq_some_iff_append_eq.mpr (hMessage count).symm
  simp only [delayed, hOpening, addToNumber_repr done count h]
  rw [← hMessage, String.ofList_toList]

example : Entry.delayed 95 ⟨.trace, "step 7: x"⟩ = ⟨.trace, "step 102: x"⟩ := by decide +kernel

/-- The numbers of an event are those that its message shows. -/
theorem Event.entry_delayed (done : Nat) (e : Event) : (e.delayed done).entry = e.entry.delayed done := by
  cases e with
  | renamed change =>
    have hOpening : Level.debug.opening.toList.isPrefixOf? (renamed change).message.toList = none := by
      unfold message
      simp only [String.toList_append]
      rfl
    simp only [entry, level, Entry.delayed, hOpening]
    rfl
  | stepped count term => exact (Entry.delayed_of_number done .trace count rfl rfl term.toText).symm
  | gaveUp limit =>
    exact (Entry.delayed_of_number done .debug limit.maxSteps rfl rfl limit.last.toText).symm

namespace Term

theorem reduceLog_add_of_ok {t : Term} {a : Nat} {r : Reduced} (h : t.reduceCounted a = .ok r) (b : Nat) :
    t.reduceLog (a + b) = t.reduceLog a := by
  rw [reduceLog, reduceEvents_add_of_ok h, reduceLog]

/-- The log of a reduction that is taken up again, told from the texts of the two logs. -/
theorem reduceLog_add_of_error {t : Term} {a : Nat} {limit : StepLimit}
    (h : t.reduceCounted a = .error limit) (b : Nat) :
    ∃ log, t.reduceLog a = log ++ [⟨.debug, "Gave up after " ++ a.repr ++ " steps at " ++ limit.last.toText⟩] ∧
      t.reduceLog (a + b) = log ++ (limit.last.reduceLog b).map (Entry.delayed a) := by
  have hMax := ((reduceCounted_eq_error_iff t a limit).mp h).1
  refine ⟨(eventsOfSteps 0 t a).map Event.entry, ?_, ?_⟩
  · rw [reduceLog, reduceEvents_of_error h, List.map_append, ← hMax]
    rfl
  · have hEntries : Event.entry ∘ Event.delayed a = Entry.delayed a ∘ Event.entry :=
      funext fun e => e.entry_delayed a
    rw [reduceLog, reduceEvents_add_of_error h, List.map_append, List.map_map, hEntries, reduceLog, List.map_map]

end Term

end NamedLambda
